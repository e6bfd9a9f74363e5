/-! The operating system as a program sees it that reads files, makes directories and writes
files. -/
namespace RookLang

inductive OsError where
  | notFound | exists_ | notDirectory | isDirectory | nameTooLong
  /-- Any other error, with its number. -/
  | other (description : String) (code : Nat)
  deriving DecidableEq, Repr

namespace OsError

def description : OsError → String
  | notFound => "No such file or directory"
  | exists_ => "File exists"
  | notDirectory => "Not a directory"
  | isDirectory => "Is a directory"
  | nameTooLong => "File name too long"
  | other description _ => description

def code : OsError → Nat
  | notFound => 2
  | exists_ => 17
  | notDirectory => 20
  | isDirectory => 21
  | nameTooLong => 36
  | other _ code => code

def message (e : OsError) : String :=
  e.description ++ " (os error " ++ toString e.code ++ ")"

end OsError

/-- What can be known of a file without reading it. -/
structure Metadata where
  isFile : Bool
  size : Nat
  deriving DecidableEq, Repr

/-- Calls of the operating system. The state that they work on, and when they fail, is theirs. -/
structure OperatingSystem (m : Type → Type) where
  metadata (path : String) : m (Except OsError Metadata)
  read (path : String) : m (Except OsError ByteArray)
  /-- Make a directory and all that it lies in, as far as they are missing. -/
  createDirectories (path : String) : m (Except OsError Unit)
  /-- Write a file into an existing directory, over a file of that name. -/
  write (path : String) (content : ByteArray) : m (Except OsError Unit)

/-- Make the first of `paths`, each of which lies in the one after it, and for that the others as
far as they are missing. A directory that is there already will do. -/
def makeChain {m : Type → Type} [Monad m] (make : String → m (Except OsError Unit))
    (isDirectory : String → m Bool) : List String → m (Except OsError Unit)
  | [] => return .ok ()
  | path :: above => do
    let accept (e : OsError) : m (Except OsError Unit) := do
      return if ← isDirectory path then .ok () else .error e
    match ← make path with
    | .ok () => return .ok ()
    | .error .notFound =>
      match ← makeChain make isDirectory above with
      | .error e => return .error e
      | .ok () =>
        match ← make path with
        | .ok () => return .ok ()
        | .error e => accept e
    | .error e => accept e

end RookLang
