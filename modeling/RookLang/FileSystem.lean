import RookLang.OperatingSystem
import RookLang.Path

/-! A file system without links, as far as programs that read one file and write another can see
it. -/
namespace RookLang

/-- What a place in the file system holds. -/
inductive Entry where
  | file (content : ByteArray)
  | directory

/-- The names from the root to a place. -/
abbrev Place := List String

structure FileSystem where
  /-- The root is a directory and is not listed. Earlier entries hide later ones. -/
  entries : List (Place × Entry)
  /-- Where relative paths start. -/
  working : Place

namespace FileSystem

def entry? (fs : FileSystem) (p : Place) : Option Entry :=
  if p = [] then some .directory else fs.entries.lookup p

def put (fs : FileSystem) (p : Place) (e : Entry) : FileSystem :=
  { fs with entries := (p, e) :: fs.entries.filter (·.1 != p) }

def isDirectoryAt (fs : FileSystem) (p : Place) : Bool :=
  match fs.entry? p with
  | some .directory => true
  | _ => false

/-- The bytes that a name may have. -/
def nameLimit : Nat := 255

/-- Find `name` in the directory `p`. -/
def child (fs : FileSystem) (p : Place) (name : String) : Except OsError Place :=
  if nameLimit < name.utf8ByteSize then .error .nameTooLong
  else if (fs.entry? (p ++ [name])).isSome then .ok (p ++ [name])
  else .error .notFound

/-- Follow names from `p`. Every name, an empty one too, is looked up in a directory. -/
def walk (fs : FileSystem) (p : Place) : List String → Except OsError Place
  | [] => .ok p
  | name :: names =>
    if !fs.isDirectoryAt p then .error .notDirectory
    else if name = "" ∨ name = "." then walk fs p names
    else if name = ".." then walk fs p.dropLast names
    else match fs.child p name with
      | .ok q => walk fs q names
      | .error e => .error e

/-- The bytes that a path may have. -/
def pathLimit : Nat := 4095

/-- Follow `names`, which are names of `path`, from where the path starts. -/
def follow (fs : FileSystem) (path : String) (names : List String) : Except OsError Place :=
  if path = "" then .error .notFound
  else if pathLimit < path.utf8ByteSize then .error .nameTooLong
  else fs.walk (if Path.isAbsolute path then [] else fs.working) names

/-- The place that a path names. -/
def resolve (fs : FileSystem) (path : String) : Except OsError Place :=
  fs.follow path (Path.names path)

/-- What a path names. -/
def find (fs : FileSystem) (path : String) : Except OsError Entry :=
  match fs.resolve path with
  | .ok p => match fs.entry? p with
    | some e => .ok e
    | none => .error .notFound
  | .error e => .error e

def isDirectory (fs : FileSystem) (path : String) : Bool :=
  match fs.find path with
  | .ok .directory => true
  | _ => false

/-- The directory that holds the last name of `names`. -/
def parentOf (fs : FileSystem) (path : String) (names : List String) : Except OsError Place :=
  fs.follow path (names.dropLast ++ ["."])

/-- Make one directory in an existing one. -/
def makeDirectory (fs : FileSystem) (path : String) : Except OsError FileSystem := do
  let names := Path.names path |>.reverse.dropWhile (· == "") |>.reverse
  let p ← fs.parentOf path names
  match names.getLast? with
  | none => .error .exists_
  | some name =>
    if name = "." ∨ name = ".." then .error .exists_
    else match fs.child p name with
      | .ok _ => .error .exists_
      | .error .notFound => .ok (fs.put (p ++ [name]) .directory)
      | .error e => .error e

/-- Make a directory and all that it lies in. What was made before an error stays. -/
def makeDirectories (path : String) : StateM FileSystem (Except OsError Unit) :=
  makeChain
    (fun path fs =>
      match fs.makeDirectory path with
      | .ok fs => (.ok (), fs)
      | .error e => (.error e, fs))
    (fun path fs => (fs.isDirectory path, fs))
    (Path.ancestors path)

/-- Write a file into an existing directory, over a file of that name. -/
def write (fs : FileSystem) (path : String) (content : ByteArray) : Except OsError FileSystem := do
  let names := Path.names path
  let p ← fs.parentOf path names
  match names.getLast? with
  | none | some "" | some "." | some ".." => .error .isDirectory
  | some name =>
    let put : Except OsError FileSystem := .ok (fs.put (p ++ [name]) (.file content))
    match fs.child p name with
    | .ok q => if fs.isDirectoryAt q then .error .isDirectory else put
    | .error .notFound => put
    | .error e => .error e

/-- A file system as an operating system that refuses nothing else. -/
def operatingSystem : OperatingSystem (StateM FileSystem) where
  metadata path fs :=
    (fs.find path |>.map fun
      | .file content => ⟨true, content.size⟩
      | .directory => ⟨false, 0⟩, fs)
  read path fs :=
    (fs.find path >>= fun
      | .file content => .ok content
      | .directory => .error .isDirectory, fs)
  createDirectories := makeDirectories
  write path content fs :=
    match fs.write path content with
    | .ok fs => (.ok (), fs)
    | .error e => (.error e, fs)

end FileSystem

end RookLang
