import RookLang.OperatingSystem
import RookLang.Path

/-! Source files: which files are read as programs. -/
namespace RookLang

/-- Why a file is not read. -/
inductive SourceFault where
  | extension
  | inaccessible (e : OsError)
  | notFile
  | tooLarge (size : Nat)
  | unreadable (e : OsError)
  | notText
  deriving DecidableEq, Repr

namespace SourceFile

/-- The bytes that a source file may have. -/
def sizeLimit : Nat := 10 * 1024 * 1024

def hasExtension (path : String) : Bool := Path.extension? path == some "rook"

def decode (content : ByteArray) : Except SourceFault String :=
  match String.fromUTF8? content with
  | some text => .ok text
  | none => .error .notText

/-- Read a source file. A file that is too large is refused unread. -/
def read {m : Type → Type} [Monad m] (os : OperatingSystem m) (path : String) :
    m (Except SourceFault String) := do
  if !hasExtension path then return .error .extension
  else match ← os.metadata path with
    | .error e => return .error (.inaccessible e)
    | .ok found =>
      if !found.isFile then return .error .notFile
      else if sizeLimit < found.size then return .error (.tooLarge found.size)
      else match ← os.read path with
        | .error e => return .error (.unreadable e)
        | .ok content => return decode content

end SourceFile

def SourceFault.message (path : String) : SourceFault → String
  | extension => "Source file '" ++ path ++ "' must have the .rook extension"
  | inaccessible e => "Cannot access file '" ++ path ++ "': " ++ e.message
  | notFile => "'" ++ path ++ "' is not a file"
  | tooLarge size =>
    "Source file '" ++ path ++ "' is too large (" ++ toString size ++ " bytes, max " ++
      toString SourceFile.sizeLimit ++ " bytes)"
  | unreadable e => "Error reading file '" ++ path ++ "': " ++ e.message
  | notText => "Error reading file '" ++ path ++ "': stream did not contain valid UTF-8"

end RookLang
