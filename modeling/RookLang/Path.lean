/-! Paths as text. Components are separated by slashes. -/
namespace RookLang.Path

def isAbsolute (path : String) : Bool := path.toList.head? = some '/'

/-- Attach `name` to a directory. A name that starts at the root stands for itself. -/
def join (directory name : String) : String :=
  if isAbsolute name then name
  else if directory.toList.isEmpty || directory.toList.getLast? = some '/' then directory ++ name
  else directory ++ "/" ++ name

/-- The texts between slashes, empty ones too. -/
def names (path : String) : List String := (path.toList.splitOn '/').map String.ofList

/-- The names that say something: no empty ones, and no single dots. -/
def components (path : String) : List String :=
  (names path).filter fun name => name != "" && name != "."

/-- A path and the shorter and shorter paths of what it lies in, down to the root or to what a
relative path starts at. -/
def ancestors (path : String) : List String :=
  let dot := if (names path).head? = some "." then ["."] else []
  let parts := dot ++ components path
  let root := if isAbsolute path then "/" else ""
  let shorter := (List.range parts.length).map fun n => root ++ "/".intercalate (parts.take n)
  (path :: shorter.reverse).filter (· != "")

/-- The last component, unless it is the way up. -/
def fileName? (path : String) : Option String :=
  (components path).getLast?.filter (· != "..")

/-- A file name cut at its last point; a point at the start cuts nothing. -/
def cutName (name : String) : String × Option String :=
  let tail := (name.toList.reverse.takeWhile (· != '.')).reverse
  let stem := name.toList.take (name.length - tail.length - 1)
  if stem = [] then (name, none) else (String.ofList stem, some (String.ofList tail))

def stem? (path : String) : Option String := (fileName? path).map (cutName · |>.1)

def extension? (path : String) : Option String := (fileName? path).bind (cutName · |>.2)

end RookLang.Path
