import RookLang.Character
import RookLang.OperatingSystem
import RookLang.Path
import RookLang.Table.Ascii
import RookLang.Table.Json

/-! Token tables: their formats, and where they are shown and saved. -/
namespace RookLang

/-- What is logged of a run. What is logged only on demand, below the level of information, is left
out. -/
inductive LogEvent where
  | savedTable (path : String) (tokens : Nat)
  deriving DecidableEq, Repr

namespace Table

inductive Format where
  | ascii | json
  deriving DecidableEq, Repr

def render (stream : TokenStream) : Format → String
  | .ascii => ascii stream
  | .json => json stream

/-- What is done with a table. -/
structure Settings where
  /-- The directory of saved tables. -/
  directory : String
  /-- Whether the table is printed. -/
  echo : Bool
  save : Bool
  format : Format
  deriving DecidableEq, Repr

namespace Settings

def standard : Settings := ⟨"rookie-tables", true, false, .ascii⟩

/-- The standard settings, with the directory that the environment names, unless it is blank. -/
def ofEnvironment (directory : Option String) : Settings :=
  match directory with
  | some d =>
    if d.toList.all Character.isBlank then standard else { standard with directory := d }
  | none => standard

/-- Where a table is saved under the name `stem`. -/
def tablePath (s : Settings) (stem : String) : String := Path.join s.directory (stem ++ ".rtable")

end Settings

/-- The path at which a table could not be saved, and why. -/
structure SaveError where
  path : String
  source : OsError
  deriving DecidableEq, Repr

def SaveError.message (e : SaveError) : String :=
  "failed to write token table '" ++ e.path ++ "': " ++ e.source.message

/-- The text of a table, and where it was saved, if anywhere. -/
structure Rendered where
  text : String
  savedTo : Option String
  log : List LogEvent
  deriving DecidableEq, Repr

/-- Render the table of a stream and save it under the name `stem` if the settings say so. -/
def emit {m : Type → Type} [Monad m] (os : OperatingSystem m) (stream : TokenStream)
    (stem : String) (s : Settings) : m (Except SaveError Rendered) := do
  let text := render stream s.format
  if s.save then
    match ← os.createDirectories s.directory with
    | .error e => return .error ⟨s.directory, e⟩
    | .ok () =>
      let path := s.tablePath stem
      match ← os.write path text.toUTF8 with
      | .error e => return .error ⟨path, e⟩
      | .ok () => return .ok ⟨text, some path, [.savedTable path stream.length]⟩
  else return .ok ⟨text, none, []⟩

end Table

end RookLang
