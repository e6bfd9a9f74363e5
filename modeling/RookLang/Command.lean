import RookLang.CommandLine
import RookLang.Diagnostic
import RookLang.FileSystem
import RookLang.SourceFile
import RookLang.Table

/-! The commands: what they print and save for a source file. -/
namespace RookLang

/-- What is said on the error stream besides what is logged. -/
inductive Complaint where
  | silent
  | text (line : String)
  /-- The command line has no meaning. -/
  | usage
  | fault (file : String) (source : List Char) (d : Diagnostic)
  deriving DecidableEq, Repr

/-- How a command ends. The log is written to the error stream, too. -/
structure Outcome where
  exit : Nat
  output : String
  complaint : Complaint
  log : List LogEvent
  deriving DecidableEq, Repr

namespace Outcome

def success (output : String) : Outcome := ⟨0, output, .silent, []⟩

def failure (line : String) : Outcome := ⟨1, "", .text line, []⟩

/-- A source text is refused after `output` has been printed. -/
def refusal (output file : String) (source : List Char) (d : Diagnostic) : Outcome :=
  ⟨1, output, .fault file source d, []⟩

def usageError : Outcome := ⟨2, "", .usage, []⟩

end Outcome

def versionLine : String := "rook 0.1.0\n"

def helpText : String :=
  "Usage: rook [FILE]\n" ++
    "       rook check <FILE>\n" ++
    "       rook tokens <FILE> [--save] [--out-dir <DIR>] [--json] [-q | --quiet]\n" ++
    "       rook parse <FILE> [--tokens]\n"

namespace Command

section

variable {m : Type → Type} [Monad m] (os : OperatingSystem m)

/-- Read a source file and go on with its text. -/
def withSource (file : String) (next : List Char → m Outcome) : m Outcome := do
  match ← SourceFile.read os file with
  | .ok text => next text.toList
  | .error fault => return .failure (fault.message file)

/-- Read a source file and go on with its text and tokens. -/
def withTokens (file : String) (next : List Char → TokenStream → m Outcome) : m Outcome :=
  withSource os file fun source =>
    match lex source with
    | .ok stream => next source stream
    | .error e => return .refusal "" file source (.lexical e)

def parsed (statements : Nat) : String :=
  "Parsing successful (" ++ toString statements ++ " statements)\n"

def checkFile (file : String) : m Outcome :=
  withSource os file fun source =>
    match checkSource source with
    | .ok n => return .success (parsed n)
    | .error d => return .refusal "" file source d

/-- What is printed of a table. A JSON table is printed with a line end of its own. -/
def shown (s : Table.Settings) (table : Table.Rendered) : String :=
  let text := if s.echo then table.text ++ (if s.format = .json then "\n" else "") else ""
  match table.savedTo with
  | some path => text ++ "Token table saved to " ++ path ++ "\n"
  | none => text

def tokensFile (file : String) (s : Table.Settings) : m Outcome :=
  withTokens os file fun _ stream => do
    match ← Table.emit os stream ((Path.stem? file).getD "tokens") s with
    | .ok table => return ⟨0, shown s table, .silent, table.log⟩
    | .error e => return .failure e.message

def parseFile (file : String) (showTokens : Bool) : m Outcome :=
  withTokens os file fun source stream =>
    let table := if showTokens then Table.render stream .ascii else ""
    match RookLang.parse stream with
    | .ok n => return .success (table ++ parsed n)
    | .error e => return .refusal table file source (.syntactic e)

end

def settings (environment directory : Option String) (save json quiet : Bool) :
    Table.Settings :=
  let standard := Table.Settings.ofEnvironment environment
  { directory := directory.getD standard.directory
    echo := !quiet
    save := save
    format := if json then .json else .ascii }

end Command

section

variable {m : Type → Type} [Monad m] (os : OperatingSystem m) (environment : Option String)

/-- Carry out a parsed command line. `environment` is the directory that the environment sets for
tables. -/
def Cli.execute (cli : Cli) : m Outcome :=
  match cli.command with
  | some (.check file) => Command.checkFile os file
  | some (.tokens file directory save json quiet) =>
    Command.tokensFile os file (Command.settings environment directory save json quiet)
  | some (.parse file showTokens) => Command.parseFile os file showTokens
  | none =>
    match cli.file with
    | some file => Command.checkFile os file
    | none => return .failure "Usage: rook <FILE> (see `rook --help`)"

def Invocation.answer : Invocation → m Outcome
  | run cli => cli.execute os environment
  | version => return .success versionLine
  | help => return .success helpText
  | usageError => return .usageError

end

/-- Run the words of a command line on a file system. -/
def runCommandLine (environment : Option String) (words : List String) (fs : FileSystem) :
    FileSystem × Outcome :=
  ((Invocation.ofWords words).answer FileSystem.operatingSystem environment fs).swap

end RookLang
