/-! The command line: what its words ask for. Words are read from the left, and the first one that
has no meaning, or that asks for the version or for help, decides. -/
namespace RookLang

/-- What is done with a source file. -/
inductive Command where
  | check (file : String)
  | tokens (file : String) (directory : Option String) (save json quiet : Bool)
  | parse (file : String) (showTokens : Bool)
  deriving DecidableEq, Repr

/-- A parsed command line: a command, if any, and the file that stands before it or alone. -/
structure Cli where
  command : Option Command
  file : Option String
  deriving DecidableEq, Repr

/-- What the words of a command line ask for. -/
inductive Invocation where
  | run (cli : Cli)
  | version
  | help
  | usageError
  deriving DecidableEq, Repr

inductive Subcommand where
  | check | tokens | parse | help
  deriving DecidableEq, Repr

def Subcommand.ofWord? : String → Option Subcommand
  | "check" => some check
  | "tokens" => some tokens
  | "parse" => some parse
  | "help" => some help
  | _ => none

/-- The options that some commands take. -/
inductive CommandOption where
  | save | outDir | json | quiet | tokens
  deriving DecidableEq, Repr

namespace CommandOption

def name : CommandOption → String
  | save => "save"
  | outDir => "out-dir"
  | json => "json"
  | quiet => "quiet"
  | tokens => "tokens"

def letter? : CommandOption → Option Char
  | quiet => some 'q'
  | _ => none

end CommandOption

def Subcommand.options : Subcommand → List CommandOption
  | check | help => []
  | tokens => [.save, .outDir, .json, .quiet]
  | parse => [.tokens]

/-- The shapes of words. -/
inductive Word where
  /-- Two dashes and nothing else. -/
  | endOfOptions
  /-- Two dashes, a name, and a value if there is an equals sign. -/
  | long (name : String) (value : Option String)
  /-- A dash and at least one letter. -/
  | short (letters : List Char)
  | plain (text : String)
  deriving DecidableEq, Repr

def Word.ofText (text : String) : Word :=
  match text.toList with
  | ['-', '-'] => endOfOptions
  | '-' :: '-' :: rest =>
    let value := rest.dropWhile (· != '=')
    long (String.ofList (rest.takeWhile (· != '=')))
      (if value = [] then none else some (String.ofList value.tail))
  | '-' :: letter :: letters => short (letter :: letters)
  | _ => plain text

/-- What the words after a subcommand have given so far. -/
structure Given where
  file : Option String
  directory : Option String
  options : List CommandOption
  /-- The last word was an option whose value is still to come. -/
  awaitsValue : Bool
  /-- No more options are read. -/
  onlyFiles : Bool
  deriving DecidableEq, Repr

namespace Given

def nothing : Given := ⟨none, none, [], false, false⟩

/-- One file is read, and its name is not empty. -/
def addFile (g : Given) (text : String) : Except Invocation Given :=
  if g.file.isSome || text == "" then .error .usageError else .ok { g with file := some text }

def addDirectory (g : Given) (text : String) : Except Invocation Given :=
  if text = "" then .error .usageError
  else .ok { g with directory := some text, awaitsValue := false }

/-- Each option is given at most once. -/
def addOption (g : Given) (o : CommandOption) : Except Invocation Given :=
  if g.options.contains o then .error .usageError else .ok { g with options := o :: g.options }

def readLong (allowed : List CommandOption) (g : Given) (name : String) :
    Option String → Except Invocation Given
  | none =>
    if name = "help" then .error .help
    else match allowed.find? (·.name == name) with
      | some .outDir => return { ← g.addOption .outDir with awaitsValue := true }
      | some o => g.addOption o
      | none => .error .usageError
  | some value =>
    match allowed.find? (·.name == name) with
    | some .outDir => do (← g.addOption .outDir).addDirectory value
    | _ => .error .usageError

def readLetter (allowed : List CommandOption) (g : Given) (letter : Char) :
    Except Invocation Given :=
  if letter = 'h' then .error .help
  else match allowed.find? (·.letter? == some letter) with
    | some o => g.addOption o
    | none => .error .usageError

def readWord (allowed : List CommandOption) (g : Given) (text : String) :
    Except Invocation Given :=
  if g.onlyFiles then g.addFile text
  else match Word.ofText text, g.awaitsValue with
    | .plain text, true => g.addDirectory text
    | _, true => .error .usageError
    | .endOfOptions, false => .ok { g with onlyFiles := true }
    | .long name value, false => g.readLong allowed name value
    | .short letters, false => letters.foldlM (readLetter allowed) g
    | .plain text, false => g.addFile text

end Given

/-- The command of complete words. -/
def Command.ofGiven? (s : Subcommand) (g : Given) : Option Command :=
  match g.awaitsValue, g.file, s with
  | false, some file, .check => some (check file)
  | false, some file, .tokens =>
    some (tokens file g.directory (g.options.contains .save) (g.options.contains .json)
      (g.options.contains .quiet))
  | false, some file, .parse => some (parse file (g.options.contains .tokens))
  | _, _, _ => none

namespace Invocation

/-- Help is given about the program or about one subcommand, and there are none below those. -/
def ofHelpWords : List String → Invocation
  | [] => help
  | [only] => if (Subcommand.ofWord? only).isSome then help else usageError
  | _ => usageError

/-- Read the words after a subcommand, before which `file` stands. -/
def ofSubcommand (file : Option String) (s : Subcommand) (words : List String) : Invocation :=
  if s = .help then ofHelpWords words
  else match words.foldlM (Given.readWord s.options) .nothing with
    | .error decided => decided
    | .ok g =>
      match Command.ofGiven? s g with
      | some c => run ⟨some c, file⟩
      | none => usageError

def ofFiles (file : Option String) (words : List String) : Invocation :=
  match words.foldlM Given.addFile { Given.nothing with file := file } with
  | .error decided => decided
  | .ok g => run ⟨none, g.file⟩

/-- What a cluster of letters asks for outside all subcommands; its first letter decides. -/
def ofLetters : List Char → Invocation
  | 'V' :: _ => version
  | 'h' :: _ => help
  | _ => usageError

/-- Read the words after `file`. -/
def ofWordsAfter (file : Option String) : List String → Invocation
  | [] => ofFiles file []
  | text :: words =>
    match Subcommand.ofWord? text, Word.ofText text with
    | some s, _ => ofSubcommand file s words
    | none, .endOfOptions => ofFiles file words
    | none, .long "version" none => version
    | none, .long "help" none => help
    | none, .long _ _ => usageError
    | none, .short letters => ofLetters letters
    | none, .plain text =>
      if file.isSome || text == "" then usageError else ofWordsAfter (some text) words

def ofWords (words : List String) : Invocation := ofWordsAfter none words

end Invocation

end RookLang
