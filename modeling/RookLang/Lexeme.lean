import RookLang.Character
import RookLang.LexError
import RookLang.Token

/-! The lexemes of one line. A scanner reads the line character by character and keeps the lexeme
that is open; a character that cannot join it closes it and is read once more. -/
namespace RookLang

/-- The kind of a word: reserved words first, then truth values, operators and builtins. -/
def Kind.ofWord (text : String) : Kind :=
  if (Keyword.ofSpelling? text).isSome then .keyword
  else if (boolean? text).isSome then .boolean
  else match Operator.ofSpelling? text with
    | some o => .operator o
    | none => if (Builtin.ofSpelling? text).isSome then .builtin else .identifier

/-- A number with a point is a float. -/
def Kind.ofNumber (text : List Char) : Kind := if text.contains '.' then .float else .number

structure Lexeme where
  kind : Kind
  text : List Char
  /-- The column of the first character. -/
  column : Nat
  deriving DecidableEq, Repr

namespace Lexeme

/-- How the open lexeme may go on. -/
inductive Run where
  | word
  /-- A word after an underscore, which a letter or digit must follow. -/
  | underscore
  | number
  /-- A number after its point, which a digit must follow. -/
  | fraction
  | operator
  /-- An exclamation mark, which only starts `!=`. -/
  | bang
  /-- An operator of two signs. -/
  | compound
  | string
  deriving DecidableEq, Repr

structure Open where
  run : Run
  /-- What has been read, latest character first. -/
  read : List Char
  column : Nat
  deriving DecidableEq, Repr

namespace Open

def text (o : Open) : List Char := o.read.reverse

def add (o : Open) (run : Run) (c : Char) : Open := ⟨run, c :: o.read, o.column⟩

def close (o : Open) (kind : Kind) : Lexeme := ⟨kind, o.text, o.column⟩

end Open

/-- A fault of a line, before the line is known. -/
structure Fault where
  cause : LexError.Cause
  lexeme : List Char
  column : Nat
  /-- Whether the character after the lexeme is at fault too. -/
  withNext : Bool
  deriving DecidableEq, Repr

/-- The columns that the fault marks. -/
def Fault.length (f : Fault) : Nat := max (f.lexeme.length + f.withNext.toNat) 1

def Open.fault (o : Open) (cause : LexError.Cause) (withNext : Bool) : Fault :=
  ⟨cause, o.text, o.column, withNext⟩

structure Scanner where
  /-- The column of the next character. -/
  column : Nat
  pending : Option Open
  /-- The lexemes so far, latest first. -/
  closed : List Lexeme
  deriving DecidableEq, Repr

namespace Scanner

def startingAt (column : Nat) : Scanner := ⟨column, none, []⟩

def grow (s : Scanner) (o : Open) : Scanner := ⟨s.column + 1, some o, s.closed⟩

/-- Add a lexeme that ends before the next character. -/
def emit (s : Scanner) (l : Lexeme) : Scanner := ⟨s.column, none, l :: s.closed⟩

def skip (s : Scanner) : Scanner := { s with column := s.column + 1 }

/-- Close an operator, if there is one with these signs. -/
def emitOperator (s : Scanner) (o : Open) : Except Fault Scanner :=
  match Operator.ofSymbol? (String.ofList o.text) with
  | some op => .ok (s.emit (o.close (.operator op)))
  | none => .error (o.fault .unknownOperator false)

/-- Read a character while no lexeme is open. -/
def start (s : Scanner) (c : Char) : Except Fault Scanner :=
  let opened run : Except Fault Scanner := .ok (s.grow ⟨run, [c], s.column⟩)
  if Character.isGap c then .ok s.skip
  else match Punctuation.ofChar? c with
    | some p => .ok (s.emit ⟨.punctuation p, [c], s.column⟩).skip
    | none =>
      if Character.isLetter c then opened .word
      else if Character.isDigit c then opened .number
      else if Character.isOperator c then opened .operator
      else if c = '!' then opened .bang
      else if c = '"' then opened .string
      else .error ⟨.unexpectedCharacter c, [c], s.column, false⟩

/-- What one step made of a character: it was read, or it closed a lexeme and is still to be
read. -/
inductive Step where
  | taken (s : Scanner)
  | handedBack (s : Scanner)
  deriving DecidableEq, Repr

/-- Read a character into the open lexeme, or close the lexeme before it. -/
def extend (s : Scanner) (o : Open) (c : Char) : Except Fault Step :=
  let grown run : Except Fault Step := .ok (.taken (s.grow (o.add run c)))
  let closed kind : Except Fault Step := .ok (.handedBack (s.emit (o.close kind)))
  let malformed why : Except Fault Step := .error (o.fault (.invalidLexeme why) true)
  match o.run with
  | .word =>
    if Character.isLetter c || Character.isDigit c then grown .word
    else if c = '_' then grown .underscore
    else closed (.ofWord (String.ofList o.text))
  | .underscore =>
    if c = '_' then grown .underscore
    else if Character.isLetter c || Character.isDigit c then grown .word
    else malformed .underscoreAtEnd
  | .number =>
    if Character.isDigit c then grown .number
    else if c = '.' then
      if o.read.contains '.' then malformed .secondPoint else grown .fraction
    else if Character.isLetter c then malformed .letterAfterNumber
    else closed (.ofNumber o.text)
  | .fraction => if Character.isDigit c then grown .number else malformed .digitMissing
  | .operator =>
    if c = '=' then grown .compound
    else if Character.isOperator c then malformed .juxtaposedOperators
    else (s.emitOperator o).map .handedBack
  | .bang => if c = '=' then grown .compound else malformed .loneBang
  | .compound =>
    if c = '=' then malformed .longOperator else (s.emitOperator o).map .handedBack
  | .string =>
    if c = '"' then .ok (.taken (s.emit ((o.add .string c).close .string)).skip)
    else grown .string

def step (s : Scanner) (c : Char) : Except Fault Step :=
  match s.pending with
  | none => (s.start c).map .taken
  | some o => s.extend o c

/-- Read one character. One that is handed back meets no open lexeme the second time. -/
def feed (s : Scanner) (c : Char) : Except Fault Scanner := do
  match ← s.step c with
  | .taken s => return s
  | .handedBack s => s.start c

/-- Close what is open at the end of the line. -/
def finish (s : Scanner) : Except Fault Scanner :=
  match s.pending with
  | none => .ok s
  | some o =>
    match o.run with
    | .word => .ok (s.emit (o.close (.ofWord (String.ofList o.text))))
    | .number => .ok (s.emit (o.close (.ofNumber o.text)))
    | .operator | .compound => s.emitOperator o
    | .underscore => .error (o.fault (.invalidLexeme .underscoreAtEnd) false)
    | .fraction => .error (o.fault (.invalidLexeme .digitMissing) false)
    | .bang => .error (o.fault (.invalidLexeme .loneBang) false)
    | .string => .error (o.fault .unterminatedString false)

theorem pending_of_handedBack {s t : Scanner} {c : Char} (h : s.step c = .ok (.handedBack t)) :
    t.pending = none := by
  unfold step at h
  split at h
  · cases hs : s.start c <;> simp [hs, Except.map] at h
  · rename_i o _
    have closed {u : Except Fault Scanner} (hu : u = s.emitOperator o)
        (h : u.map Step.handedBack = .ok (.handedBack t)) : t.pending = none := by
      subst hu
      unfold emitOperator at h
      split at h <;> simp [Except.map] at h
      simp [← h, emit]
    unfold extend at h
    simp only at h
    split at h <;> (repeat' split at h) <;> first
      | exact closed rfl h
      | (simp at h; done)
      | (simp at h; simp [← h, emit])

end Scanner

/-- The lexemes of `text`, whose first character stands in `column`. -/
def scan (column : Nat) (text : List Char) : Except Fault (List Lexeme) := do
  let s ← text.foldlM Scanner.feed (.startingAt column)
  let s ← s.finish
  return s.closed.reverse

end Lexeme

end RookLang
