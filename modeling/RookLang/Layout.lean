import RookLang.Comment
import RookLang.Lexeme

/-! From source text to tokens. Every line that holds code gives its lexemes; its indentation is
turned into tokens against the line of code before it. -/
namespace RookLang

/-- A line of code, read. -/
structure CodeLine where
  /-- Counted from one over all lines, blank ones too. -/
  number : Nat
  text : String
  /-- The width of the indentation. -/
  width : Nat
  /-- The column of the first character that is no indentation. -/
  start : Nat
  lexemes : List Lexeme
  /-- The column after the last character that is not blank. -/
  finish : Nat
  /-- Whether a line feed ends the line. -/
  terminated : Bool
  deriving DecidableEq, Repr

namespace Layout

/-- The spaces and tabs that a line starts with. -/
def leading (text : List Char) : List Char := text.takeWhile Character.isGap

/-- The width of leading spaces and tabs. -/
def width (leading : List Char) : Nat :=
  leading.foldl (fun w c => w + (Character.indentWidth? c).getD 0) 0

/-- The number of characters up to the last one that is not blank. -/
def inkLength (text : List Char) : Nat := (text.reverse.dropWhile Character.isBlank).length

/-- The error at a fault of line `number`. -/
def errorAt (number : Nat) (text : List Char) (f : Lexeme.Fault) : LexError :=
  ⟨f.cause, String.ofList f.lexeme, ⟨number, f.column, String.ofList text, f.length⟩⟩

/-- Measure the indentation of a line, then read its lexemes. -/
def readLine (line : Text.Line) : Except LexError CodeLine :=
  let lead := leading line.text
  let w := width lead
  if !Character.isAligned w then
    .error (errorAt line.number line.text ⟨.indentation w, lead, 1, false⟩)
  else match Lexeme.scan (lead.length + 1) (line.text.drop lead.length) with
    | .error f => .error (errorAt line.number line.text f)
    | .ok lexemes =>
      .ok ⟨line.number, String.ofList line.text, w, lead.length + 1, lexemes,
        inkLength line.text + 1, line.terminated⟩

def isCode (line : Text.Line) : Bool := !line.text.all Character.isBlank

/-- The lines of code of a text without comments. -/
def codeLines (text : List Char) : Except LexError (List CodeLine) :=
  ((Text.lines text).filter isCode).mapM readLine

/-- How many levels close when the indentation falls from `old` to `new`: one for each unit, and
one for a rest that is less than a unit. -/
def dedentCount (old new : Nat) : Nat :=
  if new < old then dedentCount (old - Character.indentUnit) new + 1 else 0
termination_by old
decreasing_by simp only [Character.indentUnit]; omega

end Layout

namespace CodeLine

def token (l : CodeLine) (kind : Kind) (lexeme : String) (column : Nat) : Token :=
  ⟨kind, lexeme, l.number, column, l.text, l.width⟩

/-- The levels that open or close before the line, given the width of the line before it. One level
opens however much wider the line is. -/
def opening (l : CodeLine) (before : Nat) : List Token :=
  if before < l.width then [l.token .indent "" l.start]
  else List.replicate (Layout.dedentCount before l.width) (l.token .dedent "" l.start)

def body (l : CodeLine) : List Token :=
  l.lexemes.map fun x => l.token x.kind (String.ofList x.text) x.column

def ending (l : CodeLine) : List Token :=
  if l.terminated then [l.token .newline "" l.finish] else []

/-- What follows the line if it is the last one of code. -/
def closing (l : CodeLine) : List Token :=
  List.replicate (Layout.dedentCount l.width 0) (l.token .dedent "" l.finish) ++
    [l.token .endOfInput "" l.finish]

def tokens (l : CodeLine) (before : Nat) : List Token := l.opening before ++ l.body ++ l.ending

end CodeLine

namespace Layout

/-- What ends the tokens of a text. -/
def closing (lines : List CodeLine) : List Token :=
  match lines.getLast? with
  | some l => l.closing
  | none => [⟨.endOfInput, "", 1, 1, "", 0⟩]

/-- The tokens of all lines, each line set against the one before it. -/
def tokens (lines : List CodeLine) : List Token :=
  (lines.zip (0 :: lines.map (·.width))).flatMap (fun (l, before) => l.tokens before) ++
    closing lines

end Layout

/-- The error at a block comment that opens at `p` and stays open. -/
def LexError.unclosedComment (source : List Char) (p : Comment.Position) : LexError :=
  ⟨.unterminatedComment, "/*", ⟨p.line, p.column, String.ofList (Text.shownLine source p.line), 2⟩⟩

/-- The tokens of a text that has no comments. -/
def lexStripped (text : List Char) : Except LexError TokenStream :=
  (Layout.codeLines text).map fun lines => ⟨Layout.tokens lines⟩

/-- The tokens of a source text, or its first error. A comment that stays open is an error before
all others. -/
def lex (source : List Char) : Except LexError TokenStream :=
  match Comment.strip source with
  | .error p => .error (.unclosedComment source p)
  | .ok text => lexStripped text

end RookLang
