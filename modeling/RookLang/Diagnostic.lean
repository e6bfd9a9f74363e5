import RookLang.Parse

/-! What is reported about a source text that is no program. -/
namespace RookLang

/-- The first fault of a source text: lexical errors come before syntax errors. -/
inductive Diagnostic where
  | lexical (e : LexError)
  | syntactic (e : SyntaxError)
  deriving DecidableEq, Repr

namespace Diagnostic

def location : Diagnostic → Location
  | lexical e => e.location
  | syntactic e => e.location

/-- The stage that failed, and why. -/
def summary : Diagnostic → String
  | lexical e => "lexical error: " ++ e.summary
  | syntactic e => "syntax error: " ++ e.summary

def message : Diagnostic → String
  | lexical e => e.message
  | syntactic e => e.message

/-- The plain form: the summary, then the line with carets. -/
def render (d : Diagnostic) (file : String) : String :=
  d.summary ++ "\n" ++ d.location.excerpt file

end Diagnostic

/-- A diagnostic set against the bytes of its source. -/
structure Report where
  message : String
  /-- The word at the marked bytes. -/
  label : String
  help : Option String
  span : Span
  deriving DecidableEq, Repr

def Diagnostic.report (d : Diagnostic) (source : List Char) : Report where
  message := d.summary
  label := match d with
    | lexical _ => "here"
    | syntactic _ => "expected here"
  help := match d with
    | lexical e => e.cause.help?
    | syntactic _ => none
  span := d.location.span source

/-- The number of statements of a source text outside all blocks. -/
def checkSource (source : List Char) : Except Diagnostic Nat :=
  match lex source with
  | .error e => .error (.lexical e)
  | .ok tokens => (parse tokens).mapError .syntactic

end RookLang
