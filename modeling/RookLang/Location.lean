import RookLang.Text.Lines

/-! Places in a source text, as messages show them. -/
namespace RookLang

/-- Some columns of one line. Lines and columns count from one. -/
structure Location where
  line : Nat
  column : Nat
  /-- The line as it is shown. -/
  lineText : String
  /-- How many columns are marked; none counts as one. -/
  length : Nat
  deriving DecidableEq, Repr

/-- A run of bytes of a text in its UTF-8 form. -/
structure Span where
  offset : Nat
  length : Nat
  deriving DecidableEq, Repr

namespace Location

def spaces (n : Nat) : String := String.ofList (List.replicate n ' ')

/-- The name of the file, then the line with carets under the marked columns. -/
def excerpt (l : Location) (file : String) : String :=
  let number := toString l.line
  let margin := "  " ++ spaces number.length ++ " |"
  "  --> " ++ file ++ ":" ++ number ++ ":" ++ toString l.column ++ "\n" ++
    margin ++ "\n" ++
    "  " ++ number ++ " | " ++ l.lineText ++ "\n" ++
    margin ++ " " ++ spaces (l.column - 1) ++ String.ofList (List.replicate (max l.length 1) '^')

/-- The bytes of `source` that the location marks, cut off at the end of the line. A line that the
source does not have is its end. -/
def span (l : Location) (source : List Char) : Span :=
  let pieces := Text.pieces source
  match if l.line = 0 then none else pieces[l.line - 1]? with
  | none => ⟨Text.utf8Length source, 0⟩
  | some piece =>
    let body := Text.dropReturns piece
    let start := (pieces.take (l.line - 1)).foldl (fun n p => n + Text.utf8Length p + 1) 0
    ⟨start + Text.utf8Length (body.take (l.column - 1)),
      Text.utf8Length ((body.drop (l.column - 1)).take (max l.length 1))⟩

end Location

end RookLang
