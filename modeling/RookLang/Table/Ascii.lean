import RookLang.Token

/-! Token tables for reading: two columns between rules, as wide as their widest cell. -/
namespace RookLang.Table

/-- A row of the table. -/
structure Row where
  token : String
  lexeme : String
  deriving DecidableEq, Repr

def heading : Row := ⟨"TOKEN", "LEXEME"⟩

def Row.ofToken (t : Token) : Row := ⟨t.kind.tag, t.lexeme⟩

/-- The characters that each column needs. -/
structure Widths where
  token : Nat
  lexeme : Nat
  deriving DecidableEq, Repr

def Widths.cover (w : Widths) (r : Row) : Widths :=
  ⟨max w.token r.token.length, max w.lexeme r.lexeme.length⟩

def Widths.ofRows (rows : List Row) : Widths := rows.foldl Widths.cover ⟨0, 0⟩

def repeated (c : Char) (n : Nat) : String := String.ofList (List.replicate n c)

def rule (w : Widths) : String :=
  "+" ++ repeated '-' (w.token + 2) ++ "+" ++ repeated '-' (w.lexeme + 2) ++ "+\n"

/-- A cell, filled up with spaces to `width`. -/
def cell (width : Nat) (text : String) : String :=
  " " ++ text ++ repeated ' ' (width - text.length + 1) ++ "|"

def Row.line (w : Widths) (r : Row) : String :=
  "|" ++ cell w.token r.token ++ cell w.lexeme r.lexeme ++ "\n"

/-- The table of a stream, one row for each token. -/
def ascii (stream : TokenStream) : String :=
  let rows := stream.toList.map Row.ofToken
  let widths := Widths.ofRows (heading :: rows)
  rule widths ++ heading.line widths ++ rule widths ++
    String.join (rows.map (·.line widths)) ++ rule widths

end RookLang.Table
