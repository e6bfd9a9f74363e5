/-! Physical lines. A line feed ends a line, and a text that ends in one has an empty last line. -/
namespace RookLang.Text

/-- The texts between line feeds; never empty. -/
def pieces (text : List Char) : List (List Char) := text.splitOn '\n'

/-- Drop one carriage return from the end. -/
def dropReturn (piece : List Char) : List Char :=
  if piece.getLast? = some '\r' then piece.dropLast else piece

/-- Drop every carriage return from the end. -/
def dropReturns (piece : List Char) : List Char :=
  (piece.reverse.dropWhile (· == '\r')).reverse

/-- A line of a source text. Only the last line is not `terminated` by a line feed. -/
structure Line where
  /-- Counted from one. -/
  number : Nat
  /-- The line without its end. -/
  text : List Char
  terminated : Bool
  deriving DecidableEq, Repr

def lines (text : List Char) : List Line :=
  let all := pieces text
  let last := all.length
  (all.zipIdx 1).map fun (piece, number) => ⟨number, dropReturn piece, number < last⟩

/-- The line that an editor shows under `number`: the end of a line is a line feed with at most
one carriage return before it, and a carriage return at the end of the text stays. -/
def shownLine (text : List Char) (number : Nat) : List Char :=
  let all := pieces text
  match all[number - 1]? with
  | some piece => if number < all.length then dropReturn piece else piece
  | none => []

/-- The number of bytes of the UTF-8 form. -/
def utf8Length (text : List Char) : Nat := text.foldl (fun n c => n + c.utf8Size) 0

theorem utf8Length_cons (c : Char) (text : List Char) :
    utf8Length (c :: text) = c.utf8Size + utf8Length text := by
  have shift : ∀ (cs : List Char) n, cs.foldl (fun n c => n + c.utf8Size) n =
      n + cs.foldl (fun n c => n + c.utf8Size) 0 := by
    intro cs
    induction cs with
    | nil => simp
    | cons d ds ih =>
      intro n
      rw [List.foldl_cons, List.foldl_cons, ih (n + _), ih (0 + _)]
      omega
  simpa [utf8Length] using shift text c.utf8Size

end RookLang.Text
