/-! The character classes of the rook language. Letters and digits are ASCII only, and only spaces
and tabs separate lexemes or indent a line. -/
namespace RookLang.Character

/-- The width of one level of indentation. -/
def indentUnit : Nat := 4

/-- The columns that a leading character adds to an indentation; a tab adds a whole level. -/
def indentWidth? : Char → Option Nat
  | ' ' => some 1
  | '\t' => some indentUnit
  | _ => none

def isGap (c : Char) : Bool := (indentWidth? c).isSome

def isLetter (c : Char) : Bool := c.isAlpha

def isDigit (c : Char) : Bool := c.isDigit

def operatorChars : List Char := ['+', '-', '*', '/', '%', '>', '<', '=']

def isOperator (c : Char) : Bool := operatorChars.contains c

/-- Only whole levels of indentation are allowed. -/
def isAligned (width : Nat) : Bool := width % indentUnit == 0

/-- The Unicode property White_Space, which decides where a line is blank or ends. -/
def isBlank (c : Char) : Bool :=
  let n := c.toNat
  (0x09 ≤ n && n ≤ 0x0D) || n == 0x20 || n == 0x85 || n == 0xA0 || n == 0x1680 ||
    (0x2000 ≤ n && n ≤ 0x200A) || n == 0x2028 || n == 0x2029 || n == 0x202F ||
    n == 0x205F || n == 0x3000

theorem isBlank_of_isGap {c : Char} (h : isGap c) : isBlank c := by
  unfold isGap indentWidth? at h
  split at h <;> first | rfl | contradiction

end RookLang.Character
