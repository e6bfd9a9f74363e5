import RookLang.Text.Unprintable

/-! Text as it is quoted in messages: between double quotes, with every character that could
not be read back or not be seen replaced by an escape. -/
namespace RookLang.Text

/-- The characters whose escape is a single letter or sign after the backslash. -/
def shortEscape? : Char → Option Char
  | '\x00' => some '0'
  | '\t' => some 't'
  | '\r' => some 'r'
  | '\n' => some 'n'
  | '"' => some '"'
  | '\\' => some '\\'
  | _ => none

/-- The code point in lower-case hexadecimal, without leading zeros, between braces. -/
def numberEscape (c : Char) : List Char :=
  '\\' :: 'u' :: '\x7b' :: Nat.toDigits 16 c.toNat ++ ['\x7d']

def escape (c : Char) : List Char :=
  match shortEscape? c with
  | some e => ['\\', e]
  | none => if isUnprintable c then numberEscape c else [c]

def quoted (text : String) : String :=
  String.ofList ('"' :: text.toList.flatMap escape ++ ['"'])

end RookLang.Text
