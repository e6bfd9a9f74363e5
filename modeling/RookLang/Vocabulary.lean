/-! The fixed words and signs of the rook language. Each table lists its entries in their published
order; a spelling names at most one entry over all tables. -/
namespace RookLang

/-- What a reserved word is for. -/
inductive Keyword.Category where
  | controlFlow | definition | imports | range | dispatch | argument
  deriving DecidableEq, Repr

/-- The reserved words. -/
inductive Keyword where
  | for_ | while_ | break_ | continue_ | in_ | define | return_ | if_ | elif | else_ | pass
  | import_ | from_ | to_ | step | which | instance_ | default | separator
  deriving DecidableEq, Repr

namespace Keyword

def all : List Keyword :=
  [for_, while_, break_, continue_, in_, define, return_, if_, elif, else_, pass,
    import_, from_, to_, step, which, instance_, default, separator]

def spelling : Keyword → String
  | for_ => "for"
  | while_ => "while"
  | break_ => "break"
  | continue_ => "continue"
  | in_ => "in"
  | define => "define"
  | return_ => "return"
  | if_ => "if"
  | elif => "elif"
  | else_ => "else"
  | pass => "pass"
  | import_ => "import"
  | from_ => "from"
  | to_ => "to"
  | step => "step"
  | which => "which"
  | instance_ => "instance"
  | default => "default"
  | separator => "separator"

def category : Keyword → Category
  | for_ | while_ | break_ | continue_ | in_ | if_ | elif | else_ | pass => .controlFlow
  | define | return_ => .definition
  | import_ | from_ => .imports
  | to_ | step => .range
  | which | instance_ | default => .dispatch
  | separator => .argument

/-- Words that start a statement with an indented body. -/
def opensBlock : Keyword → Bool
  | for_ | while_ | define | if_ | which => true
  | _ => false

def ofSpelling? (text : String) : Option Keyword :=
  all.find? (·.spelling == text)

theorem mem_all (k : Keyword) : k ∈ all := by cases k <;> decide

end Keyword

inductive Operator.Category where
  | arithmetic | comparison | assignment | logical
  deriving DecidableEq, Repr

/-- The operators, symbols first and words last. -/
inductive Operator where
  | plus | minus | multiply | divide | modulo
  | greater | less | greaterOrEqual | lessOrEqual | equal | notEqual
  | assign | plusAssign | minusAssign | multiplyAssign | divideAssign
  | and | or | not
  deriving DecidableEq, Repr

namespace Operator

def all : List Operator :=
  [plus, minus, multiply, divide, modulo, greater, less, greaterOrEqual, lessOrEqual, equal,
    notEqual, assign, plusAssign, minusAssign, multiplyAssign, divideAssign, and, or, not]

def spelling : Operator → String
  | plus => "+"
  | minus => "-"
  | multiply => "*"
  | divide => "/"
  | modulo => "%"
  | greater => ">"
  | less => "<"
  | greaterOrEqual => ">="
  | lessOrEqual => "<="
  | equal => "=="
  | notEqual => "!="
  | assign => "="
  | plusAssign => "+="
  | minusAssign => "-="
  | multiplyAssign => "*="
  | divideAssign => "/="
  | and => "and"
  | or => "or"
  | not => "not"

def category : Operator → Category
  | plus | minus | multiply | divide | modulo => .arithmetic
  | greater | less | greaterOrEqual | lessOrEqual | equal | notEqual => .comparison
  | assign | plusAssign | minusAssign | multiplyAssign | divideAssign => .assignment
  | and | or | not => .logical

/-- Operators that are spelled as a word. -/
def isWord (o : Operator) : Bool := o.category == .logical

def isRelational (o : Operator) : Bool := o.category == .comparison

def isCompoundAssignment (o : Operator) : Bool := o.category == .assignment && o != assign

def ofSpelling? (text : String) : Option Operator :=
  all.find? (·.spelling == text)

/-- Look up a spelling among the operators written with signs. -/
def ofSymbol? (text : String) : Option Operator :=
  (ofSpelling? text).filter (!·.isWord)

theorem mem_all (o : Operator) : o ∈ all := by cases o <;> decide

end Operator

inductive Punctuation.Category where
  | access | separator | delimiter
  deriving DecidableEq, Repr

inductive Punctuation where
  | dot | comma | colon | leftParen | rightParen | leftBracket | rightBracket
  deriving DecidableEq, Repr

namespace Punctuation

def all : List Punctuation :=
  [dot, comma, colon, leftParen, rightParen, leftBracket, rightBracket]

def char : Punctuation → Char
  | dot => '.'
  | comma => ','
  | colon => ':'
  | leftParen => '('
  | rightParen => ')'
  | leftBracket => '['
  | rightBracket => ']'

def spelling (p : Punctuation) : String := String.singleton p.char

def category : Punctuation → Category
  | dot => .access
  | comma | colon => .separator
  | leftParen | rightParen | leftBracket | rightBracket => .delimiter

def ofChar? (c : Char) : Option Punctuation := all.find? (·.char == c)

def ofSpelling? (text : String) : Option Punctuation :=
  match text.toList with
  | [c] => ofChar? c
  | _ => none

theorem mem_all (p : Punctuation) : p ∈ all := by cases p <;> decide

end Punctuation

/-- The functions that need no definition. -/
inductive Builtin where
  | print | input
  deriving DecidableEq, Repr

namespace Builtin

def all : List Builtin := [print, input]

def spelling : Builtin → String
  | print => "print"
  | input => "input"

def description : Builtin → String
  | print => "Write values to stdout, joined by an optional `separator`."
  | input => "Read a line from stdin after printing an optional prompt."

def ofSpelling? (text : String) : Option Builtin :=
  all.find? (·.spelling == text)

theorem mem_all (b : Builtin) : b ∈ all := by cases b <;> decide

end Builtin

/-- The two truth values, in their published order. -/
def booleanSpellings : List String := ["true", "false"]

def boolean? : String → Option Bool
  | "true" => some true
  | "false" => some false
  | _ => none

end RookLang
