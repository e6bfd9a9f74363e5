import RookLang.Vocabulary
import RookLang.Location

/-! Tokens: a kind, its text, and the place it was read from. -/
namespace RookLang

inductive Kind where
  | identifier | keyword | boolean | number | float | string | builtin
  | operator (o : Operator)
  | punctuation (p : Punctuation)
  | indent | dedent | newline | endOfInput
  deriving DecidableEq, Repr

namespace Kind

def all : List Kind :=
  [identifier, keyword, boolean, number, float, string, builtin] ++
    Operator.all.map operator ++ Punctuation.all.map punctuation ++
    [indent, dedent, newline, endOfInput]

theorem mem_all (k : Kind) : k ∈ all := by
  cases k with
  | operator o => simp [all, Operator.mem_all]
  | punctuation p => simp [all, Punctuation.mem_all]
  | _ => decide

/-- The name of the kind in token tables. -/
def tag : Kind → String
  | identifier => "IDENTIFIER"
  | keyword => "KEYWORD"
  | boolean => "BOOLEAN_LITERAL"
  | number => "NUMBER"
  | float => "FLOAT"
  | string => "STRING"
  | builtin => "BUILT_IN_FUNCTION"
  | operator .plus => "PLUS"
  | operator .minus => "MINUS"
  | operator .multiply => "MULTIPLY"
  | operator .divide => "DIVIDE"
  | operator .modulo => "MODULO"
  | operator .greater => "GREATER"
  | operator .less => "LESS"
  | operator .greaterOrEqual => "GREATEROREQUAL"
  | operator .lessOrEqual => "LESSOREQUAL"
  | operator .equal => "EQUAL"
  | operator .notEqual => "NOTEQUAL"
  | operator .assign => "ASSIGN"
  | operator .plusAssign => "PLUSASSIGN"
  | operator .minusAssign => "MINUSASSIGN"
  | operator .multiplyAssign => "MULTIPLYASSIGN"
  | operator .divideAssign => "DIVIDEASSIGN"
  | operator .and => "AND"
  | operator .or => "OR"
  | operator .not => "NOT"
  | punctuation .dot => "DOT"
  | punctuation .comma => "COMMA"
  | punctuation .colon => "COLON"
  | punctuation .leftParen => "LPAREN"
  | punctuation .rightParen => "RPAREN"
  | punctuation .leftBracket => "LBRACKET"
  | punctuation .rightBracket => "RBRACKET"
  | indent => "INDENT"
  | dedent => "DEDENT"
  | newline => "NEWLINE"
  | endOfInput => "EOF"

def ofTag? (text : String) : Option Kind := all.find? (·.tag == text)

def operator? : Kind → Option Operator
  | operator o => some o
  | _ => none

def isRelational (k : Kind) : Bool := k.operator?.any (·.isRelational)

def isCompoundAssignment (k : Kind) : Bool := k.operator?.any (·.isCompoundAssignment)

def isLiteral : Kind → Bool
  | number | float | string | boolean => true
  | _ => false

/-- The literals that an `instance` clause may name. -/
def isInstancePattern (k : Kind) : Bool := k.isLiteral && k != boolean

/-- Kinds that come from the shape of a text and have no text of their own. -/
def isLayout : Kind → Bool
  | newline | indent | dedent | endOfInput => true
  | _ => false

end Kind

structure Token where
  kind : Kind
  /-- The characters as written; empty for layout. -/
  lexeme : String
  line : Nat
  /-- The column of the first character. -/
  column : Nat
  /-- The line the token stands on, without its comments. -/
  lineText : String
  /-- The indentation of that line. -/
  indentLevel : Nat
  deriving DecidableEq, Repr

namespace Token

/-- The column after the last character. -/
def endColumn (t : Token) : Nat := t.column + t.lexeme.length

def location (t : Token) : Location := ⟨t.line, t.column, t.lineText, max t.lexeme.length 1⟩

def locationAfter (t : Token) : Location := ⟨t.line, t.endColumn, t.lineText, 1⟩

/-- The reserved word of a keyword token; none if its text is no reserved word. -/
def keyword? (t : Token) : Option Keyword :=
  if t.kind = .keyword then Keyword.ofSpelling? t.lexeme else none

def builtin? (t : Token) : Option Builtin :=
  if t.kind = .builtin then Builtin.ofSpelling? t.lexeme else none

/-- How messages name the token. -/
def describe (t : Token) : String :=
  match t.kind with
  | .newline => "end of line"
  | .endOfInput => "end of input"
  | .indent => "indentation"
  | .dedent => "end of block"
  | _ => "'" ++ t.lexeme ++ "'"

end Token

/-- Tokens in the order of their text. Tokens join at the end and leave at the front. -/
structure TokenStream where
  toList : List Token
  deriving DecidableEq, Repr

namespace TokenStream

def empty : TokenStream := ⟨[]⟩

def isEmpty (s : TokenStream) : Bool := s.toList.isEmpty

def length (s : TokenStream) : Nat := s.toList.length

def push (s : TokenStream) (t : Token) : TokenStream := ⟨s.toList ++ [t]⟩

def peek? (s : TokenStream) : Option Token := s.toList.head?

/-- The front token and the stream without it. -/
def advance (s : TokenStream) : Option Token × TokenStream := (s.toList.head?, ⟨s.toList.tail⟩)

def kinds (s : TokenStream) : List Kind := s.toList.map (·.kind)

def lexemes (s : TokenStream) : List String := s.toList.map (·.lexeme)

end TokenStream

end RookLang
