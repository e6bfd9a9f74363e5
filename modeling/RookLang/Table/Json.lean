import RookLang.Token

/-! Token tables for programs: a JSON list with one record for each token, indented by two
spaces. -/
namespace RookLang.Table

/-- The escape of a character that a JSON text cannot hold as it is. Controls without a letter of
their own are written by number. -/
def jsonEscape (c : Char) : List Char :=
  match c with
  | '"' => ['\\', '"']
  | '\\' => ['\\', '\\']
  | '\x08' => ['\\', 'b']
  | '\x0c' => ['\\', 'f']
  | '\n' => ['\\', 'n']
  | '\r' => ['\\', 'r']
  | '\t' => ['\\', 't']
  | c =>
    if c.toNat < 0x20 then
      ['\\', 'u', '0', '0', Nat.digitChar (c.toNat / 16), Nat.digitChar (c.toNat % 16)]
    else [c]

def jsonString (text : String) : String :=
  String.ofList ('"' :: text.toList.flatMap jsonEscape ++ ['"'])

/-- The fields of a record, in order, with their values as written. -/
def jsonFields (t : Token) : List (String × String) :=
  [("kind", jsonString t.kind.tag), ("lexeme", jsonString t.lexeme), ("line", toString t.line),
    ("column", toString t.column), ("indent_level", toString t.indentLevel)]

def jsonField (field : String × String) : String :=
  "    " ++ jsonString field.1 ++ ": " ++ field.2

def jsonRecord (t : Token) : String :=
  "  \x7b\n" ++ String.intercalate ",\n" ((jsonFields t).map jsonField) ++ "\n  \x7d"

def json (stream : TokenStream) : String :=
  match stream.toList with
  | [] => "[]"
  | tokens => "[\n" ++ String.intercalate ",\n" (tokens.map jsonRecord) ++ "\n]"

end RookLang.Table
