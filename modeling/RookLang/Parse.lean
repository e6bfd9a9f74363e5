import RookLang.Grammar
import RookLang.Layout

/-! Parsing of whole programs, with the place of the first fault. -/
namespace RookLang

/-- The depth of nested brackets and blocks that programs may have. -/
def nestingLimit : Nat := 64

/-- The number of statements of a program outside all blocks. All its tokens have to be taken. -/
def Parser.parse (limit : Option Nat) (tokens : List Token) : Except Failure Nat :=
  match (start tokens).run react limit [.rule .program] tokens with
  | .ok (p, []) => .ok p.statements
  | .ok (p, t :: ts) => .error ⟨p.error (some t) .endOfInput, t :: ts⟩
  | .error failure => .error failure

def parseWithin (limit : Option Nat) (stream : TokenStream) : Except SyntaxError Nat :=
  (Parser.parse limit stream.toList).mapError (·.error)

def parse (stream : TokenStream) : Except SyntaxError Nat := parseWithin (some nestingLimit) stream

end RookLang
