import RookLang.Token

/-! What can be asked of the next token. -/
namespace RookLang

/-- A reserved word, a builtin, or a kind. -/
inductive Terminal where
  | word (k : Keyword)
  | builtin (b : Builtin)
  | plain (k : Kind)
  deriving DecidableEq, Repr

namespace Terminal

abbrev sign (p : Punctuation) : Terminal := .plain (.punctuation p)

abbrev op (o : Operator) : Terminal := .plain (.operator o)

end Terminal

/-- The two kinds of brackets. -/
inductive Group where
  | paren | bracket
  deriving DecidableEq, Repr

def Group.closer : Group → Terminal
  | paren => .sign .rightParen
  | bracket => .sign .rightBracket

end RookLang
