import RookLang.Location
import RookLang.Text.Quoted

/-! Why a source text cannot be cut into tokens. -/
namespace RookLang

/-- Why a lexeme cannot go on, or cannot end, where it does. -/
inductive Malformed where
  | underscoreAtEnd
  | secondPoint
  | letterAfterNumber
  | digitMissing
  | juxtaposedOperators
  | loneBang
  | longOperator
  deriving DecidableEq, Repr

def Malformed.reason : Malformed → String
  | underscoreAtEnd => "identifier cannot end with '_'"
  | secondPoint => "number has more than one decimal point"
  | letterAfterNumber => "number cannot be followed by a letter"
  | digitMissing => "decimal point must be followed by a digit"
  | juxtaposedOperators => "operators cannot be juxtaposed"
  | loneBang => "'!' must be followed by '='"
  | longOperator => "operators are at most two characters long"

namespace LexError

inductive Cause where
  /-- The width of an indentation that is no whole number of levels. -/
  | indentation (width : Nat)
  /-- A character that starts no lexeme. -/
  | unexpectedCharacter (c : Char)
  | invalidLexeme (why : Malformed)
  | unterminatedString
  | unterminatedComment
  | unknownOperator
  deriving DecidableEq, Repr

/-- The advice that goes with some causes. -/
def Cause.help? : Cause → Option String
  | indentation _ => some "indent with multiples of 4 spaces (a tab counts as 4)"
  | unterminatedString => some "strings must close with '\"' on the same line"
  | unterminatedComment => some "close block comments with '*/'"
  | unexpectedCharacter _ | invalidLexeme _ | unknownOperator => none

end LexError

structure LexError where
  cause : LexError.Cause
  /-- What had been read of the lexeme. -/
  lexeme : String
  location : Location
  deriving DecidableEq, Repr

namespace LexError

/-- The cause in words. -/
def summary (e : LexError) : String :=
  match e.cause with
  | .indentation width =>
    "inconsistent indentation on line " ++ toString e.location.line ++ ": width " ++
      toString width ++ " is not a multiple of 4"
  | .unexpectedCharacter c => "unexpected character '" ++ String.singleton c ++ "'"
  | .invalidLexeme why => "invalid lexeme: " ++ why.reason
  | .unterminatedString => "unterminated string"
  | .unterminatedComment => "unterminated block comment"
  | .unknownOperator => "unknown operator"

def message (e : LexError) : String :=
  e.summary ++ " at line " ++ toString e.location.line ++ " near " ++ Text.quoted e.lexeme

end LexError

end RookLang
