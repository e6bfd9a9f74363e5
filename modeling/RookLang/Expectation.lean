import RookLang.Terminal

/-! What the grammar can miss, in words. -/
namespace RookLang

inductive Expectation where
  | statement
  | unexpectedKeyword (k : Keyword)
  | unexpectedIndentation
  | unmatchedUnindent
  | statementEnd
  | endOfInput
  | identifier
  | assignmentOrCall
  | targetAfterComma
  | declarationAssign
  | builtinParen (b : Builtin)
  | separatorAssign
  | separatorText
  /-- The colon after the condition of `if`, `elif` or `while`. -/
  | conditionColon (k : Keyword)
  /-- The colon after `else` or `default`. -/
  | wordColon (k : Keyword)
  | whichSubject
  | whichColon
  | loopVariable
  | secondLoopVariable
  | loopIn
  | iterable
  | loopColon
  | functionName
  | functionParen
  | parametersColon
  | blockNewline
  | blockIndent
  | blockEnd
  | clausesIndent
  | clausesEnd
  | instancePattern
  | instanceColon
  | inAfterNot
  | expression
  | closing (g : Group)
  | rangeStart
  | elementAfterComma
  /-- The number after `to` or `step`. -/
  | rangeNumber (k : Keyword)
  /-- No more levels of nesting. -/
  | shallowNesting (limit : Nat)
  deriving DecidableEq, Repr

def Expectation.message : Expectation → String
  | statement => "Expected statement"
  | unexpectedKeyword k => "Unexpected keyword '" ++ k.spelling ++ "'"
  | unexpectedIndentation => "Unexpected indentation"
  | unmatchedUnindent => "Unindent does not match any outer indentation level"
  | statementEnd => "Expected newline at the end of the statement"
  | endOfInput => "Expected end of input"
  | identifier => "Expected identifier"
  | assignmentOrCall => "Expected '=', a compound assignment or '(' after identifier"
  | targetAfterComma => "Expected identifier after ','"
  | declarationAssign => "Expected '=' in declaration"
  | builtinParen b => "Expected '(' after '" ++ b.spelling ++ "'"
  | separatorAssign => "Expected '=' after 'separator'"
  | separatorText => "Expected string value for 'separator'"
  | conditionColon k => "Expected ':' after " ++ k.spelling ++ " condition"
  | wordColon k => "Expected ':' after '" ++ k.spelling ++ "'"
  | whichSubject => "Expected identifier after 'which'"
  | whichColon => "Expected ':' after which subject"
  | loopVariable => "Expected loop variable after 'for'"
  | secondLoopVariable => "Expected second loop variable after ','"
  | loopIn => "Expected 'in' in for loop"
  | iterable => "Expected array or identifier after 'in'"
  | loopColon => "Expected ':' after for clause"
  | functionName => "Expected function name after 'define'"
  | functionParen => "Expected '(' after function name"
  | parametersColon => "Expected ':' after parameter list"
  | blockNewline => "Expected newline after ':'"
  | blockIndent => "Expected an indented block"
  | blockEnd => "Expected end of block"
  | clausesIndent => "Expected an indented block of instance clauses"
  | clausesEnd => "Expected 'instance', 'default' or end of which block"
  | instancePattern => "Expected number or string after 'instance'"
  | instanceColon => "Expected ':' after instance pattern"
  | inAfterNot => "Expected 'in' after 'not'"
  | expression => "Expected expression"
  | closing .paren => "Expected closing parenthesis ')'"
  | closing .bracket => "Expected closing bracket ']'"
  | rangeStart => "Expected range start before 'to'"
  | elementAfterComma => "Expected expression after ','"
  | rangeNumber k => "Expected number after '" ++ k.spelling ++ "'"
  | shallowNesting limit => "Nesting is too deep (maximum " ++ toString limit ++ " levels)"

end RookLang
