import RookLang.Parser

/-! The grammar of rook programs.

    program     := (statement)* EOF?
    statement   := simple end | compound
    simple      := print | input | pass | break | continue | return expression?
                 | IDENT "(" arguments ")" | IDENT compound-assign expression
                 | IDENT ("," IDENT)* "=" value ("," value)*
    compound    := if | which | while | for | define
    block       := NEWLINE INDENT statement* DEDENT
    expression  := conjunction (("and" | "or") conjunction)*
    conjunction := negation ("and" negation)?
    negation    := "not"? comparison
    comparison  := sum ((relational | "in" | "not" "in") sum)*
    sum         := product (("+" | "-") product)*
    product     := signed (("*" | "/" | "%") signed)*
    signed      := ("+" | "-")? value

A statement ends with NEWLINE, or before the end of its block or of the input. -/
namespace RookLang

namespace Kind

def isSum : Kind → Bool
  | .operator .plus | .operator .minus => true
  | _ => false

def isProduct : Kind → Bool
  | .operator .multiply | .operator .divide | .operator .modulo => true
  | _ => false

def isJunction : Kind → Bool
  | .operator .and | .operator .or => true
  | _ => false

end Kind

inductive Rule where
  | program
  /-- The statements of a block. -/
  | statements
  | statement
  | statementEnd
  | returnedValue
  /-- What follows the identifier that a statement starts with. -/
  | identifierUse
  /-- After a comma-separated target of a declaration. -/
  | moreTargets
  | assignedValue
  | moreAssignedValues
  | printArguments
  | printArgument
  | morePrintArguments
  | arguments
  | moreArguments
  /-- The `elif` and `else` branches that are left. -/
  | branches
  /-- The clauses of a `which` that are left, and its end. -/
  | clauses
  | instanceGuard
  | instancePattern
  | secondLoopVariable
  | iterable
  | parameters
  | parameterDefault
  | expression
  | moreConjunctions
  | conjunction
  | secondNegation
  | negation
  | comparison
  | moreComparisons
  | sum
  | moreProducts
  | product
  | moreFactors
  | signed
  | value
  /-- The arguments after an identifier, if it is called. -/
  | call
  | elements
  | moreElements
  /-- After a comma in an array. -/
  | laterElement
  | rangeStep
  deriving DecidableEq, Repr

/-- What a rule does first. -/
inductive Action where
  /-- Take the next token, and owe `next`. -/
  | take (next : List (Goal Rule))
  /-- Leave the next token to another rule, and owe `next` after that one. -/
  | call (r : Rule) (next : List (Goal Rule))
  /-- Leave it to the next goal. -/
  | pass
  | refuse (missing : Expectation)
  deriving DecidableEq, Repr

/-- Take the next token if it starts something, which is owed then. -/
def Action.ofStart : Except Expectation (List (Goal Rule)) → Action
  | .ok goals => take goals
  | .error missing => refuse missing

namespace Rule

abbrev identifier : Terminal := .plain .identifier

/-- The inside of brackets, and the closer. The opener was taken. -/
def grouped (g : Group) (inside : List (Goal Rule)) : List (Goal Rule) :=
  .openGroup g :: inside ++ [.closeGroup]

def callArguments : List (Goal Rule) := grouped .paren [.rule .arguments]

def arrayElements : List (Goal Rule) := grouped .bracket [.rule .elements]

def block : List (Goal Rule) :=
  [.need (.plain .newline) .blockNewline, .need (.plain .indent) .blockIndent, .enterBlock,
    .rule .statements, .need (.plain .dedent) .blockEnd, .leaveBlock]

def colonBlock (missing : Expectation) : List (Goal Rule) :=
  .need (.sign .colon) missing :: block

/-- The clauses of a `which`, after its colon. -/
def clauseBlock : List (Goal Rule) :=
  [.need (.plain .newline) .blockNewline, .need (.plain .indent) .clausesIndent, .rule .clauses]

/-- What a builtin owes after its name. -/
def builtinCall : Builtin → List (Goal Rule)
  | .print => .need (.sign .leftParen) (.builtinParen .print) ::
      grouped .paren [.rule .printArguments]
  | .input => .need (.sign .leftParen) (.builtinParen .input) ::
      grouped .paren [.allow (.plain .string)]

/-- What a reserved word owes at the start of a statement. -/
def startKeyword : Keyword → Except Expectation (List (Goal Rule))
  | .if_ => .ok (.rule .expression :: colonBlock (.conditionColon .if_) ++ [.rule .branches])
  | .while_ => .ok (.rule .expression :: colonBlock (.conditionColon .while_))
  | .for_ =>
    .ok ([.need identifier .loopVariable, .rule .secondLoopVariable, .need (.word .in_) .loopIn,
      .rule .iterable] ++ colonBlock .loopColon)
  | .define =>
    .ok ([.need identifier .functionName, .need (.sign .leftParen) .functionParen] ++
      grouped .paren [.rule .parameters] ++ colonBlock .parametersColon)
  | .which =>
    .ok ([.need identifier .whichSubject, .need (.sign .colon) .whichColon] ++ clauseBlock)
  | .pass | .break_ | .continue_ => .ok [.rule .statementEnd]
  | .return_ => .ok [.rule .returnedValue, .rule .statementEnd]
  | k => .error (.unexpectedKeyword k)

end Rule

namespace Parser
open Rule

/-- Owe `goals` after a token that is wanted; leave any other. -/
def takeIf (wanted : Bool) (goals : List (Goal Rule)) : Action :=
  if wanted then .take goals else .pass

/-! Statements. -/

/-- A call of a builtin, or what starts with an identifier. -/
def simpleStatement (p : Parser) (next : Option Token) : Action :=
  if checkBuiltin next .print then .take (builtinCall .print ++ [.rule .statementEnd])
  else if checkBuiltin next .input then .take (builtinCall .input ++ [.rule .statementEnd])
  else if p.check .identifier then .take [.rule .identifierUse, .rule .statementEnd]
  else .refuse .identifier

def statement (p : Parser) (next : Option Token) : Action :=
  match next with
  | none => .refuse .statement
  | some t =>
    match t.kind, t.keyword? with
    | .keyword, some k => .ofStart (startKeyword k)
    | .identifier, _ | .builtin, _ => p.simpleStatement next
    | .indent, _ => .refuse .unexpectedIndentation
    | .dedent, _ => .refuse .unmatchedUnindent
    | _, _ => .refuse .statement

def statementEnd (p : Parser) : Action :=
  if p.check .newline then .take [] else if p.atLineEnd then .pass else .refuse .statementEnd

def identifierUse (p : Parser) : Action :=
  if p.check (.operator .assign) then .take [.rule .assignedValue, .rule .moreAssignedValues]
  else if p.check (.punctuation .comma) then
    .take [.need identifier .targetAfterComma, .rule .moreTargets]
  else if p.checkAny (·.isCompoundAssignment) then .take [.rule .expression]
  else if p.check (.punctuation .leftParen) then .take callArguments
  else .refuse .assignmentOrCall

def moreTargets (p : Parser) : Action :=
  if p.check (.punctuation .comma) then
    .take [.need identifier .targetAfterComma, .rule .moreTargets]
  else if p.check (.operator .assign) then .take [.rule .assignedValue, .rule .moreAssignedValues]
  else .refuse .declarationAssign

/-- The `separator` argument of `print` is its last one. -/
def printArgument (next : Option Token) : Action :=
  if checkKeyword next .separator then
    .take [.need (.op .assign) .separatorAssign, .need (.plain .string) .separatorText]
  else .call .expression [.rule .morePrintArguments]

def branches (next : Option Token) : Action :=
  if checkKeyword next .elif then
    .take (.rule .expression :: colonBlock (.conditionColon .elif) ++ [.rule .branches])
  else takeIf (checkKeyword next .else_) (colonBlock (.wordColon .else_))

/-- The clauses end with the block of `which`; `default` comes last. -/
def clauses (p : Parser) (next : Option Token) : Action :=
  if checkKeyword next .instance_ then
    .take (.rule .instanceGuard :: colonBlock .instanceColon ++ [.rule .clauses])
  else if checkKeyword next .default then
    .take (colonBlock (.wordColon .default) ++ [.need (.plain .dedent) .clausesEnd])
  else if p.check .dedent then .take []
  else .refuse .clausesEnd

def iterable (p : Parser) : Action :=
  if p.check (.punctuation .leftBracket) then .take arrayElements
  else if p.check .identifier then .take []
  else .refuse .iterable

/-! Expressions. -/

/-- The operators of comparisons, `not` before `in` among them. -/
def moreComparisons (p : Parser) (next : Option Token) : Action :=
  if p.checkAny (·.isRelational) || checkKeyword next .in_ then
    .take [.rule .sum, .rule .moreComparisons]
  else takeIf (p.check (.operator .not))
    [.need (.word .in_) .inAfterNot, .rule .sum, .rule .moreComparisons]

def value (p : Parser) : Action :=
  if p.check .identifier then .take [.rule .call]
  else if p.checkAny (·.isLiteral) then .take []
  else if p.check (.punctuation .leftBracket) then .take arrayElements
  else if p.check (.punctuation .leftParen) then .take (grouped .paren [.rule .expression])
  else .refuse p.missingOperand

/-- An element of an array, its end, or a `to` that has nothing before it. -/
def element (p : Parser) (next : Option Token) (missing : Expectation) : Action :=
  if p.check (.punctuation .rightBracket) then .pass
  else if checkKeyword next .to_ then .refuse missing
  else .call .expression [.rule .moreElements]

def moreElements (p : Parser) (next : Option Token) : Action :=
  if p.check (.punctuation .comma) then .take [.rule .laterElement]
  else takeIf (checkKeyword next .to_)
    [.need (.plain .number) (.rangeNumber .to_), .rule .rangeStep]

/-- What a rule does before the next token. -/
def action (p : Parser) (next : Option Token) : Rule → Action
  | .program =>
    match p.current with
    | none => .pass
    | some .endOfInput => .take []
    | some _ => .call .statement [.tally, .rule .program]
  | .statements =>
    match p.current with
    | none | some .dedent | some .endOfInput => .pass
    | some _ => .call .statement [.rule .statements]
  | .statement => p.statement next
  | .statementEnd => p.statementEnd
  | .returnedValue => if p.atLineEnd then .pass else .call .expression []
  | .identifierUse => p.identifierUse
  | .moreTargets => p.moreTargets
  | .assignedValue =>
    if checkBuiltin next .input then .take (builtinCall .input) else .call .expression []
  | .moreAssignedValues =>
    takeIf (p.check (.punctuation .comma)) [.rule .assignedValue, .rule .moreAssignedValues]
  | .printArguments =>
    if p.check (.punctuation .rightParen) then .pass else .call .printArgument []
  | .printArgument => printArgument next
  | .morePrintArguments => takeIf (p.check (.punctuation .comma)) [.rule .printArgument]
  | .arguments =>
    if p.check (.punctuation .rightParen) then .pass
    else .call .expression [.rule .moreArguments]
  | .moreArguments => takeIf (p.check (.punctuation .comma)) [.rule .arguments]
  | .branches => branches next
  | .clauses => p.clauses next
  | .instanceGuard =>
    if p.checkAny (·.isRelational) then .take [.rule .instancePattern]
    else .call .instancePattern []
  | .instancePattern =>
    if p.checkAny (·.isInstancePattern) then .take [] else .refuse .instancePattern
  | .secondLoopVariable =>
    takeIf (p.check (.punctuation .comma)) [.need identifier .secondLoopVariable]
  | .iterable => p.iterable
  | .parameters =>
    takeIf (p.check .identifier)
      [.rule .parameterDefault, .allow (.sign .comma), .rule .parameters]
  | .parameterDefault => takeIf (p.check (.operator .assign)) [.rule .expression]
  | .expression => .call .conjunction [.rule .moreConjunctions]
  | .moreConjunctions =>
    takeIf (p.checkAny (·.isJunction)) [.rule .conjunction, .rule .moreConjunctions]
  | .conjunction => .call .negation [.rule .secondNegation]
  | .secondNegation => takeIf (p.check (.operator .and)) [.rule .negation]
  | .negation =>
    if p.check (.operator .not) then .take [.rule .comparison] else .call .comparison []
  | .comparison => .call .sum [.rule .moreComparisons]
  | .moreComparisons => p.moreComparisons next
  | .sum => .call .product [.rule .moreProducts]
  | .moreProducts => takeIf (p.checkAny (·.isSum)) [.rule .product, .rule .moreProducts]
  | .product => .call .signed [.rule .moreFactors]
  | .moreFactors => takeIf (p.checkAny (·.isProduct)) [.rule .signed, .rule .moreFactors]
  | .signed => if p.checkAny (·.isSum) then .take [.rule .value] else .call .value []
  | .value => p.value
  | .call => takeIf (p.check (.punctuation .leftParen)) callArguments
  | .elements => p.element next .rangeStart
  | .moreElements => p.moreElements next
  | .laterElement => p.element next .elementAfterComma
  | .rangeStep =>
    takeIf (checkKeyword next .step)
      [.allow (.sign .colon), .need (.plain .number) (.rangeNumber .step)]

end Parser

namespace Rule

/-- The rules that rules call, and what those owe after the call. -/
def calls : List (Rule × Rule × List (Goal Rule)) :=
  [(program, statement, [.tally, .rule program]), (statements, statement, [.rule statements]),
    (returnedValue, expression, []), (assignedValue, expression, []),
    (printArguments, printArgument, []), (printArgument, expression, [.rule morePrintArguments]),
    (arguments, expression, [.rule moreArguments]), (elements, expression, [.rule moreElements]),
    (laterElement, expression, [.rule moreElements]), (instanceGuard, instancePattern, []),
    (expression, conjunction, [.rule moreConjunctions]),
    (conjunction, negation, [.rule secondNegation]), (negation, comparison, []),
    (comparison, sum, [.rule moreComparisons]), (sum, product, [.rule moreProducts]),
    (product, signed, [.rule moreFactors]), (signed, value, [])]

/-- How far a rule is above those that decide on a token themselves. -/
def rank : Rule → Nat
  | program | statements | instanceGuard | signed => 1
  | product => 2
  | sum => 3
  | comparison => 4
  | negation => 5
  | conjunction => 6
  | expression => 7
  | returnedValue | assignedValue | printArgument | arguments | elements | laterElement => 8
  | printArguments => 9
  | _ => 0

/-- Calls go down in rank. -/
theorem rank_lt_of_mem_calls {r r' : Rule} {goals : List (Goal Rule)}
    (h : (r, r', goals) ∈ calls) : r'.rank < r.rank := by
  have hall : ∀ c ∈ calls, c.2.1.rank < c.1.rank := by decide
  exact hall _ h

end Rule

namespace Parser

variable {p : Parser} {next : Option Token} {r r' : Rule} {goals : List (Goal Rule)}

theorem mem_calls_of_action (h : p.action next r = .call r' goals) :
    (r, r', goals) ∈ Rule.calls := by
  cases r <;> simp only [action, statement, simpleStatement, statementEnd, identifierUse,
    moreTargets, printArgument, branches, clauses, iterable, moreComparisons, value, element,
    moreElements, takeIf, Action.ofStart] at h <;> (repeat' split at h) <;> cases h <;> decide

/-- What a rule does in the end, once the rules that it calls have decided. -/
def react (p : Parser) (next : Option Token) (r : Rule) : Reaction Rule :=
  match _h : p.action next r with
  | .take goals => .take goals
  | .call r' goals => (p.react next r').followedBy goals
  | .pass => .pass
  | .refuse missing => .refuse missing
termination_by r.rank
decreasing_by exact Rule.rank_lt_of_mem_calls (mem_calls_of_action ‹_›)

end Parser

end RookLang
