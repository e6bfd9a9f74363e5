import RookLang.Proofs.Recogniser

/-! The predictive table of the grammar: what each rule does with each terminal. -/
namespace RookLang.Rule

/-- A rule that takes the lookahead or refuses it; the list is owed after it. -/
abbrev Start := Option Terminal → Except Expectation (List (Goal Rule))

def Start.followedBy (s : Start) (goals : List (Goal Rule)) : Start :=
  fun next => (s next).map (· ++ goals)

def Start.react (s : Start) (next : Option Terminal) : Reaction Rule :=
  match s next with
  | .ok goals => .take goals
  | .error missing => .refuse missing

def startValue : Start
  | some (.plain .identifier) => .ok [.rule .call]
  | some (.plain (.punctuation .leftBracket)) => .ok arrayElements
  | some (.plain (.punctuation .leftParen)) => .ok (grouped .paren [.rule .expression])
  | next => if next.any (·.isLiteral) then .ok [] else .error .expression

def startSigned : Start := fun next =>
  if next.any (·.isSum) then .ok [.rule .value] else startValue next

def startProduct : Start := startSigned.followedBy [.rule .moreFactors]

def startSum : Start := startProduct.followedBy [.rule .moreProducts]

def startComparison : Start := startSum.followedBy [.rule .moreComparisons]

def startNegation : Start := fun next =>
  if next = some (.op .not) then .ok [.rule .comparison] else startComparison next

def startConjunction : Start := startNegation.followedBy [.rule .secondNegation]

def startExpression : Start := startConjunction.followedBy [.rule .moreConjunctions]

def startStatement : Start
  | some (.word k) => startKeyword k
  | some (.builtin b) => .ok (builtinCall b ++ [.rule .statementEnd])
  | some (.plain .identifier) => .ok [.rule .identifierUse, .rule .statementEnd]
  | some (.plain .builtin) => .error .identifier
  | some (.plain .indent) => .error .unexpectedIndentation
  | some (.plain .dedent) => .error .unmatchedUnindent
  | some (.plain _) | none => .error .statement

def startAssignedValue : Start
  | some (.builtin .input) => .ok (builtinCall .input)
  | next => startExpression next

/-- The `separator` argument of `print` is its last one. -/
def startPrintArgument : Start
  | some (.word .separator) =>
    .ok [.need (.op .assign) .separatorAssign, .need (.plain .string) .separatorText]
  | next => startExpression.followedBy [.rule .morePrintArguments] next

def startInstancePattern : Start := fun next =>
  if next.any (·.isInstancePattern) then .ok [] else .error .instancePattern

/-- The clauses end with the block of `which`; `default` comes last. -/
def startClauses : Start
  | some (.word .instance_) =>
    .ok (.rule .instanceGuard :: colonBlock .instanceColon ++ [.rule .clauses])
  | some (.word .default) =>
    .ok (colonBlock (.wordColon .default) ++ [.need (.plain .dedent) .clausesEnd])
  | some (.plain .dedent) => .ok []
  | _ => .error .clausesEnd

def startIdentifierUse : Start := fun next =>
  match next with
  | some (.plain (.operator .assign)) => .ok [.rule .assignedValue, .rule .moreAssignedValues]
  | some (.plain (.punctuation .comma)) =>
    .ok [.need identifier .targetAfterComma, .rule .moreTargets]
  | some (.plain (.punctuation .leftParen)) => .ok callArguments
  | _ =>
    if next.any (·.isCompoundAssignment) then .ok [.rule .expression]
    else .error .assignmentOrCall

def startMoreTargets : Start
  | some (.plain (.punctuation .comma)) =>
    .ok [.need identifier .targetAfterComma, .rule .moreTargets]
  | some (.plain (.operator .assign)) => .ok [.rule .assignedValue, .rule .moreAssignedValues]
  | _ => .error .declarationAssign

def startIterable : Start
  | some (.plain (.punctuation .leftBracket)) => .ok arrayElements
  | some (.plain .identifier) => .ok []
  | _ => .error .iterable

/-- Owe `goals` after a lookahead that `wanted` accepts; leave any other. -/
def takeIf (next : Option Terminal) (wanted : Terminal → Bool) (goals : List (Goal Rule)) :
    Reaction Rule :=
  if next.any wanted then .take goals else .pass

def afterComma (next : Option Terminal) (goals : List (Goal Rule)) : Reaction Rule :=
  takeIf next (· == .sign .comma) goals

/-- The predictive table of the grammar. -/
def react : Grammar Rule := fun next r =>
  match r with
  | .program =>
    match next with
    | none => .pass
    | some (.plain .endOfInput) => .take []
    | _ => (startStatement.followedBy [.tally, .rule .program]).react next
  | .statements =>
    if next.all (·.endsBlock) then .pass
    else (startStatement.followedBy [.rule .statements]).react next
  | .statement => startStatement.react next
  | .statementEnd =>
    if next = some (.plain .newline) then .take []
    else if next.all (·.endsLine) then .pass
    else .refuse .statementEnd
  | .returnedValue => if next.all (·.endsLine) then .pass else startExpression.react next
  | .identifierUse => startIdentifierUse.react next
  | .moreTargets => startMoreTargets.react next
  | .assignedValue => startAssignedValue.react next
  | .moreAssignedValues => afterComma next [.rule .assignedValue, .rule .moreAssignedValues]
  | .printArguments =>
    if next = some (.sign .rightParen) then .pass else startPrintArgument.react next
  | .printArgument => startPrintArgument.react next
  | .morePrintArguments => afterComma next [.rule .printArgument]
  | .arguments =>
    if next = some (.sign .rightParen) then .pass
    else (startExpression.followedBy [.rule .moreArguments]).react next
  | .moreArguments => afterComma next [.rule .arguments]
  | .branches =>
    match next with
    | some (.word .elif) =>
      .take (.rule .expression :: colonBlock (.conditionColon .elif) ++ [.rule .branches])
    | some (.word .else_) => .take (colonBlock (.wordColon .else_))
    | _ => .pass
  | .clauses => startClauses.react next
  | .instanceGuard =>
    if next.any (·.isRelational) then .take [.rule .instancePattern]
    else startInstancePattern.react next
  | .instancePattern => startInstancePattern.react next
  | .secondLoopVariable => afterComma next [.need identifier .secondLoopVariable]
  | .iterable => startIterable.react next
  | .parameters =>
    takeIf next (· == identifier)
      [.rule .parameterDefault, .allow (.sign .comma), .rule .parameters]
  | .parameterDefault => takeIf next (· == .op .assign) [.rule .expression]
  | .expression => startExpression.react next
  | .moreConjunctions => takeIf next (·.isJunction) [.rule .conjunction, .rule .moreConjunctions]
  | .conjunction => startConjunction.react next
  | .secondNegation => takeIf next (· == .op .and) [.rule .negation]
  | .negation => startNegation.react next
  | .comparison => startComparison.react next
  | .moreComparisons =>
    if next = some (.op .not) then
      .take [.need (.word .in_) .inAfterNot, .rule .sum, .rule .moreComparisons]
    else takeIf next (·.isComparison) [.rule .sum, .rule .moreComparisons]
  | .sum => startSum.react next
  | .moreProducts => takeIf next (·.isSum) [.rule .product, .rule .moreProducts]
  | .product => startProduct.react next
  | .moreFactors => takeIf next (·.isProduct) [.rule .signed, .rule .moreFactors]
  | .signed => startSigned.react next
  | .value => startValue.react next
  | .call => takeIf next (· == .sign .leftParen) callArguments
  | .elements =>
    match next with
    | some (.plain (.punctuation .rightBracket)) => .pass
    | some (.word .to_) => .refuse .rangeStart
    | _ => (startExpression.followedBy [.rule .moreElements]).react next
  | .moreElements =>
    match next with
    | some (.plain (.punctuation .comma)) => .take [.rule .laterElement]
    | some (.word .to_) => .take [.need (.plain .number) (.rangeNumber .to_), .rule .rangeStep]
    | _ => .pass
  | .laterElement =>
    match next with
    | some (.plain (.punctuation .rightBracket)) => .pass
    | some (.word .to_) => .refuse .elementAfterComma
    | _ => (startExpression.followedBy [.rule .moreElements]).react next
  | .rangeStep =>
    takeIf next (· == .word .step)
      [.allow (.sign .colon), .need (.plain .number) (.rangeNumber .step)]

theorem Start.react_ne_pass {s : Start} {next : Option Terminal} : s.react next ≠ .pass := by
  unfold Start.react
  split <;> nofun

/-- After the last terminal no rule takes one. -/
theorem react_none_ne_take (r : Rule) (body : List (Goal Rule)) : react none r ≠ .take body := by
  intro hb
  cases r <;> cases hb

end RookLang.Rule
