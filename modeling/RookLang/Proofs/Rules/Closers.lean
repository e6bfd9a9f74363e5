import RookLang.Proofs.Rules.Words

/-! What goals and rules miss. No rule misses a closer, and a goal that needs one terminal misses
neither a closer nor an operand: only the end of a group does, and a rule that finds no operand. -/
namespace RookLang

def Expectation.isClosing : Expectation → Bool
  | closing _ => true
  | _ => false

namespace Rule

/-- Whatever the goal misses as the terminal that it needs, it is neither a closer nor an
operand. -/
def missesOther : Goal Rule → Bool
  | .need _ missing => !missing.isClosing && missing != .expression
  | _ => true

/-- What is owed misses something else, and what is refused misses no closer. -/
def AnswersOther : Except Expectation (List (Goal Rule)) → Prop
  | .ok body => body.all missesOther
  | .error missing => missing.isClosing = false

def Start.MissesOther (s : Start) : Prop := ∀ next, AnswersOther (s next)

def ReactsOther : Reaction Rule → Prop
  | .take body => body.all missesOther
  | .pass => True
  | .refuse missing => missing.isClosing = false

variable {s : Start} {body gs : List (Goal Rule)} {p : Terminal → Bool} {next : Option Terminal}

theorem Start.MissesOther.followedBy (h : s.MissesOther) (hg : gs.all missesOther) :
    (s.followedBy gs).MissesOther := by
  intro next
  have h := h next
  unfold Start.followedBy
  cases hs : s next with
  | ok body =>
    rw [hs] at h
    exact List.all_append.trans (by rw [show body.all missesOther from h, hg, Bool.and_self])
  | error missing =>
    rw [hs] at h
    exact h

theorem Start.MissesOther.react (h : s.MissesOther) (next : Option Terminal) :
    ReactsOther (s.react next) := by
  have h := h next
  unfold Start.react
  cases hs : s next <;> rw [hs] at h <;> exact h

theorem reactsOther_takeIf (h : body.all missesOther) : ReactsOther (takeIf next p body) := by
  unfold takeIf
  split
  · exact h
  · trivial

theorem missesOther_startInstancePattern : startInstancePattern.MissesOther := by
  intro next
  unfold startInstancePattern
  split <;> rfl

theorem missesOther_startValue : startValue.MissesOther := by
  intro next
  unfold startValue
  split
  · rfl
  · rfl
  · rfl
  · split <;> rfl

theorem missesOther_startSigned : startSigned.MissesOther := by
  intro next
  unfold startSigned
  split
  · rfl
  · exact missesOther_startValue next

theorem missesOther_startProduct : startProduct.MissesOther :=
  missesOther_startSigned.followedBy rfl

theorem missesOther_startSum : startSum.MissesOther := missesOther_startProduct.followedBy rfl

theorem missesOther_startComparison : startComparison.MissesOther :=
  missesOther_startSum.followedBy rfl

theorem missesOther_startNegation : startNegation.MissesOther := by
  intro next
  unfold startNegation
  split
  · rfl
  · exact missesOther_startComparison next

theorem missesOther_startConjunction : startConjunction.MissesOther :=
  missesOther_startNegation.followedBy rfl

theorem missesOther_startExpression : startExpression.MissesOther :=
  missesOther_startConjunction.followedBy rfl

theorem missesOther_startAssignedValue : startAssignedValue.MissesOther := by
  intro next
  unfold startAssignedValue
  split
  · rfl
  · exact missesOther_startExpression _

theorem missesOther_startPrintArgument : startPrintArgument.MissesOther := by
  intro next
  unfold startPrintArgument
  split
  · rfl
  · exact missesOther_startExpression.followedBy rfl _

theorem missesOther_startIdentifierUse : startIdentifierUse.MissesOther := by
  intro next
  unfold startIdentifierUse
  split
  · rfl
  · rfl
  · rfl
  · split <;> rfl

theorem missesOther_startMoreTargets : startMoreTargets.MissesOther := by
  intro next
  unfold startMoreTargets
  split <;> rfl

theorem missesOther_startIterable : startIterable.MissesOther := by
  intro next
  unfold startIterable
  split <;> rfl

theorem missesOther_startClauses : startClauses.MissesOther := by
  intro next
  unfold startClauses
  split <;> rfl

theorem missesOther_startStatement : startStatement.MissesOther := by
  intro next
  unfold startStatement
  split
  · unfold startKeyword
    split <;> rfl
  · rename_i b
    cases b <;> rfl
  all_goals rfl

theorem reactsOther_react (next : Option Terminal) (r : Rule) : ReactsOther (react next r) := by
  cases r with
  | program =>
    simp only [react]
    split
    · trivial
    · rfl
    · exact (missesOther_startStatement.followedBy rfl).react next
  | statements =>
    simp only [react]
    split
    · trivial
    · exact (missesOther_startStatement.followedBy rfl).react next
  | statement => exact missesOther_startStatement.react next
  | statementEnd =>
    simp only [react]
    split
    · rfl
    · split
      · trivial
      · rfl
  | returnedValue =>
    simp only [react]
    split
    · trivial
    · exact missesOther_startExpression.react next
  | identifierUse => exact missesOther_startIdentifierUse.react next
  | moreTargets => exact missesOther_startMoreTargets.react next
  | assignedValue => exact missesOther_startAssignedValue.react next
  | printArguments =>
    simp only [react]
    split
    · trivial
    · exact missesOther_startPrintArgument.react next
  | printArgument => exact missesOther_startPrintArgument.react next
  | arguments =>
    simp only [react]
    split
    · trivial
    · exact (missesOther_startExpression.followedBy rfl).react next
  | branches =>
    simp only [react]
    split
    · rfl
    · rfl
    · trivial
  | clauses => exact missesOther_startClauses.react next
  | instanceGuard =>
    simp only [react]
    split
    · rfl
    · exact missesOther_startInstancePattern.react next
  | instancePattern => exact missesOther_startInstancePattern.react next
  | iterable => exact missesOther_startIterable.react next
  | expression => exact missesOther_startExpression.react next
  | conjunction => exact missesOther_startConjunction.react next
  | negation => exact missesOther_startNegation.react next
  | comparison => exact missesOther_startComparison.react next
  | moreComparisons =>
    simp only [react]
    split
    · rfl
    · exact reactsOther_takeIf rfl
  | sum => exact missesOther_startSum.react next
  | product => exact missesOther_startProduct.react next
  | signed => exact missesOther_startSigned.react next
  | value => exact missesOther_startValue.react next
  | elements | laterElement =>
    simp only [react]
    split
    · trivial
    · rfl
    · exact (missesOther_startExpression.followedBy rfl).react _
  | moreElements =>
    simp only [react]
    split
    · rfl
    · rfl
    · trivial
  | _ => exact reactsOther_takeIf rfl

end Rule

end RookLang
