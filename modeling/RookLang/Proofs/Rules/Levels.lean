import RookLang.Proofs.Nesting
import RookLang.Proofs.Rules.Words

/-! The levels that goals open and close. Whatever a rule owes closes all that was opened for it, so
between any two terminals the recogniser counts the levels that the terminals read so far leave
open; only one that was just opened or closed may still have to be counted. -/
namespace RookLang
open Recogniser Terminal

def Enclosure.group? : Enclosure → Option Group
  | group g => some g
  | block | clauses => none

/-- How far the line of a `which` has been read. -/
inductive Heading where
  | which | subject | colon | line | other
  deriving DecidableEq, Repr

namespace Heading

def next : Heading → Terminal → Heading
  | _, .word .which => which
  | which, .plain .identifier => subject
  | subject, .plain (.punctuation .colon) => colon
  | colon, .plain .newline => line
  | _, _ => other

/-- How the terminals end, latest first. -/
def ofRead : List Terminal → Heading
  | .word .which :: _ => which
  | .plain .identifier :: .word .which :: _ => subject
  | .plain (.punctuation .colon) :: .plain .identifier :: .word .which :: _ => colon
  | .plain .newline :: .plain (.punctuation .colon) :: .plain .identifier :: .word .which :: _ =>
    line
  | _ => other

theorem ofRead_cons (t : Terminal) (read : List Terminal) :
    ofRead (t :: read) = (ofRead read).next t := by
  unfold ofRead next
  grind

/-- What the terminal opens. -/
def opens? : Heading → Terminal → Option Enclosure
  | _, .plain (.punctuation .leftParen) => some (.group .paren)
  | _, .plain (.punctuation .leftBracket) => some (.group .bracket)
  | line, .plain .indent => some .clauses
  | _, .plain .indent => some .block
  | _, _ => none

theorem opens?_ofRead (t : Terminal) (read : List Terminal) :
    t.opens? read = (ofRead read).opens? t := by
  unfold Terminal.opens? ofRead opens?
  grind

end Heading

/-- Does the recogniser count the levels that are open? -/
inductive Phase where
  | settled
  /-- All but the innermost one, which was just opened. -/
  | opened
  /-- And one more, a block that was just closed. -/
  | closed
  deriving DecidableEq, Repr

/-- What goals depend on of the terminals before them. -/
structure Levels where
  heading : Heading
  /-- Innermost first. -/
  unclosed : List Enclosure
  phase : Phase
  deriving DecidableEq, Repr

/-- What is open where the rule starts, and closed where it ends. -/
def Rule.inside : Rule → List Enclosure
  | clauses => [.clauses]
  | _ => []

namespace Levels

/-- Where a rule may start and end. -/
abbrev settled (u : List Enclosure) : Levels := ⟨.other, u, .settled⟩

/-- The terminal neither opens nor closes anything, and no `which` starts with it. -/
def isNeutral (t : Terminal) : Bool :=
  t ∉ [sign .leftParen, sign .leftBracket, plain .indent, word .which] && !t.closes

/-- The levels after one more terminal, unless it closes a group. -/
def take : Levels → Terminal → Option Levels
  | ⟨h, u, .settled⟩, t =>
    match h.opens? t with
    | some e => some ⟨h.next t, e :: u, if e.deepens then .opened else .settled⟩
    | none =>
      match t, u with
      | .plain .dedent, .block :: u => some ⟨.other, u, .closed⟩
      | .plain .dedent, .clauses :: u => some ⟨.other, u, .settled⟩
      | t, u => if t.closes then none else some ⟨h.next t, u, .settled⟩
  | _, _ => none

/-- The levels once the goal is met. A rule closes what it opens and what it starts inside of. -/
def after (p : Levels) : Goal Rule → Option Levels
  | .need t missing => if missing.isTooDeep then none else p.take t
  | .allow t =>
    match p with
    | ⟨.other, u, .settled⟩ => if isNeutral t then some (settled u) else none
    | _ => none
  | .rule .clauses =>
    match p with
    | ⟨.other, .clauses :: u, .settled⟩ => some (settled u)
    | _ => none
  | .rule _ | .tally =>
    match p with
    | ⟨.other, u, .settled⟩ => some (settled u)
    | _ => none
  | .openGroup g =>
    match p with
    | ⟨.other, .group g' :: u, .opened⟩ => if g' = g then some (settled (.group g' :: u)) else none
    | _ => none
  | .closeGroup =>
    match p with
    | ⟨.other, .group _ :: u, .settled⟩ => some (settled u)
    | _ => none
  | .enterBlock =>
    match p with
    | ⟨.other, .block :: u, .opened⟩ => some (settled (.block :: u))
    | _ => none
  | .leaveBlock =>
    match p with
    | ⟨.other, u, .closed⟩ => some (settled u)
    | _ => none

/-- What each goal makes of the levels. -/
inductive Meets : Levels → Goal Rule → Levels → Prop
  | need {p q t missing} (hm : missing.isTooDeep = false) (h : p.take t = some q) :
    Meets p (.need t missing) q
  | allow {u t} (h : isNeutral t) : Meets (settled u) (.allow t) (settled u)
  | rule {u r} : Meets (settled (r.inside ++ u)) (.rule r) (settled u)
  | openGroup {u g} :
    Meets ⟨.other, .group g :: u, .opened⟩ (.openGroup g) (settled (.group g :: u))
  | closeGroup {u g} : Meets (settled (.group g :: u)) .closeGroup (settled u)
  | enterBlock {u} : Meets ⟨.other, .block :: u, .opened⟩ .enterBlock (settled (.block :: u))
  | leaveBlock {u} : Meets ⟨.other, u, .closed⟩ .leaveBlock (settled u)
  | tally {u} : Meets (settled u) .tally (settled u)

theorem meets_of_after {p q : Levels} {goal : Goal Rule} (h : p.after goal = some q) :
    Meets p goal q := by
  unfold after at h
  split at h
  · split at h
    · cases h
    · exact .need (Bool.eq_false_of_not_eq_true ‹_›) h
  · split at h
    · split at h <;> cases h
      exact .allow ‹_›
    · cases h
  · split at h <;> cases h
    exact .rule (r := .clauses)
  · rename_i r hr
    have hi : r.inside = [] := by cases r <;> first | rfl | exact (hr rfl).elim
    split at h <;> cases h
    have hm {u : List Enclosure} : Meets (settled (r.inside ++ u)) (.rule r) (settled u) := .rule
    rw [hi] at hm
    exact hm
  · split at h <;> cases h
    exact .tally
  · split at h
    · split at h <;> cases h
      subst_vars
      exact .openGroup
    · cases h
  · split at h <;> cases h
    exact .closeGroup
  · split at h <;> cases h
    exact .enterBlock
  · split at h <;> cases h
    exact .leaveBlock

/-- The levels once all goals are met. -/
def afterAll (p : Levels) (goals : List (Goal Rule)) : Option Levels := goals.foldlM after p

theorem exists_meets {p q : Levels} {goal : Goal Rule} {goals : List (Goal Rule)}
    (h : p.afterAll (goal :: goals) = some q) :
    ∃ m, Meets p goal m ∧ m.afterAll goals = some q := by
  obtain ⟨m, hm, hg⟩ := Option.bind_eq_some_iff.mp h
  exact ⟨m, meets_of_after hm, hg⟩

theorem afterAll_append (p : Levels) (gs gs' : List (Goal Rule)) :
    p.afterAll (gs ++ gs') = (p.afterAll gs).bind (·.afterAll gs') :=
  List.foldlM_append

/-- What a terminal makes of the levels. -/
inductive Moves : Levels → Terminal → Levels → Prop
  | opened {h u t e} (ho : h.opens? t = some e) (hd : e.deepens) :
    Moves ⟨h, u, .settled⟩ t ⟨h.next t, e :: u, .opened⟩
  | clauses {h u t e} (ho : h.opens? t = some e) (hd : e.deepens = false) :
    Moves ⟨h, u, .settled⟩ t ⟨h.next t, e :: u, .settled⟩
  | closed {h u} : Moves ⟨h, .block :: u, .settled⟩ (plain .dedent) ⟨.other, u, .closed⟩
  | clausesClosed {h u} : Moves ⟨h, .clauses :: u, .settled⟩ (plain .dedent) (settled u)
  | other {h u t} (ho : h.opens? t = none) (hc : t.closes = false) :
    Moves ⟨h, u, .settled⟩ t ⟨h.next t, u, .settled⟩

theorem moves_of_take {p q : Levels} {t : Terminal} (h : p.take t = some q) : Moves p t q := by
  unfold take at h
  split at h
  · split at h
    · rename_i e ho
      cases hd : e.deepens <;> simp only [hd] at h <;> cases h
      · exact .clauses ho hd
      · exact .opened ho hd
    · split at h
      · cases h
        exact .closed
      · cases h
        exact .clausesClosed
      · split at h <;> cases h
        exact .other ‹_› (Bool.eq_false_of_not_eq_true ‹_›)
  · cases h

theorem take_of_isNeutral {t : Terminal} (h : isNeutral t) (u : List Enclosure) :
    (settled u).take t = some (settled u) := by
  have ho : Heading.other.opens? t = none := by
    unfold Heading.opens?
    split <;> simp_all [isNeutral]
  have hn : Heading.other.next t = .other := by
    unfold Heading.next
    split <;> simp_all [isNeutral]
  have hc : t.closes = false := by simp_all [isNeutral]
  have hd : t ≠ plain .dedent := by
    rintro rfl
    cases hc
  unfold take
  simp_all

end Levels

namespace Rule

variable {body gs : List (Goal Rule)} {t : Terminal} {next : Option Terminal} {s : Start}
  {p : Terminal → Bool} {u v : List Enclosure}

/-- After the terminal, the goals close what is opened from it on, and `v`. -/
def Balances (v : List Enclosure) (t : Terminal) (body : List (Goal Rule)) : Prop :=
  ∀ u, ((Levels.settled (v ++ u)).take t).bind (·.afterAll body) = some (.settled u)

/-- The goals close what they open. -/
def Even (gs : List (Goal Rule)) : Prop :=
  ∀ u, (Levels.settled u).afterAll gs = some (.settled u)

/-- What a start owes closes what it opens, and `v`. No error of it is about the limit. -/
def Answers (v : List Enclosure) (next : Option Terminal) :
    Except Expectation (List (Goal Rule)) → Prop
  | .ok body => ∀ t ∈ next, Balances v t body
  | .error missing => missing.isTooDeep = false

def Start.Balanced (v : List Enclosure) (s : Start) : Prop := ∀ next, Answers v next (s next)

def Balanced (v : List Enclosure) (next : Option Terminal) : Reaction Rule → Prop
  | .take body => ∀ t ∈ next, Balances v t body
  | .pass => v = []
  | .refuse missing => missing.isTooDeep = false

theorem balances_of_isNeutral (h : Levels.isNeutral t) (hb : Even body) : Balances [] t body := by
  intro u
  rw [List.nil_append, Levels.take_of_isNeutral h]
  exact hb u

theorem Balances.append (h : Balances v t body) (hg : Even gs) : Balances v t (body ++ gs) := by
  intro u
  obtain ⟨q, hq, hb⟩ := Option.bind_eq_some_iff.mp (h u)
  rw [hq]
  change q.afterAll (body ++ gs) = _
  rw [Levels.afterAll_append, hb]
  exact hg u

theorem answers_ok (h : Balances v t body) : Answers v (some t) (.ok body) := by
  rintro _ ⟨⟩
  exact h

theorem balanced_take (h : Balances v t body) : Balanced v (some t) (.take body) := answers_ok h

theorem Start.Balanced.react (h : s.Balanced v) (next : Option Terminal) :
    Rule.Balanced v next (s.react next) := by
  have h := h next
  unfold Start.react
  cases hs : s next <;> rw [hs] at h <;> exact h

theorem Start.Balanced.followedBy (h : s.Balanced v) (hg : Even gs) :
    (s.followedBy gs).Balanced v := by
  intro next
  have h := h next
  unfold Start.followedBy
  cases hs : s next with
  | ok body =>
    rw [hs] at h
    exact fun t ht => (h t ht).append hg
  | error missing =>
    rw [hs] at h
    exact h

/-- A start that takes some terminals, before another start. -/
theorem Start.Balanced.ite {s' : Start} (h : s.Balanced [])
    (hs : ∀ next, s' next = if next.any p then .ok body else s next)
    (hp : ∀ t, p t → Levels.isNeutral t) (hb : Even body) : s'.Balanced [] := by
  intro next
  rw [hs]
  split
  · rintro t rfl
    exact balances_of_isNeutral (hp t ‹_›) hb
  · exact h next

theorem balanced_takeIf (h : ∀ t, p t → Levels.isNeutral t) (hb : Even body) :
    Balanced [] next (takeIf next p body) := by
  unfold takeIf
  split
  · rintro t rfl
    exact balances_of_isNeutral (h t ‹_›) hb
  · rfl

theorem isNeutral_of_mem {ts : List Terminal} (hp : ∀ t, p t ↔ t ∈ ts)
    (h : ts.all Levels.isNeutral) (t : Terminal) (ht : p t) : Levels.isNeutral t :=
  List.all_eq_true.mp h t ((hp t).mp ht)

theorem isNeutral_of_isRelational : ∀ t : Terminal, t.isRelational → Levels.isNeutral t :=
  isNeutral_of_mem (fun _ => isRelational_iff) (by decide)

/-! What the rules owe, by the terminals that they start with. -/

theorem balanced_startInstancePattern : startInstancePattern.Balanced [] := by
  have h : Start.Balanced [] (fun _ => .error .instancePattern) := fun _ => rfl
  exact h.ite (fun _ => rfl) (isNeutral_of_mem (fun _ => isInstancePattern_iff) (by decide))
    fun _ => rfl

theorem balanced_startValue : startValue.Balanced [] := by
  have h : Start.Balanced [] (fun next =>
      if next.any (·.isLiteral) then .ok [] else .error .expression) :=
    Start.Balanced.ite (s := fun _ => .error .expression) (fun _ => rfl) (fun _ => rfl)
      (isNeutral_of_mem (fun _ => isLiteral_iff) (by decide)) fun _ => rfl
  intro next
  unfold startValue
  split
  · exact answers_ok fun _ => rfl
  · exact answers_ok fun _ => rfl
  · exact answers_ok fun _ => rfl
  · exact h next

theorem balanced_startSigned : startSigned.Balanced [] :=
  balanced_startValue.ite (fun _ => rfl) (isNeutral_of_mem (fun _ => isSum_iff) (by decide))
    fun _ => rfl

theorem balanced_startProduct : startProduct.Balanced [] :=
  balanced_startSigned.followedBy fun _ => rfl

theorem balanced_startSum : startSum.Balanced [] := balanced_startProduct.followedBy fun _ => rfl

theorem balanced_startComparison : startComparison.Balanced [] :=
  balanced_startSum.followedBy fun _ => rfl

theorem balanced_startNegation : startNegation.Balanced [] := by
  have hs (next : Option Terminal) : startNegation next =
      if next.any (· == op .not) then .ok [.rule .comparison] else startComparison next := by
    cases next <;> simp [startNegation]
  exact balanced_startComparison.ite hs (isNeutral_of_mem (beq_iff_mem _) (by decide)) fun _ => rfl

theorem balanced_startConjunction : startConjunction.Balanced [] :=
  balanced_startNegation.followedBy fun _ => rfl

theorem balanced_startExpression : startExpression.Balanced [] :=
  balanced_startConjunction.followedBy fun _ => rfl

theorem balanced_startAssignedValue : startAssignedValue.Balanced [] := by
  intro next
  unfold startAssignedValue
  split
  · exact answers_ok fun _ => rfl
  · exact balanced_startExpression _

theorem balanced_startPrintArgument : startPrintArgument.Balanced [] := by
  intro next
  unfold startPrintArgument
  split
  · exact answers_ok fun _ => rfl
  · exact balanced_startExpression.followedBy (fun _ => rfl) _

theorem balanced_startIdentifierUse : startIdentifierUse.Balanced [] := by
  have h : Start.Balanced [] (fun next =>
      if next.any (·.isCompoundAssignment) then .ok [.rule .expression]
      else .error .assignmentOrCall) :=
    Start.Balanced.ite (s := fun _ => .error .assignmentOrCall) (fun _ => rfl) (fun _ => rfl)
      (isNeutral_of_mem (fun _ => isCompoundAssignment_iff) (by decide)) fun _ => rfl
  intro next
  unfold startIdentifierUse
  split
  · exact answers_ok fun _ => rfl
  · exact answers_ok fun _ => rfl
  · exact answers_ok fun _ => rfl
  · exact h _

theorem balanced_startMoreTargets : startMoreTargets.Balanced [] := by
  intro next
  unfold startMoreTargets
  split
  · exact answers_ok fun _ => rfl
  · exact answers_ok fun _ => rfl
  · rfl

theorem balanced_startIterable : startIterable.Balanced [] := by
  intro next
  unfold startIterable
  split
  · exact answers_ok fun _ => rfl
  · exact answers_ok fun _ => rfl
  · rfl

theorem answers_startKeyword (k : Keyword) : Answers [] (some (word k)) (startKeyword k) := by
  unfold startKeyword
  split <;> first | exact answers_ok fun _ => rfl | rfl

theorem balanced_startStatement : startStatement.Balanced [] := by
  intro next
  unfold startStatement
  split
  · exact answers_startKeyword _
  · rename_i b
    cases b <;> exact answers_ok fun _ => rfl
  · exact answers_ok fun _ => rfl
  all_goals rfl

theorem balanced_startClauses : startClauses.Balanced [.clauses] := by
  intro next
  unfold startClauses
  split
  · exact answers_ok fun _ => rfl
  · exact answers_ok fun _ => rfl
  · exact answers_ok fun _ => rfl
  · rfl

/-- Every rule closes what is opened for it. -/
theorem balanced_react (next : Option Terminal) (r : Rule) :
    Balanced r.inside next (react next r) := by
  cases r with
  | program =>
    simp only [react]
    split
    · rfl
    · exact balanced_take fun _ => rfl
    · exact (balanced_startStatement.followedBy fun _ => rfl).react next
  | statements =>
    simp only [react]
    split
    · rfl
    · exact (balanced_startStatement.followedBy fun _ => rfl).react next
  | statement => exact balanced_startStatement.react next
  | statementEnd =>
    simp only [react]
    split
    · subst next
      exact balanced_take fun _ => rfl
    · split <;> rfl
  | returnedValue =>
    simp only [react]
    split
    · rfl
    · exact balanced_startExpression.react next
  | identifierUse => exact balanced_startIdentifierUse.react next
  | moreTargets => exact balanced_startMoreTargets.react next
  | assignedValue => exact balanced_startAssignedValue.react next
  | printArguments =>
    simp only [react]
    split
    · rfl
    · exact balanced_startPrintArgument.react next
  | printArgument => exact balanced_startPrintArgument.react next
  | arguments =>
    simp only [react]
    split
    · rfl
    · exact (balanced_startExpression.followedBy fun _ => rfl).react next
  | branches =>
    simp only [react]
    split
    · exact balanced_take fun _ => rfl
    · exact balanced_take fun _ => rfl
    · rfl
  | clauses => exact balanced_startClauses.react next
  | instanceGuard =>
    simp only [react]
    split
    · rintro t rfl
      exact balances_of_isNeutral (isNeutral_of_isRelational t ‹_›) fun _ => rfl
    · exact balanced_startInstancePattern.react next
  | instancePattern => exact balanced_startInstancePattern.react next
  | iterable => exact balanced_startIterable.react next
  | expression => exact balanced_startExpression.react next
  | moreConjunctions =>
    exact balanced_takeIf (isNeutral_of_mem (fun _ => isJunction_iff) (by decide)) fun _ => rfl
  | conjunction => exact balanced_startConjunction.react next
  | negation => exact balanced_startNegation.react next
  | comparison => exact balanced_startComparison.react next
  | moreComparisons =>
    simp only [react]
    split
    · subst next
      exact balanced_take fun _ => rfl
    · exact balanced_takeIf (isNeutral_of_mem (fun _ => isComparison_iff) (by decide)) fun _ => rfl
  | sum => exact balanced_startSum.react next
  | moreProducts =>
    exact balanced_takeIf (isNeutral_of_mem (fun _ => isSum_iff) (by decide)) fun _ => rfl
  | product => exact balanced_startProduct.react next
  | moreFactors =>
    exact balanced_takeIf (isNeutral_of_mem (fun _ => isProduct_iff) (by decide)) fun _ => rfl
  | signed => exact balanced_startSigned.react next
  | value => exact balanced_startValue.react next
  | call =>
    simp only [react, takeIf]
    split
    · rename_i h
      rintro t rfl
      obtain rfl : t = .sign .leftParen := by simpa using h
      exact fun _ => rfl
    · rfl
  | elements | laterElement =>
    simp only [react]
    split
    · rfl
    · rfl
    · exact (balanced_startExpression.followedBy fun _ => rfl).react _
  | moreElements =>
    simp only [react]
    split
    · exact balanced_take fun _ => rfl
    · exact balanced_take fun _ => rfl
    · rfl
  | secondLoopVariable | moreAssignedValues | morePrintArguments | moreArguments =>
    exact balanced_takeIf (isNeutral_of_mem (beq_iff_mem comma) (by decide)) fun _ => rfl
  | parameters =>
    exact balanced_takeIf (isNeutral_of_mem (beq_iff_mem identifier) (by decide)) fun _ => rfl
  | parameterDefault =>
    exact balanced_takeIf (isNeutral_of_mem (beq_iff_mem assign) (by decide)) fun _ => rfl
  | secondNegation =>
    exact balanced_takeIf (isNeutral_of_mem (beq_iff_mem (op .and)) (by decide)) fun _ => rfl
  | rangeStep =>
    exact balanced_takeIf (isNeutral_of_mem (beq_iff_mem (word .step)) (by decide)) fun _ => rfl

end Rule

end RookLang
