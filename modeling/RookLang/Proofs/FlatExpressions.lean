import RookLang.Proofs.Agree
import RookLang.Proofs.Recognition

/-! Expressions without layers. The layers of the grammar end one after the other, and each of them
takes operators that no other one takes, so a single loop over all operators reads the same. -/
namespace RookLang

/-- The rules of expressions in one layer. -/
inductive FlatRule where
  | expression
  /-- What a junction joins: a value, perhaps after `not` and a sign. -/
  | operand
  /-- A value, perhaps after a sign. -/
  | signed
  | value
  /-- The operators that are left, with their operands. -/
  | operators
  | call
  | arguments
  | moreArguments
  | elements
  | moreElements
  | laterElement
  | rangeStep
  deriving DecidableEq, Repr

namespace FlatRule

def grouped (g : Group) (inside : FlatRule) : List (Goal FlatRule) :=
  [.openGroup g, .rule inside, .closeGroup]

/-- What is owed after the lookahead, which is taken or refused. -/
abbrev Start := Option Terminal → Except Expectation (List (Goal FlatRule))

def startValue : Start
  | some (.plain .identifier) => .ok [.rule .call]
  | some (.plain (.punctuation .leftBracket)) => .ok (grouped .bracket .elements)
  | some (.plain (.punctuation .leftParen)) => .ok (grouped .paren .expression)
  | next => if next.any (·.isLiteral) then .ok [] else .error .expression

def startSigned : Start := fun next =>
  if next.any (·.isSum) then .ok [.rule .value] else startValue next

def startOperand : Start := fun next =>
  if next = some (.op .not) then .ok [.rule .signed] else startSigned next

/-- The list is owed after what `s` owes. -/
def Start.followedBy (s : Start) (goals : List (Goal FlatRule)) : Start :=
  fun next => (s next).map (· ++ goals)

def startExpression : Start := startOperand.followedBy [.rule .operators]

def Start.react (s : Start) (next : Option Terminal) : Reaction FlatRule :=
  match s next with
  | .ok goals => .take goals
  | .error missing => .refuse missing

def takeIf (next : Option Terminal) (wanted : Terminal → Bool) (goals : List (Goal FlatRule)) :
    Reaction FlatRule :=
  if next.any wanted then .take goals else .pass

/-- All operators but `not`, `and` and `or`. -/
def isOperator (t : Terminal) : Bool := t.isProduct || t.isSum || t.isComparison

def react : Grammar FlatRule := fun next r =>
  match r with
  | .expression => startExpression.react next
  | .operand => startOperand.react next
  | .signed => startSigned.react next
  | .value => startValue.react next
  | .operators =>
    if next.any isOperator then .take [.rule .signed, .rule .operators]
    else if next = some (.op .not) then
      .take [.need (.word .in_) .inAfterNot, .rule .signed, .rule .operators]
    else takeIf next (·.isJunction) [.rule .operand, .rule .operators]
  | .call => takeIf next (· == .sign .leftParen) (grouped .paren .arguments)
  | .arguments =>
    if next = some (.sign .rightParen) then .pass
    else (startExpression.followedBy [.rule .moreArguments]).react next
  | .moreArguments => takeIf next (· == .sign .comma) [.rule .arguments]
  | .elements =>
    if next = some (.sign .rightBracket) then .pass
    else if next = some (.word .to_) then .refuse .rangeStart
    else (startExpression.followedBy [.rule .moreElements]).react next
  | .moreElements =>
    if next = some (.sign .comma) then .take [.rule .laterElement]
    else takeIf next (· == .word .to_)
      [.need (.plain .number) (.rangeNumber .to_), .rule .rangeStep]
  | .laterElement =>
    if next = some (.sign .rightBracket) then .pass
    else if next = some (.word .to_) then .refuse .elementAfterComma
    else (startExpression.followedBy [.rule .moreElements]).react next
  | .rangeStep =>
    takeIf next (· == .word .step)
      [.allow (.sign .colon), .need (.plain .number) (.rangeNumber .step)]

end FlatRule

namespace Recogniser

variable {R : Type} {g : Grammar R} {limit : Option ℕ} {next : Option Terminal} {r : R}
  {body goals : List (Goal R)} {x : Context}

theorem advance_take (h : g next r = .take body) :
    advance g limit next (.rule r :: goals) x = .ok (.took (body ++ goals) x) := by
  simp only [advance, h]

theorem advance_pass (h : g next r = .pass) :
    advance g limit next (.rule r :: goals) x = advance g limit next goals x := by
  simp only [advance, h]

end Recogniser

namespace Rule
open Recogniser

/-- The grammar in layers, but without a second `and` inside of a conjunction. -/
def reactOnce : Grammar Rule
  | _, .secondNegation => .pass
  | next, r => react next r

/-! What the layers owe after an operand, from each of them on. The second negation is owed only
in the first part of a conjunction. -/

def afterConjunction : List (Goal Rule) := [.rule .moreConjunctions]

def afterNegation (first : Bool) : List (Goal Rule) :=
  if first then .rule .secondNegation :: afterConjunction else afterConjunction

def afterSum (first : Bool) : List (Goal Rule) := .rule .moreComparisons :: afterNegation first

def afterProduct (first : Bool) : List (Goal Rule) := .rule .moreProducts :: afterSum first

def afterSigned (first : Bool) : List (Goal Rule) := .rule .moreFactors :: afterProduct first

/-- A rule of a layer that starts with an operand, what the layers owe after it, and the rule that
reads the operand in one layer. -/
inductive Operand : Rule → List (Goal Rule) → FlatRule → Prop
  | value (first : Bool) : Operand .value (afterSigned first) .value
  | signed (first : Bool) : Operand .signed (afterSigned first) .signed
  | product (first : Bool) : Operand .product (afterProduct first) .signed
  | sum (first : Bool) : Operand .sum (afterSum first) .signed
  | comparison (first : Bool) : Operand .comparison (afterNegation first) .signed
  | negation (first : Bool) : Operand .negation (afterNegation first) .operand
  | conjunction : Operand .conjunction afterConjunction .operand

/-- Rules outside of the layers, and the same in one layer. -/
inductive Outside : Rule → FlatRule → Prop
  | expression : Outside .expression .expression
  | call : Outside .call .call
  | arguments : Outside .arguments .arguments
  | moreArguments : Outside .moreArguments .moreArguments
  | elements : Outside .elements .elements
  | moreElements : Outside .moreElements .moreElements
  | laterElement : Outside .laterElement .laterElement
  | rangeStep : Outside .rangeStep .rangeStep

/-- The goals of the layers, and those that are owed in their place in one layer. -/
inductive Flattens : List (Goal Rule) → List (Goal FlatRule) → Prop
  | nil : Flattens [] []
  | need {t missing gs fs} (h : Flattens gs fs) :
    Flattens (.need t missing :: gs) (.need t missing :: fs)
  | allow {t gs fs} (h : Flattens gs fs) : Flattens (.allow t :: gs) (.allow t :: fs)
  | openGroup {g gs fs} (h : Flattens gs fs) : Flattens (.openGroup g :: gs) (.openGroup g :: fs)
  | closeGroup {gs fs} (h : Flattens gs fs) : Flattens (.closeGroup :: gs) (.closeGroup :: fs)
  | outside {r r' gs fs} (hr : Outside r r') (h : Flattens gs fs) :
    Flattens (.rule r :: gs) (.rule r' :: fs)
  | operand {r r' gs fs} (later : List (Goal Rule)) (hr : Operand r later r')
    (h : Flattens gs fs) : Flattens (.rule r :: (later ++ gs)) (.rule r' :: .rule .operators :: fs)
  | operators {gs fs} (first : Bool) (h : Flattens gs fs) :
    Flattens (afterSigned first ++ gs) (.rule .operators :: fs)

variable {gs : List (Goal Rule)} {fs : List (Goal FlatRule)} {x : Context}
  {next : Option Terminal} {t : Terminal} {limit : Option ℕ}

/-- What a rule owes, and what is owed in its place in one layer. -/
def FlattensBody (body : List (Goal Rule)) (body' : List (Goal FlatRule)) : Prop :=
  ∀ gs fs, Flattens gs fs → Flattens (body ++ gs) (body' ++ fs)

/-- The same inside of the layers, which owe `later` after it. -/
def FlattensBefore (later body : List (Goal Rule)) (body' : List (Goal FlatRule)) : Prop :=
  ∀ gs fs, Flattens gs fs → Flattens (body ++ (later ++ gs)) (body' ++ .rule .operators :: fs)

theorem FlattensBody.before {body : List (Goal Rule)} {body' : List (Goal FlatRule)}
    (h : FlattensBody body body') (first : Bool) : FlattensBefore (afterSigned first) body body' :=
  fun _ _ hs => h _ _ (.operators first hs)

theorem agree_startValue (next : Option Terminal) :
    Agree Eq FlattensBody (startValue next) (FlatRule.startValue next) := by
  unfold startValue
  split
  · exact .ok fun gs fs h => .outside .call h
  · exact .ok fun gs fs h => .openGroup (.outside .elements (.closeGroup h))
  · exact .ok fun gs fs h => .openGroup (.outside .expression (.closeGroup h))
  · rename_i hi hb hp
    have hv : FlatRule.startValue next =
        if next.any (·.isLiteral) then .ok [] else .error .expression := by
      unfold FlatRule.startValue
      split <;> simp_all
    rw [hv]
    split
    · exact .ok fun gs fs h => h
    · exact .error rfl

section
variable (first : Bool) (next : Option Terminal)

theorem agree_startSigned : Agree Eq (FlattensBefore (afterSigned first)) (startSigned next)
    (FlatRule.startSigned next) := by
  unfold startSigned FlatRule.startSigned
  split
  · refine .ok fun gs fs h => ?_
    rw [List.singleton_append]
    exact .operand _ (.value first) h
  · exact (agree_startValue next).imp (fun _ _ h => h) fun _ _ hb => hb.before first

/-- What a layer owes after its operand belongs to what is owed after it. -/
theorem agree_followedBy {s : Start} {e : Except Expectation (List (Goal FlatRule))}
    {goal : Goal Rule} {later : List (Goal Rule)} {next : Option Terminal}
    (h : Agree Eq (FlattensBefore (goal :: later)) (s next) e) :
    Agree Eq (FlattensBefore later) (s.followedBy [goal] next) e := by
  unfold Start.followedBy
  generalize s next = a at h ⊢
  cases h with
  | error h => exact .error h
  | ok h =>
    refine .ok fun gs fs hs => ?_
    rw [List.append_assoc]
    exact h gs fs hs

theorem agree_startProduct : Agree Eq (FlattensBefore (afterProduct first)) (startProduct next)
    (FlatRule.startSigned next) :=
  agree_followedBy (agree_startSigned first next)

theorem agree_startSum : Agree Eq (FlattensBefore (afterSum first)) (startSum next)
    (FlatRule.startSigned next) :=
  agree_followedBy (agree_startProduct first next)

theorem agree_startComparison : Agree Eq (FlattensBefore (afterNegation first))
    (startComparison next) (FlatRule.startSigned next) :=
  agree_followedBy (agree_startSum first next)

theorem agree_startNegation : Agree Eq (FlattensBefore (afterNegation first))
    (startNegation next) (FlatRule.startOperand next) := by
  unfold startNegation FlatRule.startOperand
  split
  · refine .ok fun gs fs h => ?_
    rw [List.singleton_append]
    exact .operand _ (.comparison first) h
  · exact agree_startComparison first next

theorem agree_startConjunction : Agree Eq (FlattensBefore afterConjunction)
    (startConjunction next) (FlatRule.startOperand next) :=
  agree_followedBy (agree_startNegation true next)

theorem agree_startExpression :
    Agree Eq FlattensBody (startExpression next) (FlatRule.startExpression next) := by
  refine (agree_startConjunction next).map fun body body' hb gs fs h => ?_
  rw [List.append_assoc, List.append_assoc]
  exact hb gs fs h

end

/-- Reactions that take the lookahead and then owe what `S` relates, or both leave it, or both
refuse it. -/
inductive AgreeingReactions (S : List (Goal Rule) → List (Goal FlatRule) → Prop) :
    Reaction Rule → Reaction FlatRule → Prop
  | take {body body'} (h : S body body') : AgreeingReactions S (.take body) (.take body')
  | pass : AgreeingReactions S .pass .pass
  | refuse (missing : Expectation) : AgreeingReactions S (.refuse missing) (.refuse missing)

variable {S : List (Goal Rule) → List (Goal FlatRule) → Prop} {r : Rule} {r' : FlatRule}

theorem agreeing_start {s : Start} {s' : FlatRule.Start} (h : Agree Eq S (s next) (s' next)) :
    AgreeingReactions S (s.react next) (s'.react next) := by
  unfold Start.react FlatRule.Start.react
  generalize s next = a, s' next = b at h
  cases h with
  | ok h => exact .take h
  | error h => exact h ▸ .refuse _

theorem agreeing_takeIf {p : Terminal → Bool} {body : List (Goal Rule)}
    {body' : List (Goal FlatRule)} (h : S body body') :
    AgreeingReactions S (takeIf next p body) (FlatRule.takeIf next p body') := by
  unfold takeIf FlatRule.takeIf
  split
  · exact .take h
  · exact .pass

theorem agreeing_expressionThen (hr : Outside r r') :
    AgreeingReactions FlattensBody ((startExpression.followedBy [.rule r]).react next)
      ((FlatRule.startExpression.followedBy [.rule r']).react next) := by
  refine agreeing_start ((agree_startExpression next).map fun body body' hb gs fs h => ?_)
  rw [List.append_assoc, List.append_assoc]
  exact hb _ _ (.outside hr h)

/-- The start of an array and what follows a comma in it differ only in what they miss. -/
theorem agreeing_elements {a : Reaction Rule} {missing : Expectation}
    (hclose : next = some (.sign .rightBracket) → a = .pass)
    (hto : next = some (.word .to_) → a = .refuse missing)
    (helse : next ≠ some (.sign .rightBracket) → next ≠ some (.word .to_) →
      a = (startExpression.followedBy [.rule .moreElements]).react next) :
    AgreeingReactions FlattensBody a (if next = some (.sign .rightBracket) then .pass
      else if next = some (.word .to_) then .refuse missing
      else (FlatRule.startExpression.followedBy [.rule .moreElements]).react next) := by
  by_cases hc : next = some (.sign .rightBracket)
  · rw [if_pos hc, hclose hc]
    exact .pass
  by_cases ht : next = some (.word .to_)
  · rw [if_neg hc, if_pos ht, hto ht]
    exact .refuse missing
  · rw [if_neg hc, if_neg ht, helse hc ht]
    exact agreeing_expressionThen .moreElements

theorem agreeing_moreElements : AgreeingReactions FlattensBody (react next .moreElements)
    (FlatRule.react next .moreElements) := by
  simp only [react]
  split
  · exact .take fun gs fs h => .outside .laterElement h
  · exact .take fun gs fs h => .need (.outside .rangeStep h)
  · rename_i hcomma hto
    have hr : FlatRule.react next .moreElements = .pass := by
      cases next <;> simp_all [FlatRule.react, FlatRule.takeIf]
    exact hr ▸ .pass

theorem agreeing_outside (hr : Outside r r') :
    AgreeingReactions FlattensBody (react next r) (FlatRule.react next r') := by
  cases hr with
  | expression => exact agreeing_start (agree_startExpression next)
  | call => exact agreeing_takeIf fun gs fs h => .openGroup (.outside .arguments (.closeGroup h))
  | arguments =>
    simp only [react, FlatRule.react]
    split
    · exact .pass
    · exact agreeing_expressionThen .moreArguments
  | moreArguments => exact agreeing_takeIf fun gs fs h => .outside .arguments h
  | elements | laterElement =>
    refine agreeing_elements (fun h => h ▸ rfl) (fun h => h ▸ rfl) fun hclose hto => ?_
    simp only [react]
  | moreElements => exact agreeing_moreElements
  | rangeStep => exact agreeing_takeIf fun gs fs h => .allow (.need h)

theorem agreeing_operand {later : List (Goal Rule)} (hr : Operand r later r') :
    AgreeingReactions (FlattensBefore later) (react next r) (FlatRule.react next r') := by
  cases hr with
  | value first =>
    exact agreeing_start ((agree_startValue next).imp (fun _ _ h => h) fun _ _ hb =>
      hb.before first)
  | signed first => exact agreeing_start (agree_startSigned first next)
  | product first => exact agreeing_start (agree_startProduct first next)
  | sum first => exact agreeing_start (agree_startSum first next)
  | comparison first => exact agreeing_start (agree_startComparison first next)
  | negation first => exact agreeing_start (agree_startNegation first next)
  | conjunction => exact agreeing_start (agree_startConjunction next)

theorem react_operand_ne_pass {later : List (Goal Rule)} (hr : Operand r later r') :
    react next r ≠ .pass := by
  cases hr <;> exact Start.react_ne_pass

/-- A grammar in layers, with or without the second `and` inside of a conjunction. -/
structure Layered (g : Grammar Rule) : Prop where
  eq_react : ∀ next r, r ≠ .secondNegation → g next r = react next r
  secondNegation : ∀ next, g next .secondNegation = .pass ∨
    g next .secondNegation = takeIf next (· == .op .and) [.rule .negation]

theorem layered_react : Layered react := ⟨fun _ _ _ => rfl, fun _ => .inr rfl⟩

theorem layered_reactOnce : Layered reactOnce where
  eq_react next r h := by
    cases r <;> first | rfl | exact (h rfl).elim
  secondNegation _ := .inl rfl

/-- The goals take the lookahead alike and then owe what corresponds, or run out alike. -/
inductive AgreeingOutcomes : Recogniser.Outcome Rule → Recogniser.Outcome FlatRule → Prop
  | took {as bs} (h : Flattens as bs) (y : Context) : AgreeingOutcomes (.took as y) (.took bs y)
  | done (y : Context) : AgreeingOutcomes (.done y) (.done y)

variable {g : Grammar Rule}

theorem agree_take {body : List (Goal Rule)} {body' : List (Goal FlatRule)}
    (ha : g next r = .take body) (hb : FlatRule.react next r' = .take body')
    (h : Flattens (body ++ gs) (body' ++ fs)) :
    Agree Eq AgreeingOutcomes (advance g limit next (.rule r :: gs) x)
      (advance FlatRule.react limit next (.rule r' :: fs) x) := by
  rw [advance_take ha, advance_take hb]
  exact .ok (.took h x)

theorem agree_rule (h : AgreeingReactions S (g next r) (FlatRule.react next r'))
    (hS : ∀ body body', S body body' → Flattens (body ++ gs) (body' ++ fs))
    (hp : g next r = .pass → Agree Eq AgreeingOutcomes (advance g limit next gs x)
      (advance FlatRule.react limit next fs x)) :
    Agree Eq AgreeingOutcomes (advance g limit next (.rule r :: gs) x)
      (advance FlatRule.react limit next (.rule r' :: fs) x) := by
  generalize ha : g next r = a, hb : FlatRule.react next r' = b at h
  cases h with
  | take h => exact agree_take ha hb (hS _ _ h)
  | pass =>
    rw [advance_pass ha, advance_pass hb]
    exact hp ha
  | refuse missing =>
    simp only [advance, ha, hb]
    exact .error rfl

theorem any_isOperator : next.any FlatRule.isOperator =
    (next.any (·.isProduct) || next.any (·.isSum) || next.any (·.isComparison)) := by
  cases next <;> rfl

theorem react_operators (h : next.any FlatRule.isOperator) :
    FlatRule.react next .operators = .take [.rule .signed, .rule .operators] :=
  if_pos h

/-! Before a lookahead that a layer does not take, the layer ends and the next one goes on. -/

section
variable (hg : Layered g) (h : Flattens gs fs) (ih : Agree Eq AgreeingOutcomes
  (advance g limit next gs x) (advance FlatRule.react limit next fs x)) (first : Bool)
include hg h ih

theorem agree_afterConjunction (ho : ¬ next.any FlatRule.isOperator)
    (hn : next ≠ some (.op .not)) :
    Agree Eq AgreeingOutcomes (advance g limit next (afterConjunction ++ gs) x)
      (advance FlatRule.react limit next (.rule .operators :: fs) x) := by
  have hr : AgreeingReactions FlattensBody (g next .moreConjunctions)
      (FlatRule.react next .operators) := by
    simp only [hg.eq_react next .moreConjunctions nofun, FlatRule.react, if_neg ho, if_neg hn]
    exact agreeing_takeIf fun _ _ hs => .operand afterConjunction .conjunction hs
  exact agree_rule hr (fun _ _ hb => hb gs fs h) fun _ => ih

theorem agree_afterNegation (ho : ¬ next.any FlatRule.isOperator) (hn : next ≠ some (.op .not)) :
    Agree Eq AgreeingOutcomes (advance g limit next (afterNegation first ++ gs) x)
      (advance FlatRule.react limit next (.rule .operators :: fs) x) := by
  have hc := agree_afterConjunction hg h ih ho hn
  cases first with
  | false => exact hc
  | true =>
    by_cases hp : g next .secondNegation = .pass
    · have ha : advance g limit next (afterNegation true ++ gs) x =
          advance g limit next (afterConjunction ++ gs) x := advance_pass hp
      exact ha ▸ hc
    · have hs := (hg.secondNegation next).resolve_left hp
      obtain rfl : next = some (.op .and) := by
        by_contra hand
        exact hp (hs.trans (if_neg (by cases next <;> simp_all)))
      exact agree_take hs rfl (.operand (afterNegation false) (.negation false) h)

theorem agree_afterSum (hp : ¬ next.any (·.isProduct)) (hs : ¬ next.any (·.isSum)) :
    Agree Eq AgreeingOutcomes (advance g limit next (afterSum first ++ gs) x)
      (advance FlatRule.react limit next (.rule .operators :: fs) x) := by
  have hl := hg.eq_react next .moreComparisons nofun
  by_cases hn : next = some (.op .not)
  · subst hn
    exact agree_take hl rfl (.need (.operand (afterSum first) (.sum first) h))
  have hl := hl.trans (if_neg hn)
  by_cases hc : next.any (·.isComparison)
  · exact agree_take (hl.trans (if_pos hc)) (react_operators (by simp [any_isOperator, hc]))
      (.operand (afterSum first) (.sum first) h)
  · have ha : advance g limit next (afterSum first ++ gs) x =
        advance g limit next (afterNegation first ++ gs) x :=
      advance_pass (hl.trans (if_neg hc))
    rw [ha]
    exact agree_afterNegation hg h ih first (by simp [any_isOperator, hp, hs, hc]) hn

theorem agree_afterProduct (hp : ¬ next.any (·.isProduct)) :
    Agree Eq AgreeingOutcomes (advance g limit next (afterProduct first ++ gs) x)
      (advance FlatRule.react limit next (.rule .operators :: fs) x) := by
  have hl := hg.eq_react next .moreProducts nofun
  by_cases hs : next.any (·.isSum)
  · exact agree_take (hl.trans (if_pos hs)) (react_operators (by simp [any_isOperator, hs]))
      (.operand (afterProduct first) (.product first) h)
  · have ha : advance g limit next (afterProduct first ++ gs) x =
        advance g limit next (afterSum first ++ gs) x := advance_pass (hl.trans (if_neg hs))
    rw [ha]
    exact agree_afterSum hg h ih first hp hs

theorem agree_afterSigned :
    Agree Eq AgreeingOutcomes (advance g limit next (afterSigned first ++ gs) x)
      (advance FlatRule.react limit next (.rule .operators :: fs) x) := by
  have hl := hg.eq_react next .moreFactors nofun
  by_cases hp : next.any (·.isProduct)
  · exact agree_take (hl.trans (if_pos hp)) (react_operators (by simp [any_isOperator, hp]))
      (.operand (afterSigned first) (.signed first) h)
  · have ha : advance g limit next (afterSigned first ++ gs) x =
        advance g limit next (afterProduct first ++ gs) x := advance_pass (hl.trans (if_neg hp))
    rw [ha]
    exact agree_afterProduct hg h ih first hp

end

/-- Goals that correspond take the lookahead alike, or miss the same. -/
theorem agree_advance (hg : Layered g) (limit : Option ℕ) (next : Option Terminal)
    (h : Flattens gs fs) (x : Context) :
    Agree Eq AgreeingOutcomes (advance g limit next gs x)
      (advance FlatRule.react limit next fs x) := by
  induction h generalizing x with
  | nil => exact .ok (.done x)
  | need h ih =>
    simp only [advance]
    split
    · exact .ok (.took h x)
    · exact .error rfl
  | allow h ih =>
    simp only [advance]
    split
    · exact .ok (.took h x)
    · exact ih x
  | openGroup h ih =>
    simp only [advance]
    split
    · exact ih _
    · exact .error rfl
  | closeGroup h ih =>
    simp only [advance]
    split
    · exact .ok (.took h _)
    · exact .error rfl
  | @outside r r' gs fs hr h ih =>
    have hl : g next r = react next r := hg.eq_react next r (by rintro rfl; cases hr)
    exact agree_rule (hl ▸ agreeing_outside hr) (fun _ _ hb => hb gs fs h) fun _ => ih x
  | @operand r r' gs fs later hr h ih =>
    have hl : g next r = react next r := hg.eq_react next r (by rintro rfl; cases hr)
    refine agree_rule (hl ▸ agreeing_operand hr) (fun _ _ hb => hb gs fs h) fun hp => ?_
    exact (react_operand_ne_pass hr (hl ▸ hp)).elim
  | operators first h ih => exact agree_afterSigned hg h (ih x) first

theorem run_eq_flat (hg : Layered g) (h : Flattens gs fs) (k : ℕ) (x : Context)
    (ts : List Terminal) : run g limit k gs x ts = run FlatRule.react limit k fs x ts := by
  induction ts generalizing gs fs k x with
  | nil =>
    simp only [run]
    have ha := agree_advance hg limit none h x
    generalize advance g limit none gs x = a, advance FlatRule.react limit none fs x = b at ha
    cases ha with
    | error h => exact h ▸ rfl
    | ok h => cases h <;> rfl
  | cons t ts ih =>
    simp only [run]
    have ha := agree_advance hg limit (some t) h x
    generalize advance g limit (some t) gs x = a,
      advance FlatRule.react limit (some t) fs x = b at ha
    cases ha with
    | error h => exact h ▸ rfl
    | ok h =>
      cases h with
      | took h y => exact ih h (k + 1) y
      | done y => rfl

end Rule

namespace FlatRule

variable {s : FlatRule.Start} {u : Option Terminal} {r : FlatRule}
  {goals body : List (Goal FlatRule)}

/-- The goals that are owed ask for exact terminals. -/
def Start.IsExact (s : FlatRule.Start) : Prop := ∀ u body, s u = .ok body → body.all Goal.isExact

theorem isExact_startValue : startValue.IsExact := by
  intro u body h
  unfold startValue at h
  split at h
  · cases h
    rfl
  · cases h
    rfl
  · cases h
    rfl
  · split at h <;> cases h
    rfl

theorem isExact_startSigned : startSigned.IsExact := by
  intro u body h
  unfold startSigned at h
  split at h
  · cases h
    rfl
  · exact isExact_startValue u body h

theorem isExact_startOperand : startOperand.IsExact := by
  intro u body h
  unfold startOperand at h
  split at h
  · cases h
    rfl
  · exact isExact_startSigned u body h

theorem Start.IsExact.followedBy (hs : s.IsExact) (hgoals : goals.all Goal.isExact) :
    (s.followedBy goals).IsExact := by
  intro u body h
  unfold Start.followedBy at h
  cases hu : s u with
  | error => rw [hu] at h; cases h
  | ok owed =>
    rw [hu] at h
    cases h
    rw [List.all_append, hs u owed hu, hgoals, Bool.and_self]

theorem Start.IsExact.react (hs : s.IsExact) (h : s.react u = .take body) :
    body.all Goal.isExact := by
  unfold Start.react at h
  split at h <;> cases h
  exact hs u body ‹_›

theorem isExact_startExpression : startExpression.IsExact := isExact_startOperand.followedBy rfl

theorem isExact_takeIf {wanted : Terminal → Bool} (hgoals : goals.all Goal.isExact)
    (h : takeIf u wanted goals = .take body) : body.all Goal.isExact := by
  unfold takeIf at h
  split at h <;> cases h
  exact hgoals

theorem isExact_react (h : react u r = .take body) : body.all Goal.isExact := by
  cases r with
  | expression => exact isExact_startExpression.react h
  | operand => exact isExact_startOperand.react h
  | signed => exact isExact_startSigned.react h
  | value => exact isExact_startValue.react h
  | operators =>
    simp only [react] at h
    split at h
    · cases h
      rfl
    · split at h
      · cases h
        rfl
      · exact isExact_takeIf rfl h
  | arguments =>
    simp only [react] at h
    split at h
    · cases h
    · exact (isExact_startExpression.followedBy rfl).react h
  | elements | laterElement =>
    simp only [react] at h
    split at h
    · cases h
    · split at h
      · cases h
      · exact (isExact_startExpression.followedBy rfl).react h
  | moreElements =>
    simp only [react] at h
    split at h
    · cases h
      rfl
    · exact isExact_takeIf rfl h
  | call | moreArguments | rangeStep => exact isExact_takeIf rfl h

end FlatRule

namespace Parser

/-- The rules in layers, but without a second `and` inside of a conjunction. -/
def reactOnce : Rules Rule
  | _, _, .secondNegation => .pass
  | p, next, r => p.react next r

theorem follows_reactOnce : Follows reactOnce Rule.reactOnce where
  react_eq h r := by
    cases r <;> first | rfl | exact react_eq h _
  isExact {p next r body} h := by
    cases r <;> first | cases h | exact isExact_react h
  none_ne_take r body h := by
    cases r <;> cases h

theorem follows_flat : Follows (reading FlatRule.react) FlatRule.react :=
  follows_reading (fun _ _ _ h => FlatRule.isExact_react h) fun r body h => by
    cases r <;> cases h

/-- An expression is read in layers as in one layer, whatever stands before it and after it: with
the same tokens left and the same remembered, or with the same error. The second `and` that a
conjunction may have makes no difference to that. -/
theorem run_expression_flat (limit : Option ℕ) (x : Context) (previous : Option Token)
    (ts : List Token) :
    (before x previous ts).run react limit [.rule .expression] ts =
        (before x previous ts).run (reading FlatRule.react) limit [.rule .expression] ts ∧
      (before x previous ts).run reactOnce limit [.rule .expression] ts =
        (before x previous ts).run react limit [.rule .expression] ts := by
  have h : Rule.Flattens [.rule .expression] [.rule .expression] := .outside .expression .nil
  have hs : (before x previous ts).InStep ts.head? := rfl
  have hflat := alike_run limit follows_flat hs [.rule .expression] rfl
  have hall := alike_run limit follows_react hs [.rule .expression] rfl
  have honce := alike_run limit follows_reactOnce hs [.rule .expression] rfl
  rw [Rule.run_eq_flat Rule.layered_react h] at hall
  rw [Rule.run_eq_flat Rule.layered_reactOnce h] at honce
  exact ⟨hall.eq hflat, honce.eq hall⟩

end Parser

end RookLang
