import RookLang.Proofs.Completion
import RookLang.Proofs.Statements

/-! The rules of the grammar stand for words: those that complete what they owe. -/
namespace RookLang.Rule
open Recogniser Words Phrase Terminal Computability

/-- The words that a rule stands for. -/
def words : Rule → Words
  | program => fun d => {w | ∃ n, w ∈ programs none n d}
  | statements => Phrase.statements.words none
  | statement => simple.words none * (letters [newline] + 1) + compound.words none
  | statementEnd => letters [newline] + 1
  | returnedValue => Phrase.expression.words none + 1
  | identifierUse => identifierTail none
  | moreTargets => targetTail none
  | assignedValue => assigned.words none
  | moreAssignedValues => (letters [comma] * assigned.words none)∗
  | printArguments => printed none + 1
  | printArgument => printed none
  | morePrintArguments => printTail none
  | arguments => Phrase.expression.words none * argumentsTail none + 1
  | moreArguments => argumentsTail none
  | branches => Phrase.branches none
  | clauses => Phrase.clauses none
  | instanceGuard => (letters relations + 1) * letters patterns
  | instancePattern => letters patterns
  | secondLoopVariable => letters [comma] * letters [identifier] + 1
  | iterable => array.words none + letters [identifier]
  | parameters => Phrase.parameters none
  | parameterDefault => letters [assign] * Phrase.expression.words none + 1
  | expression => Phrase.expression.words none
  | moreConjunctions => (letters junctions * Phrase.conjunction.words none)∗
  | conjunction => Phrase.conjunction.words none
  | secondNegation => letters [op .and] * Phrase.negation.words none + 1
  | negation => Phrase.negation.words none
  | comparison => Phrase.comparison.words none
  | moreComparisons => comparisonTail none
  | sum => Phrase.sum.words none
  | moreProducts => (letters sums * Phrase.product.words none)∗
  | product => Phrase.product.words none
  | moreFactors => (letters products * Phrase.signed.words none)∗
  | signed => Phrase.signed.words none
  | value => Phrase.value.words none
  | call => Phrase.arguments.words none + 1
  | elements | laterElement => Phrase.expression.words none * elementsTail none + 1
  | moreElements => elementsTail none
  | rangeStep =>
    letters [word .step] * ((letters [sign .colon] + 1) * letters [plain .number]) + 1

/-- The lookaheads before which a rule may stand for the empty word. -/
def idle : Rule → Set (Option Terminal)
  | statementEnd => {next | next.all (·.endsLine)}
  | _ => Set.univ

/-- What completes the goals starts with a word of `M`. -/
abbrev Owe (gs : List (Goal Rule)) (M : Words) : Prop := Yields words idle gs M

theorem owe_rule (r : Rule) : Owe [.rule r] (words r) := Yields.rule r

/-- What the rule owes after a terminal completes its words. -/
structure Explained (r : Rule) : Prop where
  take {t body} (h : react (some t) r = .take body) : Owe body (after t (words r))
  pass {t} (h : react (some t) r = .pass) : (∀ d, [] ∈ words r d) ∧ some t ∈ idle r

/-- What is owed after the first terminal of a word of `M` completes it. -/
def Start.Opens (s : Start) (M : Words) : Prop :=
  ∀ t gs, s (some t) = .ok gs → Owe gs (after t M)

variable {s : Start} {r r' : Rule} {gs : List (Goal Rule)} {M N : Words} {t : Terminal}
  {ts : List Terminal} {p : Terminal → Bool}

theorem after_mul_le : after t M * N ≤ after t (M * N) := by
  intro d w hw
  obtain ⟨u, hu, v, hv, rfl⟩ := mem_mul.mp hw
  exact mem_mul.mpr ⟨t :: u, hu, v, hv, rfl⟩

theorem Start.exists_of_followedBy {next : Option Terminal} {body : List (Goal Rule)}
    (h : s.followedBy gs next = .ok body) : ∃ owed, s next = .ok owed ∧ body = owed ++ gs := by
  unfold Start.followedBy at h
  cases hs : s next <;> rw [hs] at h <;> cases h
  exact ⟨_, rfl, rfl⟩

theorem Start.Opens.followedBy (h : s.Opens M) (h' : Owe gs N) :
    (s.followedBy gs).Opens (M * N) := by
  intro t body hs
  obtain ⟨owed, hst, rfl⟩ := Start.exists_of_followedBy hs
  exact ((h t owed hst).append h').mono after_mul_le

theorem Start.react_eq_take {body : List (Goal Rule)} {next : Option Terminal}
    (h : s.react next = .take body) : s next = .ok body := by
  unfold Start.react at h
  split at h
  · cases h
    assumption
  · cases h

/-- A rule that takes or refuses every terminal. -/
theorem explained_start (h : s.Opens (words r)) (hr : ∀ t, react (some t) r = s.react (some t)) :
    Explained r where
  take {t body} ht := h t body (Start.react_eq_take (hr t ▸ ht))
  pass {t} ht := (Start.react_ne_pass (hr t ▸ ht)).elim

/-- A rule that does as a start does, or leaves or refuses a terminal. -/
theorem explained_unless (h : s.Opens M) (hw : words r = M + 1) (hi : idle r = Set.univ)
    (hr : ∀ t, react (some t) r = s.react (some t) ∨ ∀ gs, react (some t) r ≠ .take gs) :
    Explained r where
  take {t body} ht := by
    rw [hw, after_add, after_one, add_zero]
    rcases hr t with hs | hn
    · exact h t body (Start.react_eq_take (hs ▸ ht))
    · exact (hn body ht).elim
  pass {t} _ := ⟨fun d => hw ▸ mem_add.mpr (.inr rfl), hi ▸ Set.mem_univ _⟩

/-- A rule that takes some terminals and leaves the others. -/
theorem explained_takeIf (hr : ∀ next, react next r = takeIf next p gs) (hp : ∀ t, p t ↔ t ∈ ts)
    (h : Owe gs M) (hw : words r = letters ts * M + 1) (hi : idle r = Set.univ) : Explained r where
  take {t body} ht := by
    rw [hr, takeIf_some hp] at ht
    split at ht
    · rename_i hts
      cases ht
      rw [hw, after_option, if_pos hts]
      exact h
    · cases ht
  pass {t} _ := ⟨fun d => hw ▸ mem_add.mpr (.inr rfl), hi ▸ Set.mem_univ _⟩

/-- A rule that goes on as long as some terminals come. -/
theorem explained_loop (gs : List (Goal Rule))
    (hr : ∀ next, react next r = takeIf next p (gs ++ [Goal.rule r]))
    (hp : ∀ t, p t ↔ t ∈ ts) (h : Owe gs M) (hw : words r = (letters ts * M)∗)
    (hi : idle r = Set.univ) : Explained r := by
  refine explained_takeIf hr hp (h.append (owe_rule r)) ?_ hi
  rw [hw, ← mul_assoc]
  conv_lhs => rw [← one_add_mul_kstar, add_comm]

/-- A start that may take one of `ts` before another start. -/
theorem Start.Opens.optional {s' : Start} (h : s.Opens M) (h' : Owe gs M)
    (hp : ∀ t, p t ↔ t ∈ ts)
    (hs : ∀ t, s' (some t) = if p t then .ok gs else s (some t)) :
    s'.Opens ((letters ts + 1) * M) := by
  intro t gs' ht
  rw [add_mul, one_mul, after_add, after_letters_mul]
  rw [hs] at ht
  split at ht
  · rename_i hpt
    obtain rfl := Except.ok.inj ht
    rw [if_pos ((hp t).mp hpt)]
    exact h'.mono (le_add_right le_rfl)
  · exact (h t gs' ht).mono (le_add_left le_rfl)

/-! The parts of expressions. -/

theorem owe_callArguments : Owe callArguments
    (deeper none (Phrase.expression.words none * argumentsTail none + 1) *
      letters [.sign .rightParen]) :=
  Yields.grouped (owe_rule .arguments)

theorem owe_arrayElements : Owe arrayElements
    (deeper none (Phrase.expression.words none * elementsTail none + 1) *
      letters [.sign .rightBracket]) :=
  Yields.grouped (owe_rule .elements)

theorem opens_startValue : startValue.Opens (Phrase.value.words none) := by
  intro t gs ht
  obtain ⟨rfl, h⟩ | ⟨rfl, h⟩ | ⟨rfl, h⟩ | ⟨hl, h⟩ | ⟨-, h⟩ := startValue_cases t
  all_goals
    rw [h] at ht
    cases ht
  · have ha : after identifier (Phrase.value.words none) = Phrase.arguments.words none + 1 := by
      simp [after_value, literals, patterns]
    exact ha ▸ owe_rule .call
  · have ha : after (.sign .leftBracket) (Phrase.value.words none) =
        deeper none (Phrase.expression.words none * elementsTail none + 1) *
          letters [.sign .rightBracket] := by
      simp [after_value, literals, patterns]
    exact ha ▸ owe_arrayElements
  · have ha : after (.sign .leftParen) (Phrase.value.words none) =
        deeper none (Phrase.expression.words none) * letters [.sign .rightParen] := by
      simp [after_value, literals, patterns]
    exact ha ▸ Yields.grouped (owe_rule .expression)
  · have ha : after t (Phrase.value.words none) = 1 := by
      simp only [literals, patterns, List.mem_cons, List.not_mem_nil, or_false] at hl
      rcases hl with rfl | rfl | rfl | rfl <;> simp [after_value, literals, patterns]
    exact ha ▸ Yields.nil

theorem opens_startSigned : startSigned.Opens (Phrase.signed.words none) := by
  rw [words_signed]
  exact Start.Opens.optional opens_startValue (owe_rule .value) (fun _ => isSum_iff) fun _ => rfl

theorem opens_startProduct : startProduct.Opens (Phrase.product.words none) := by
  rw [words_product]
  exact Start.Opens.followedBy opens_startSigned (owe_rule .moreFactors)

theorem opens_startSum : startSum.Opens (Phrase.sum.words none) := by
  rw [words_sum]
  exact Start.Opens.followedBy opens_startProduct (owe_rule .moreProducts)

theorem opens_startComparison : startComparison.Opens (Phrase.comparison.words none) := by
  rw [words_comparison]
  exact Start.Opens.followedBy opens_startSum (owe_rule .moreComparisons)

theorem opens_startNegation : startNegation.Opens (Phrase.negation.words none) := by
  rw [words_negation]
  refine Start.Opens.optional opens_startComparison (p := (· == .op .not)) (owe_rule .comparison)
    (beq_iff_mem _) fun t => ?_
  simp [startNegation]

theorem words_conjunction : Phrase.conjunction.words none = Phrase.negation.words none *
    (letters [op .and] * Phrase.negation.words none + 1) := by
  simp only [words_eq Phrase.conjunction, form, Form.words_seq, Form.words_optional,
    Form.words_oneOf, Form.words_phrase]

theorem opens_startConjunction : startConjunction.Opens (Phrase.conjunction.words none) := by
  rw [words_conjunction]
  exact Start.Opens.followedBy opens_startNegation (owe_rule .secondNegation)

theorem opens_startExpression : startExpression.Opens (Phrase.expression.words none) := by
  have hw : Phrase.expression.words none = Phrase.conjunction.words none *
      (letters junctions * Phrase.conjunction.words none)∗ := by
    simp only [words_eq Phrase.expression, form, Form.words_seq, Form.words_many,
      Form.words_oneOf, Form.words_phrase]
  rw [hw]
  exact Start.Opens.followedBy opens_startConjunction (owe_rule .moreConjunctions)

end RookLang.Rule
