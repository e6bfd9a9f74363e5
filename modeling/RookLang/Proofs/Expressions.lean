import RookLang.Proofs.Table
import RookLang.Proofs.Grammar.Phrases
import RookLang.Proofs.Reads

/-! The goals of expressions read the words of their phrases. -/
namespace RookLang

namespace Terminal

variable {t : Terminal}

theorem beq_iff_mem (u t : Terminal) : t == u ↔ t ∈ [u] := by simp

theorem isSum_iff : t.isSum ↔ t ∈ sums := by
  unfold isSum Kind.isSum
  split
  · split <;> simp_all [sums]
  · simp_all [sums]

theorem isProduct_iff : t.isProduct ↔ t ∈ products := by
  unfold isProduct Kind.isProduct
  split
  · split <;> simp_all [products]
  · simp_all [products]

theorem isJunction_iff : t.isJunction ↔ t ∈ junctions := by
  unfold isJunction Kind.isJunction
  split
  · split <;> simp_all [junctions]
  · simp_all [junctions]

theorem isRelational_iff : t.isRelational ↔ t ∈ relations := by
  unfold isRelational Kind.isRelational Kind.operator?
  split
  · split
    · rename_i o
      cases o <;> decide
    · simp_all [relations]
  · simp_all [relations]

theorem isComparison_iff : t.isComparison ↔ t ∈ .word .in_ :: relations := by
  unfold isComparison
  split <;> simp_all [isRelational_iff]

theorem isLiteral_iff : t.isLiteral ↔ t ∈ literals := by
  unfold isLiteral Kind.isLiteral
  split
  · split <;> simp_all [literals, patterns]
  · simp_all [literals, patterns]

end Terminal

namespace Rule
open Recogniser Words Phrase Terminal Computability

variable {limit : Option ℕ} {n : ℕ} {next : Option Terminal} {r r' : Rule} {s : Start}
  {gs : List (Goal Rule)} {L : Words} {eager : Set (Option Terminal)} {t : Terminal}
  {ts us : List Terminal} {p : Terminal → Bool}

theorem alike_followedBy (h : react next r = (s.followedBy gs).react next)
    (h' : react next r' = s.react next) : Alike react limit next [.rule r] (.rule r' :: gs) := by
  intro goals x
  cases hs : s next <;>
    simp [advance, h, h', Start.react, Start.followedBy, hs, Except.map]

theorem takeIf_some (hp : ∀ t, p t ↔ t ∈ ts) :
    takeIf (some t) p gs = if t ∈ ts then .take gs else .pass := by
  simp [takeIf, hp]

/-- A rule that only some lookaheads start. -/
theorem reads_takeIf (hr : ∀ next, react next r = takeIf next p gs) (hp : ∀ t, p t ↔ t ∈ ts)
    (h : Reads react limit n gs L eager) :
    Reads react limit (n + 1) [.rule r] (letters ts * L + 1) (eager ∪ among ts) := by
  refine .of_at fun next => ?_
  cases next with
  | none => exact .pass (hr none) (fun _ => mem_add.mpr (.inr rfl)) trivial
  | some t =>
    by_cases ht : t ∈ ts
    · refine .take (by rw [hr, takeIf_some hp, if_pos ht]) ?_ (.inl (.inr (by simpa)))
      rw [after_option, if_pos ht]
      exact h.widen Set.subset_union_left
    · refine .pass (by rw [hr, takeIf_some hp, if_neg ht]) (fun _ => mem_add.mpr (.inr rfl)) ?_
      exact after_option.trans (if_neg ht)

/-- A rule that only some lookaheads start, and that goes on as long as they come. -/
theorem reads_loop (hr : ∀ next, react next r = takeIf next p (gs ++ [Goal.rule r]))
    (hp : ∀ t, p t ↔ t ∈ ts) (h : Reads react limit n gs L (among us))
    (hu : ∀ t ∈ us, t ∉ ts) :
    Reads react limit n [.rule r] (letters ts * L)∗ (among (us ++ ts)) := by
  induction n with
  | zero => exact .zero
  | succ n ih =>
    refine .of_at fun next => ?_
    cases next with
    | none => exact .pass (hr none) (fun _ => nil_mem_kstar) trivial
    | some t =>
      by_cases ht : t ∈ ts
      · refine .take (by rw [hr, takeIf_some hp, if_pos ht]) ?_ (.inl (by simp [ht]))
        rw [after_loop, if_pos ht]
        have h := h.mono (Nat.le_succ n)
        refine h.append_among (ih h) (fun t hus => after_loop.trans (if_neg (hu t hus))) (.inl ?_)
        exact among_mono (List.subset_append_left ..)
      · refine .pass (by rw [hr, takeIf_some hp, if_neg ht]) (fun _ => nil_mem_kstar) ?_
        exact after_loop.trans (if_neg ht)

/-- A rule that reads the words of another and goes on as long as certain lookaheads come. -/
theorem reads_chain {m : Rule} (ha : ∀ next, Alike react limit next [.rule r'] [.rule r, .rule m])
    (hr : ∀ next, react next m = takeIf next p [.rule r, .rule m]) (hp : ∀ t, p t ↔ t ∈ ts)
    (h : Reads react limit n [.rule r] L (among us)) (hu : ∀ t ∈ us, t ∉ ts) :
    Reads react limit n [.rule r'] (L * (letters ts * L)∗) (among (us ++ ts)) := by
  have hl : Reads react limit n [.rule m] (letters ts * L)∗ (among (us ++ ts)) :=
    reads_loop hr hp h hu
  refine (h.cons_among hl ?_ (.inl ?_)).alike ha
  · exact fun t hus => after_loop.trans (if_neg (hu t hus))
  · exact among_mono (List.subset_append_left ..)

/-- A rule that may start with one of `ts` before another. -/
theorem reads_prefix (hts : ∀ t ∈ ts, react (some t) r = .take [.rule r'])
    (hr : ∀ next, next ∉ among ts → react next r = react next r') (hnil : ∀ d, [] ∉ L d)
    (h : Reads react limit (n + 1) [.rule r'] L eager) (hs : ∀ t ∈ ts, after t L = 0) :
    Reads react limit (n + 1) [.rule r] ((letters ts + 1) * L) eager := by
  rw [add_mul, one_mul]
  have hnil' d : [] ∉ (letters ts * L) d := fun hd => hnil d (nil_mem_mul.mp hd).2
  refine .of_at fun next => ?_
  by_cases hn : next ∈ among ts
  · obtain ⟨t, ht, rfl⟩ := hn
    refine .take (hts t ht) ?_ (.inr fun d hd => (mem_add.mp hd).elim (hnil' d) (hnil d))
    rw [after_add, after_letters_mul, if_pos ht, hs t ht, add_zero]
    exact h.mono (Nat.le_succ n)
  · have ha : Alike react limit next [.rule r] [.rule r'] := by
      intro goals x
      simp [advance, hr next hn]
    refine ((h.at next).alike ha).add_left ?_ hnil'
    cases next with
    | none => trivial
    | some t => exact after_letters_mul.trans (if_neg (by simpa using hn))

end Rule

namespace Phrase
open Recogniser Rule.Start Words Terminal Computability

variable {limit : Option ℕ} {n : ℕ}

/-! What the goals of an expression may go on to take after a complete word. -/

def productEager : List Terminal := [.sign .leftParen] ++ products

def sumEager : List Terminal := productEager ++ sums

def comparisonEager : List Terminal := sumEager ++ (op .not :: word .in_ :: relations)

def expressionEager : List Terminal := comparisonEager ++ junctions

theorem eager_ne_comma : ∀ t ∈ expressionEager, t ∉ [comma] := by decide

theorem eager_ne_to : ∀ t ∈ expressionEager, t ∉ [word .to_] := by decide

section
variable (hE : Reads Rule.react limit n [.rule .expression] (expression.words limit)
  (among expressionEager))
include hE

theorem reads_arguments : Reads Rule.react limit n [.rule .arguments]
    (expression.words limit * argumentsTail limit + 1) {some (.sign .rightParen)}ᶜ := by
  induction n with
  | zero => exact .zero
  | succ n ih =>
    have ht : Reads Rule.react limit (n + 1) [.rule .moreArguments] (argumentsTail limit)
        {some (.sign .rightParen)}ᶜ := by
      rw [argumentsTail_eq]
      refine (Rule.reads_takeIf (fun _ => rfl) (beq_iff_mem _)
        (ih (hE.mono (Nat.le_succ n)))).widen ?_
      exact Set.union_subset subset_rfl (among_subset_compl (by decide))
    refine .of_at fun next => ?_
    by_cases hn : next = some (.sign .rightParen)
    · subst hn
      refine .pass rfl (fun _ => mem_add.mpr (.inr rfl)) ?_
      exact (startsIn_expression.mul.after_add_one (by decide))
    · refine (((hE.append_among ht ?_ ?_).at next).alike ?_).add_one hn
      · intro t h
        rw [after_argumentsTail, if_neg (eager_ne_comma t h)]
      · exact .inl (among_subset_compl (by decide))
      · apply Rule.alike_followedBy (s := Rule.startExpression)
        · simp [Rule.react, hn]
        · rfl

/-- The elements of an array, at its start and after a comma. -/
theorem reads_elements {r : Rule} (hclose : Rule.react (some (.sign .rightBracket)) r = .pass)
    (hto : ∃ missing, Rule.react (some (.word .to_)) r = .refuse missing)
    (hr : ∀ next, next ≠ some (.sign .rightBracket) → next ≠ some (.word .to_) →
      Rule.react next r = (Rule.startExpression.followedBy [.rule .moreElements]).react next)
    (ht : Reads Rule.react limit n [.rule .moreElements] (elementsTail limit)
      {some (.sign .rightBracket)}ᶜ) :
    Reads Rule.react limit n [.rule r] (expression.words limit * elementsTail limit + 1)
      {some (.sign .rightBracket)}ᶜ := by
  refine .of_at fun next => ?_
  by_cases hn : next = some (.sign .rightBracket)
  · subst hn
    refine .pass hclose (fun _ => mem_add.mpr (.inr rfl)) ?_
    exact startsIn_expression.mul.after_add_one (by decide)
  · by_cases hn' : next = some (.word .to_)
    · subst hn'
      obtain ⟨missing, hto⟩ := hto
      exact .refuse hto (startsIn_expression.mul.after_add_one (by decide)) (.inl hn)
    · refine (((hE.append_among ht ?_ ?_).at next).alike ?_).add_one hn
      · intro t h
        rw [after_elementsTail, if_neg (eager_ne_comma t h), if_neg (eager_ne_to t h), add_zero]
      · exact .inl (among_subset_compl (by decide))
      · exact Rule.alike_followedBy (hr next hn hn') rfl

end

theorem reads_rangeTail : Reads Rule.react limit n
    [.need (plain .number) (.rangeNumber .to_), .rule .rangeStep] rangeTail
      (among [word .step]) := by
  refine Reads.cons .need ?_ (by simp) (.inl (by simp))
  have hs : Reads Rule.react limit n
      [.allow (sign .colon), .need (plain .number) (.rangeNumber .step)]
      ((letters [sign .colon] + 1) * letters [plain .number]) ∅ := by
    refine Reads.cons_among .allow .need ?_ (.inr (by simp))
    simp [after_letters]
  have h := Rule.reads_takeIf (r := .rangeStep) (fun _ => rfl) (beq_iff_mem (word .step)) hs
  exact (h.mono (Nat.le_succ n)).widen (by simp)

theorem reads_moreElements
    (hE : Reads Rule.react limit n [.rule .expression] (expression.words limit)
      (among expressionEager)) :
    Reads Rule.react limit n [.rule .moreElements] (elementsTail limit)
      {some (.sign .rightBracket)}ᶜ := by
  induction n with
  | zero => exact .zero
  | succ n ih =>
    have hE := hE.mono (Nat.le_succ n)
    have hl : Reads Rule.react limit n [.rule .laterElement]
        (expression.words limit * elementsTail limit + 1) {some (.sign .rightBracket)}ᶜ := by
      refine reads_elements hE rfl ⟨_, rfl⟩ ?_ (ih hE)
      intro next hclose hto
      simp only [Rule.react]
    have hnil d : [] ∈ elementsTail limit d := by
      rw [elementsTail_eq]
      exact mem_add.mpr (.inr (mem_add.mpr (.inr rfl)))
    refine .of_at fun next => ?_
    cases next with
    | none => exact .pass rfl hnil trivial
    | some t =>
      by_cases hc : t = comma
      · subst hc
        have hr : Rule.react (some comma) .moreElements = .take [.rule .laterElement] := rfl
        refine .take hr ?_ (.inl (by simp))
        simpa [after_elementsTail] using hl
      · by_cases hto : t = word .to_
        · subst hto
          refine .take rfl ?_ (.inl (by simp))
          have h : after (word .to_) (elementsTail limit) = rangeTail := by
            simp [after_elementsTail]
          exact h ▸ reads_rangeTail.widen (among_subset_compl (by decide))
        · refine .pass ?_ hnil ?_
          · simp only [Rule.react]
            split <;> simp_all
          · simp [after_elementsTail, hc, hto]

theorem startValue_cases (t : Terminal) :
    (t = identifier ∧ Rule.startValue (some t) = .ok [.rule .call]) ∨
    (t = .sign .leftBracket ∧ Rule.startValue (some t) = .ok Rule.arrayElements) ∨
    (t = .sign .leftParen ∧
      Rule.startValue (some t) = .ok (Rule.grouped .paren [.rule .expression])) ∨
    (t ∈ literals ∧ Rule.startValue (some t) = .ok []) ∨
    (t ∉ valueStarts ∧ Rule.startValue (some t) = .error .expression) := by
  unfold Rule.startValue
  split
  · simp_all
  · simp_all
  · simp_all
  · by_cases h : t ∈ literals
    · simp [h, isLiteral_iff]
    · simp_all [valueStarts, isLiteral_iff]

section
variable (hE : Reads Rule.react limit n [.rule .expression] (expression.words limit)
  (among expressionEager))
include hE

theorem reads_callArguments : Reads Rule.react limit n Rule.callArguments
    (deeper limit (expression.words limit * argumentsTail limit + 1) *
      letters [.sign .rightParen]) ∅ :=
  (reads_arguments hE).grouped (by simp [Group.closer])

theorem reads_arrayElements : Reads Rule.react limit n Rule.arrayElements
    (deeper limit (expression.words limit * elementsTail limit + 1) *
      letters [.sign .rightBracket]) ∅ := by
  refine Reads.grouped (reads_elements hE rfl ⟨_, rfl⟩ ?_ (reads_moreElements hE))
    (by simp [Group.closer])
  intro next hclose hto
  simp only [Rule.react]

theorem reads_call : Reads Rule.react limit (n + 1) [.rule .call] (arguments.words limit + 1)
    (among [.sign .leftParen]) := by
  rw [words_arguments]
  exact (Rule.reads_takeIf (fun _ => rfl) (by simp) (reads_callArguments hE)).widen (by simp)

theorem reads_value : Reads Rule.react limit (n + 1) [.rule .value] (value.words limit)
    (among [.sign .leftParen]) := by
  have hnil : ∀ d, [] ∉ value.words limit d := startsIn_value.nil_notMem
  refine .of_at fun next => ?_
  cases next with
  | none => exact .refuse rfl trivial (.inr hnil)
  | some t =>
    obtain ⟨rfl, h⟩ | ⟨rfl, h⟩ | ⟨rfl, h⟩ | ⟨ht, h⟩ | ⟨ht, h⟩ := startValue_cases t
    · have ha : after identifier (value.words limit) = arguments.words limit + 1 := by
        simp [after_value, literals, patterns]
      have hr : Rule.react (some identifier) .value = .take [.rule .call] := rfl
      exact .take hr (ha ▸ (reads_call hE).mono (Nat.le_succ n)) (.inr hnil)
    · have ha : after (.sign .leftBracket) (value.words limit) =
          deeper limit (expression.words limit * elementsTail limit + 1) *
            letters [.sign .rightBracket] := by
        simp [after_value, literals, patterns]
      exact .take rfl (ha ▸ (reads_arrayElements hE).widen (Set.empty_subset _)) (.inr hnil)
    · have ha : after (.sign .leftParen) (value.words limit) =
          deeper limit (expression.words limit) * letters [.sign .rightParen] := by
        simp [after_value, literals, patterns]
      have hg : Reads Rule.react limit n (Rule.grouped .paren [.rule .expression])
          (deeper limit (expression.words limit) * letters [.sign .rightParen]) ∅ :=
        hE.grouped (by rw [some_mem_among]; decide)
      exact .take rfl (ha ▸ hg.widen (Set.empty_subset _)) (.inr hnil)
    · have ha : after t (value.words limit) = 1 := by
        simp only [literals, patterns, List.mem_cons, List.not_mem_nil, or_false] at ht
        rcases ht with rfl | rfl | rfl | rfl <;> simp [after_value, literals, patterns]
      have hr : Rule.react (some t) .value = .take [] := by
        simp [Rule.react, Rule.Start.react, h]
      refine .take hr ?_ (.inr hnil)
      rw [ha]
      exact Reads.nil
    · refine .refuse (by simp [Rule.react, Rule.Start.react, h]; rfl) ?_ (.inr hnil)
      exact startsIn_value.after_eq_zero t ht

end

theorem reads_signed (h : Reads Rule.react limit (n + 1) [.rule .value] (value.words limit)
    (among [.sign .leftParen])) :
    Reads Rule.react limit (n + 1) [.rule .signed] (signed.words limit)
      (among [.sign .leftParen]) := by
  rw [words_signed]
  refine Rule.reads_prefix ?_ ?_ startsIn_value.nil_notMem h ?_
  · intro t ht
    simp [Rule.react, Rule.Start.react, Rule.startSigned, isSum_iff, ht]
  · intro next hn
    have hs : next.any (·.isSum) = false := by
      cases next <;> simp_all [← isSum_iff]
    simp [Rule.react, Rule.Start.react, Rule.startSigned, hs]
  · exact fun t ht => startsIn_value.after_eq_zero t (by revert t; decide)

theorem reads_product (h : Reads Rule.react limit n [.rule .signed] (signed.words limit)
    (among [.sign .leftParen])) :
    Reads Rule.react limit n [.rule .product] (product.words limit) (among productEager) := by
  rw [words_product]
  exact Rule.reads_chain (m := .moreFactors) (fun _ => Rule.alike_followedBy rfl rfl)
    (fun _ => rfl) (fun _ => isProduct_iff) h (by decide)

theorem reads_sum (h : Reads Rule.react limit n [.rule .product] (product.words limit)
    (among productEager)) :
    Reads Rule.react limit n [.rule .sum] (sum.words limit) (among sumEager) := by
  rw [words_sum]
  exact Rule.reads_chain (m := .moreProducts) (fun _ => Rule.alike_followedBy rfl rfl)
    (fun _ => rfl) (fun _ => isSum_iff) h (by decide)

theorem after_comparisonTail_of_eager {t : Terminal} (ht : t ∈ sumEager) :
    after t (comparisonTail limit) = 0 := by
  rw [after_comparisonTail, if_neg (by revert t; decide), if_neg (by revert t; decide), add_zero]

theorem reads_moreComparisons (h : Reads Rule.react limit n [.rule .sum] (sum.words limit)
    (among sumEager)) :
    Reads Rule.react limit n [.rule .moreComparisons] (comparisonTail limit)
      (among comparisonEager) := by
  induction n with
  | zero => exact .zero
  | succ n ih =>
    have h := h.mono (Nat.le_succ n)
    have hm : Reads Rule.react limit n [.rule .sum, .rule .moreComparisons]
        (sum.words limit * comparisonTail limit) (among comparisonEager) :=
      h.cons_among (ih h) (fun _ => after_comparisonTail_of_eager)
        (.inl (among_mono (by decide)))
    have hnil d : [] ∈ comparisonTail limit d := nil_mem_kstar
    refine .of_at fun next => ?_
    cases next with
    | none => exact .pass rfl hnil trivial
    | some t =>
      by_cases hn : t = op .not
      · subst hn
        have ha : after (op .not) (comparisonTail limit) =
            letters [word .in_] * (sum.words limit * comparisonTail limit) := by
          rw [after_comparisonTail, if_neg (by decide), if_pos (by decide), zero_add]
        refine .take rfl ?_ (.inl (some_mem_among.mpr (by decide)))
        rw [ha]
        exact Reads.cons .need hm (by simp) (.inl (Set.empty_subset _))
      · have hr : Rule.react (some t) .moreComparisons =
            if t ∈ relations ++ [word .in_] then .take [.rule .sum, .rule .moreComparisons]
              else .pass := by
          simp only [Rule.react, Option.some.injEq, hn, if_false]
          exact Rule.takeIf_some fun t => by simp [isComparison_iff, or_comm]
        by_cases ht : t ∈ relations ++ [word .in_]
        · refine .take (by rw [hr, if_pos ht]) ?_ (.inl (some_mem_among.mpr ?_))
          · rw [after_comparisonTail, if_pos ht, if_neg (by simpa using hn), add_zero]
            exact hm
          · exact (by decide : relations ++ [word .in_] ⊆ comparisonEager) ht
        · refine .pass (by rw [hr, if_neg ht]) hnil ?_
          change after t (comparisonTail limit) = 0
          rw [after_comparisonTail, if_neg ht, if_neg (by simpa using hn), add_zero]

theorem reads_comparison (h : Reads Rule.react limit n [.rule .sum] (sum.words limit)
    (among sumEager)) :
    Reads Rule.react limit n [.rule .comparison] (comparison.words limit)
      (among comparisonEager) := by
  rw [words_comparison]
  exact (h.cons_among (reads_moreComparisons h)
    (fun _ => after_comparisonTail_of_eager) (.inl (among_mono (by decide)))).alike
      fun _ => Rule.alike_followedBy rfl rfl

theorem reads_negation (h : Reads Rule.react limit (n + 1) [.rule .comparison]
    (comparison.words limit) (among comparisonEager)) :
    Reads Rule.react limit (n + 1) [.rule .negation] (negation.words limit)
      (among comparisonEager) := by
  rw [words_negation]
  refine Rule.reads_prefix ?_ ?_ startsIn_comparison.nil_notMem h ?_
  · simp [Rule.react, Rule.Start.react, Rule.startNegation]
  · intro next hn
    have hn : next ≠ some (op .not) := by simpa [among] using hn
    simp [Rule.react, Rule.Start.react, Rule.startNegation, hn]
  · exact fun t ht => startsIn_comparison.after_eq_zero t (by revert t; decide)

theorem alike_conjunction {next : Option Terminal} {gs : List (Goal Rule)} :
    Alike Rule.react limit next (.rule .conjunction :: gs)
      (.rule .negation :: .rule .secondNegation :: gs) := by
  have h : Alike Rule.react limit next [.rule .conjunction]
      [.rule .negation, .rule .secondNegation] := Rule.alike_followedBy rfl rfl
  exact h.append

/-- What follows the first negation of an expression. -/
def expressionTail (limit : Option ℕ) : Words := (letters junctions * negation.words limit)∗

theorem after_expressionTail {t : Terminal} : after t (expressionTail limit) =
    if t ∈ junctions then negation.words limit * expressionTail limit else 0 := after_loop

theorem after_expressionTail_of_eager {t : Terminal} (ht : t ∈ comparisonEager) :
    after t (expressionTail limit) = 0 := by
  rw [after_expressionTail, if_neg (by revert t; decide)]

section
variable (h : Reads Rule.react limit n [.rule .negation] (negation.words limit)
  (among comparisonEager))
include h

theorem reads_moreConjunctions_succ
    (hs : Reads Rule.react limit n [.rule .secondNegation, .rule .moreConjunctions]
      (expressionTail limit) (among expressionEager)) :
    Reads Rule.react limit (n + 1) [.rule .moreConjunctions] (expressionTail limit)
      (among expressionEager) := by
  have hc := (h.cons_among hs (fun _ => after_expressionTail_of_eager)
    (.inl (among_mono (List.subset_append_left ..)))).alike fun _ => alike_conjunction
  refine .of_at fun next => ?_
  cases next with
  | none => exact .pass rfl (fun _ => nil_mem_kstar) trivial
  | some t =>
    have hr : Rule.react (some t) .moreConjunctions = if t ∈ junctions then
        .take [.rule .conjunction, .rule .moreConjunctions] else .pass :=
      Rule.takeIf_some fun _ => isJunction_iff
    by_cases ht : t ∈ junctions
    · refine .take (by rw [hr, if_pos ht]) ?_ (.inl (some_mem_among.mpr ?_))
      · rw [after_expressionTail, if_pos ht]
        exact hc
      · exact List.mem_append_right _ ht
    · refine .pass (by rw [hr, if_neg ht]) (fun _ => nil_mem_kstar) ?_
      exact after_expressionTail.trans (if_neg ht)

theorem reads_secondNegation_succ
    (hm : Reads Rule.react limit n [.rule .moreConjunctions] (expressionTail limit)
      (among expressionEager))
    (hm' : Reads Rule.react limit (n + 1) [.rule .moreConjunctions] (expressionTail limit)
      (among expressionEager)) :
    Reads Rule.react limit (n + 1) [.rule .secondNegation, .rule .moreConjunctions]
      (expressionTail limit) (among expressionEager) := by
  refine .of_at fun next => ?_
  by_cases ht : next = some (op .and)
  · subst ht
    refine .took [.rule .negation, .rule .moreConjunctions] (fun _ _ => rfl) ?_
      (.inl (some_mem_among.mpr (by decide)))
    rw [after_expressionTail, if_pos (by decide)]
    exact h.cons_among hm (fun _ => after_expressionTail_of_eager)
      (.inl (among_mono (List.subset_append_left ..)))
  · have hr : Rule.react next .secondNegation = .pass := by
      cases next <;> simp_all [Rule.react, Rule.takeIf]
    refine (hm'.at next).alike ?_
    intro goals x
    simp [advance, hr]

/-- After a negation it does not matter whether a second `and` is read on its own. -/
theorem reads_moreConjunctions :
    Reads Rule.react limit n [.rule .moreConjunctions] (expressionTail limit)
        (among expressionEager) ∧
      Reads Rule.react limit n [.rule .secondNegation, .rule .moreConjunctions]
        (expressionTail limit) (among expressionEager) := by
  induction n with
  | zero => exact ⟨.zero, .zero⟩
  | succ n ih =>
    have hn := h.mono (Nat.le_succ n)
    obtain ⟨ihm, ihs⟩ := ih hn
    have hm := reads_moreConjunctions_succ hn ihs
    exact ⟨hm, reads_secondNegation_succ hn ihm hm⟩

end

theorem reads_of_negation (h : Reads Rule.react limit n [.rule .negation] (negation.words limit)
    (among comparisonEager)) :
    Reads Rule.react limit n [.rule .expression] (expression.words limit)
      (among expressionEager) := by
  rw [words_expression]
  refine (h.cons_among (reads_moreConjunctions h).2 ?_ (.inl ?_)).alike ?_
  · exact fun _ => after_expressionTail_of_eager
  · exact among_mono (List.subset_append_left ..)
  · exact fun _ => (Rule.alike_followedBy rfl rfl).trans alike_conjunction

theorem reads_expression (n : ℕ) : Reads Rule.react limit n [.rule .expression]
    (expression.words limit) (among expressionEager) := by
  induction n with
  | zero => exact .zero
  | succ n ih =>
    exact reads_of_negation (reads_negation (reads_comparison (reads_sum (reads_product
      (reads_signed (reads_value ih))))))

end Phrase

end RookLang
