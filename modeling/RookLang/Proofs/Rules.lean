import RookLang.Proofs.Rules.Statements

/-! Every rule of the grammar stands for words, and what it owes completes them. -/
namespace RookLang.Rule
open Recogniser Words Phrase Terminal

variable {r : Rule} {M N : Words}

theorem explained_program : Explained .program where
  take {t body} ht := by
    simp only [react] at ht
    split at ht
    · cases ht
    · rename_i hn
      obtain rfl := Option.some.inj hn
      cases ht
      refine Yields.nil.mono ?_
      rintro d _ rfl
      exact ⟨0, by rw [programs_zero]; exact mem_add.mpr (.inl (by simp))⟩
    · exact opens_program t body (Start.react_eq_take ht)
  pass {t} ht := by
    simp only [react] at ht
    split at ht
    · simp_all
    · cases ht
    · exact (Start.react_ne_pass ht).elim

theorem explained_statement : Explained .statement := by
  refine explained_start (s := startStatement) (fun t gs ht => ?_) fun _ => rfl
  have hw : after t (words .statement) = after t (simple.words none) * (letters [newline] + 1) +
      after t (compound.words none) := by
    rw [words, after_add, after_mul startsIn_simple.nil_notMem]
  rw [hw]
  obtain ⟨gs', rfl, ho⟩ | ho := startStatement_cases ht
  · exact (ho.append (owe_rule .statementEnd)).mono (le_add_right le_rfl)
  · exact ho.mono (le_add_left le_rfl)

theorem explained_statements : Explained .statements where
  take {t body} ht := by
    simp only [react] at ht
    split at ht
    · cases ht
    · exact opens_statements t body (Start.react_eq_take ht)
  pass {t} _ := by
    refine ⟨fun d => ?_, Set.mem_univ _⟩
    rw [words, words_statements]
    exact mem_add.mpr (.inr rfl)

theorem explained_statementEnd : Explained .statementEnd where
  take {t body} ht := by
    simp only [react] at ht
    split at ht
    · rename_i hn
      obtain rfl := Option.some.inj hn
      cases ht
      rw [words, after_add, after_letters, if_pos (List.mem_singleton_self _)]
      exact Yields.nil.mono (le_add_right le_rfl)
    · split at ht <;> cases ht
  pass {t} ht := by
    refine ⟨fun d => mem_add.mpr (.inr rfl), ?_⟩
    simp only [react] at ht
    split at ht
    · cases ht
    · split at ht
      · assumption
      · cases ht

theorem explained_moreElements : Explained .moreElements where
  take {t body} ht := by
    rw [words, after_elementsTail]
    simp only [react] at ht
    split at ht
    · rename_i hn
      obtain rfl := Option.some.inj hn
      cases ht
      rw [if_pos (List.mem_singleton_self comma)]
      exact (owe_rule .laterElement).mono (le_add_right le_rfl)
    · rename_i hn
      obtain rfl := Option.some.inj hn
      cases ht
      rw [if_pos (List.mem_singleton_self (word .to_))]
      exact (Yields.cons .need (owe_rule .rangeStep)).mono (le_add_left le_rfl)
    · cases ht
  pass {t} _ := by
    refine ⟨fun d => ?_, Set.mem_univ _⟩
    rw [words, elementsTail_eq]
    exact mem_add.mpr (.inr (mem_add.mpr (.inr rfl)))

theorem explained_branches : Explained .branches where
  take {t body} ht := by
    rw [words, after_branches]
    simp only [react] at ht
    split at ht
    · rename_i hn
      obtain rfl := Option.some.inj hn
      cases ht
      rw [if_pos (List.mem_singleton_self _)]
      exact ((owe_conditionBlock _).append (owe_rule .branches)).mono (le_add_right le_rfl)
    · rename_i hn
      obtain rfl := Option.some.inj hn
      cases ht
      rw [if_pos (List.mem_singleton_self (word .else_))]
      exact (owe_colonBlock _).mono (le_add_left le_rfl)
    · cases ht
  pass {t} _ :=
    ⟨fun d => nil_mem_mul.mpr ⟨nil_mem_kstar, mem_add.mpr (.inr rfl)⟩, Set.mem_univ _⟩

theorem explained_moreComparisons : Explained .moreComparisons where
  take {t body} ht := by
    rw [words, after_comparisonTail]
    have hm : Owe [.rule .sum, .rule .moreComparisons]
        (Phrase.sum.words none * comparisonTail none) :=
      .cons (owe_rule .sum) (owe_rule .moreComparisons)
    simp only [react] at ht
    split at ht
    · rename_i hn
      obtain rfl := Option.some.inj hn
      cases ht
      rw [if_pos (List.mem_singleton_self (op .not))]
      exact (Yields.cons .need hm).mono (le_add_left le_rfl)
    · have hp (t : Terminal) : t.isComparison ↔ t ∈ relations ++ [word .in_] := by
        simp [isComparison_iff, or_comm]
      rw [takeIf_some hp] at ht
      split at ht
      · rename_i hr
        cases ht
        rw [if_pos hr]
        exact hm.mono (le_add_right le_rfl)
      · cases ht
  pass {t} _ := ⟨fun d => nil_mem_kstar, Set.mem_univ _⟩

theorem explained_instanceGuard : Explained .instanceGuard := by
  let s : Start := fun next =>
    if next.any (·.isRelational) then .ok [.rule .instancePattern] else startInstancePattern next
  have hs : s.Opens (words .instanceGuard) :=
    opens_startInstancePattern.optional (owe_rule .instancePattern) (fun _ => isRelational_iff)
      fun _ => rfl
  refine explained_start hs fun t => ?_
  simp only [react, Start.react, s]
  split
  · rfl
  · rfl

theorem explained (r : Rule) : Explained r := by
  cases r with
  | program => exact explained_program
  | statements => exact explained_statements
  | statement => exact explained_statement
  | statementEnd => exact explained_statementEnd
  | returnedValue =>
    refine explained_unless opens_startExpression rfl rfl fun t => ?_
    simp only [react]
    split <;> simp
  | identifierUse => exact explained_start opens_startIdentifierUse fun _ => rfl
  | moreTargets => exact explained_start opens_startMoreTargets fun _ => rfl
  | assignedValue => exact explained_start opens_startAssignedValue fun _ => rfl
  | moreAssignedValues =>
    exact explained_loop [.rule .assignedValue] (fun _ => rfl) (beq_iff_mem comma)
      (owe_rule .assignedValue) rfl rfl
  | printArguments =>
    refine explained_unless opens_startPrintArgument rfl rfl fun t => ?_
    simp only [react]
    split <;> simp
  | printArgument => exact explained_start opens_startPrintArgument fun _ => rfl
  | morePrintArguments =>
    exact explained_takeIf (fun _ => rfl) (beq_iff_mem comma) (owe_rule .printArgument)
      printTail_eq rfl
  | arguments =>
    refine explained_unless (opens_startExpression.followedBy (owe_rule .moreArguments)) rfl rfl
      fun t => ?_
    simp only [react]
    split <;> simp
  | moreArguments =>
    exact explained_takeIf (fun _ => rfl) (beq_iff_mem comma) (owe_rule .arguments)
      argumentsTail_eq rfl
  | branches => exact explained_branches
  | clauses => exact explained_start opens_startClauses fun _ => rfl
  | instanceGuard => exact explained_instanceGuard
  | instancePattern => exact explained_start opens_startInstancePattern fun _ => rfl
  | secondLoopVariable =>
    exact explained_takeIf (fun _ => rfl) (beq_iff_mem comma) .need rfl rfl
  | iterable => exact explained_start opens_startIterable fun _ => rfl
  | parameters =>
    exact explained_loop [.rule .parameterDefault, .allow comma] (fun _ => rfl)
      (beq_iff_mem identifier) (.cons (owe_rule .parameterDefault) .allow) rfl rfl
  | parameterDefault =>
    exact explained_takeIf (fun _ => rfl) (beq_iff_mem assign) (owe_rule .expression) rfl rfl
  | expression => exact explained_start opens_startExpression fun _ => rfl
  | moreConjunctions =>
    exact explained_loop [.rule .conjunction] (fun _ => rfl) (fun _ => isJunction_iff)
      (owe_rule .conjunction) rfl rfl
  | conjunction => exact explained_start opens_startConjunction fun _ => rfl
  | secondNegation =>
    exact explained_takeIf (fun _ => rfl) (beq_iff_mem (op .and)) (owe_rule .negation) rfl rfl
  | negation => exact explained_start opens_startNegation fun _ => rfl
  | comparison => exact explained_start opens_startComparison fun _ => rfl
  | moreComparisons => exact explained_moreComparisons
  | sum => exact explained_start opens_startSum fun _ => rfl
  | moreProducts =>
    exact explained_loop [.rule .product] (fun _ => rfl) (fun _ => isSum_iff)
      (owe_rule .product) rfl rfl
  | product => exact explained_start opens_startProduct fun _ => rfl
  | moreFactors =>
    exact explained_loop [.rule .signed] (fun _ => rfl) (fun _ => isProduct_iff)
      (owe_rule .signed) rfl rfl
  | signed => exact explained_start opens_startSigned fun _ => rfl
  | value => exact explained_start opens_startValue fun _ => rfl
  | call =>
    exact explained_takeIf (fun _ => rfl) (beq_iff_mem (.sign .leftParen)) owe_callArguments
      (by rw [words, words_arguments]) rfl
  | elements =>
    refine explained_unless (opens_startExpression.followedBy (owe_rule .moreElements)) rfl rfl
      fun t => ?_
    simp only [react]
    split <;> simp
  | moreElements => exact explained_moreElements
  | laterElement =>
    refine explained_unless (opens_startExpression.followedBy (owe_rule .moreElements)) rfl rfl
      fun t => ?_
    simp only [react]
    split <;> simp
  | rangeStep =>
    exact explained_takeIf (fun _ => rfl) (beq_iff_mem (word .step)) (.cons .allow .need) rfl rfl

/-! Every rule stands for some word. -/

section
variable {d : ℕ} {w : List Terminal}

theorem mem_mul_of_nil_mem (h : w ∈ M d) (hn : [] ∈ N d) : w ∈ (M * N) d :=
  mem_mul.mpr ⟨w, h, [], hn, List.append_nil w⟩

theorem mem_option_mul (h : w ∈ M d) : w ∈ ((N + 1) * M) d :=
  mem_mul.mpr ⟨[], mem_add.mpr (.inr rfl), w, h, rfl⟩

theorem identifier_mem_value : [identifier] ∈ Phrase.value.words none d := by
  rw [words_value]
  refine mem_add.mpr (.inl (mem_add.mpr (.inl (mem_add.mpr (.inl ?_)))))
  exact mem_mul_of_nil_mem (by simp) (mem_add.mpr (.inr rfl))

theorem identifier_mem_signed : [identifier] ∈ Phrase.signed.words none d :=
  words_signed ▸ mem_option_mul identifier_mem_value

theorem identifier_mem_product : [identifier] ∈ Phrase.product.words none d :=
  words_product ▸ mem_mul_of_nil_mem identifier_mem_signed nil_mem_kstar

theorem identifier_mem_sum : [identifier] ∈ Phrase.sum.words none d :=
  words_sum ▸ mem_mul_of_nil_mem identifier_mem_product nil_mem_kstar

theorem identifier_mem_comparison : [identifier] ∈ Phrase.comparison.words none d :=
  words_comparison ▸ mem_mul_of_nil_mem identifier_mem_sum nil_mem_kstar

theorem identifier_mem_negation : [identifier] ∈ Phrase.negation.words none d :=
  words_negation ▸ mem_option_mul identifier_mem_comparison

theorem identifier_mem_conjunction : [identifier] ∈ Phrase.conjunction.words none d :=
  words_conjunction ▸ mem_mul_of_nil_mem identifier_mem_negation (mem_add.mpr (.inr rfl))

theorem identifier_mem_expression : [identifier] ∈ Phrase.expression.words none d :=
  words_expression ▸ mem_mul_of_nil_mem identifier_mem_negation nil_mem_kstar

theorem identifier_mem_assigned : [identifier] ∈ assigned.words none d :=
  words_assigned ▸ mem_add.mpr (.inr identifier_mem_expression)

theorem assignment_mem_targetTail : [assign, identifier] ∈ targetTail none d := by
  have h : [assign, identifier] ∈ (letters [assign] * assignedValues none) d :=
    mem_mul.mpr ⟨[assign], by simp, [identifier],
      mem_mul_of_nil_mem identifier_mem_assigned nil_mem_kstar, rfl⟩
  exact mem_mul.mpr ⟨[], nil_mem_kstar, _, h, rfl⟩

theorem exists_word_of_pass (t : Terminal) (h : react (some t) r = .pass)
    (hi : idle r = Set.univ) (d : ℕ) : ∃ w ∈ words r d, w = [] → idle r = Set.univ :=
  ⟨[], ((explained r).pass h).1 d, fun _ => hi⟩

theorem exists_word_of_cons (h : t :: w ∈ words r d) :
    ∃ w ∈ words r d, w = [] → idle r = Set.univ :=
  ⟨t :: w, h, fun hw => (List.cons_ne_nil t w hw).elim⟩

theorem exists_word (r : Rule) (d : ℕ) : ∃ w ∈ words r d, w = [] → idle r = Set.univ := by
  cases r with
  | program => exact ⟨[], ⟨0, nil_mem_programs.mpr rfl⟩, fun _ => rfl⟩
  | statements => exact exists_word_of_pass (plain .dedent) rfl rfl d
  | statement =>
    refine exists_word_of_cons (t := word .pass) (w := []) (mem_add.mpr (.inl ?_))
    refine mem_mul_of_nil_mem ?_ (mem_add.mpr (.inr rfl))
    rw [← mem_after, after_simple]
    simp [jumps]
  | statementEnd =>
    exact exists_word_of_cons (t := newline) (w := []) (mem_add.mpr (.inl (by simp)))
  | identifierUse => exact exists_word_of_cons (mem_add.mpr (.inr assignment_mem_targetTail))
  | moreTargets => exact exists_word_of_cons assignment_mem_targetTail
  | assignedValue => exact exists_word_of_cons identifier_mem_assigned
  | printArgument =>
    have h : [] ∈ printTail none d := printTail_eq ▸ mem_add.mpr (.inr rfl)
    exact exists_word_of_cons
      (mem_add.mpr (.inl (mem_mul_of_nil_mem identifier_mem_expression h)))
  | clauses =>
    refine exists_word_of_cons (t := plain .dedent) (w := []) ?_
    rw [words, ← mem_after, after_clauses]
    simp
  | instanceGuard =>
    exact exists_word_of_cons (t := plain .number) (w := []) (mem_option_mul (by simp [patterns]))
  | instancePattern =>
    exact exists_word_of_cons (t := plain .number) (w := []) (by simp [words, patterns])
  | iterable =>
    exact exists_word_of_cons (t := identifier) (w := []) (mem_add.mpr (.inr (by simp)))
  | expression => exact exists_word_of_cons identifier_mem_expression
  | conjunction => exact exists_word_of_cons identifier_mem_conjunction
  | negation => exact exists_word_of_cons identifier_mem_negation
  | comparison => exact exists_word_of_cons identifier_mem_comparison
  | sum => exact exists_word_of_cons identifier_mem_sum
  | product => exact exists_word_of_cons identifier_mem_product
  | signed => exact exists_word_of_cons identifier_mem_signed
  | value => exact exists_word_of_cons identifier_mem_value
  | printArguments | arguments => exact exists_word_of_pass (.sign .rightParen) rfl rfl d
  | elements | laterElement => exact exists_word_of_pass (.sign .rightBracket) rfl rfl d
  | _ => exact exists_word_of_pass newline rfl rfl d

end

/-- The grammar's rules stand for the words of its phrases. -/
theorem explains_react : Explains react words idle where
  take {_ r _} h := (explained r).take h
  pass {_ r} h := (explained r).pass h
  exists_word := exists_word

end RookLang.Rule
