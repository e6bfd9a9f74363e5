import RookLang.Proofs.Rules.Words

/-! What the rules of statements owe. -/
namespace RookLang.Rule
open Recogniser Words Phrase Terminal

variable {t : Terminal} {gs : List (Goal Rule)} {L : Words}

theorem owe_builtinCall_print : Owe (builtinCall .print) (letters [.sign .leftParen] *
    (deeper none (printed none + 1) * letters [.sign .rightParen])) :=
  .cons .need (Yields.grouped (owe_rule .printArguments))

theorem owe_builtinCall_input : Owe (builtinCall .input) (letters [.sign .leftParen] *
    (deeper none (letters [plain .string] + 1) * letters [.sign .rightParen])) :=
  .cons .need (Yields.grouped .allow)

theorem opens_startAssignedValue : startAssignedValue.Opens (assigned.words none) := by
  intro t gs ht
  rw [after_assigned]
  unfold startAssignedValue at ht
  split at ht
  · rename_i hn
    obtain rfl := Option.some.inj hn
    cases ht
    rw [if_pos (List.mem_singleton_self _)]
    exact owe_builtinCall_input.mono (le_add_right le_rfl)
  · exact (opens_startExpression t gs ht).mono (le_add_left le_rfl)

theorem opens_startPrintArgument : startPrintArgument.Opens (printed none) := by
  intro t gs ht
  rw [printed, after_add]
  unfold startPrintArgument at ht
  split at ht
  · rename_i hn
    obtain rfl := Option.some.inj hn
    cases ht
    rw [words_separator, after_letters_mul, if_pos (List.mem_singleton_self _)]
    exact (Yields.cons .need .need).mono (le_add_left le_rfl)
  · exact (opens_startExpression.followedBy (owe_rule .morePrintArguments) t gs ht).mono
      (le_add_right le_rfl)

theorem opens_startInstancePattern : startInstancePattern.Opens (letters patterns) := by
  intro t gs ht
  simp only [startInstancePattern, Option.any_some, isInstancePattern_iff] at ht
  split at ht
  · rename_i hp
    cases ht
    rw [after_letters, if_pos hp]
    exact .nil
  · cases ht

theorem owe_targets : Owe [.need identifier .targetAfterComma, .rule .moreTargets]
    (letters [identifier] * targetTail none) :=
  .cons .need (owe_rule .moreTargets)

theorem owe_assignedValues : Owe [.rule .assignedValue, .rule .moreAssignedValues]
    (assignedValues none) :=
  .cons (owe_rule .assignedValue) (owe_rule .moreAssignedValues)

theorem opens_startMoreTargets : startMoreTargets.Opens (targetTail none) := by
  intro t gs ht
  rw [after_targetTail]
  unfold startMoreTargets at ht
  split at ht
  · rename_i hn
    obtain rfl := Option.some.inj hn
    cases ht
    rw [if_pos (List.mem_singleton_self _)]
    exact owe_targets.mono (le_add_right le_rfl)
  · rename_i hn
    obtain rfl := Option.some.inj hn
    cases ht
    rw [if_pos (List.mem_singleton_self assign)]
    exact owe_assignedValues.mono (le_add_left le_rfl)
  · cases ht

theorem opens_startIdentifierUse : startIdentifierUse.Opens (identifierTail none) := by
  intro t gs ht
  rw [after_identifierTail]
  unfold startIdentifierUse at ht
  split at ht
  · rename_i hn
    obtain rfl := Option.some.inj hn
    cases ht
    rw [after_targetTail, if_pos (List.mem_singleton_self assign)]
    exact owe_assignedValues.mono (le_add_left (le_add_left le_rfl))
  · rename_i hn
    obtain rfl := Option.some.inj hn
    cases ht
    rw [after_targetTail, if_pos (List.mem_singleton_self comma)]
    exact owe_targets.mono (le_add_left (le_add_right le_rfl))
  · rename_i hn
    obtain rfl := Option.some.inj hn
    cases ht
    rw [if_pos (List.mem_singleton_self _)]
    exact owe_callArguments.mono (le_add_right (le_add_right le_rfl))
  · simp only [Option.any_some, isCompoundAssignment_iff] at ht
    split at ht
    · rename_i hc
      cases ht
      rw [if_pos hc]
      exact (owe_rule .expression).mono (le_add_right (le_add_left le_rfl))
    · cases ht

theorem opens_startIterable : startIterable.Opens (array.words none + letters [identifier]) := by
  intro t gs ht
  rw [words_array, after_add, after_letters_mul, after_letters]
  unfold startIterable at ht
  split at ht
  · rename_i hn
    obtain rfl := Option.some.inj hn
    cases ht
    rw [if_pos (List.mem_singleton_self _)]
    exact owe_arrayElements.mono (le_add_right le_rfl)
  · rename_i hn
    obtain rfl := Option.some.inj hn
    cases ht
    rw [if_pos (List.mem_singleton_self identifier)]
    exact Yields.nil.mono (le_add_left le_rfl)
  · cases ht

theorem owe_colonBlock (missing : Expectation) :
    Owe (colonBlock missing) (Form.block.words none) := by
  rw [Form.words_block]
  exact .cons .need (.cons .need (.cons .need (Yields.block (owe_rule .statements))))

theorem owe_conditionBlock (missing : Expectation) :
    Owe (.rule .expression :: colonBlock missing)
      (Phrase.expression.words none * Form.block.words none) :=
  .cons (owe_rule .expression) (owe_colonBlock missing)

theorem opens_startClauses : startClauses.Opens (Phrase.clauses none) := by
  intro t gs ht
  rw [after_clauses]
  unfold startClauses at ht
  split at ht
  · rename_i hn
    obtain rfl := Option.some.inj hn
    cases ht
    rw [if_pos (List.mem_singleton_self _), instanceTail, ← mul_assoc]
    have hb : Owe (.rule .instanceGuard :: colonBlock .instanceColon)
        ((letters relations + 1) * letters patterns * Form.block.words none) :=
      .cons (owe_rule .instanceGuard) (owe_colonBlock _)
    exact (hb.append (owe_rule .clauses)).mono (le_add_right le_rfl)
  · rename_i hn
    obtain rfl := Option.some.inj hn
    cases ht
    rw [if_pos (List.mem_singleton_self (word .default))]
    exact ((owe_colonBlock _).append .need).mono (le_add_left (le_add_right le_rfl))
  · rename_i hn
    obtain rfl := Option.some.inj hn
    cases ht
    rw [if_pos (List.mem_singleton_self (plain .dedent))]
    exact Yields.nil.mono (le_add_left (le_add_left le_rfl))
  · cases ht

theorem owe_loopHead : Owe [.need identifier .loopVariable, .rule .secondLoopVariable,
    .need (.word .in_) .loopIn, .rule .iterable] (loopHead none) :=
  .cons .need (.cons (owe_rule .secondLoopVariable) (.cons .need (owe_rule .iterable)))

theorem owe_functionHead : Owe ([Goal.need identifier .functionName,
    .need (.sign .leftParen) .functionParen] ++ grouped .paren [.rule .parameters])
    (functionHead none) :=
  .cons .need (.cons .need (Yields.grouped (owe_rule .parameters)))

theorem owe_dispatch : Owe [.need identifier .whichSubject, .need (.sign .colon) .whichColon,
    .need (.plain .newline) .blockNewline, .need (.plain .indent) .clausesIndent, .rule .clauses]
    (dispatch none) :=
  .cons .need (.cons .need (.cons .need (.cons .need (owe_rule .clauses))))

theorem owe_simpleTail (h : SimpleTail none gs L) : Owe gs L := by
  cases h with
  | jump => exact .nil
  | returned => exact owe_rule .returnedValue
  | print => exact owe_builtinCall_print
  | input => exact owe_builtinCall_input
  | use => exact owe_rule .identifierUse

theorem owe_compoundTail (h : CompoundTail none gs L) : Owe gs L := by
  cases h with
  | if_ => exact (owe_conditionBlock _).append (owe_rule .branches)
  | while_ => exact owe_conditionBlock _
  | for_ => exact owe_loopHead.append (owe_colonBlock _)
  | define => exact owe_functionHead.append (owe_colonBlock _)
  | which => exact owe_dispatch

/-- What a statement owes completes a simple one, which also owes the end of its line, or a compound
one. -/
theorem startStatement_cases (h : startStatement (some t) = .ok gs) :
    (∃ gs', gs = gs' ++ [Goal.rule Rule.statementEnd] ∧ Owe gs' (after t (simple.words none))) ∨
      Owe gs (after t (compound.words none)) := by
  obtain ⟨gs', hg, ht⟩ | ht := tail_of_startStatement none h
  · exact .inl ⟨gs', hg, owe_simpleTail ht⟩
  · exact .inr (owe_compoundTail ht)

theorem notMem_starts_of_endsLine (h : t.endsLine) : t ∉ simpleStarts ∧ t ∉ compoundStarts := by
  have hs : ∀ t ∈ simpleStarts, t.endsLine = false := by decide
  have hc : ∀ t ∈ compoundStarts, t.endsLine = false := by decide
  exact ⟨fun ht => by simp [hs t ht] at h, fun ht => by simp [hc t ht] at h⟩

/-- A simple statement without the end of its line is the last one of its block. -/
theorem owe_nextLines : Owe [.rule .statementEnd, .rule .statements] (nextLines none) := by
  rintro goals groups d w ⟨u, _, rfl, hu, hi, u', v, rfl, hu', -, hv⟩
  refine ⟨u ++ u', v, List.append_assoc .., ?_, hv⟩
  rcases mem_add.mp hu with hu | rfl
  · exact mem_add.mpr (.inl (mem_mul.mpr ⟨u, hu, u', hu', rfl⟩))
  cases u' with
  | nil => exact nil_mem_nextLines d
  | cons t u' =>
    obtain ⟨hs, hc⟩ := notMem_starts_of_endsLine (hi rfl)
    exact (cons_notMem (after_statements_eq_zero hs hc) hu').elim

/-- A simple statement without the end of its line is the last one of the program. -/
theorem owe_nextProgram : Owe [.rule .statementEnd, .tally, .rule .program]
    (fun d => {w | ∃ n, w ∈ nextProgram none n d}) := by
  rintro goals groups d w ⟨u, _, rfl, hu, hi, u', v, rfl, ⟨n, hu'⟩, -, hv⟩
  refine ⟨u ++ u', v, List.append_assoc .., ?_, hv⟩
  rcases mem_add.mp hu with ⟨t, ht, rfl⟩ | rfl
  · obtain rfl := List.mem_singleton.mp ht
    refine ⟨n, ?_⟩
    rw [List.singleton_append, ← mem_after, after_newline_nextProgram]
    exact hu'
  cases u' with
  | nil => exact ⟨0, nil_mem_nextProgram.mpr rfl⟩
  | cons t u' =>
    obtain ⟨hs, hc⟩ := notMem_starts_of_endsLine (hi rfl)
    have hn : n = 0 := by
      by_contra hn
      refine cons_notMem ?_ hu'
      rw [after_programs hs hc, if_neg hn]
    subst hn
    exact ⟨0, mem_add.mpr (.inr hu')⟩

theorem opens_statements : (startStatement.followedBy [.rule .statements]).Opens
    (Phrase.statements.words none) := by
  intro t gs ht
  obtain ⟨owed, hg, rfl⟩ := Start.exists_of_followedBy ht
  rw [after_statements]
  obtain ⟨gs', rfl, ho⟩ | ho := startStatement_cases hg
  · rw [List.append_assoc]
    exact (ho.append owe_nextLines).mono (le_add_right le_rfl)
  · exact (ho.append (owe_rule .statements)).mono (le_add_left le_rfl)

theorem opens_program : (startStatement.followedBy [.tally, .rule .program]).Opens
    (words .program) := by
  intro t gs ht
  obtain ⟨owed, hg, rfl⟩ := Start.exists_of_followedBy ht
  obtain ⟨gs', rfl, ho⟩ | ho := startStatement_cases hg
  · rw [List.append_assoc]
    refine (ho.append owe_nextProgram).mono fun d w hw => ?_
    obtain ⟨u, hu, v, ⟨n, hv⟩, rfl⟩ := mem_mul.mp hw
    refine ⟨n + 1, ?_⟩
    rw [← mem_after, after_programs_succ]
    exact mem_add.mpr (.inl (mem_mul.mpr ⟨u, hu, v, hv, rfl⟩))
  · refine (ho.append (Yields.tally (owe_rule .program))).mono fun d w hw => ?_
    obtain ⟨u, hu, v, ⟨n, hv⟩, rfl⟩ := mem_mul.mp hw
    refine ⟨n + 1, ?_⟩
    rw [← mem_after, after_programs_succ]
    exact mem_add.mpr (.inr (mem_mul.mpr ⟨u, hu, v, hv, rfl⟩))

end RookLang.Rule
