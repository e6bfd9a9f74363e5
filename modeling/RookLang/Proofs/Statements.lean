import RookLang.Proofs.Expressions
import RookLang.Proofs.Grammar.Statements

/-! The goals of statements read the words of their phrases. -/
namespace RookLang

namespace Terminal

variable {t : Terminal}

theorem isCompoundAssignment_iff : t.isCompoundAssignment ↔ t ∈ compoundAssignments := by
  unfold isCompoundAssignment Kind.isCompoundAssignment Kind.operator?
  split
  · split
    · rename_i o
      cases o <;> decide
    · simp_all [compoundAssignments]
  · simp_all [compoundAssignments]

theorem isInstancePattern_iff : t.isInstancePattern ↔ t ∈ patterns := by
  unfold isInstancePattern Kind.isInstancePattern Kind.isLiteral
  split
  · split <;> simp_all [patterns]
  · simp_all [patterns]

theorem endsLine_iff : t.endsLine ↔ t = newline ∨ t.endsBlock := by
  unfold endsLine endsBlock
  split <;> simp_all

end Terminal

namespace Phrase
open Recogniser Words Terminal Computability

variable {limit : Option ℕ} {n : ℕ}

theorem reads_printTail (h : Reads Rule.react limit n [.rule .printArgument] (printed limit)
    {some (.sign .rightParen)}ᶜ) :
    Reads Rule.react limit (n + 1) [.rule .morePrintArguments] (printTail limit)
      {some (.sign .rightParen)}ᶜ := by
  rw [printTail_eq]
  refine (Rule.reads_takeIf (fun _ => rfl) (beq_iff_mem _) h).widen ?_
  exact Set.union_subset subset_rfl (among_subset_compl (by decide))

theorem reads_printArgument (n : ℕ) : Reads Rule.react limit n [.rule .printArgument]
    (printed limit) {some (.sign .rightParen)}ᶜ := by
  induction n with
  | zero => exact .zero
  | succ n ih =>
    refine .of_at fun next => ?_
    by_cases hn : next = some (word .separator)
    · subst hn
      have ha : after (word .separator) (printed limit) =
          letters [assign] * letters [plain .string] := by
        rw [printed, after_add, startsIn_expression.mul.after_eq_zero _ (by decide),
          words_separator, after_letters_mul, zero_add, if_pos (by simp)]
      refine .take rfl ?_ (.inl (by simp))
      rw [ha]
      exact Reads.cons .need (.widen .need (Set.empty_subset _)) (by simp)
        (.inl (Set.empty_subset _))
    · rw [printed, add_comm (_ * _)]
      refine .add_left (((reads_expression _).append_among (reads_printTail ih) ?_ ?_).at next
        |>.alike ?_) ?_ ?_
      · intro t ht
        rw [printTail_eq, after_option, if_neg (eager_ne_comma t ht)]
      · exact .inl (among_subset_compl (by decide))
      · refine Rule.alike_followedBy (s := Rule.startExpression) ?_ rfl
        simp only [Rule.react, Rule.Start.react, Rule.startPrintArgument]
        rfl
      · rw [words_separator]
        cases next with
        | none => trivial
        | some t => exact after_letters_mul.trans (if_neg (by simpa using hn))
      · exact words_separator ▸ startsIn_letters.mul.nil_notMem

theorem reads_printArguments : Reads Rule.react limit n [.rule .printArguments]
    (printed limit + 1) {some (.sign .rightParen)}ᶜ := by
  refine .of_at fun next => ?_
  by_cases hn : next = some (.sign .rightParen)
  · subst hn
    refine .pass rfl (fun _ => mem_add.mpr (.inr rfl)) ?_
    change after _ _ = 0
    rw [after_add, printed, after_add, startsIn_expression.mul.after_eq_zero _ (by decide),
      words_separator, after_letters_mul, if_neg (by simp), after_one, add_zero, add_zero]
  · refine (((reads_printArgument n).at next).alike ?_).add_one hn
    intro goals x
    simp [advance, Rule.react, hn]

theorem reads_printCall : Reads Rule.react limit n (Rule.builtinCall .print)
    (letters [.sign .leftParen] *
      (deeper limit (printed limit + 1) * letters [.sign .rightParen])) ∅ :=
  Reads.cons .need (reads_printArguments.grouped (by simp [Group.closer]))
    (by simp) (.inl subset_rfl)

theorem reads_inputCall : Reads Rule.react limit n (Rule.builtinCall .input)
    (letters [.sign .leftParen] *
      (deeper limit (letters [plain .string] + 1) * letters [.sign .rightParen])) ∅ :=
  Reads.cons .need (Reads.grouped .allow (by simp [Group.closer])) (by simp)
    (.inl subset_rfl)

theorem reads_assignedValue : Reads Rule.react limit (n + 1) [.rule .assignedValue]
    (assigned.words limit) (among expressionEager) := by
  refine .of_at fun next => ?_
  by_cases hn : next = some (builtin .input)
  · subst hn
    have hr : Rule.react (some (builtin .input)) .assignedValue =
        .take (Rule.builtinCall .input) := rfl
    refine .take hr ?_ (.inr startsIn_assigned.nil_notMem)
    rw [after_assigned, if_pos (by simp), startsIn_expression.after_eq_zero _ (by decide), add_zero]
    exact reads_inputCall.widen (Set.empty_subset _)
  · have hr : Rule.react next .assignedValue = Rule.react next .expression := by
      simp only [Rule.react, Rule.Start.react, Rule.startAssignedValue]
    rw [words_assigned]
    refine .add_left (((reads_expression _).at next).alike ?_) ?_ ?_
    · intro goals x
      simp [advance, hr]
    · rw [words_inputCall]
      cases next with
      | none => trivial
      | some t => exact after_letters_mul.trans (if_neg (by simpa using hn))
    · exact words_inputCall ▸ startsIn_letters.mul.nil_notMem

/-- What the goals of a declaration may go on to take. -/
def valuesEager : List Terminal := expressionEager ++ [comma]

theorem reads_assignedValues : Reads Rule.react limit n
    [.rule .assignedValue, .rule .moreAssignedValues] (assignedValues limit)
      (among valuesEager) := by
  have h : Reads Rule.react limit n [.rule .assignedValue] (assigned.words limit)
      (among expressionEager) := reads_assignedValue.mono (Nat.le_succ n)
  have hm := Rule.reads_loop (r := .moreAssignedValues) (fun _ => rfl) (beq_iff_mem comma) h
    eager_ne_comma
  refine h.cons_among hm ?_ (.inl (among_mono (List.subset_append_left ..)))
  exact fun t ht => after_loop.trans (if_neg (eager_ne_comma t ht))

theorem reads_moreTargets (n : ℕ) : Reads Rule.react limit n [.rule .moreTargets]
    (targetTail limit) (among valuesEager) := by
  induction n with
  | zero => exact .zero
  | succ n ih =>
    refine .of_take nil_notMem_targetTail ⟨_, rfl⟩ fun t => ?_
    by_cases hc : t = comma
    · subst hc
      refine .inl ⟨_, rfl, ?_⟩
      rw [after_targetTail, if_pos (by simp), if_neg (by simp), add_zero]
      exact Reads.cons .need ih (by simp) (.inl (Set.empty_subset _))
    · by_cases ha : t = assign
      · subst ha
        refine .inl ⟨_, rfl, ?_⟩
        rw [after_targetTail, if_neg (by simp), if_pos (by simp), zero_add]
        exact reads_assignedValues
      · refine .inr ⟨⟨.declarationAssign, ?_⟩, ?_⟩
        · simp only [Rule.react, Rule.Start.react, Rule.startMoreTargets]
          split <;> simp_all
        · rw [after_targetTail, if_neg (by simpa using hc), if_neg (by simpa using ha), add_zero]

theorem reads_identifierUse : Reads Rule.react limit (n + 1) [.rule .identifierUse]
    (identifierTail limit) (among valuesEager) := by
  refine .of_take nil_notMem_identifierTail ⟨_, rfl⟩ fun t => ?_
  by_cases hp : t = .sign .leftParen
  · subst hp
    refine .inl ⟨Rule.callArguments, rfl, ?_⟩
    rw [after_identifierTail, if_pos (by simp), if_neg (by decide), after_targetTail,
      if_neg (by simp), if_neg (by simp), add_zero, add_zero, add_zero]
    exact (reads_callArguments (reads_expression n)).widen (Set.empty_subset _)
  by_cases hc : t = comma
  · subst hc
    refine .inl ⟨_, rfl, ?_⟩
    rw [after_identifierTail, if_neg (by simp), if_neg (by decide), after_targetTail,
      if_pos (by simp), if_neg (by simp), add_zero, zero_add, add_zero]
    exact Reads.cons .need (reads_moreTargets n) (by simp)
      (.inl (Set.empty_subset _))
  by_cases ha : t = assign
  · subst ha
    refine .inl ⟨_, rfl, ?_⟩
    rw [after_identifierTail, if_neg (by simp), if_neg (by decide), after_targetTail,
      if_neg (by simp), if_pos (by simp), zero_add, zero_add, zero_add]
    exact reads_assignedValues
  have hr : Rule.startIdentifierUse (some t) =
      if t ∈ compoundAssignments then .ok [.rule .expression] else .error .assignmentOrCall := by
    simp only [Rule.startIdentifierUse, Option.any_some, isCompoundAssignment_iff]
    split <;> simp_all
  rw [after_identifierTail, after_targetTail, if_neg (by simpa using hp),
    if_neg (show t ∉ [comma] by simpa using hc), if_neg (show t ∉ [assign] by simpa using ha),
    add_zero, add_zero, zero_add]
  by_cases ht : t ∈ compoundAssignments
  · refine .inl ⟨[.rule .expression], ?_, ?_⟩
    · simp [Rule.react, Rule.Start.react, hr, ht]
    · rw [if_pos ht]
      exact (reads_expression n).widen (among_mono (List.subset_append_left ..))
  · refine .inr ⟨⟨.assignmentOrCall, ?_⟩, if_neg ht⟩
    simp [Rule.react, Rule.Start.react, hr, ht]

/-- The lookaheads inside a line. -/
def inLine : Set (Option Terminal) := {next | ¬ next.all (·.endsLine)}

/-- The lookaheads inside the statements of a block. -/
def inBlock : Set (Option Terminal) := {next | ¬ next.all (·.endsBlock)}

theorem inLine_subset : inLine ⊆ inBlock := by
  intro next hl hb
  refine hl ?_
  cases next <;> simp_all [endsLine_iff]

theorem among_subset_inLine {ts : List Terminal} (h : ∀ t ∈ ts, t.endsLine = false) :
    among ts ⊆ inLine := by
  rintro _ ⟨t, ht, rfl⟩
  simp [inLine, h t ht]

theorem reads_returnedValue : Reads Rule.react limit n [.rule .returnedValue]
    (expression.words limit + 1) inLine := by
  refine .of_at fun next => ?_
  by_cases hn : next.all (·.endsLine)
  · refine .pass (by simp only [Rule.react, hn, if_true]) (fun _ => mem_add.mpr (.inr rfl)) ?_
    cases next with
    | none => trivial
    | some t =>
      refine startsIn_expression.after_add_one fun ht => ?_
      have h : ∀ t ∈ expressionStarts, t.endsLine = false := by decide
      simp [h t ht] at hn
  · have hr : Rule.react next .returnedValue = Rule.react next .expression := by
      simp only [Rule.react, hn]
      rfl
    refine ((((reads_expression n).widen (among_subset_inLine (by decide))).at next).alike
      ?_).add_one hn
    intro goals x
    simp [advance, hr]

theorem reads_parameters : Reads Rule.react limit n [.rule .parameters] (parameters limit)
    (among (expressionEager ++ [assign] ++ [comma] ++ [identifier])) := by
  have hd : Reads Rule.react limit n [.rule .parameterDefault]
      (letters [assign] * expression.words limit + 1) (among (expressionEager ++ [assign])) := by
    refine (Rule.reads_takeIf (fun _ => rfl) (beq_iff_mem _)
      (reads_expression n)).mono (Nat.le_succ n) |>.widen ?_
    exact Set.union_subset (among_mono (List.subset_append_left ..))
      (among_mono (List.subset_append_right ..))
  have hp : Reads Rule.react limit n [.rule .parameterDefault, .allow comma]
      ((letters [assign] * expression.words limit + 1) * (letters [comma] + 1))
      (among (expressionEager ++ [assign] ++ [comma])) := by
    refine hd.cons_among (Reads.allow.widen (among_mono (List.subset_append_right ..))) ?_
      (.inl (among_mono (List.subset_append_left ..)))
    intro t ht
    rw [after_add, after_letters, after_one, add_zero]
    exact if_neg (by revert t; decide)
  exact Rule.reads_loop (fun _ => rfl) (beq_iff_mem _) hp (by decide)

theorem reads_functionHead : Reads Rule.react limit n
    ([Goal.need identifier .functionName, .need (.sign .leftParen) .functionParen] ++
      Rule.grouped .paren [.rule .parameters]) (functionHead limit) ∅ := by
  have h : Reads Rule.react limit n (Rule.grouped .paren [.rule .parameters])
      (deeper limit (parameters limit) * letters [.sign .rightParen]) ∅ :=
    reads_parameters.grouped (by rw [some_mem_among]; decide)
  exact Reads.cons .need (Reads.cons .need h (by simp) (.inl subset_rfl)) (by simp)
    (.inl subset_rfl)

theorem reads_iterable : Reads Rule.react limit (n + 1) [.rule .iterable]
    (array.words limit + letters [identifier]) ∅ := by
  rw [words_array]
  refine .of_take (startsIn_letters.mul.add startsIn_letters).nil_notMem ⟨_, rfl⟩ fun t => ?_
  rw [after_add, after_letters_mul, after_letters]
  by_cases hb : t = .sign .leftBracket
  · subst hb
    refine .inl ⟨Rule.arrayElements, rfl, ?_⟩
    rw [if_pos (by simp), if_neg (by simp), add_zero]
    exact reads_arrayElements (reads_expression n)
  by_cases hi : t = identifier
  · subst hi
    refine .inl ⟨[], rfl, ?_⟩
    rw [if_neg (by simp), if_pos (by simp), zero_add]
    exact .nil
  refine .inr ⟨⟨.iterable, ?_⟩, ?_⟩
  · simp only [Rule.react, Rule.Start.react, Rule.startIterable]
    split <;> simp_all
  · rw [if_neg (by simpa using hb), if_neg (by simpa using hi), add_zero]

theorem reads_loopHead : Reads Rule.react limit n
    [.need identifier .loopVariable, .rule .secondLoopVariable, .need (.word .in_) .loopIn,
      .rule .iterable] (loopHead limit) ∅ := by
  have hs : Reads Rule.react limit n [.rule .secondLoopVariable]
      (letters [comma] * letters [identifier] + 1) (among [comma]) :=
    (Rule.reads_takeIf (fun _ => rfl) (beq_iff_mem _) .need).mono (Nat.le_succ n) |>.widen
      (Set.empty_union _).subset
  have hi : Reads Rule.react limit n [.need (.word .in_) .loopIn, .rule .iterable]
      (letters [.word .in_] * (array.words limit + letters [identifier])) ∅ :=
    Reads.cons .need (reads_iterable.mono (Nat.le_succ n)) (by simp) (.inl subset_rfl)
  exact Reads.cons .need (hs.cons_among hi (by simp [after_letters_mul])
    (.inr startsIn_letters.mul.nil_notMem)) (by simp) (.inl subset_rfl)

/-- What a simple statement owes after its first terminal, apart from its end, and the words that
complete it. -/
inductive SimpleTail (limit : Option ℕ) : List (Goal Rule) → Words → Prop
  | jump : SimpleTail limit [] 1
  | returned : SimpleTail limit [.rule .returnedValue] (expression.words limit + 1)
  | print : SimpleTail limit (Rule.builtinCall .print) (letters [.sign .leftParen] *
      (deeper limit (printed limit + 1) * letters [.sign .rightParen]))
  | input : SimpleTail limit (Rule.builtinCall .input) (letters [.sign .leftParen] *
      (deeper limit (letters [plain .string] + 1) * letters [.sign .rightParen]))
  | use : SimpleTail limit [.rule .identifierUse] (identifierTail limit)

variable (limit) in
theorem exists_simpleTail {t : Terminal} (ht : t ∈ simpleStarts) :
    ∃ gs, Rule.startStatement (some t) = .ok (gs ++ [Goal.rule Rule.statementEnd]) ∧
      SimpleTail limit gs (after t (simple.words limit)) := by
  simp only [simpleStarts, jumps, List.cons_append, List.nil_append, List.mem_cons,
    List.not_mem_nil, or_false] at ht
  rw [after_simple]
  rcases ht with rfl | rfl | rfl | rfl | rfl | rfl | rfl
  all_goals simp only [jumps, List.mem_cons, List.not_mem_nil, or_false, reduceCtorEq, or_true,
    word.injEq, builtin.injEq, or_self, if_true, if_false, add_zero, zero_add]
  · exact ⟨[], rfl, .jump⟩
  · exact ⟨[], rfl, .jump⟩
  · exact ⟨[], rfl, .jump⟩
  · exact ⟨[.rule .returnedValue], rfl, .returned⟩
  · exact ⟨Rule.builtinCall .print, rfl, .print⟩
  · exact ⟨Rule.builtinCall .input, rfl, .input⟩
  · exact ⟨[.rule .identifierUse], rfl, .use⟩

theorem SimpleTail.reads {gs : List (Goal Rule)} {L : Words} (h : SimpleTail limit gs L) :
    Reads Rule.react limit (n + 1) gs L inLine := by
  cases h with
  | jump => exact .nil
  | returned => exact reads_returnedValue
  | print => exact reads_printCall.widen (Set.empty_subset _)
  | input => exact reads_inputCall.widen (Set.empty_subset _)
  | use => exact reads_identifierUse.widen (among_subset_inLine (by decide))

variable (limit n) in
/-- The goals of a simple statement, apart from its end. -/
theorem reads_simple {t : Terminal} (ht : t ∈ simpleStarts) :
    ∃ gs, Rule.startStatement (some t) = .ok (gs ++ [Goal.rule Rule.statementEnd]) ∧
      Reads Rule.react limit (n + 1) gs (after t (simple.words limit)) inLine := by
  obtain ⟨gs, hg, h⟩ := exists_simpleTail limit ht
  exact ⟨gs, hg, h.reads⟩

theorem reads_instancePattern : Reads Rule.react limit (n + 1) [.rule .instancePattern]
    (letters patterns) ∅ := by
  refine .of_take startsIn_letters.nil_notMem ⟨_, rfl⟩ fun t => ?_
  rw [after_letters]
  by_cases ht : t ∈ patterns
  · refine .inl ⟨[], ?_, if_pos ht ▸ .nil⟩
    simp [Rule.react, Rule.Start.react, Rule.startInstancePattern, isInstancePattern_iff, ht]
  · refine .inr ⟨⟨.instancePattern, ?_⟩, if_neg ht⟩
    simp [Rule.react, Rule.Start.react, Rule.startInstancePattern, isInstancePattern_iff, ht]

theorem reads_instanceGuard : Reads Rule.react limit (n + 1) [.rule .instanceGuard]
    ((letters relations + 1) * letters patterns) ∅ := by
  refine Rule.reads_prefix ?_ ?_ startsIn_letters.nil_notMem reads_instancePattern ?_
  · intro t ht
    simp [Rule.react, isRelational_iff, ht]
  · intro next hn
    have hs : next.any (·.isRelational) = false := by
      cases next <;> simp_all [← isRelational_iff]
    simp [Rule.react, hs]
  · exact fun t ht => startsIn_letters.after_eq_zero t (by revert t; decide)

section
variable (hS : Reads Rule.react limit n [.rule .statements] (statements.words limit) inBlock)
include hS

theorem reads_colonBlock {missing : Expectation} :
    Reads Rule.react limit n (Rule.colonBlock missing) (Form.block.words limit) ∅ := by
  rw [Form.words_block]
  have hb : Reads Rule.react limit n
      [.enterBlock, .rule .statements, .need (plain .dedent) .blockEnd, .leaveBlock]
      (deeper limit (statements.words limit) * letters [plain .dedent]) ∅ :=
    hS.block (by simp [inBlock, endsBlock])
  refine Reads.cons .need ?_ (by simp) (.inl subset_rfl)
  refine Reads.cons .need ?_ (by simp) (.inl subset_rfl)
  exact Reads.cons .need hb (by simp) (.inl subset_rfl)

theorem reads_conditionBlock {missing : Expectation} :
    Reads Rule.react limit n (.rule .expression :: Rule.colonBlock missing)
      (expression.words limit * Form.block.words limit) ∅ := by
  refine Reads.cons_among (reads_expression n) (reads_colonBlock hS) ?_ (.inr ?_)
  · intro t ht
    rw [Form.words_block, after_letters_mul]
    exact if_neg (by revert t; decide)
  · exact Form.words_block ▸ startsIn_letters.mul.nil_notMem

theorem reads_branches : Reads Rule.react limit n [.rule .branches] (branches limit)
    (among [word .elif, word .else_]) := by
  induction n with
  | zero => exact .zero
  | succ n ih =>
    have hS := hS.mono (Nat.le_succ n)
    have hnil d : [] ∈ branches limit d := nil_mem_mul.mpr ⟨nil_mem_kstar, mem_add.mpr (.inr rfl)⟩
    refine .of_at fun next => ?_
    cases next with
    | none => exact .pass rfl hnil trivial
    | some t =>
      by_cases hi : t = word .elif
      · subst hi
        refine .take rfl ?_ (.inl (by simp))
        rw [after_branches, if_pos (by simp), if_neg (by simp), add_zero]
        exact Reads.append (reads_conditionBlock hS) (ih hS) (by simp) (.inl (Set.empty_subset _))
      by_cases he : t = word .else_
      · subst he
        refine .take rfl ?_ (.inl (by simp))
        rw [after_branches, if_neg (by simp), if_pos (by simp), zero_add]
        exact (reads_colonBlock hS).widen (Set.empty_subset _)
      refine .pass ?_ hnil ?_
      · simp only [Rule.react]
        split <;> simp_all
      · change after t (branches limit) = 0
        rw [after_branches, if_neg (by simpa using hi), if_neg (by simpa using he), add_zero]

theorem reads_clauses : Reads Rule.react limit n [.rule .clauses] (clauses limit) ∅ := by
  induction n with
  | zero => exact .zero
  | succ n ih =>
    have hS := hS.mono (Nat.le_succ n)
    refine .of_take nil_notMem_clauses ⟨_, rfl⟩ fun t => ?_
    rw [after_clauses]
    by_cases hi : t = word .instance_
    · subst hi
      refine .inl ⟨_, rfl, ?_⟩
      rw [if_pos (by simp), if_neg (by simp), if_neg (by simp), add_zero, add_zero, instanceTail,
        ← mul_assoc]
      have hb : Reads Rule.react limit n (.rule .instanceGuard :: Rule.colonBlock .instanceColon)
          ((letters relations + 1) * letters patterns * Form.block.words limit) ∅ :=
        (reads_instanceGuard.mono (Nat.le_succ n)).cons (reads_colonBlock hS) (by simp)
          (.inl subset_rfl)
      exact Reads.append hb (ih hS) (by simp) (.inl subset_rfl)
    by_cases hd : t = word .default
    · subst hd
      refine .inl ⟨_, rfl, ?_⟩
      rw [if_neg (by simp), if_pos (by simp), if_neg (by simp), add_zero, zero_add]
      exact Reads.append (reads_colonBlock hS) .need (by simp) (.inl subset_rfl)
    by_cases he : t = plain .dedent
    · subst he
      refine .inl ⟨[], rfl, ?_⟩
      rw [if_neg (by simp), if_neg (by simp), if_pos (by simp), zero_add, zero_add]
      exact .nil
    refine .inr ⟨⟨.clausesEnd, ?_⟩, ?_⟩
    · simp only [Rule.react, Rule.Start.react, Rule.startClauses]
      split <;> simp_all
    · rw [if_neg (by simpa using hi), if_neg (by simpa using hd), if_neg (by simpa using he),
        add_zero, add_zero]

theorem reads_dispatch : Reads Rule.react limit n
    [.need identifier .whichSubject, .need (.sign .colon) .whichColon,
      .need (.plain .newline) .blockNewline, .need (.plain .indent) .clausesIndent, .rule .clauses]
    (dispatch limit) ∅ := by
  refine Reads.cons .need ?_ (by simp) (.inl subset_rfl)
  refine Reads.cons .need ?_ (by simp) (.inl subset_rfl)
  refine Reads.cons .need ?_ (by simp) (.inl subset_rfl)
  exact Reads.cons .need (reads_clauses hS) (by simp) (.inl subset_rfl)

/-- What a compound statement owes after its first terminal, and the words that complete it. -/
inductive CompoundTail (limit : Option ℕ) : List (Goal Rule) → Words → Prop
  | if_ : CompoundTail limit
      (.rule .expression :: Rule.colonBlock (.conditionColon .if_) ++ [.rule .branches])
      (expression.words limit * Form.block.words limit * branches limit)
  | while_ : CompoundTail limit (.rule .expression :: Rule.colonBlock (.conditionColon .while_))
      (expression.words limit * Form.block.words limit)
  | for_ : CompoundTail limit ([.need identifier .loopVariable, .rule .secondLoopVariable,
      .need (.word .in_) .loopIn, .rule .iterable] ++ Rule.colonBlock .loopColon)
      (loopHead limit * Form.block.words limit)
  | define : CompoundTail limit ([.need identifier .functionName,
      .need (.sign .leftParen) .functionParen] ++ Rule.grouped .paren [.rule .parameters] ++
        Rule.colonBlock .parametersColon) (functionHead limit * Form.block.words limit)
  | which : CompoundTail limit [.need identifier .whichSubject, .need (.sign .colon) .whichColon,
      .need (.plain .newline) .blockNewline, .need (.plain .indent) .clausesIndent,
      .rule .clauses] (dispatch limit)

omit hS in
variable (limit) in
theorem exists_compoundTail {t : Terminal} (ht : t ∈ compoundStarts) :
    ∃ gs, Rule.startStatement (some t) = .ok gs ∧
      CompoundTail limit gs (after t (compound.words limit)) := by
  simp only [compoundStarts, List.cons_append, List.nil_append, List.mem_cons, List.not_mem_nil,
    or_false] at ht
  rw [after_compound]
  rcases ht with rfl | rfl | rfl | rfl | rfl
  all_goals simp only [List.mem_cons, List.not_mem_nil, or_false, reduceCtorEq, word.injEq,
    if_true, if_false, add_zero, zero_add]
  · exact ⟨_, rfl, .if_⟩
  · exact ⟨_, rfl, .while_⟩
  · exact ⟨_, rfl, .for_⟩
  · exact ⟨_, rfl, .define⟩
  · exact ⟨_, rfl, .which⟩

theorem CompoundTail.reads {gs : List (Goal Rule)} {L : Words} (h : CompoundTail limit gs L) :
    Reads Rule.react limit n gs L (among [word .elif, word .else_]) := by
  cases h with
  | if_ =>
    exact Reads.append (reads_conditionBlock hS) (reads_branches hS) (by simp)
      (.inl (Set.empty_subset _))
  | while_ => exact (reads_conditionBlock hS).widen (Set.empty_subset _)
  | for_ =>
    exact (Reads.append reads_loopHead (reads_colonBlock hS) (by simp)
      (.inl subset_rfl)).widen (Set.empty_subset _)
  | define =>
    exact (Reads.append reads_functionHead (reads_colonBlock hS) (by simp)
      (.inl subset_rfl)).widen (Set.empty_subset _)
  | which => exact (reads_dispatch hS).widen (Set.empty_subset _)

theorem reads_compound {t : Terminal} (ht : t ∈ compoundStarts) :
    ∃ gs, Rule.startStatement (some t) = .ok gs ∧
      Reads Rule.react limit n gs (after t (compound.words limit))
        (among [word .elif, word .else_]) := by
  obtain ⟨gs, hg, h⟩ := exists_compoundTail limit ht
  exact ⟨gs, hg, h.reads hS⟩

end

theorem startStatement_error {t : Terminal} (hs : t ∉ simpleStarts) (hc : t ∉ compoundStarts) :
    ∃ missing, Rule.startStatement (some t) = .error missing := by
  cases t with
  | word k =>
    cases k <;> first
      | exact ⟨_, rfl⟩
      | exact absurd (by decide) hs
      | exact absurd (by decide) hc
  | builtin b => cases b <;> exact absurd (by decide) hs
  | plain k =>
    cases k <;> first
      | exact ⟨_, rfl⟩
      | exact absurd (by decide) hs

variable (limit) in
/-- A statement is a simple one, which owes the end of its line, or a compound one. -/
theorem tail_of_startStatement {t : Terminal} {gs : List (Goal Rule)}
    (h : Rule.startStatement (some t) = .ok gs) :
    (∃ gs', gs = gs' ++ [Goal.rule Rule.statementEnd] ∧
      SimpleTail limit gs' (after t (simple.words limit))) ∨
      CompoundTail limit gs (after t (compound.words limit)) := by
  by_cases hs : t ∈ simpleStarts
  · obtain ⟨gs', hg, ht⟩ := exists_simpleTail limit hs
    exact .inl ⟨gs', Except.ok.inj (h.symm.trans hg), ht⟩
  by_cases hc : t ∈ compoundStarts
  · obtain ⟨gs', hg, ht⟩ := exists_compoundTail limit hc
    exact .inr (Except.ok.inj (h.symm.trans hg) ▸ ht)
  · obtain ⟨missing, hg⟩ := startStatement_error hs hc
    cases h.symm.trans hg

theorem notMem_starts_of_endsBlock {t : Terminal} (h : t.endsBlock) :
    t ∉ simpleStarts ∧ t ∉ compoundStarts := by
  have hs : ∀ t ∈ simpleStarts, t.endsBlock = false := by decide
  have hc : ∀ t ∈ compoundStarts, t.endsBlock = false := by decide
  exact ⟨fun ht => by simp [hs t ht] at h, fun ht => by simp [hc t ht] at h⟩

theorem reads_statementEnd (h : Reads Rule.react limit n [.rule .statements]
    (statements.words limit) inBlock) :
    Reads Rule.react limit (n + 1) [.rule .statementEnd, .rule .statements] (nextLines limit)
      inBlock := by
  refine .of_at fun next => ?_
  by_cases hn : next = some newline
  · subst hn
    refine .took [.rule .statements] (fun _ _ => rfl) ?_ (.inl (by simp [inBlock, endsBlock]))
    rw [after_nextLines, if_pos (by simp)]
    exact h
  have hno : next.elim True (after · (nextLines limit) = 0) := by
    cases next with
    | none => trivial
    | some t => exact after_nextLines.trans (if_neg (by simpa using hn))
  by_cases he : next.all (·.endsBlock)
  · have hl : next.all (·.endsLine) := by
      cases next <;> simp_all [endsLine_iff]
    exact .skip (fun _ _ => by simp [advance, Rule.react, hn, hl, he]) nil_mem_nextLines hno
  · have hl : ¬ next.all (·.endsLine) := by
      cases next <;> simp_all [endsLine_iff]
    exact .fail (fun _ _ => ⟨_, by simp [advance, Rule.react, hn, hl]; rfl⟩) hno (.inl he)

section
variable (h : Reads Rule.react limit n [.rule .statements] (statements.words limit) inBlock)
  {t : Terminal}
include h

theorem reads_statements_simple (ht : t ∈ simpleStarts) :
    ∃ gs, Rule.startStatement (some t) = .ok gs ∧
      Reads Rule.react limit n (gs ++ [Goal.rule Rule.statements])
        (after t (statements.words limit)) inBlock := by
  obtain ⟨gs, hg, hr⟩ := reads_simple limit n ht
  refine ⟨_, hg, ?_⟩
  rw [after_statements, startsIn_compound.after_eq_zero t (notMem_compoundStarts t ht), zero_mul,
    add_zero, List.append_assoc]
  refine (hr.mono (Nat.le_succ n)).append (reads_statementEnd h |>.mono (Nat.le_succ n)) ?_
    (.inl inLine_subset)
  intro t ht
  exact after_nextLines.trans (if_neg fun h => ht (by simp_all [endsLine]))

theorem reads_statements_compound (ht : t ∈ compoundStarts) :
    ∃ gs, Rule.startStatement (some t) = .ok gs ∧
      Reads Rule.react limit n (gs ++ [Goal.rule Rule.statements])
        (after t (statements.words limit)) inBlock := by
  obtain ⟨gs, hg, hr⟩ := reads_compound h ht
  refine ⟨gs, hg, ?_⟩
  have hs : t ∉ simpleStarts := fun hs => notMem_compoundStarts t hs ht
  rw [after_statements, startsIn_simple.after_eq_zero t hs, zero_mul, zero_add]
  refine hr.append_among h ?_ (.inl ?_)
  · exact fun t ht => after_statements_eq_zero (by revert t; decide) (by revert t; decide)
  · exact (among_subset_inLine (by decide)).trans inLine_subset

end

theorem reads_statements (n : ℕ) :
    Reads Rule.react limit n [.rule .statements] (statements.words limit) inBlock := by
  induction n with
  | zero => exact .zero
  | succ n ih =>
    have hnil d : [] ∈ statements.words limit d := by
      rw [words_statements]
      exact mem_add.mpr (.inr rfl)
    refine .of_at fun next => ?_
    cases next with
    | none => exact .pass rfl hnil trivial
    | some t =>
      by_cases he : t.endsBlock
      · obtain ⟨hs, hc⟩ := notMem_starts_of_endsBlock he
        refine .pass (by simp [Rule.react, he]) hnil ?_
        exact after_statements_eq_zero hs hc
      have hb : some t ∈ inBlock := by simpa [inBlock] using he
      have hr : Rule.react (some t) .statements =
          (Rule.startStatement.followedBy [.rule .statements]).react (some t) := by
        simp [Rule.react, he]
      have htake : (∃ gs, Rule.startStatement (some t) = .ok gs ∧
          Reads Rule.react limit n (gs ++ [Goal.rule Rule.statements])
            (after t (statements.words limit)) inBlock) →
          ReadsAt Rule.react limit (n + 1) (some t) [.rule .statements] (statements.words limit)
            inBlock := by
        rintro ⟨gs, hg, h⟩
        refine .take ?_ h (.inl hb)
        simp [hr, Rule.Start.react, Rule.Start.followedBy, Except.map, hg]
      by_cases hs : t ∈ simpleStarts
      · exact htake (reads_statements_simple ih hs)
      by_cases hc : t ∈ compoundStarts
      · exact htake (reads_statements_compound ih hc)
      · obtain ⟨missing, hg⟩ := startStatement_error hs hc
        have hr : Rule.react (some t) .statements = .refuse missing := by
          simp [hr, Rule.Start.react, Rule.Start.followedBy, Except.map, hg]
        exact .refuse hr (after_statements_eq_zero hs hc) (.inl hb)

end Phrase

end RookLang
