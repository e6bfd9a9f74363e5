import Mathlib.Order.CompletePartialOrder
import RookLang.Proofs.Grammar.Phrases

/-! The words of statements and of their parts. -/
namespace RookLang.Phrase
open Form Terminal Words Computability

variable {limit : Option ℕ} {t : Terminal}

theorem words_separator : separator.words limit =
    letters [word .separator] * (letters [assign] * letters [plain .string]) := by
  simp only [words_eq separator, form, words_seq, words_oneOf, mul_assoc]

/-- What follows the first value that is printed. -/
def printTail (limit : Option ℕ) : Words :=
  (letters [comma] * expression.words limit)∗ * (letters [comma] * separator.words limit + 1)

def printed (limit : Option ℕ) : Words :=
  expression.words limit * printTail limit + separator.words limit

theorem printTail_eq : printTail limit = letters [comma] * printed limit + 1 :=
  list_tail ..

theorem words_printCall : printCall.words limit = letters [builtin .print] *
    (letters [.sign .leftParen] *
      (deeper limit (printed limit + 1) * letters [.sign .rightParen])) := by
  simp only [words_eq printCall, form, words_seq, words_alt, words_optional, words_list,
    words_oneOf, words_parens, words_phrase, printed, printTail, mul_assoc,
    add_comm (separator.words limit)]

theorem words_inputCall : inputCall.words limit = letters [builtin .input] *
    (letters [.sign .leftParen] *
      (deeper limit (letters [plain .string] + 1) * letters [.sign .rightParen])) := by
  simp only [words_eq inputCall, form, words_seq, words_optional, words_oneOf, words_parens]

theorem words_assigned :
    assigned.words limit = inputCall.words limit + expression.words limit := by
  simp only [words_eq assigned, form, words_alt, words_phrase]

theorem after_assigned : after t (assigned.words limit) =
    (if t ∈ [builtin .input] then letters [.sign .leftParen] *
      (deeper limit (letters [plain .string] + 1) * letters [.sign .rightParen]) else 0) +
      after t (expression.words limit) := by
  rw [words_assigned, words_inputCall, after_add, after_letters_mul]

theorem startsIn_assigned :
    StartsIn (assigned.words limit) (builtin .input :: expressionStarts) := by
  rw [words_assigned, words_inputCall]
  exact startsIn_letters.mul.add startsIn_expression

/-- The values of a declaration. -/
def assignedValues (limit : Option ℕ) : Words :=
  assigned.words limit * (letters [comma] * assigned.words limit)∗

/-- What follows the first target of a declaration. -/
def targetTail (limit : Option ℕ) : Words :=
  (letters [comma] * letters [identifier])∗ * (letters [assign] * assignedValues limit)

theorem after_targetTail : after t (targetTail limit) =
    (if t ∈ [comma] then letters [identifier] * targetTail limit else 0) +
      if t ∈ [assign] then assignedValues limit else 0 := by
  conv_lhs => rw [targetTail, after_loop_mul, after_letters_mul]
  rfl

theorem nil_notMem_targetTail (d : ℕ) : [] ∉ targetTail limit d := by
  rw [targetTail]
  exact fun h => startsIn_letters.mul.nil_notMem d (nil_mem_mul.mp h).2

/-- What follows the identifier that a statement starts with. -/
def identifierTail (limit : Option ℕ) : Words :=
  arguments.words limit + letters compoundAssignments * expression.words limit + targetTail limit

theorem after_identifierTail : after t (identifierTail limit) =
    (if t ∈ [.sign .leftParen] then
      deeper limit (expression.words limit * argumentsTail limit + 1) *
        letters [.sign .rightParen] else 0) +
      (if t ∈ compoundAssignments then expression.words limit else 0) +
      after t (targetTail limit) := by
  rw [identifierTail, words_arguments]
  simp only [after_add, after_letters_mul]

theorem nil_notMem_identifierTail (d : ℕ) : [] ∉ identifierTail limit d := by
  rw [identifierTail, words_arguments]
  intro h
  rcases mem_add.mp h with h | h
  · rcases mem_add.mp h with h | h
    · exact startsIn_letters.mul.nil_notMem d h
    · exact startsIn_letters.mul.nil_notMem d h
  · exact nil_notMem_targetTail d h

/-- The statements of one word. -/
def jumps : List Terminal := [word .pass, word .break_, word .continue_]

theorem words_simple : simple.words limit =
    letters jumps + letters [word .return_] * (expression.words limit + 1) +
      printCall.words limit + inputCall.words limit +
      letters [identifier] * identifierTail limit := by
  have hj : letters jumps =
      letters [word .pass] + letters [word .break_] + letters [word .continue_] := by
    ext d w
    simp only [jumps, mem_add, mem_letters, List.mem_cons, List.not_mem_nil, or_false,
      exists_eq_or_imp, exists_eq_left, or_assoc]
  simp only [words_eq simple, form, words_seq, words_alt, words_optional, words_list, words_oneOf,
    words_phrase, identifierTail, targetTail, assignedValues, mul_assoc, mul_add, hj, add_assoc]

theorem after_simple : after t (simple.words limit) =
    (if t ∈ jumps then 1 else 0) +
      (if t ∈ [word .return_] then expression.words limit + 1 else 0) +
      (if t ∈ [builtin .print] then letters [.sign .leftParen] *
        (deeper limit (printed limit + 1) * letters [.sign .rightParen]) else 0) +
      (if t ∈ [builtin .input] then letters [.sign .leftParen] *
        (deeper limit (letters [plain .string] + 1) * letters [.sign .rightParen]) else 0) +
      if t ∈ [identifier] then identifierTail limit else 0 := by
  rw [words_simple, words_printCall, words_inputCall]
  simp only [after_add, after_letters_mul, after_letters]

/-- What follows the block of an `if`. -/
def branches (limit : Option ℕ) : Words :=
  (letters [word .elif] * (expression.words limit * block.words limit))∗ *
    (letters [word .else_] * block.words limit + 1)

theorem after_branches : after t (branches limit) =
    (if t ∈ [word .elif] then
      expression.words limit * block.words limit * branches limit else 0) +
      if t ∈ [word .else_] then block.words limit else 0 := by
  conv_lhs => rw [branches, after_loop_mul, after_option]
  rfl

/-- The head of a `for`, after that word. -/
def loopHead (limit : Option ℕ) : Words :=
  letters [identifier] * ((letters [comma] * letters [identifier] + 1) *
    (letters [word .in_] * (array.words limit + letters [identifier])))

/-- The parameters of a function. -/
def parameters (limit : Option ℕ) : Words :=
  (letters [identifier] *
    ((letters [assign] * expression.words limit + 1) * (letters [comma] + 1)))∗

/-- The head of a `define`, after that word. -/
def functionHead (limit : Option ℕ) : Words :=
  letters [identifier] * (letters [.sign .leftParen] *
    (deeper limit (parameters limit) * letters [.sign .rightParen]))

/-- A clause of a `which`, after `instance`. -/
def instanceTail (limit : Option ℕ) : Words :=
  (letters relations + 1) * (letters patterns * block.words limit)

/-- The clauses of a `which`, and their end. -/
def clauses (limit : Option ℕ) : Words :=
  (letters [word .instance_] * instanceTail limit)∗ *
    (letters [word .default] * (block.words limit * letters [plain .dedent]) +
      letters [plain .dedent])

theorem after_clauses : after t (clauses limit) =
    (if t ∈ [word .instance_] then instanceTail limit * clauses limit else 0) +
      ((if t ∈ [word .default] then block.words limit * letters [plain .dedent] else 0) +
        if t ∈ [plain .dedent] then 1 else 0) := by
  conv_lhs => rw [clauses, after_loop_mul, after_add, after_letters_mul, after_letters]
  rfl

theorem nil_notMem_clauses (d : ℕ) : [] ∉ clauses limit d := by
  rw [clauses]
  exact fun h => (startsIn_letters.mul.add startsIn_letters).nil_notMem d (nil_mem_mul.mp h).2

/-- The rest of a `which`, after that word. -/
def dispatch (limit : Option ℕ) : Words :=
  letters [identifier] * (letters [.sign .colon] * (letters [newline] *
    (letters [plain .indent] * clauses limit)))

theorem words_compound : compound.words limit =
    letters [word .if_] * (expression.words limit * block.words limit * branches limit) +
      letters [word .while_] * (expression.words limit * block.words limit) +
      letters [word .for_] * (loopHead limit * block.words limit) +
      letters [word .define] * (functionHead limit * block.words limit) +
      letters [word .which] * dispatch limit := by
  simp only [words_eq compound, form, words_seq, words_alt, words_optional, words_many,
    words_oneOf, words_parens, words_clauses, words_phrase, branches, loopHead, parameters,
    functionHead, instanceTail, clauses, dispatch, mul_assoc, add_mul, one_mul]

theorem after_compound : after t (compound.words limit) =
    (if t ∈ [word .if_] then
      expression.words limit * block.words limit * branches limit else 0) +
      (if t ∈ [word .while_] then expression.words limit * block.words limit else 0) +
      (if t ∈ [word .for_] then loopHead limit * block.words limit else 0) +
      (if t ∈ [word .define] then functionHead limit * block.words limit else 0) +
      (if t ∈ [word .which] then dispatch limit else 0) := by
  rw [words_compound]
  simp only [after_add, after_letters_mul]

/-- The terminals that simple statements start with. -/
def simpleStarts : List Terminal :=
  jumps ++ [word .return_] ++ [builtin .print] ++ [builtin .input] ++ [identifier]

theorem startsIn_simple : StartsIn (simple.words limit) simpleStarts := by
  rw [words_simple, words_printCall, words_inputCall]
  exact (((startsIn_letters.add startsIn_letters.mul).add startsIn_letters.mul).add
    startsIn_letters.mul).add startsIn_letters.mul

/-- The terminals that compound statements start with. -/
def compoundStarts : List Terminal :=
  [word .if_] ++ [word .while_] ++ [word .for_] ++ [word .define] ++ [word .which]

theorem notMem_compoundStarts : ∀ t ∈ simpleStarts, t ∉ compoundStarts := by decide

theorem startsIn_compound : StartsIn (compound.words limit) compoundStarts := by
  rw [words_compound]
  exact (((startsIn_letters.mul.add startsIn_letters.mul).add startsIn_letters.mul).add
    startsIn_letters.mul).add startsIn_letters.mul

/-- The statements after a simple one, if its line ends. -/
def nextLines (limit : Option ℕ) : Words := letters [newline] * statements.words limit + 1

theorem after_nextLines : after t (nextLines limit) =
    if t ∈ [newline] then statements.words limit else 0 :=
  after_option

theorem nil_mem_nextLines (d : ℕ) : [] ∈ nextLines limit d := mem_add.mpr (.inr rfl)

theorem words_statements : statements.words limit =
    simple.words limit * nextLines limit + compound.words limit * statements.words limit + 1 := by
  have h : statements.words limit =
      (simple.words limit * letters [newline] + compound.words limit)∗ *
        (simple.words limit + 1) := by
    simp only [words_eq statements, form, words_seq, words_alt, words_optional, words_many,
      words_oneOf, words_phrase]
  have h' : statements.words limit = (simple.words limit + 1) +
      (simple.words limit * letters [newline] + compound.words limit) *
        statements.words limit := by
    conv_lhs => rw [h, ← one_add_mul_kstar, add_mul, one_mul, mul_assoc, ← h]
  conv_lhs => rw [h']
  rw [nextLines, mul_add, mul_one, add_mul, mul_assoc, add_right_comm, ← add_assoc,
    add_comm (simple.words limit)]

theorem after_statements : after t (statements.words limit) =
    after t (simple.words limit) * nextLines limit +
      after t (compound.words limit) * statements.words limit := by
  conv_lhs => rw [words_statements]
  rw [after_add, after_one, add_zero, after_add, after_mul startsIn_simple.nil_notMem,
    after_mul startsIn_compound.nil_notMem]

theorem after_statements_eq_zero (hs : t ∉ simpleStarts) (hc : t ∉ compoundStarts) :
    after t (statements.words limit) = 0 := by
  rw [after_statements, startsIn_simple.after_eq_zero t hs, startsIn_compound.after_eq_zero t hc,
    zero_mul, zero_mul, add_zero]

/-- The words of programs, by the number of their statements. -/
def programs (limit : Option ℕ) (n : ℕ) : Words := (program n).words limit

theorem programs_zero : programs limit 0 = letters [plain .endOfInput] + 1 := by
  rw [programs, program, words_optional, words_oneOf]

/-- The programs of `n` statements, after another simple statement. -/
def nextProgram (limit : Option ℕ) : ℕ → Words
  | 0 => letters [newline] * programs limit 0 + programs limit 0
  | n + 1 => letters [newline] * programs limit (n + 1)

theorem words_line : line.words limit =
    simple.words limit * letters [newline] + compound.words limit := by
  simp only [line, words_seq, words_alt, words_oneOf, words_phrase]

theorem programs_succ (n : ℕ) : programs limit (n + 1) =
    simple.words limit * nextProgram limit n + compound.words limit * programs limit n := by
  cases n with
  | zero =>
    have h : programs limit 1 = (line.words limit + simple.words limit) * programs limit 0 := by
      simp only [programs, program, Form.times, words_seq, words_alt, words_empty, words_phrase,
        one_mul]
    rw [h, nextProgram, words_line, add_mul, add_mul, mul_add, mul_assoc, add_right_comm]
  | succ n =>
    have h : programs limit (n + 2) = line.words limit * programs limit (n + 1) := by
      simp only [programs, program, Form.times, words_seq, mul_assoc]
    rw [h, nextProgram, words_line, add_mul, mul_assoc]

theorem after_programs_zero :
    after t (programs limit 0) = if t ∈ [plain .endOfInput] then 1 else 0 := by
  rw [programs_zero, after_add, after_letters, after_one, add_zero]

theorem after_programs_succ (n : ℕ) : after t (programs limit (n + 1)) =
    after t (simple.words limit) * nextProgram limit n +
      after t (compound.words limit) * programs limit n := by
  rw [programs_succ, after_add, after_mul startsIn_simple.nil_notMem,
    after_mul startsIn_compound.nil_notMem]

/-- What starts no statement can only be the end of an empty program. -/
theorem after_programs (hs : t ∉ simpleStarts) (hc : t ∉ compoundStarts) (n : ℕ) :
    after t (programs limit n) = if n = 0 then after t (programs limit 0) else 0 := by
  cases n with
  | zero => rw [if_pos rfl]
  | succ n =>
    rw [after_programs_succ, startsIn_simple.after_eq_zero t hs,
      startsIn_compound.after_eq_zero t hc, zero_mul, zero_mul, add_zero,
      if_neg (Nat.succ_ne_zero n)]

theorem nil_mem_programs {n d : ℕ} : [] ∈ programs limit n d ↔ n = 0 := by
  cases n with
  | zero =>
    rw [programs_zero]
    exact iff_of_true (mem_add.mpr (.inr rfl)) rfl
  | succ n =>
    rw [programs_succ]
    refine iff_of_false (fun h => ?_) (by simp)
    rcases mem_add.mp h with h | h
    · exact startsIn_simple.nil_notMem d (nil_mem_mul.mp h).1
    · exact startsIn_compound.nil_notMem d (nil_mem_mul.mp h).1

theorem after_newline_nextProgram (n : ℕ) :
    after newline (nextProgram limit n) = programs limit n := by
  cases n with
  | zero =>
    rw [nextProgram, after_add, after_letters_mul, if_pos (by simp), after_programs_zero,
      if_neg (by simp), add_zero]
  | succ n => rw [nextProgram, after_letters_mul, if_pos (by simp)]

theorem after_nextProgram (h : t ≠ newline) (n : ℕ) :
    after t (nextProgram limit n) = if n = 0 then after t (programs limit 0) else 0 := by
  cases n with
  | zero => rw [nextProgram, after_add, after_letters_mul, if_neg (by simpa), zero_add, if_pos rfl]
  | succ n =>
    rw [nextProgram, after_letters_mul, if_neg (by simpa), if_neg (Nat.succ_ne_zero n)]

theorem nil_mem_nextProgram {n d : ℕ} : [] ∈ nextProgram limit n d ↔ n = 0 := by
  cases n with
  | zero => exact iff_of_true (mem_add.mpr (.inr (nil_mem_programs.mpr rfl))) rfl
  | succ n => exact iff_of_false (startsIn_letters.mul.nil_notMem d) (Nat.succ_ne_zero n)

/-- A line may come before every program. -/
theorem line_mul_programs_le (n : ℕ) :
    line.words limit * programs limit n ≤ programs limit (n + 1) := by
  have h : letters [newline] * programs limit n ≤ nextProgram limit n := by
    cases n with
    | zero => exact le_self_add
    | succ n => exact le_rfl
  rw [words_line, programs_succ, add_mul, mul_assoc]
  gcongr

theorem lines_mul_programs_le (m n : ℕ) :
    line.words limit ^ m * programs limit n ≤ programs limit (m + n) := by
  induction m with
  | zero => rw [pow_zero, one_mul, Nat.zero_add]
  | succ m ih =>
    calc line.words limit ^ (m + 1) * programs limit n
        = line.words limit * (line.words limit ^ m * programs limit n) := by
          rw [pow_succ', mul_assoc]
      _ ≤ line.words limit * programs limit (m + n) := by gcongr
      _ ≤ programs limit (m + n + 1) := line_mul_programs_le _
      _ = programs limit (m + 1 + n) := by rw [Nat.add_right_comm]

end RookLang.Phrase
