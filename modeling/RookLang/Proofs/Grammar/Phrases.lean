import RookLang.Proofs.Grammar.Words

/-! The words of each phrase, and how they start. -/
namespace RookLang.Phrase
open Form Terminal Words Computability

variable {limit : Option ℕ}

theorem words_value : value.words limit =
    letters [identifier] * (arguments.words limit + 1) + letters literals + array.words limit +
      letters [.sign .leftParen] *
        (deeper limit (expression.words limit) * letters [.sign .rightParen]) := by
  simp only [words_eq value, form, words_alt, words_seq, words_optional, words_oneOf, words_parens,
    words_phrase]

theorem words_signed : signed.words limit = (letters sums + 1) * value.words limit := by
  simp only [words_eq signed, form, words_seq, words_optional, words_oneOf, words_phrase]

theorem words_product : product.words limit =
    signed.words limit * (letters products * signed.words limit)∗ := by
  simp only [words_eq product, form, words_seq, words_many, words_oneOf, words_phrase]

theorem words_sum : sum.words limit =
    product.words limit * (letters sums * product.words limit)∗ := by
  simp only [words_eq sum, form, words_seq, words_many, words_oneOf, words_phrase]

/-- What follows the first sum of a comparison. -/
def comparisonTail (limit : Option ℕ) : Words :=
  ((letters relations + letters [word .in_] + letters [op .not] * letters [word .in_]) *
    sum.words limit)∗

theorem words_comparison :
    comparison.words limit = sum.words limit * comparisonTail limit := by
  simp only [words_eq comparison, form, words_seq, words_alt, words_many, words_oneOf, words_phrase,
    comparisonTail]

theorem after_comparisonTail (t : Terminal) : after t (comparisonTail limit) =
    (if t ∈ relations ++ [word .in_] then sum.words limit * comparisonTail limit else 0) +
      if t ∈ [op .not] then letters [word .in_] * (sum.words limit * comparisonTail limit)
        else 0 := by
  have hnil d : [] ∉ (letters relations + letters [word .in_] +
      letters [op .not] * letters [word .in_] : Words) d := by
    intro h
    rcases mem_add.mp h with h | h
    · rcases mem_add.mp h with h | h <;> simp at h
    · simpa using (nil_mem_mul.mp h).1
  have ha : after t (letters relations + letters [word .in_]) =
      if t ∈ relations ++ [word .in_] then 1 else 0 := by
    rw [after_add, after_letters, after_letters]
    by_cases h : t ∈ relations <;> by_cases h' : t ∈ [word .in_] <;> simp [h, h']
  rw [comparisonTail, after_kstar, after_mul hnil, after_add, ha, after_letters_mul]
  simp only [add_mul, ite_mul, one_mul, zero_mul, mul_assoc]

theorem words_negation :
    negation.words limit = (letters [op .not] + 1) * comparison.words limit := by
  simp only [words_eq negation, form, words_seq, words_optional, words_oneOf, words_phrase]

/-- The second `and` of a conjunction adds no expression. -/
theorem words_expression : expression.words limit =
    negation.words limit * (letters junctions * negation.words limit)∗ := by
  simp only [words_eq expression, words_eq conjunction, form, words_seq, words_optional, words_many,
    words_oneOf, words_phrase]
  have hJ : letters [op .and] ≤ letters junctions := by
    rintro d w ⟨t, ht, rfl⟩
    exact ⟨t, by simp_all [junctions], rfl⟩
  generalize negation.words limit = N, letters [op .and] = A, letters junctions = J at hJ
  have hC : N * (A * N + 1) ≤ N * (J * N)∗ := by
    gcongr
    exact add_le ((mul_le_mul_left hJ N).trans le_kstar) one_le_kstar
  apply le_antisymm
  · calc N * (A * N + 1) * (J * (N * (A * N + 1)))∗
        ≤ N * (J * N)∗ * (J * (N * (J * N)∗))∗ := by gcongr
      _ ≤ N * (J * N)∗ * ((J * N)∗)∗ := by
        rw [← mul_assoc J]
        gcongr
        exact mul_kstar_le_kstar
      _ = N * (J * N)∗ := by simp [mul_assoc]
  · have hN : N ≤ N * (A * N + 1) := by
      rw [mul_add, mul_one]
      exact le_add_left le_rfl
    gcongr

/-- A list of `E` after its first element, and what may follow its last comma. -/
theorem list_tail (c E X Y : Words) :
    (c * E)∗ * (c * X + Y) = c * (E * ((c * E)∗ * (c * X + Y)) + X) + Y := by
  calc (c * E)∗ * (c * X + Y)
      = (1 + c * E * (c * E)∗) * (c * X + Y) := by rw [one_add_mul_kstar]
    _ = c * X + Y + c * (E * ((c * E)∗ * (c * X + Y))) := by
      rw [add_mul, one_mul, mul_assoc, mul_assoc]
    _ = c * (E * ((c * E)∗ * (c * X + Y)) + X) + Y := by
      rw [mul_add c, add_right_comm, add_comm (c * X)]

/-- What follows `to` in an array. -/
def rangeTail : Words :=
  letters [plain .number] *
    (letters [word .step] * ((letters [sign .colon] + 1) * letters [plain .number]) + 1)

/-- What follows the first element of an array. -/
def elementsTail (limit : Option ℕ) : Words :=
  (letters [comma] * expression.words limit)∗ *
    (letters [comma] * 1 + (letters [word .to_] * rangeTail + 1))

theorem elementsTail_eq : elementsTail limit =
    letters [comma] * (expression.words limit * elementsTail limit + 1) +
      (letters [word .to_] * rangeTail + 1) :=
  list_tail ..

theorem after_elementsTail (t : Terminal) : after t (elementsTail limit) =
    (if t ∈ [comma] then expression.words limit * elementsTail limit + 1 else 0) +
      if t ∈ [word .to_] then rangeTail else 0 := by
  conv_lhs => rw [elementsTail_eq, after_add, after_letters_mul, after_option]

theorem words_array : array.words limit = letters [.sign .leftBracket] *
    (deeper limit (expression.words limit * elementsTail limit + 1) *
      letters [.sign .rightBracket]) := by
  simp only [words_eq array, form, words_seq, words_optional, words_alt, words_list, words_oneOf,
    words_brackets, words_phrase, elementsTail, rangeTail, mul_assoc, mul_one, add_assoc,
    add_comm (1 : Words) (letters [word .to_] * _)]

/-- What follows the first argument of a call. -/
def argumentsTail (limit : Option ℕ) : Words :=
  (letters [comma] * expression.words limit)∗ * (letters [comma] * 1 + 1)

theorem argumentsTail_eq : argumentsTail limit =
    letters [comma] * (expression.words limit * argumentsTail limit + 1) + 1 :=
  list_tail ..

theorem after_argumentsTail (t : Terminal) : after t (argumentsTail limit) =
    if t ∈ [comma] then expression.words limit * argumentsTail limit + 1 else 0 := by
  conv_lhs => rw [argumentsTail_eq, after_option]

theorem words_arguments : arguments.words limit = letters [.sign .leftParen] *
    (deeper limit (expression.words limit * argumentsTail limit + 1) *
      letters [.sign .rightParen]) := by
  simp only [words_eq arguments, form, words_seq, words_optional, words_list, words_oneOf,
    words_parens, words_phrase, argumentsTail, mul_assoc, mul_one]

theorem after_value (t : Terminal) : after t (value.words limit) =
    (if t ∈ [identifier] then arguments.words limit + 1 else 0) +
      (if t ∈ literals then 1 else 0) +
      (if t ∈ [.sign .leftBracket] then
        deeper limit (expression.words limit * elementsTail limit + 1) *
          letters [.sign .rightBracket] else 0) +
      if t ∈ [.sign .leftParen] then
        deeper limit (expression.words limit) * letters [.sign .rightParen] else 0 := by
  rw [words_value, words_array]
  simp only [after_add, after_letters_mul, after_letters]

/-- The terminals that values start with. -/
def valueStarts : List Terminal :=
  [identifier] ++ literals ++ [.sign .leftBracket] ++ [.sign .leftParen]

theorem startsIn_value : StartsIn (value.words limit) valueStarts := by
  rw [words_value, words_array]
  exact ((startsIn_letters.mul.add startsIn_letters).add startsIn_letters.mul).add
    startsIn_letters.mul

/-- The terminals that expressions start with. -/
def expressionStarts : List Terminal := .op .not :: sums ++ valueStarts

theorem startsIn_comparison : StartsIn (comparison.words limit) (sums ++ valueStarts) := by
  rw [words_comparison, words_sum, words_product, words_signed, add_mul, one_mul]
  exact (startsIn_letters.mul.add startsIn_value).mul.mul.mul

theorem startsIn_expression : StartsIn (expression.words limit) expressionStarts := by
  rw [words_expression, words_negation, add_mul, one_mul]
  exact (startsIn_letters.mul.add startsIn_comparison).mul

end RookLang.Phrase
