import RookLang.Lexeme

/-! The lexical grammar of rook, apart from every scanner: what spells a lexeme, what must not
follow it directly, and how lexemes cut a text. -/
namespace RookLang

namespace Character

/-- The characters that words go on with. -/
def joinsWord (c : Char) : Bool := isLetter c || isDigit c || c == '_'

/-- The characters that neither join nor follow a number. -/
def joinsNumber (c : Char) : Bool := isLetter c || isDigit c || c == '.'

end Character

namespace Lexeme
open Character

/-- What a word stands for. -/
inductive Names : Kind → String → Prop
  | keyword (k : Keyword) : Names .keyword k.spelling
  | boolean {text} (h : text ∈ booleanSpellings) : Names .boolean text
  | operator (o : Operator) : Names (.operator o) o.spelling
  | builtin (b : Builtin) : Names .builtin b.spelling
  | identifier {text} (hk : ∀ k : Keyword, k.spelling ≠ text) (hb : text ∉ booleanSpellings)
    (ho : ∀ o : Operator, o.spelling ≠ text) (hf : ∀ b : Builtin, b.spelling ≠ text) :
    Names .identifier text

structure StartsWord (text : List Char) : Prop where
  head : ∃ c ∈ text.head?, isLetter c
  joins : ∀ c ∈ text, joinsWord c

structure IsWord (text : List Char) : Prop extends StartsWord text where
  last : text.getLast? ≠ some '_'

structure IsDigits (text : List Char) : Prop where
  ne_nil : text ≠ []
  digits : ∀ c ∈ text, isDigit c

/-- The texts of lexemes with their kinds, and the characters that must not follow them. -/
inductive Spells : Kind → List Char → (Char → Bool) → Prop
  | word {kind text} (h : IsWord text) (hn : Names kind (String.ofList text)) :
    Spells kind text joinsWord
  | number {text} (h : IsDigits text) : Spells .number text joinsNumber
  | float {u v} (hu : IsDigits u) (hv : IsDigits v) : Spells .float (u ++ '.' :: v) joinsNumber
  | sign {o : Operator} {c} (ho : o.isWord = false) (h : o.spelling.toList = [c]) :
    Spells (.operator o) [c] isOperator
  | compound {o : Operator} {c d} (ho : o.isWord = false) (h : o.spelling.toList = [c, d]) :
    Spells (.operator o) [c, d] (· == '=')
  | punctuation (p : Punctuation) : Spells (.punctuation p) [p.char] fun _ => false
  | string {text} (h : '"' ∉ text) : Spells .string ('"' :: text ++ ['"']) fun _ => false

/-- The lexemes `ls` and the spaces and tabs between them make up a text that starts in a column. -/
inductive Cuts : Nat → List Char → List Lexeme → Prop
  | nil {column} : Cuts column [] []
  | gap {column c text ls} (hc : isGap c) (h : Cuts (column + 1) text ls) :
    Cuts column (c :: text) ls
  | lexeme {column kind text barred rest ls} (hs : Spells kind text barred)
    (hb : ∀ c ∈ rest.head?, barred c = false) (h : Cuts (column + text.length) rest ls) :
    Cuts column (text ++ rest) (⟨kind, text, column⟩ :: ls)

end Lexeme

theorem Keyword.ofSpelling?_spelling (k : Keyword) : ofSpelling? k.spelling = some k := by
  cases k <;> rfl

theorem Keyword.ofSpelling?_eq_none {text : String} :
    ofSpelling? text = none ↔ ∀ k : Keyword, k.spelling ≠ text := by
  simp [ofSpelling?, mem_all]

theorem Operator.ofSpelling?_spelling (o : Operator) : ofSpelling? o.spelling = some o := by
  cases o <;> rfl

theorem Operator.ofSpelling?_eq_none {text : String} :
    ofSpelling? text = none ↔ ∀ o : Operator, o.spelling ≠ text := by
  simp [ofSpelling?, mem_all]

theorem Builtin.ofSpelling?_spelling (b : Builtin) : ofSpelling? b.spelling = some b := by
  cases b <;> rfl

theorem Builtin.ofSpelling?_eq_none {text : String} :
    ofSpelling? text = none ↔ ∀ b : Builtin, b.spelling ≠ text := by
  simp [ofSpelling?, mem_all]

theorem isSome_boolean?_iff {text : String} : (boolean? text).isSome ↔ text ∈ booleanSpellings := by
  unfold boolean?
  split <;> simp_all [booleanSpellings]

/-- No word stands for two things. -/
theorem Kind.names_iff {kind : Kind} {text : String} :
    Lexeme.Names kind text ↔ kind = ofWord text := by
  constructor
  · intro h
    cases h with
    | keyword k => cases k <;> rfl
    | boolean h =>
      simp only [booleanSpellings, List.mem_cons, List.not_mem_nil, or_false] at h
      rcases h with rfl | rfl <;> rfl
    | operator o => cases o <;> rfl
    | builtin b => cases b <;> rfl
    | identifier hk hb ho hf =>
      simp [ofWord, Keyword.ofSpelling?_eq_none.mpr hk, isSome_boolean?_iff, hb,
        Operator.ofSpelling?_eq_none.mpr ho, Builtin.ofSpelling?_eq_none.mpr hf]
  · rintro rfl
    unfold ofWord
    by_cases hk : ∃ k : Keyword, k.spelling = text
    · obtain ⟨k, rfl⟩ := hk
      simpa [Keyword.ofSpelling?_spelling] using .keyword k
    have hk := not_exists.mp hk
    by_cases hb : text ∈ booleanSpellings
    · simpa [Keyword.ofSpelling?_eq_none.mpr hk, isSome_boolean?_iff, hb] using .boolean hb
    by_cases ho : ∃ o : Operator, o.spelling = text
    · obtain ⟨o, rfl⟩ := ho
      simpa [Keyword.ofSpelling?_eq_none.mpr hk, isSome_boolean?_iff, hb,
        Operator.ofSpelling?_spelling] using .operator o
    have ho := not_exists.mp ho
    by_cases hf : ∃ b : Builtin, b.spelling = text
    · obtain ⟨b, rfl⟩ := hf
      simpa [Keyword.ofSpelling?_eq_none.mpr hk, isSome_boolean?_iff, hb,
        Operator.ofSpelling?_eq_none.mpr ho, Builtin.ofSpelling?_spelling] using .builtin b
    have hf := not_exists.mp hf
    simpa [Keyword.ofSpelling?_eq_none.mpr hk, isSome_boolean?_iff, hb,
      Operator.ofSpelling?_eq_none.mpr ho, Builtin.ofSpelling?_eq_none.mpr hf] using
        .identifier hk hb ho hf

namespace Character

variable {c : Char}

theorem isLetter_iff : isLetter c ↔
    65 ≤ c.toNat ∧ c.toNat ≤ 90 ∨ 97 ≤ c.toNat ∧ c.toNat ≤ 122 := by
  change (decide (65 ≤ c.toNat ∧ c.toNat ≤ 90) || (decide (97 ≤ c.toNat) && decide (c.toNat ≤ 122)))
    = true ↔ _
  simp

theorem isDigit_iff : isDigit c ↔ 48 ≤ c.toNat ∧ c.toNat ≤ 57 := by
  change (decide (48 ≤ c.toNat) && decide (c.toNat ≤ 57)) = true ↔ _
  simp

/-- How a lexeme goes on that starts with a character and may be longer. -/
def opens (c : Char) : Option Lexeme.Run :=
  if isLetter c then some .word
  else if isDigit c then some .number
  else if isOperator c then some .operator
  else if c = '!' then some .bang
  else if c = '"' then some .string
  else none

theorem isLetter_eq_false_of_isDigit (h : isDigit c) : isLetter c = false := by
  rw [isDigit_iff] at h
  rw [← Bool.not_eq_true, isLetter_iff]
  omega

theorem opens_of_isLetter (h : isLetter c) : opens c = some .word := if_pos h

theorem opens_of_isDigit (h : isDigit c) : opens c = some .number := by
  simp [opens, isLetter_eq_false_of_isDigit h, h]

theorem opens_of_isOperator (h : isOperator c) : opens c = some .operator := by
  simp only [isOperator, operatorChars, List.contains_eq_mem, decide_eq_true_eq, List.mem_cons,
    List.not_mem_nil, or_false] at h
  rcases h with rfl | rfl | rfl | rfl | rfl | rfl | rfl | rfl <;> decide

theorem opens_char (p : Punctuation) : opens p.char = none := by cases p <;> decide

end Character

namespace Operator

/-- Signs are one character long, or two of which the second is an equals sign. -/
theorem spelling_cases {o : Operator} (h : o.isWord = false) :
    ∃ c, (Character.opens c = some .operator ∧ o.spelling.toList = [c]) ∨
      ((Character.opens c = some .operator ∨ Character.opens c = some .bang) ∧
        o.spelling.toList = [c, '=']) := by
  cases o <;> first
    | exact ⟨_, .inl ⟨by decide, rfl⟩⟩
    | exact ⟨_, .inr ⟨.inl (by decide), rfl⟩⟩
    | exact ⟨_, .inr ⟨.inr (by decide), rfl⟩⟩
    | cases h

theorem ofSymbol?_eq_some {text : List Char} {o : Operator} :
    ofSymbol? (String.ofList text) = some o ↔ o.isWord = false ∧ o.spelling.toList = text := by
  constructor
  · intro h
    obtain ⟨h, hw⟩ := Option.filter_eq_some_iff.mp h
    have h := List.find?_some h
    simp at h
    exact ⟨by simpa using hw, by simp [h]⟩
  · rintro ⟨hw, rfl⟩
    simp [ofSymbol?, ofSpelling?_spelling, hw]

end Operator

namespace Lexeme
open Character

variable {kind : Kind} {text cs : List Char} {barred : Char → Bool} {c : Char}

theorem IsDigits.head {u : List Char} (h : IsDigits u) : ∃ c cs, u = c :: cs ∧ isDigit c := by
  cases u with
  | nil => exact (h.ne_nil rfl).elim
  | cons c cs => exact ⟨c, cs, rfl, h.digits c (by simp)⟩

theorem Spells.ne_nil (h : Spells kind text barred) : text ≠ [] := by
  rintro rfl
  generalize ht : [] = text at h
  cases h with
  | word h =>
    obtain ⟨c, hc, -⟩ := h.head
    simp [← ht] at hc
  | number h => exact h.ne_nil ht.symm
  | _ => simp at ht

/-- The first character of a lexeme tells what spells it. -/
theorem Spells.of_cons (h : Spells kind (c :: cs) barred) :
    (opens c = some .word ∧ IsWord (c :: cs) ∧ Names kind (String.ofList (c :: cs)) ∧
      barred = joinsWord) ∨
    (opens c = some .number ∧ barred = joinsNumber ∧ (IsDigits (c :: cs) ∧ kind = .number ∨
      ∃ u v, c :: cs = u ++ '.' :: v ∧ IsDigits u ∧ IsDigits v ∧ kind = .float)) ∨
    ((opens c = some .operator ∨ opens c = some .bang) ∧
      (∃ o : Operator, o.isWord = false ∧ o.spelling.toList = c :: cs ∧ kind = .operator o) ∧
      (cs = [] ∧ barred = isOperator ∨ cs = ['='] ∧ barred = (· == '='))) ∨
    (opens c = some .string ∧ kind = .string ∧ (∃ body, cs = body ++ ['"'] ∧ '"' ∉ body) ∧
      barred = fun _ => false) ∨
    (opens c = none ∧ (∃ p : Punctuation, c = p.char ∧ kind = .punctuation p) ∧ cs = [] ∧
      barred = fun _ => false) := by
  generalize ht : c :: cs = text at h
  cases h with
  | word h hn =>
    obtain ⟨d, hd, hl⟩ := h.head
    obtain rfl : c = d := by simpa [← ht] using hd
    exact .inl ⟨opens_of_isLetter hl, h, hn, rfl⟩
  | number h =>
    have hc : isDigit c := h.digits c (by simp [← ht])
    exact .inr (.inl ⟨opens_of_isDigit hc, rfl, .inl ⟨h, rfl⟩⟩)
  | @float u v hu hv =>
    obtain ⟨d, ds, rfl, hd⟩ := hu.head
    obtain rfl : c = d := (List.cons.inj ht).1
    exact .inr (.inl ⟨opens_of_isDigit hd, rfl, .inr ⟨_, _, rfl, hu, hv, rfl⟩⟩)
  | @sign o d ho h =>
    obtain ⟨rfl, rfl⟩ := List.cons.inj ht
    obtain ⟨d, ⟨hd, hs⟩ | ⟨hd, hs⟩⟩ := Operator.spelling_cases ho
    · obtain rfl : c = d := by simpa [h] using hs
      exact .inr (.inr (.inl ⟨.inl hd, ⟨o, ho, h, rfl⟩, .inl ⟨rfl, rfl⟩⟩))
    · simp [h] at hs
  | @compound o d e ho h =>
    obtain ⟨rfl, rfl⟩ := List.cons.inj ht
    obtain ⟨d, ⟨hd, hs⟩ | ⟨hd, hs⟩⟩ := Operator.spelling_cases ho
    · simp [h] at hs
    · obtain ⟨rfl, rfl⟩ : c = d ∧ e = '=' := by simpa [h] using hs
      exact .inr (.inr (.inl ⟨hd, ⟨o, ho, h, rfl⟩, .inr ⟨rfl, rfl⟩⟩))
  | punctuation p =>
    obtain ⟨rfl, rfl⟩ := List.cons.inj ht
    exact .inr (.inr (.inr (.inr ⟨opens_char p, ⟨p, rfl, rfl⟩, rfl, rfl⟩)))
  | @string body h =>
    obtain ⟨rfl, rfl⟩ := List.cons.inj ht
    exact .inr (.inr (.inr (.inl ⟨by decide, rfl, ⟨body, rfl, h⟩, rfl⟩)))

end Lexeme

end RookLang
