import Mathlib.Data.List.Basic
import RookLang.Proofs.Lexical.Spelling

/-! The open lexemes of the scanner: how each run goes on, and which lexemes start with what it has
read. -/
namespace RookLang.Lexeme
open Character

variable {kind : Kind} {p text cs more rest : List Char} {barred : Char → Bool} {c : Char}
  {start column : Nat} {ls : List Lexeme}

/-- `p` is a lexeme that may stand before `next`. -/
def Ends (p : List Char) (next : Option Char) (kind : Kind) : Prop :=
  ∃ barred, Spells kind p barred ∧ ∀ c ∈ next, barred c = false

/-- Some lexeme starts with `p`. -/
def Viable (p : List Char) : Prop := ∃ kind more barred, Spells kind (p ++ more) barred

/-- The text is the rest of a lexeme that starts with `p` in column `start`, and what follows. -/
def CutsFrom (p : List Char) (start : Nat) (text : List Char) (ls : List Lexeme) : Prop :=
  ∃ kind more rest ls', text = more ++ rest ∧ Ends (p ++ more) rest.head? kind ∧
    Cuts (start + (p ++ more).length) rest ls' ∧ ls = ⟨kind, p ++ more, start⟩ :: ls'

theorem cuts_nil_iff : Cuts column [] ls ↔ ls = [] := by
  constructor
  · intro h
    generalize ht : [] = text at h
    cases h with
    | nil => rfl
    | gap => simp at ht
    | lexeme hs => exact (hs.ne_nil (List.append_eq_nil_iff.mp ht.symm).1).elim
  · rintro rfl
    exact .nil

theorem cuts_cons_iff : Cuts column (c :: cs) ls ↔
    isGap c ∧ Cuts (column + 1) cs ls ∨ CutsFrom [c] column cs ls := by
  constructor
  · intro h
    generalize ht : c :: cs = text at h
    cases h with
    | nil => simp at ht
    | gap hc h =>
      obtain ⟨rfl, rfl⟩ := List.cons.inj ht
      exact .inl ⟨hc, h⟩
    | @lexeme _ kind text barred rest ls hs hb h =>
      cases text with
      | nil => exact (hs.ne_nil rfl).elim
      | cons d more =>
        obtain ⟨rfl, rfl⟩ := List.cons.inj ht
        exact .inr ⟨kind, more, rest, ls, rfl, ⟨barred, hs, hb⟩, h, rfl⟩
  · rintro (⟨hc, h⟩ | ⟨kind, more, rest, ls, rfl, ⟨barred, hs, hb⟩, h, rfl⟩)
    · exact .gap hc h
    · exact .lexeme hs hb h

theorem cutsFrom_nil_iff : CutsFrom p start [] ls ↔
    ∃ kind, Ends p none kind ∧ ls = [⟨kind, p, start⟩] := by
  constructor
  · rintro ⟨kind, more, rest, ls, ht, he, h, rfl⟩
    obtain ⟨rfl, rfl⟩ := List.append_eq_nil_iff.mp ht.symm
    obtain rfl := cuts_nil_iff.mp h
    rw [List.append_nil] at he ⊢
    exact ⟨kind, he, rfl⟩
  · rintro ⟨kind, he, rfl⟩
    exact ⟨kind, [], [], [], rfl, by simpa using he, .nil, by simp⟩

theorem cutsFrom_cons_iff : CutsFrom p start (c :: cs) ls ↔ CutsFrom (p ++ [c]) start cs ls ∨
    ∃ kind, Ends p (some c) kind ∧
      ∃ ls', Cuts (start + p.length) (c :: cs) ls' ∧ ls = ⟨kind, p, start⟩ :: ls' := by
  constructor
  · rintro ⟨kind, more, rest, ls, ht, he, h, rfl⟩
    cases more with
    | nil =>
      obtain rfl : c :: cs = rest := ht
      rw [List.append_nil] at he h ⊢
      exact .inr ⟨kind, he, ls, h, rfl⟩
    | cons d more =>
      obtain ⟨rfl, rfl⟩ := List.cons.inj ht
      rw [List.append_cons p c more] at he h ⊢
      exact .inl ⟨kind, more, rest, ls, rfl, he, h, rfl⟩
  · rintro (⟨kind, more, rest, ls, rfl, he, h, rfl⟩ | ⟨kind, he, ls, h, rfl⟩)
    · rw [← List.append_cons] at he h ⊢
      exact ⟨kind, c :: more, rest, ls, rfl, he, h, rfl⟩
    · exact ⟨kind, [], c :: cs, ls, rfl, by simpa using he, by simpa using h, by simp⟩

theorem CutsFrom.viable (h : CutsFrom p start text ls) : Viable p := by
  obtain ⟨kind, more, rest, ls, rfl, ⟨barred, hs, -⟩, -, -⟩ := h
  exact ⟨kind, more, barred, hs⟩

/-- The lexeme `p` is whole and ends before every character. -/
theorem cutsFrom_whole_iff (he : ∀ next k, Ends p next k ↔ k = kind)
    (hv : ∀ c, ¬ Viable (p ++ [c])) : CutsFrom p start text ls ↔
      ∃ ls', Cuts (start + p.length) text ls' ∧ ls = ⟨kind, p, start⟩ :: ls' := by
  cases text with
  | nil => simp [cutsFrom_nil_iff, cuts_nil_iff, he]
  | cons c cs =>
    rw [cutsFrom_cons_iff]
    simp only [he, exists_eq_left]
    exact or_iff_right fun h => hv c h.viable

theorem Spells.of_word (hp : ∃ c ∈ p.head?, isLetter c) (h : Spells kind (p ++ more) barred) :
    IsWord (p ++ more) ∧ Names kind (String.ofList (p ++ more)) ∧ barred = joinsWord := by
  obtain ⟨c, hc, hl⟩ := hp
  obtain ⟨p, rfl⟩ := List.head?_eq_some_iff.mp hc
  have hc := opens_of_isLetter hl
  rcases h.of_cons with h | h | h | h | h <;> simp_all

theorem Spells.of_number (hp : ∃ c ∈ p.head?, isDigit c) (h : Spells kind (p ++ more) barred) :
    barred = joinsNumber ∧ (IsDigits (p ++ more) ∧ kind = .number ∨
      ∃ u v, p ++ more = u ++ '.' :: v ∧ IsDigits u ∧ IsDigits v ∧ kind = .float) := by
  obtain ⟨c, hc, hd⟩ := hp
  obtain ⟨p, rfl⟩ := List.head?_eq_some_iff.mp hc
  have hc := opens_of_isDigit hd
  rcases h.of_cons with h | h | h | h | h <;> simp_all

theorem Spells.of_sign (hc : opens c = some .operator ∨ opens c = some .bang)
    (h : Spells kind (c :: cs) barred) :
    (∃ o : Operator, o.isWord = false ∧ o.spelling.toList = c :: cs ∧ kind = .operator o) ∧
      (cs = [] ∧ barred = isOperator ∨ cs = ['='] ∧ barred = (· == '=')) := by
  rcases h.of_cons with h | h | h | h | h
  · simp [h.1] at hc
  · simp [h.1] at hc
  · exact h.2
  · simp [h.1] at hc
  · simp [h.1] at hc

theorem Spells.of_quote (h : Spells kind ('"' :: cs) barred) :
    kind = .string ∧ (∃ body, cs = body ++ ['"'] ∧ '"' ∉ body) ∧ barred = fun _ => false := by
  have hc : opens '"' = some .string := by decide
  rcases h.of_cons with h | h | h | h | h <;> simp_all

theorem Spells.of_char {q : Punctuation} (h : Spells kind (q.char :: cs) barred) :
    kind = .punctuation q ∧ cs = [] ∧ barred = fun _ => false := by
  have hc := opens_char q
  rcases h.of_cons with h | h | h | h | ⟨-, ⟨r, hr, hk⟩, h⟩
  · simp_all
  · simp_all
  · simp_all
  · simp_all
  · have : r = q := by cases r <;> cases q <;> first | rfl | exact absurd hr (by decide)
    simp_all

/-- What has been read of an open lexeme. -/
def Open.Holds (run : Run) (p : List Char) : Prop :=
  match run with
  | .word => IsWord p
  | .underscore => StartsWord p ∧ p.getLast? = some '_'
  | .number => IsDigits p ∨ ∃ u v, p = u ++ '.' :: v ∧ IsDigits u ∧ IsDigits v
  | .fraction => ∃ u, p = u ++ ['.'] ∧ IsDigits u
  | .operator => ∃ c, p = [c] ∧ opens c = some .operator
  | .bang => p = ['!']
  | .compound => ∃ c, p = [c, '='] ∧ (opens c = some .operator ∨ opens c = some .bang)
  | .string => ∃ body, p = '"' :: body ∧ '"' ∉ body

/-- What reading `c` into the open lexeme `o` may lead to. -/
inductive Extends (s : Scanner) (o : Open) (c : Char) : Except Fault Scanner.Step → Prop
  | grown (run) (hr : Open.Holds run (o.text ++ [c])) (he : ∀ k, ¬ Ends o.text (some c) k) :
    Extends s o c (.ok (.taken (s.grow (o.add run c))))
  | closed {k} (he : ∀ k', Ends o.text (some c) k' ↔ k' = k) (hv : ¬ Viable (o.text ++ [c])) :
    Extends s o c (.ok (.handedBack (s.emit (o.close k))))
  | whole (run) {k} (he : ∀ k', ¬ Ends o.text (some c) k')
    (hw : ∀ next k', Ends (o.text ++ [c]) next k' ↔ k' = k)
    (hv : ∀ d, ¬ Viable (o.text ++ [c] ++ [d])) :
    Extends s o c (.ok (.taken (s.emit ((o.add run c).close k)).skip))
  | failed {f} (he : ∀ k, ¬ Ends o.text (some c) k) (hv : ¬ Viable (o.text ++ [c])) :
    Extends s o c (.error f)

theorem StartsWord.append (h : StartsWord p) (hc : joinsWord c) : StartsWord (p ++ [c]) := by
  obtain ⟨d, hd, hl⟩ := h.head
  refine ⟨⟨d, by simp_all, hl⟩, ?_⟩
  intro e he
  rcases List.mem_append.mp he with he | he
  · exact h.joins e he
  · obtain rfl := List.mem_singleton.mp he
    exact hc

theorem StartsWord.isWord_append (h : StartsWord p) (hc : (isLetter c || isDigit c) = true) :
    IsWord (p ++ [c]) := by
  refine ⟨h.append (by simp [joinsWord, hc]), ?_⟩
  intro hl
  obtain rfl : c = '_' := by simpa using hl
  exact absurd hc (by decide)

theorem ends_word_iff {next : Option Char} (hp : IsWord p) (hn : ∀ c ∈ next, joinsWord c = false)
    (k : Kind) : Ends p next k ↔ k = .ofWord (String.ofList p) := by
  constructor
  · rintro ⟨barred, hs, -⟩
    rw [← List.append_nil p] at hs
    obtain ⟨-, hk, -⟩ := hs.of_word hp.head
    rw [List.append_nil] at hk
    exact Kind.names_iff.mp hk
  · rintro rfl
    exact ⟨joinsWord, .word hp (Kind.names_iff.mpr rfl), hn⟩

theorem StartsWord.not_ends (hp : StartsWord p) (hc : joinsWord c) (k : Kind) :
    ¬ Ends p (some c) k := by
  rintro ⟨barred, hs, hb⟩
  rw [← List.append_nil p] at hs
  obtain ⟨-, -, rfl⟩ := hs.of_word hp.head
  simp [hc] at hb

theorem StartsWord.not_viable (hp : StartsWord p) (hc : joinsWord c = false) :
    ¬ Viable (p ++ [c]) := by
  rintro ⟨k, more, barred, hs⟩
  rw [List.append_assoc] at hs
  obtain ⟨hw, -, -⟩ := hs.of_word hp.head
  simpa [hc] using hw.joins c (by simp)

/-- A word cannot end after an underscore. -/
theorem StartsWord.not_ends_of_last {next : Option Char} (hp : StartsWord p)
    (hl : p.getLast? = some '_') (k : Kind) : ¬ Ends p next k := by
  rintro ⟨barred, hs, -⟩
  rw [← List.append_nil p] at hs
  obtain ⟨hw, -, -⟩ := hs.of_word hp.head
  rw [List.append_nil] at hw
  exact hw.last hl

theorem IsDigits.append (h : IsDigits p) (hc : isDigit c) : IsDigits (p ++ [c]) := by
  refine ⟨by simp, fun d hd => ?_⟩
  rcases List.mem_append.mp hd with hd | hd
  · exact h.digits d hd
  · obtain rfl := List.mem_singleton.mp hd
    exact hc

theorem isDigits_singleton (hc : isDigit c) : IsDigits [c] :=
  ⟨by simp, by simpa⟩

theorem IsDigits.head? (h : IsDigits p) (more : List Char) :
    ∃ c ∈ (p ++ more).head?, isDigit c := by
  obtain ⟨c, cs, rfl, hc⟩ := h.head
  exact ⟨c, rfl, hc⟩

theorem IsDigits.point_notMem (h : IsDigits p) : '.' ∉ p := by
  intro hp
  exact absurd (h.digits _ hp) (by decide)

theorem ofNumber_of_isDigits (h : IsDigits p) : Kind.ofNumber p = .number := by
  simp [Kind.ofNumber, h.point_notMem]

theorem ofNumber_of_point {u v : List Char} : Kind.ofNumber (u ++ '.' :: v) = .float := by
  simp [Kind.ofNumber]

theorem number_head (h : Open.Holds .number p) : ∃ c ∈ p.head?, isDigit c := by
  rcases h with h | ⟨u, v, rfl, hu, -⟩
  · simpa using h.head? []
  · exact hu.head? _

theorem ends_number_iff {next : Option Char} (hp : Open.Holds .number p)
    (hn : ∀ c ∈ next, joinsNumber c = false) (k : Kind) : Ends p next k ↔ k = .ofNumber p := by
  constructor
  · rintro ⟨barred, hs, -⟩
    rw [← List.append_nil p] at hs
    obtain ⟨-, ⟨h, rfl⟩ | ⟨u, v, h, -, -, rfl⟩⟩ := hs.of_number (number_head hp)
    · rw [List.append_nil] at h
      exact (ofNumber_of_isDigits h).symm
    · rw [List.append_nil] at h
      rw [h, ofNumber_of_point]
  · rintro rfl
    rcases hp with h | ⟨u, v, rfl, hu, hv⟩
    · rw [ofNumber_of_isDigits h]
      exact ⟨joinsNumber, .number h, hn⟩
    · rw [ofNumber_of_point]
      exact ⟨joinsNumber, .float hu hv, hn⟩

theorem not_ends_number (hp : ∃ c ∈ p.head?, isDigit c) (hc : joinsNumber c) (k : Kind) :
    ¬ Ends p (some c) k := by
  rintro ⟨barred, hs, hb⟩
  rw [← List.append_nil p] at hs
  obtain ⟨rfl, -⟩ := hs.of_number hp
  simp [hc] at hb

theorem IsDigits.not_viable (h : IsDigits p) (hc : isDigit c = false) (hp : c ≠ '.') :
    ¬ Viable (p ++ [c]) := by
  rintro ⟨k, more, barred, hs⟩
  rw [List.append_assoc] at hs
  obtain ⟨-, ⟨hd, -⟩ | ⟨u, v, ht, hu, hv, -⟩⟩ := hs.of_number (by simpa using h.head? [])
  · simpa [hc] using hd.digits c (by simp)
  · have hm : c ∈ u ++ '.' :: v := ht ▸ by simp
    rcases List.mem_append.mp hm with hm | hm
    · simpa [hc] using hu.digits c hm
    · rcases List.mem_cons.mp hm with rfl | hm
      · exact hp rfl
      · simpa [hc] using hv.digits c hm

theorem IsDigits.digits_after_point {u v : List Char} (hu : IsDigits u)
    (h : Spells kind (u ++ '.' :: v) barred) : IsDigits v := by
  obtain ⟨-, ⟨hd, -⟩ | ⟨u', v', ht, hu', hv', -⟩⟩ := h.of_number (by simpa using hu.head? [])
  · exact absurd (hd.digits '.' (by simp)) (by decide)
  · obtain ⟨-, -, rfl⟩ :=
      (List.append_cons_inj_of_notMem hu'.point_notMem hv'.point_notMem).mp ht.symm
    exact hv'

theorem IsDigits.not_viable_point {u v : List Char} (hu : IsDigits u) (hc : isDigit c = false) :
    ¬ Viable (u ++ '.' :: v ++ [c]) := by
  rintro ⟨k, more, barred, hs⟩
  rw [List.append_assoc, List.append_assoc] at hs
  simpa [hc] using (hu.digits_after_point hs).digits c (by simp)

section
variable {s : Scanner} {o : Open}

theorem extends_word (hr : o.run = .word) (h : IsWord o.text) (c : Char) :
    Extends s o c (s.extend o c) := by
  simp only [Scanner.extend, hr]
  by_cases hc : (isLetter c || isDigit c) = true
  · rw [if_pos hc]
    exact .grown .word (h.isWord_append hc) (h.not_ends (by simp [joinsWord, hc]))
  rw [if_neg hc]
  by_cases hu : c = '_'
  · subst hu
    exact .grown .underscore ⟨h.append rfl, by simp⟩ (h.not_ends rfl)
  · rw [if_neg hu]
    have hj : joinsWord c = false := by simp_all [joinsWord]
    exact .closed (ends_word_iff h (by simpa)) (h.not_viable hj)

theorem extends_underscore (hr : o.run = .underscore) (h : Open.Holds .underscore o.text)
    (c : Char) : Extends s o c (s.extend o c) := by
  obtain ⟨h, hl⟩ := h
  have he : ∀ k, ¬ Ends o.text (some c) k := h.not_ends_of_last hl
  simp only [Scanner.extend, hr]
  by_cases hu : c = '_'
  · subst hu
    exact .grown .underscore ⟨h.append rfl, by simp⟩ he
  rw [if_neg hu]
  by_cases hc : (isLetter c || isDigit c) = true
  · rw [if_pos hc]
    exact .grown .word (h.isWord_append hc) he
  · rw [if_neg hc]
    exact .failed he (h.not_viable (by simp_all [joinsWord]))

theorem extends_number (hr : o.run = .number) (h : Open.Holds .number o.text) (c : Char) :
    Extends s o c (s.extend o c) := by
  have hh := number_head h
  simp only [Scanner.extend, hr]
  by_cases hc : isDigit c
  · rw [if_pos hc]
    refine .grown .number ?_ (not_ends_number hh (by simp [joinsNumber, hc]))
    rcases h with h | ⟨u, v, ht, hu, hv⟩
    · exact .inl (h.append hc)
    · exact .inr ⟨u, v ++ [c], by simp [ht], hu, hv.append hc⟩
  rw [if_neg hc]
  have hc := Bool.eq_false_iff.mpr hc
  by_cases hp : c = '.'
  · subst hp
    have he := not_ends_number hh (c := '.') rfl
    rw [if_pos rfl]
    have hm : o.read.contains '.' ↔ '.' ∈ o.text := by simp [Open.text]
    rcases h with h | ⟨u, v, ht, hu, hv⟩
    · rw [if_neg (fun hr => h.point_notMem (hm.mp hr))]
      exact .grown .fraction ⟨_, rfl, h⟩ he
    · rw [if_pos (hm.mpr (by simp [ht]))]
      exact .failed he (ht ▸ hu.not_viable_point hc)
  rw [if_neg hp]
  have hv : ¬ Viable (o.text ++ [c]) := by
    rcases h with h | ⟨u, v, ht, hu, hv⟩
    · exact h.not_viable hc hp
    · exact ht ▸ hu.not_viable_point hc
  by_cases hl : isLetter c
  · rw [if_pos hl]
    exact .failed (not_ends_number hh (by simp [joinsNumber, hl])) hv
  · rw [if_neg hl]
    exact .closed (ends_number_iff h (by simp [joinsNumber, hl, hc, hp])) hv

theorem not_ends_fraction {next : Option Char} (h : Open.Holds .fraction p) (k : Kind) :
    ¬ Ends p next k := by
  obtain ⟨u, rfl, hu⟩ := h
  rintro ⟨barred, hs, -⟩
  exact (hu.digits_after_point hs).ne_nil rfl

theorem extends_fraction (hr : o.run = .fraction) (h : Open.Holds .fraction o.text) (c : Char) :
    Extends s o c (s.extend o c) := by
  have he : ∀ k, ¬ Ends o.text (some c) k := not_ends_fraction h
  obtain ⟨u, ht, hu⟩ := h
  simp only [Scanner.extend, hr]
  by_cases hc : isDigit c
  · rw [if_pos hc]
    exact .grown .number (.inr ⟨u, [c], by simp [ht], hu, isDigits_singleton hc⟩) he
  · rw [if_neg hc]
    exact .failed he (ht ▸ hu.not_viable_point (Bool.eq_false_iff.mpr hc))

/-- An operator is closed if there is one with its signs. -/
theorem emitOperator_cases {next : Option Char} (he : ∀ k, Ends o.text next k ↔
      ∃ op : Operator, op.isWord = false ∧ op.spelling.toList = o.text ∧ k = .operator op) :
    (∃ k, s.emitOperator o = .ok (s.emit (o.close k)) ∧ ∀ k', Ends o.text next k' ↔ k' = k) ∨
      (∃ f, s.emitOperator o = .error f) ∧ ∀ k, ¬ Ends o.text next k := by
  simp only [← and_assoc, ← Operator.ofSymbol?_eq_some] at he
  unfold Scanner.emitOperator
  cases h : Operator.ofSymbol? (String.ofList o.text) with
  | some op =>
    refine .inl ⟨_, rfl, fun k => ?_⟩
    simp [he, h]
  | none =>
    refine .inr ⟨⟨_, rfl⟩, fun k => ?_⟩
    simp [he, h]

theorem extends_emitOperator
    (he : ∀ k, Ends o.text (some c) k ↔
      ∃ op : Operator, op.isWord = false ∧ op.spelling.toList = o.text ∧ k = .operator op)
    (hv : ¬ Viable (o.text ++ [c])) :
    Extends s o c ((s.emitOperator o).map .handedBack) := by
  obtain ⟨k, h, he⟩ | ⟨⟨f, h⟩, he⟩ := emitOperator_cases (s := s) he
  · exact h ▸ .closed he hv
  · exact h ▸ .failed he hv

theorem ends_sign_iff {next : Option Char} (hc : opens c = some .operator) (k : Kind) :
    Ends [c] next k ↔ (∃ op : Operator, op.isWord = false ∧ op.spelling.toList = [c] ∧
      k = .operator op) ∧ ∀ d ∈ next, isOperator d = false := by
  constructor
  · rintro ⟨barred, hs, hb⟩
    obtain ⟨hop, ⟨-, rfl⟩ | ⟨h, -⟩⟩ := hs.of_sign (.inl hc)
    · exact ⟨hop, hb⟩
    · cases h
  · rintro ⟨⟨op, ho, hs, rfl⟩, hb⟩
    exact ⟨isOperator, .sign ho hs, hb⟩

theorem ends_compound_iff {next : Option Char}
    (hc : opens c = some .operator ∨ opens c = some .bang) (k : Kind) :
    Ends [c, '='] next k ↔ (∃ op : Operator, op.isWord = false ∧ op.spelling.toList = [c, '='] ∧
      k = .operator op) ∧ ∀ d ∈ next, (d == '=') = false := by
  constructor
  · rintro ⟨barred, hs, hb⟩
    obtain ⟨hop, ⟨h, -⟩ | ⟨-, rfl⟩⟩ := hs.of_sign hc
    · cases h
    · exact ⟨hop, hb⟩
  · rintro ⟨⟨op, ho, hs, rfl⟩, hb⟩
    exact ⟨_, .compound ho hs, hb⟩

theorem not_viable_sign {d : Char} (hc : opens c = some .operator ∨ opens c = some .bang)
    (hd : d ≠ '=') : ¬ Viable [c, d] := by
  rintro ⟨k, more, barred, hs⟩
  obtain ⟨-, ⟨h, -⟩ | ⟨h, -⟩⟩ := hs.of_sign hc
  · cases h
  · exact hd (List.cons.inj h).1

theorem not_viable_compound {d e : Char} (hc : opens c = some .operator ∨ opens c = some .bang) :
    ¬ Viable [c, d, e] := by
  rintro ⟨k, more, barred, hs⟩
  obtain ⟨-, ⟨h, -⟩ | ⟨h, -⟩⟩ := hs.of_sign hc <;> cases h

theorem extends_operator (hr : o.run = .operator) (h : Open.Holds .operator o.text) (c : Char) :
    Extends s o c (s.extend o c) := by
  obtain ⟨d, ht, hd⟩ := h
  have hn (hc : isOperator c) k : ¬ Ends o.text (some c) k := by
    rw [ht, ends_sign_iff hd]
    rintro ⟨-, hb⟩
    simp [hc] at hb
  simp only [Scanner.extend, hr]
  by_cases hc : c = '='
  · subst hc
    exact .grown .compound ⟨d, by simp [ht], .inl hd⟩ (hn rfl)
  have hv : ¬ Viable (o.text ++ [c]) := ht ▸ not_viable_sign (.inl hd) hc
  rw [if_neg hc]
  by_cases ho : isOperator c
  · rw [if_pos ho]
    exact .failed (hn ho) hv
  · rw [if_neg ho]
    refine extends_emitOperator (fun k => ?_) hv
    simp [ht, ends_sign_iff hd, ho]

theorem not_ends_bang {next : Option Char} (k : Kind) : ¬ Ends ['!'] next k := by
  rintro ⟨barred, hs, -⟩
  obtain ⟨⟨op, -, hs, -⟩, -⟩ := hs.of_sign (.inr (by decide))
  cases op <;> exact absurd hs (by decide)

theorem extends_bang (hr : o.run = .bang) (h : Open.Holds .bang o.text) (c : Char) :
    Extends s o c (s.extend o c) := by
  have ht : o.text = ['!'] := h
  have hb : opens '!' = some .operator ∨ opens '!' = some .bang := .inr (by decide)
  have hn : ∀ k, ¬ Ends o.text (some c) k := ht ▸ not_ends_bang
  simp only [Scanner.extend, hr]
  by_cases hc : c = '='
  · subst hc
    exact .grown .compound ⟨'!', by simp [ht], hb⟩ hn
  · rw [if_neg hc]
    exact .failed hn (ht ▸ not_viable_sign hb hc)

theorem extends_compound (hr : o.run = .compound) (h : Open.Holds .compound o.text) (c : Char) :
    Extends s o c (s.extend o c) := by
  obtain ⟨d, ht, hd⟩ := h
  have hv : ¬ Viable (o.text ++ [c]) := ht ▸ not_viable_compound hd
  simp only [Scanner.extend, hr]
  by_cases hc : c = '='
  · subst hc
    refine .failed (fun k => ?_) hv
    simp [ht, ends_compound_iff hd]
  · rw [if_neg hc]
    refine extends_emitOperator (fun k => ?_) hv
    simp [ht, ends_compound_iff hd, hc]

theorem not_ends_string {next : Option Char} (h : Open.Holds .string p) (k : Kind) :
    ¬ Ends p next k := by
  obtain ⟨body, rfl, hb⟩ := h
  rintro ⟨barred, hs, -⟩
  obtain ⟨-, ⟨body', rfl, -⟩, -⟩ := hs.of_quote
  simp at hb

theorem extends_string (hr : o.run = .string) (h : Open.Holds .string o.text) (c : Char) :
    Extends s o c (s.extend o c) := by
  have hn : ∀ k, ¬ Ends o.text (some c) k := not_ends_string h
  obtain ⟨body, ht, hb⟩ := h
  simp only [Scanner.extend, hr]
  by_cases hc : c = '"'
  · subst hc
    refine .whole .string hn (fun next k => ?_) fun d => ?_
    · rw [ht]
      constructor
      · rintro ⟨barred, hs, -⟩
        exact hs.of_quote.1
      · rintro rfl
        exact ⟨_, .string hb, by simp⟩
    · rintro ⟨k, more, barred, hs⟩
      rw [ht, List.append_assoc, List.append_assoc] at hs
      obtain ⟨-, ⟨body', h, hb'⟩, -⟩ := hs.of_quote
      have := ((List.append_cons_inj_of_notMem hb' (by simp)).mp h.symm).2.2
      simp at this
  · rw [if_neg hc]
    exact .grown .string ⟨body ++ [c], by simp [ht], by simp [hb, Ne.symm hc]⟩ hn

/-- Reading a character into an open lexeme respects the lexical grammar. -/
theorem extends_extend (h : Open.Holds o.run o.text) (c : Char) : Extends s o c (s.extend o c) := by
  cases hr : o.run <;> rw [hr] at h
  case word => exact extends_word hr h c
  case underscore => exact extends_underscore hr h c
  case number => exact extends_number hr h c
  case fraction => exact extends_fraction hr h c
  case operator => exact extends_operator hr h c
  case bang => exact extends_bang hr h c
  case compound => exact extends_compound hr h c
  case string => exact extends_string hr h c

/-- At the end of a line an open lexeme is closed if it is whole. -/
theorem finish_cases (hp : s.pending = some o) (h : Open.Holds o.run o.text) :
    (∃ k, s.finish = .ok (s.emit (o.close k)) ∧ ∀ k', Ends o.text none k' ↔ k' = k) ∨
      (∃ f, s.finish = .error f) ∧ ∀ k, ¬ Ends o.text none k := by
  simp only [Scanner.finish, hp]
  cases hr : o.run <;> rw [hr] at h
  case word => exact .inl ⟨_, rfl, ends_word_iff h (by simp)⟩
  case underscore => exact .inr ⟨⟨_, rfl⟩, h.1.not_ends_of_last h.2⟩
  case number => exact .inl ⟨_, rfl, ends_number_iff h (by simp)⟩
  case fraction => exact .inr ⟨⟨_, rfl⟩, not_ends_fraction h⟩
  case operator =>
    obtain ⟨d, ht, hd⟩ := h
    exact emitOperator_cases fun k => by simp [ht, ends_sign_iff hd]
  case bang => exact .inr ⟨⟨_, rfl⟩, (show o.text = ['!'] from h) ▸ not_ends_bang⟩
  case compound =>
    obtain ⟨d, ht, hd⟩ := h
    exact emitOperator_cases fun k => by simp [ht, ends_compound_iff hd]
  case string => exact .inr ⟨⟨_, rfl⟩, not_ends_string h⟩

end

/-- What reading `c` while no lexeme is open may lead to. -/
inductive Starts (s : Scanner) (c : Char) : Except Fault Scanner → Prop
  | gap (hg : isGap c) (hv : ¬ Viable [c]) : Starts s c (.ok s.skip)
  | whole {k} (hg : ¬ isGap c) (he : ∀ next k', Ends [c] next k' ↔ k' = k)
    (hv : ∀ d, ¬ Viable ([c] ++ [d])) : Starts s c (.ok (s.emit ⟨k, [c], s.column⟩).skip)
  | opened (run) (hg : ¬ isGap c) (hr : Open.Holds run [c]) :
    Starts s c (.ok (s.grow ⟨run, [c], s.column⟩))
  | failed {f} (hg : ¬ isGap c) (hv : ¬ Viable [c]) : Starts s c (.error f)

theorem not_viable_of_opens (h : opens c = none) (hp : ∀ q : Punctuation, c ≠ q.char) :
    ¬ Viable [c] := by
  rintro ⟨k, more, barred, hs⟩
  rcases hs.of_cons with h' | h' | ⟨h', -⟩ | h' | ⟨-, ⟨q, hq, -⟩, -⟩
  · simp [h] at h'
  · simp [h] at h'
  · simp [h] at h'
  · simp [h] at h'
  · exact hp q hq

theorem not_viable_gap (hg : isGap c) : ¬ Viable [c] := by
  have hc : c = ' ' ∨ c = '\t' := by
    unfold isGap indentWidth? at hg
    split at hg <;> simp_all
  rcases hc with rfl | rfl
  · exact not_viable_of_opens (by decide) fun q => by cases q <;> decide
  · exact not_viable_of_opens (by decide) fun q => by cases q <;> decide

theorem ends_punctuation_iff (q : Punctuation) (next : Option Char) (k : Kind) :
    Ends [q.char] next k ↔ k = .punctuation q := by
  constructor
  · rintro ⟨barred, hs, -⟩
    exact hs.of_char.1
  · rintro rfl
    exact ⟨_, .punctuation q, by simp⟩

theorem not_viable_punctuation (q : Punctuation) (d : Char) : ¬ Viable ([q.char] ++ [d]) := by
  rintro ⟨k, more, barred, hs⟩
  cases hs.of_char.2.1

theorem starts_start (s : Scanner) (c : Char) : Starts s c (s.start c) := by
  simp only [Scanner.start]
  by_cases hg : isGap c
  · rw [if_pos hg]
    exact .gap hg (not_viable_gap hg)
  rw [if_neg hg]
  cases hq : Punctuation.ofChar? c with
  | some q =>
    obtain rfl : q.char = c := by simpa using List.find?_some hq
    exact .whole hg (ends_punctuation_iff q) (not_viable_punctuation q)
  | none =>
    have hq (q : Punctuation) : c ≠ q.char := by
      rintro rfl
      simpa using List.find?_eq_none.mp hq q (Punctuation.mem_all q)
    by_cases hl : isLetter c
    · simp only [hl, if_true]
      refine .opened .word hg ⟨⟨⟨c, rfl, hl⟩, by simp [joinsWord, hl]⟩, ?_⟩
      intro h
      obtain rfl : c = '_' := by simpa using h
      exact absurd hl (by decide)
    by_cases hd : isDigit c
    · simp only [hl, hd, if_true]
      exact .opened .number hg (.inl (isDigits_singleton hd))
    by_cases ho : isOperator c
    · simp only [hl, hd, ho, if_true]
      exact .opened .operator hg ⟨c, rfl, opens_of_isOperator ho⟩
    by_cases hb : c = '!'
    · subst hb
      exact .opened .bang hg rfl
    by_cases hs : c = '"'
    · subst hs
      exact .opened .string hg ⟨[], rfl, by simp⟩
    · simp only [hl, hd, ho, hb, hs, if_false]
      exact .failed hg (not_viable_of_opens (by simp [opens, hl, hd, ho, hb, hs]) hq)

end RookLang.Lexeme
