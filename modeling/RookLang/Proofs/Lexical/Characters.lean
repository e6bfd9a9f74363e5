import RookLang.Proofs.Comments
import RookLang.Proofs.Lines

/-! The characters of lexemes: removal of comments keeps them, and spaces may come between them. -/
namespace RookLang.Lexeme
open Character Comment

variable {kind : Kind} {text u v : List Char} {barred : Char → Bool} {column : ℕ}
  {ls : List Lexeme} {c : Char}

/-- Outside strings, a lexeme of the class `p` has no character that is not of it. -/
theorem notMem_of_forall {p : Char → Bool} (h : ∀ d ∈ text, p d) (hc : p c = false) : c ∉ text :=
  fun hm => by simp [h c hm] at hc

/-- Signs stay as they are next to code; a slash alone may be held back. -/
theorem keeps_sign {o : Operator} (ho : o.isWord = false) (hd : o ≠ .divide) :
    Keeps (· = .code) (· = .code) o.spelling.toList := by
  cases o with
  | divide => exact (hd rfl).elim
  | divideAssign =>
    exact keeps_slash.append (keeps_separator (by decide) (by decide) (by decide))
  | and | or | not => cases ho
  | _ => exact keeps_plain (by decide) (by decide)

theorem Spells.keeps_code (h : Spells kind text barred) (hn : '\n' ∉ text)
    (hd : kind ≠ .operator .divide) : Keeps (· = .code) (· = .code) text := by
  cases h with
  | word h =>
    exact keeps_plain (notMem_of_forall h.joins (by decide)) (notMem_of_forall h.joins (by decide))
  | number h =>
    exact keeps_plain (notMem_of_forall h.digits (by decide))
      (notMem_of_forall h.digits (by decide))
  | @float u v hu hv =>
    have hd (c : Char) (hc : isDigit c = false) (hp : c ≠ '.') : c ∉ u ++ '.' :: v := by
      simp [notMem_of_forall hu.digits hc, notMem_of_forall hv.digits hc, hp]
    exact keeps_plain (hd '/' (by decide) (by decide)) (hd '"' (by decide) (by decide))
  | sign ho h => exact h ▸ keeps_sign ho (by simpa using hd)
  | compound ho h => exact h ▸ keeps_sign ho (by simpa using hd)
  | punctuation p => exact keeps_plain (by cases p <;> decide) (by cases p <;> decide)
  | @string body h => exact keeps_quoted h (by simp_all)

/-- A division sign is a slash, which no other operator may follow. -/
theorem Spells.of_divide (h : Spells (.operator .divide) text barred) :
    text = ['/'] ∧ barred = isOperator := by
  have hsign (h : Operator.divide.spelling.toList = text) : text = ['/'] := h.symm
  cases h with
  | word h hn =>
    have ht : Operator.divide.spelling.toList = text := by
      generalize hw : String.ofList text = word at hn
      cases hn
      rw [← hw, String.toList_ofList]
    obtain ⟨c, hc, hl⟩ := h.head
    rw [hsign ht] at hc
    obtain rfl : '/' = c := Option.some.inj hc
    exact absurd hl (by decide)
  | sign ho h => exact ⟨hsign h, rfl⟩
  | compound ho h => cases hsign h

theorem Spells.keeps (h : Spells kind text barred) (hn : '\n' ∉ text) :
    Keeps (· = .code) Mode.InCode text := by
  by_cases hd : kind = .operator .divide
  · subst hd
    rw [h.of_divide.1]
    exact keeps_slash
  · exact (h.keeps_code hn hd).inCode

/-- A space may follow every lexeme. -/
theorem Spells.barred_space (h : Spells kind text barred) : barred ' ' = false := by
  cases h <;> rfl

/-- What ends in no letter, digit or quote and in no mark of punctuation is a sign. -/
theorem Spells.of_getLast? (h : Spells kind text barred) (hl : text.getLast? = some c)
    (hj : joinsWord c = false) (hq : c ≠ '"') (hp : ∀ p : Punctuation, p.char ≠ c) :
    ∃ o : Operator, o.isWord = false ∧ o.spelling.toList = text ∧ kind = .operator o := by
  have hd : isDigit c = false := by simp_all [joinsWord]
  have hm := List.mem_of_getLast? hl
  cases h with
  | word h => exact absurd hm (notMem_of_forall h.joins hj)
  | number h => exact absurd hm (notMem_of_forall h.digits hd)
  | @float u v hu hv =>
    obtain ⟨d, ds, rfl, -⟩ := hv.head
    rw [List.getLast?_append_of_ne_nil _ (by simp), List.getLast?_cons_cons] at hl
    exact absurd (List.mem_of_getLast? hl) (notMem_of_forall hv.digits hd)
  | sign ho h => exact ⟨_, ho, h, rfl⟩
  | compound ho h => exact ⟨_, ho, h, rfl⟩
  | punctuation p => exact (hp p (by simpa using hl)).elim
  | string h =>
    rw [List.getLast?_concat] at hl
    exact (hq (Option.some.inj hl).symm).elim

/-- No lexeme ends in a carriage return, although one may stand in a string. -/
theorem Spells.getLast?_ne (h : Spells kind text barred) : text.getLast? ≠ some '\r' := by
  intro hr
  obtain ⟨o, -, rfl, -⟩ := h.of_getLast? hr (by decide) (by decide) fun p => by cases p <;> decide
  revert hr
  cases o <;> decide

/-- Only a division sign ends in a slash. -/
theorem Spells.kind_eq_divide (h : Spells kind text barred) (hl : text.getLast? = some '/') :
    kind = .operator .divide := by
  obtain ⟨o, -, rfl, rfl⟩ := h.of_getLast? hl (by decide) (by decide) fun p => by
    cases p <;> decide
  revert hl
  cases o <;> decide

/-- Each lexeme spells something, and is made of the characters of the text. -/
theorem Cuts.spells (h : Cuts column text ls) :
    ∀ x ∈ ls, (∃ barred, Spells x.kind x.text barred) ∧ x.text ⊆ text := by
  induction h with
  | nil => simp
  | gap _ _ ih => exact fun x hx => ⟨(ih x hx).1, List.subset_cons_of_subset _ (ih x hx).2⟩
  | @lexeme column kind text barred rest ls hs hb h ih =>
    intro x hx
    rcases List.mem_cons.mp hx with rfl | hx
    · exact ⟨⟨barred, hs⟩, List.subset_append_left ..⟩
    · exact ⟨(ih x hx).1, List.subset_append_of_subset_right _ (ih x hx).2⟩

/-! Texts that lexemes cut, in parts. -/

theorem Cuts.shift (h : Cuts column text ls) (n : ℕ) :
    Cuts (column + n) text (ls.map fun l => { l with column := l.column + n }) := by
  induction h with
  | nil => exact .nil
  | gap hc _ ih => exact .gap hc (by rwa [Nat.add_right_comm])
  | lexeme hs hb _ ih => exact .lexeme hs hb (by rwa [Nat.add_right_comm])

theorem Cuts.spaces {n : ℕ} (h : Cuts (column + n) text ls) :
    Cuts column (List.replicate n ' ' ++ text) ls := by
  induction n generalizing column with
  | zero => exact h
  | succ n ih => exact .gap rfl (ih (by rwa [Nat.add_assoc, Nat.add_comm 1]))

/-- Between texts that lexemes cut there may be a space. -/
theorem Cuts.append_space {us vs : List Lexeme} (hu : Cuts column u us)
    (hv : Cuts (column + u.length) (' ' :: v) vs) : Cuts column (u ++ ' ' :: v) (us ++ vs) := by
  induction hu with
  | nil => exact hv
  | gap hc _ ih =>
    refine .gap hc (ih ?_)
    rwa [Nat.add_assoc, Nat.add_comm 1]
  | @lexeme column kind text barred rest us hs hb h ih =>
    rw [List.append_assoc]
    refine .lexeme hs ?_ (ih ?_)
    · cases rest with
      | nil =>
        rintro _ ⟨⟩
        exact hs.barred_space
      | cons c rest => exact hb
    · rwa [Nat.add_assoc, ← List.length_append]

/-- Spaces between lexemes move those after them, and do nothing else. -/
theorem Cuts.append_spaces {us vs : List Lexeme} (hu : Cuts column u us)
    (hv : Cuts (column + u.length) v vs) (n : ℕ) :
    Cuts column (u ++ (List.replicate (n + 1) ' ' ++ v))
      (us ++ vs.map fun l => { l with column := l.column + (n + 1) }) :=
  hu.append_space (hv.shift (n + 1)).spaces

/-- The place before this column is inside of the lexeme. -/
def Straddles (column : ℕ) (l : Lexeme) : Prop :=
  l.column < column ∧ column < l.column + l.text.length

/-- A text falls into parts at a place where no lexeme does. -/
theorem Cuts.exists_append (h : Cuts column (u ++ v) ls)
    (hs : ∀ l ∈ ls, ¬ l.Straddles (column + u.length)) :
    ∃ us vs, ls = us ++ vs ∧ Cuts column u us ∧ Cuts (column + u.length) v vs := by
  generalize ht : u ++ v = text at h
  induction h generalizing u with
  | nil =>
    obtain ⟨rfl, rfl⟩ := List.append_eq_nil_iff.mp ht
    exact ⟨[], [], rfl, .nil, .nil⟩
  | @gap column c text ls hc h ih =>
    cases u with
    | nil =>
      obtain rfl : v = c :: text := ht
      exact ⟨[], ls, rfl, .nil, .gap hc h⟩
    | cons d u =>
      obtain ⟨rfl, hv⟩ := List.cons.inj ht
      rw [List.length_cons, Nat.add_comm u.length, ← Nat.add_assoc] at hs ⊢
      obtain ⟨us, vs, rfl, hu, hv⟩ := ih hs hv
      exact ⟨us, vs, rfl, .gap hc hu, hv⟩
  | @lexeme column kind text barred rest ls hk hb h ih =>
    obtain ⟨hl, hls⟩ := List.forall_mem_cons.mp hs
    rcases List.append_eq_append_iff.mp ht with ⟨w, rfl, rfl⟩ | ⟨w, rfl, rfl⟩
    · -- The place is at an end of the lexeme, since it is not inside of it.
      simp only [Straddles, List.length_append] at hl
      by_cases hw : w = []
      · subst hw
        rw [List.append_nil] at hk h ⊢
        have hu : Cuts column (u ++ []) [⟨kind, u, column⟩] := .lexeme hk nofun .nil
        rw [List.append_nil] at hu
        exact ⟨[⟨kind, u, column⟩], ls, rfl, hu, h⟩
      · have := List.length_pos_iff.mpr hw
        obtain rfl : u = [] := List.length_eq_zero_iff.mp (by omega)
        exact ⟨[], _, rfl, .nil, .lexeme hk hb h⟩
    · rw [List.length_append, ← Nat.add_assoc] at hls ⊢
      obtain ⟨us, vs, rfl, hu, hv⟩ := ih hls rfl
      refine ⟨_, vs, rfl, .lexeme hk ?_ hu, hv⟩
      intro c hc
      exact hb c (by simp [Option.mem_def.mp hc])

theorem Cuts.keeps (h : Cuts column text ls) (hn : '\n' ∉ text) :
    Keeps (· = .code) Mode.InCode text := by
  induction h with
  | nil => exact Keeps.nil.inCode
  | @gap column c text ls hc h ih =>
    have hg : c = ' ' ∨ c = '\t' := Layout.isGap_iff.mp hc
    have hc : Keeps (· = .code) (· = .code) [c] := by
      refine keeps_plain ?_ ?_ <;> rcases hg with rfl | rfl <;> decide
    exact hc.append (ih (by simp_all))
  | @lexeme column kind text barred rest ls hs hb h ih =>
    obtain ⟨hn, hr⟩ : '\n' ∉ text ∧ '\n' ∉ rest := by simpa using hn
    by_cases hd : kind = .operator .divide
    · subst hd
      obtain ⟨-, rfl⟩ := hs.of_divide
      refine (hs.keeps hn).append ((ih hr).of_code fun c hc => ?_)
      have := hb c hc
      constructor <;> rintro rfl <;> exact absurd this (by decide)
    · exact (hs.keeps_code hn hd).append (ih hr)

/-- What ends in a slash ends in a division sign. -/
theorem Cuts.exists_divide (h : Cuts column text ls) (hl : text.getLast? = some '/') :
    ∃ l ∈ ls, l.kind = .operator .divide ∧ l.column + l.text.length = column + text.length := by
  induction h with
  | nil => cases hl
  | @gap column c text ls hc h ih =>
    rw [List.length_cons, Nat.add_comm text.length, ← Nat.add_assoc]
    cases text with
    | nil =>
      obtain rfl : c = '/' := by simpa using hl
      exact absurd hc (by decide)
    | cons d text => exact ih (by simpa using hl)
  | @lexeme column kind text barred rest ls hs hb h ih =>
    rw [List.length_append, ← Nat.add_assoc]
    cases rest with
    | nil =>
      rw [List.append_nil] at hl
      exact ⟨⟨kind, text, column⟩, by simp, hs.kind_eq_divide hl, rfl⟩
    | cons c rest =>
      rw [List.getLast?_append_of_ne_nil _ (by simp)] at hl
      obtain ⟨l, hm, hl⟩ := ih hl
      exact ⟨l, by simp [hm], hl⟩

end RookLang.Lexeme
