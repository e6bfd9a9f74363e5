import Mathlib.Data.List.Forall2
import Mathlib.Data.List.Infix
import Mathlib.Data.List.TakeWhile
import RookLang.Layout
import RookLang.Proofs.Lexical.Scan

/-! Lines of code: what their texts are made of, and what reading them finds. -/
namespace RookLang

theorem mapM_eq_ok_iff {α β ε : Type} {f : α → Except ε β} {xs : List α} {ys : List β} :
    xs.mapM f = .ok ys ↔ List.Forall₂ (fun x y => f x = .ok y) xs ys := by
  induction xs generalizing ys with
  | nil => cases ys <;> simp [pure, Except.pure]
  | cons x xs ih =>
    rw [List.mapM_cons]
    constructor
    · intro h
      cases hx : f x with
      | error e => simp [hx, bind, Except.bind] at h
      | ok y =>
        cases hm : xs.mapM f with
        | error e => simp [hx, hm, bind, Except.bind] at h
        | ok ys' =>
          obtain rfl : y :: ys' = ys := by
            simpa [hx, hm, bind, Except.bind, pure, Except.pure] using h
          exact .cons hx (ih.mp hm)
    · rintro (_ | ⟨hx, h⟩)
      rw [hx, ih.mpr h]
      rfl

theorem exists_mapM_eq_ok_iff {α β ε : Type} {f : α → Except ε β} {xs : List α} :
    (∃ ys, xs.mapM f = .ok ys) ↔ ∀ x ∈ xs, ∃ y, f x = .ok y := by
  simp only [mapM_eq_ok_iff]
  induction xs with
  | nil => exact iff_of_true ⟨[], .nil⟩ (by simp)
  | cons x xs ih =>
    rw [List.forall_mem_cons, ← ih]
    constructor
    · rintro ⟨_, _ | ⟨hx, h⟩⟩
      exact ⟨⟨_, hx⟩, _, h⟩
    · rintro ⟨⟨y, hx⟩, ys, h⟩
      exact ⟨y :: ys, .cons hx h⟩

/-- A traversal that fails does so at the first element that it cannot map. -/
theorem exists_append_of_mapM_error {α β ε : Type} {f : α → Except ε β} {xs : List α} {e : ε}
    (h : xs.mapM f = .error e) : ∃ pre x post, xs = pre ++ x :: post ∧
      (∀ y ∈ pre, ∃ z, f y = .ok z) ∧ f x = .error e := by
  induction xs with
  | nil => cases h
  | cons x xs ih =>
    rw [List.mapM_cons] at h
    cases hx : f x with
    | error e' =>
      obtain rfl : e' = e := by simpa [hx, bind, Except.bind] using h
      exact ⟨[], x, xs, rfl, by simp, hx⟩
    | ok y =>
      cases hm : xs.mapM f with
      | error e' =>
        obtain rfl : e' = e := by simpa [hx, hm, bind, Except.bind] using h
        obtain ⟨pre, z, post, rfl, hpre, hz⟩ := ih hm
        exact ⟨x :: pre, z, post, rfl, List.forall_mem_cons.mpr ⟨⟨y, hx⟩, hpre⟩, hz⟩
      | ok ys => simp [hx, hm, bind, Except.bind, pure, Except.pure] at h

theorem exists_of_mapM_error {α β ε : Type} {f : α → Except ε β} {xs : List α} {e : ε}
    (h : xs.mapM f = .error e) : ∃ x ∈ xs, f x = .error e := by
  obtain ⟨pre, x, post, rfl, -, hx⟩ := exists_append_of_mapM_error h
  exact ⟨x, by simp, hx⟩

theorem mapError_id {α ε : Type} (x : Except ε α) : x.mapError id = x := by cases x <;> rfl

/-- A traversal does to the images of a list what it does to the list, if it does so for each
element. -/
theorem mapM_map {α β γ δ ε ζ : Type} {f : α → Except ε β} {g : γ → Except ζ δ} {u : α → γ}
    {v : β → δ} {w : ε → ζ} (h : ∀ x, g (u x) = ((f x).mapError w).map v) (xs : List α) :
    (xs.map u).mapM g = ((xs.mapM f).mapError w).map (List.map v) := by
  induction xs with
  | nil => rfl
  | cons x xs ih =>
    rw [List.map_cons, List.mapM_cons, List.mapM_cons, ih, h]
    cases f x with
    | error e => rfl
    | ok y => cases xs.mapM f <;> rfl

namespace Character

variable {c : Char}

theorem isBlank_eq_false (h : 33 ≤ c.toNat ∧ c.toNat ≤ 126) : isBlank c = false := by
  simp [isBlank]
  omega

end Character

namespace Lexeme
open Character

variable {kind : Kind} {text : List Char} {barred : Char → Bool} {column : ℕ} {ls : List Lexeme}
  {l : Lexeme} {c : Char}

theorem Names.isLayout_eq_false {text : String} (h : Names kind text) : kind.isLayout = false := by
  cases h <;> rfl

theorem Spells.isLayout_eq_false (h : Spells kind text barred) : kind.isLayout = false := by
  cases h with
  | word _ hn => exact hn.isLayout_eq_false
  | _ => rfl

theorem not_isBlank_of_opens {run : Run} (h : opens c = some run) : isBlank c = false := by
  apply isBlank_eq_false
  by_cases hl : isLetter c
  · have := isLetter_iff.mp hl
    omega
  by_cases hd : isDigit c
  · have := isDigit_iff.mp hd
    omega
  have hc : isOperator c ∨ c = '!' ∨ c = '"' := by
    by_contra hn
    simp_all [opens]
  rcases hc with hc | rfl | rfl
  · simp only [isOperator, operatorChars, List.contains_eq_mem, decide_eq_true_eq, List.mem_cons,
      List.not_mem_nil, or_false] at hc
    rcases hc with rfl | rfl | rfl | rfl | rfl | rfl | rfl | rfl <;> decide
  · decide
  · decide

theorem Spells.not_isBlank {cs : List Char} (h : Spells kind (c :: cs) barred) :
    isBlank c = false := by
  rcases h.of_cons with h | h | ⟨h | h, -⟩ | h | ⟨-, ⟨p, rfl, -⟩, -⟩
  · exact not_isBlank_of_opens h.1
  · exact not_isBlank_of_opens h.1
  · exact not_isBlank_of_opens h
  · exact not_isBlank_of_opens h
  · exact not_isBlank_of_opens h.1
  · cases p <;> decide

/-- Each lexeme stands in the text at its column, and starts with ink. -/
theorem Cuts.stands (h : Cuts column text ls) : ∀ l ∈ ls, ∃ pre c cs post,
    text = pre ++ c :: cs ++ post ∧ l.text = c :: cs ∧ isBlank c = false ∧
      l.column = column + pre.length ∧ l.kind.isLayout = false := by
  induction h with
  | nil => simp
  | @gap column d text ls hd h ih =>
    intro l hl
    obtain ⟨pre, c, cs, post, rfl, ht, hc, hcol, hk⟩ := ih l hl
    exact ⟨d :: pre, c, cs, post, rfl, ht, hc, by simp [hcol]; omega, hk⟩
  | @lexeme column kind text barred rest ls hs hb h ih =>
    intro l hl
    rcases List.mem_cons.mp hl with rfl | hl
    · cases text with
      | nil => exact (hs.ne_nil rfl).elim
      | cons c cs => exact ⟨[], c, cs, rest, rfl, rfl, hs.not_isBlank, rfl, hs.isLayout_eq_false⟩
    · obtain ⟨pre, c, cs, post, rfl, ht, hc, hcol, hk⟩ := ih l hl
      exact ⟨text ++ pre, c, cs, post, by simp, ht, hc, by simp [hcol]; omega, hk⟩

theorem Cuts.pairwise (h : Cuts column text ls) : ls.Pairwise (·.column ≤ ·.column) := by
  induction h with
  | nil => exact .nil
  | gap _ _ ih => exact ih
  | lexeme hs hb h ih =>
    refine .cons (fun l hl => ?_) ih
    obtain ⟨pre, c, cs, post, -, -, -, hcol, -⟩ := h.stands l hl
    simp [hcol]
    omega

theorem Cuts.forall_isGap (h : Cuts column text []) : ∀ c ∈ text, isGap c := by
  generalize hl : [] = ls at h
  induction h with
  | nil => simp
  | gap hc _ ih => simpa [hc] using ih hl
  | lexeme => cases hl

/-- What follows the spaces and tabs at the start of a text starts a lexeme. -/
theorem Cuts.head_not_isBlank (h : Cuts column text ls) (hg : ∀ c ∈ text.head?, ¬ isGap c) :
    ∀ c ∈ text.head?, isBlank c = false := by
  cases h with
  | nil => simp
  | gap hc => exact (hg _ rfl hc).elim
  | @lexeme _ _ text _ rest _ hs hb h =>
    cases text with
    | nil => exact (hs.ne_nil rfl).elim
    | cons c cs =>
      rintro _ ⟨⟩
      exact hs.not_isBlank

/-- A line is an indentation by whole levels, and what lexemes cut. -/
inductive CutsLine : List Char → List Lexeme → Prop
  | intro {lead rest ls} (hl : ∀ c ∈ lead, c = ' ' ∨ c = '\t')
    (hr : ∀ c ∈ rest.head?, c ≠ ' ' ∧ c ≠ '\t') (hw : 4 ∣ lead.count ' ' + 4 * lead.count '\t')
    (hc : Cuts (lead.length + 1) rest ls) : CutsLine (lead ++ rest) ls

end Lexeme

/-- What holds of each line of code that is read. -/
structure CodeLine.WellFormed (l : CodeLine) : Prop where
  aligned : 4 ∣ l.width
  lexemes_ne_nil : l.lexemes ≠ []
  kinds : ∀ x ∈ l.lexemes, x.kind.isLayout = false
  sorted : l.lexemes.Pairwise (·.column ≤ ·.column)
  start_le : ∀ x ∈ l.lexemes, l.start ≤ x.column
  lt_finish : ∀ x ∈ l.lexemes, x.column < l.finish

namespace Layout
open Character Lexeme

variable {lead rest text : List Char} {ls : List Lexeme}

theorem isGap_iff {c : Char} : isGap c ↔ c = ' ' ∨ c = '\t' := by
  constructor
  · intro h
    unfold isGap indentWidth? at h
    split at h <;> simp_all
  · rintro (rfl | rfl) <;> rfl

theorem width_eq_count (h : ∀ c ∈ lead, c = ' ' ∨ c = '\t') :
    width lead = lead.count ' ' + 4 * lead.count '\t' := by
  have shift n : lead.foldl (fun w c => w + (indentWidth? c).getD 0) n =
      n + (lead.count ' ' + 4 * lead.count '\t') := by
    induction lead generalizing n with
    | nil => simp
    | cons c cs ih =>
      rw [List.foldl_cons, ih fun c hc => h c (by simp [hc])]
      rcases h c (by simp) with rfl | rfl
      · simp [indentWidth?]
        omega
      · simp [indentWidth?, indentUnit]
        omega
  simpa [width] using shift 0

theorem leading_append (hl : ∀ c ∈ lead, c = ' ' ∨ c = '\t')
    (hr : ∀ c ∈ rest.head?, c ≠ ' ' ∧ c ≠ '\t') : leading (lead ++ rest) = lead := by
  have hr : rest.takeWhile isGap = [] := by
    cases rest with
    | nil => rfl
    | cons c cs =>
      have hg : ¬ isGap c := by simpa [isGap_iff] using hr c rfl
      simp [hg]
  rw [leading, List.takeWhile_append_of_pos fun c hc => isGap_iff.mpr (hl c hc), hr,
    List.append_nil]

theorem leading_append_drop : leading text ++ text.drop (leading text).length = text :=
  (List.prefix_append_drop (List.takeWhile_prefix isGap)).symm

theorem not_gap_after_leading :
    ∀ c ∈ (text.drop (leading text).length).head?, c ≠ ' ' ∧ c ≠ '\t' := by
  intro c hc
  have hd : text.drop (leading text).length = text.dropWhile isGap :=
    List.append_cancel_left (leading_append_drop.trans List.takeWhile_append_dropWhile.symm)
  have h := List.head?_dropWhile_not isGap text
  rw [← hd, Option.mem_def.mp hc] at h
  have h : ¬ isGap c := by simpa using h
  rwa [isGap_iff, not_or] at h

theorem cutsLine_iff : CutsLine text ls ↔ isAligned (width (leading text)) ∧
    Cuts ((leading text).length + 1) (text.drop (leading text).length) ls := by
  constructor
  · rintro ⟨hl, hr, hw, hc⟩
    rw [leading_append hl hr, width_eq_count hl, List.drop_left]
    exact ⟨by simpa [isAligned, indentUnit] using Nat.mod_eq_zero_of_dvd hw, hc⟩
  · rintro ⟨hw, hc⟩
    have hl : ∀ c ∈ leading text, c = ' ' ∨ c = '\t' := fun c hc =>
      isGap_iff.mp (List.mem_takeWhile_imp hc)
    have h := CutsLine.intro hl not_gap_after_leading ?_ hc
    · rwa [leading_append_drop] at h
    · rw [← width_eq_count hl]
      exact Nat.dvd_of_mod_eq_zero (by simpa [isAligned, indentUnit] using hw)

theorem readLine_eq_ok_iff {line : Text.Line} {l : CodeLine} : readLine line = .ok l ↔
    CutsLine line.text l.lexemes ∧
      l = ⟨line.number, String.ofList line.text, width (leading line.text),
        (leading line.text).length + 1, l.lexemes, inkLength line.text + 1, line.terminated⟩ := by
  rw [cutsLine_iff, ← scan_eq_ok_iff, readLine]
  by_cases hw : isAligned (width (leading line.text))
  · cases hs : scan ((leading line.text).length + 1)
        (line.text.drop (leading line.text).length) with
    | error f => simp [hw]
    | ok ls =>
      simp only [hw, Bool.not_true, Bool.false_eq_true, if_false, Except.ok.injEq, true_and]
      constructor
      · rintro rfl
        exact ⟨rfl, rfl⟩
      · rintro ⟨h, hl⟩
        rw [hl, h]
  · simp [hw]

/-- What cannot be read is the start of the line, if it is badly indented, or a lexeme. -/
theorem exists_fault_of_readLine {line : Text.Line} {e : LexError}
    (h : readLine line = .error e) : ∃ f, e = errorAt line.number line.text f ∧
      (leading line.text ≠ [] ∧
          f = ⟨.indentation (width (leading line.text)), leading line.text, 1, false⟩ ∨
        scan ((leading line.text).length + 1)
          (line.text.drop (leading line.text).length) = .error f) := by
  unfold readLine at h
  by_cases hw : isAligned (width (leading line.text))
  · cases hs : scan ((leading line.text).length + 1)
        (line.text.drop (leading line.text).length) with
    | error f =>
      simp only [hw, hs, Bool.not_true, Bool.false_eq_true, if_false] at h
      exact ⟨f, (Except.error.inj h).symm, .inr rfl⟩
    | ok ls => simp [hw, hs] at h
  · simp only [hw, Bool.not_false, if_true] at h
    refine ⟨_, (Except.error.inj h).symm, .inl ⟨fun hl => hw ?_, rfl⟩⟩
    rw [hl]
    rfl

theorem cutsLine_lexemes_ne_nil {line : Text.Line} (h : CutsLine line.text ls)
    (hc : isCode line) : ls ≠ [] := by
  rintro rfl
  generalize ht : line.text = text, hn : [] = ls at h
  obtain ⟨hl, hr, hw, h⟩ := h
  subst hn
  have hb : line.text.all isBlank := by
    rw [ht, List.all_append, Bool.and_eq_true, List.all_eq_true, List.all_eq_true]
    exact ⟨fun c hc => isBlank_of_isGap (isGap_iff.mpr (hl c hc)),
      fun c hc => isBlank_of_isGap (h.forall_isGap c hc)⟩
  simp [isCode, hb] at hc

/-- The column of the first character of a text that is not blank. -/
def StartsAt (text : List Char) (column : ℕ) : Prop :=
  ∃ pre c post, text = pre ++ c :: post ∧ (∀ d ∈ pre, isBlank d) ∧ isBlank c = false ∧
    column = pre.length + 1

/-- The column after the last character of a text that is not blank. -/
def EndsAt (text : List Char) (column : ℕ) : Prop :=
  ∃ pre c post, text = pre ++ c :: post ∧ isBlank c = false ∧ (∀ d ∈ post, isBlank d) ∧
    column = pre.length + 2

theorem startsAt_of_cutsLine {line : Text.Line} (h : CutsLine line.text ls) (hc : isCode line) :
    StartsAt line.text ((leading line.text).length + 1) := by
  have hne := cutsLine_lexemes_ne_nil h hc
  generalize line.text = text at h
  obtain ⟨hl, hr, hw, h⟩ := h
  rename_i lead rest
  rw [leading_append hl hr]
  cases rest with
  | nil => exact (hne (cuts_nil_iff.mp h)).elim
  | cons c cs =>
    refine ⟨lead, c, cs, rfl, fun d hd => isBlank_of_isGap (isGap_iff.mpr (hl d hd)), ?_, rfl⟩
    refine h.head_not_isBlank (fun c hc => ?_) c rfl
    rw [isGap_iff, not_or]
    exact hr c hc

theorem endsAt_inkLength {line : Text.Line} (hc : isCode line) :
    EndsAt line.text (inkLength line.text + 1) := by
  have ht := List.takeWhile_append_dropWhile (p := isBlank) (l := line.text.reverse)
  have hb := List.head?_dropWhile_not isBlank line.text.reverse
  unfold inkLength
  cases hd : line.text.reverse.dropWhile isBlank with
  | nil =>
    have hd : line.text.all isBlank := by simpa using hd
    simp [isCode, hd] at hc
  | cons c cs =>
    rw [hd] at ht hb
    refine ⟨cs.reverse, c, (line.text.reverse.takeWhile isBlank).reverse, ?_, by simpa using hb, ?_,
      by simp⟩
    · rw [← List.reverse_inj]
      simpa using ht.symm
    · intro d hd
      exact List.mem_takeWhile_imp (List.mem_reverse.mp hd)

theorem lt_inkLength (pre post : List Char) {c : Char} (hc : isBlank c = false) :
    pre.length < inkLength (pre ++ c :: post) := by
  simp only [inkLength, List.reverse_append, List.reverse_cons, List.append_assoc,
    List.dropWhile_append]
  split <;> simp [hc]
  omega

theorem aligned_of_readLine (h : readLine line = .ok l) : 4 ∣ l.width := by
  obtain ⟨hcut, hl⟩ := readLine_eq_ok_iff.mp h
  have ha := (cutsLine_iff.mp hcut).1
  rw [hl]
  exact Nat.dvd_of_mod_eq_zero (by simpa [Character.isAligned, Character.indentUnit] using ha)

theorem wellFormed_of_readLine (hc : isCode line) (h : readLine line = .ok l) : l.WellFormed := by
  obtain ⟨hcut, hl⟩ := readLine_eq_ok_iff.mp h
  have hcuts := (cutsLine_iff.mp hcut).2
  have hstart : l.start = (leading line.text).length + 1 := by rw [hl]
  have hfinish : l.finish = inkLength line.text + 1 := by rw [hl]
  refine ⟨aligned_of_readLine h, cutsLine_lexemes_ne_nil hcut hc, ?_, hcuts.pairwise, ?_, ?_⟩
  · intro x hx
    obtain ⟨pre, c, cs, post, -, -, -, -, hk⟩ := hcuts.stands x hx
    exact hk
  · intro x hx
    obtain ⟨pre, c, cs, post, -, -, -, hcol, -⟩ := hcuts.stands x hx
    omega
  · intro x hx
    obtain ⟨pre, c, cs, post, ht, -, hb, hcol, -⟩ := hcuts.stands x hx
    have hlt := lt_inkLength (leading line.text ++ pre) (cs ++ post) hb
    rw [List.append_assoc, ← List.cons_append, ← List.append_assoc pre, ← ht, leading_append_drop,
      List.length_append] at hlt
    omega

end Layout

end RookLang
