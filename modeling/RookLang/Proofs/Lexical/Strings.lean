import RookLang.Proofs.Lexical.Faults

/-! Strings among the lexemes of a text: no other lexeme has a quote or what opens a comment in it,
and the scanner reads strings, and nothing else, as strings. -/
namespace RookLang.Lexeme
open Character

variable {kind : Kind} {text p q u v : List Char} {barred : Char → Bool} {start column : ℕ}
  {ls : List Lexeme} {c : Char}

theorem Spells.of_string (h : Spells .string text barred) :
    ∃ body, text = '"' :: body ++ ['"'] ∧ '"' ∉ body := by
  generalize hk : Kind.string = kind at h
  cases h with
  | word _ hn =>
    generalize String.ofList text = word at hn
    cases hn <;> cases hk
  | string h => exact ⟨_, rfl, h⟩
  | _ => cases hk

theorem Spells.quote_notMem (h : Spells kind text barred) (hk : kind ≠ .string) : '"' ∉ text := by
  cases h with
  | word h => exact notMem_of_forall h.joins (by decide)
  | number h => exact notMem_of_forall h.digits (by decide)
  | float hu hv =>
    simp [notMem_of_forall hu.digits (c := '"') (by decide),
      notMem_of_forall hv.digits (c := '"') (by decide)]
  | @sign o c ho h =>
    rw [← h]
    cases o <;> decide
  | @compound o c d ho h =>
    rw [← h]
    cases o <;> decide
  | punctuation p => cases p <;> decide
  | string => exact (hk rfl).elim

/-- What opens a comment is no part of another lexeme than a string. -/
theorem Spells.not_infix (h : Spells kind text barred) (hk : kind ≠ .string)
    (hc : c = '/' ∨ c = '*') : ¬ ['/', c] <:+: text := by
  have hslash (hn : '/' ∉ text) : ¬ ['/', c] <:+: text := fun hi => hn (hi.subset (by simp))
  cases h with
  | word h => exact hslash (notMem_of_forall h.joins (by decide))
  | number h => exact hslash (notMem_of_forall h.digits (by decide))
  | float hu hv =>
    refine hslash ?_
    simp [notMem_of_forall hu.digits (c := '/') (by decide),
      notMem_of_forall hv.digits (c := '/') (by decide)]
  | sign => exact fun hi => absurd hi.length_le (by simp)
  | @compound o d e ho h =>
    rw [← h]
    rcases hc with rfl | rfl <;> cases o <;> decide
  | punctuation => exact fun hi => absurd hi.length_le (by simp)
  | string => exact (hk rfl).elim

/-- What opens a comment in a string stands between the quotes. -/
theorem Spells.ne_nil_of_opening (h : Spells .string (u ++ '/' :: c :: v) barred)
    (hc : c = '/' ∨ c = '*') : u ≠ [] ∧ v ≠ [] := by
  obtain ⟨body, hbody, -⟩ := h.of_string
  constructor
  · rintro rfl
    cases hbody
  · rintro rfl
    have hlast := congrArg List.getLast? hbody
    rw [List.getLast?_concat, List.getLast?_append_of_ne_nil _ (by simp)] at hlast
    rcases hc with rfl | rfl <;> cases hlast

/-- In a text that lexemes cut, what opens a comment stands between the quotes of a string. -/
theorem Cuts.string_of_opening (h : Cuts column (u ++ '/' :: c :: v) ls) (hc : c = '/' ∨ c = '*') :
    ∃ l ∈ ls, l.kind = .string ∧ l.column < column + u.length ∧
      column + u.length + 2 < l.column + l.text.length := by
  generalize ht : u ++ '/' :: c :: v = text at h
  induction h generalizing u with
  | nil => simp at ht
  | @gap column d text ls hd h ih =>
    cases u with
    | nil =>
      obtain rfl := (List.cons.inj ht).1
      cases hd
    | cons e u =>
      obtain ⟨l, hl, hk, hcol⟩ := ih (List.cons.inj ht).2
      rw [List.length_cons]
      exact ⟨l, hl, hk, by omega⟩
  | @lexeme column kind text barred rest ls hs hb h ih =>
    rcases List.append_eq_append_iff.mp ht with ⟨w, rfl, hw⟩ | ⟨w, rfl, hw⟩
    · rcases w with - | ⟨d, - | ⟨e, w⟩⟩
      · obtain ⟨l, hl, hk, hcol⟩ := ih (u := []) hw
        refine ⟨l, List.mem_cons_of_mem _ hl, hk, ?_⟩
        simpa using hcol
      · -- The lexeme ends in a slash, and no operator follows it.
        obtain ⟨rfl, rfl⟩ := List.cons.inj hw
        obtain rfl := hs.kind_eq_divide List.getLast?_concat
        obtain ⟨-, rfl⟩ := hs.of_divide
        have := hb c rfl
        rcases hc with rfl | rfl <;> cases this
      · obtain ⟨rfl, rfl, -⟩ : '/' = d ∧ c = e ∧ _ := by simpa using hw
        have hi : ['/', c] <:+: u ++ '/' :: c :: w := ⟨u, w, by simp⟩
        have hk : kind = .string := by
          by_contra hk
          exact hs.not_infix hk hc hi
        subst hk
        obtain ⟨hu, hw⟩ := hs.ne_nil_of_opening hc
        have hu := List.length_pos_iff.mpr hu
        have hw := List.length_pos_iff.mpr hw
        refine ⟨_, List.mem_cons_self, rfl, ?_⟩
        simp only [List.length_append, List.length_cons]
        omega
    · obtain ⟨l, hl, hk, hcol⟩ := ih hw.symm
      rw [List.length_append]
      exact ⟨l, List.mem_cons_of_mem _ hl, hk, by omega⟩

/-- A lexeme that starts with a quote is read as a string. -/
theorem Open.Holds.eq_string {run : Run} (h : Open.Holds run ('"' :: p)) : run = .string := by
  have hd {u v : List Char} (hu : IsDigits u) : '"' :: p ≠ u ++ v := by
    obtain ⟨d, ds, rfl, hd⟩ := hu.head
    intro he
    obtain rfl := (List.cons.inj he).1
    cases hd
  cases run with
  | word =>
    obtain ⟨_, ⟨⟩, hl⟩ := h.head
    cases hl
  | underscore =>
    obtain ⟨_, ⟨⟩, hl⟩ := h.1.head
    cases hl
  | number =>
    rcases h with h | ⟨u, v, he, hu, -⟩
    · cases h.digits '"' (by simp)
    · exact (hd hu he).elim
  | fraction =>
    obtain ⟨u, he, hu⟩ := h
    exact (hd hu he).elim
  | operator =>
    obtain ⟨c, he, hc⟩ := h
    obtain rfl := (List.cons.inj he).1
    cases hc
  | bang => cases h
  | compound =>
    obtain ⟨c, he, hc⟩ := h
    obtain rfl := (List.cons.inj he).1
    rcases hc with hc | hc <;> cases hc
  | string => rfl

theorem Cuts.within (h : Cuts column text ls) : ∀ l ∈ ls,
    column ≤ l.column ∧ l.column + l.text.length ≤ column + text.length := by
  intro l hl
  obtain ⟨⟨u, v, -, rfl, -, hcol⟩, -, -⟩ := h.standsAt l hl
  rw [hcol, List.length_append, List.length_append]
  omega

namespace Scanner

variable {s : Scanner}

theorem Reads.sound (h : s.Reads start p) : s.Sound := by
  intro o ho
  obtain ⟨hh, u, rfl, -, hcol⟩ := h.opened o ho
  refine ⟨hh, ?_⟩
  rw [h.column, hcol, List.length_append, Nat.add_assoc]

/-- The scanner is in the lexeme that it has opened, and in no other one. -/
theorem Reads.straddles (h : s.Reads start p) (hs : scan start (p ++ q) = .ok ls) :
    ∃ closed rest, ls = closed ++ rest ∧ (∀ l ∈ closed, ¬ l.Straddles s.column) ∧
      match s.pending with
      | none => ∀ l ∈ rest, ¬ l.Straddles s.column
      | some o => ∃ kind more rest', rest = ⟨kind, o.text ++ more, o.column⟩ :: rest' ∧
        (∃ barred, Spells kind (o.text ++ more) barred) ∧ ∀ l ∈ rest', ¬ l.Straddles s.column := by
  have hcomplete : s.complete q = .ok ls := by
    rw [scan_eq_complete, complete, List.foldlM_append, h.run] at hs
    exact hs
  obtain ⟨ls', hls', rfl⟩ := (finds h.sound ls).mp hcomplete
  refine ⟨_, ls', rfl, ?_⟩
  rw [Expects] at hls'
  cases hp : s.pending with
  | none =>
    rw [hp] at hls'
    refine ⟨fun l hl => ?_, fun l hl => ?_⟩
    · have := (h.cuts hp).within l hl
      have := h.column
      unfold Straddles
      omega
    · have := hls'.within l hl
      unfold Straddles
      omega
  | some o =>
    rw [hp] at hls'
    obtain ⟨hh, u, rfl, hu, hcol⟩ := h.opened o hp
    obtain ⟨kind, more, rest, ls', rfl, ⟨barred, hspells, -⟩, hrest, rfl⟩ := hls'
    have hpos := List.length_pos_iff.mpr hh.ne_nil
    have hcolumn := h.column
    rw [List.length_append] at hcolumn hrest
    refine ⟨fun l hl => ?_, kind, more, ls', rfl, ⟨barred, hspells⟩, fun l hl => ?_⟩
    · have := hu.within l hl
      unfold Straddles
      omega
    · have := hrest.within l hl
      unfold Straddles
      omega

theorem exists_run (hs : scan start (p ++ q) = .ok ls) :
    ∃ s, p.foldlM feed (startingAt start) = .ok s := by
  rw [scan, List.foldlM_append] at hs
  cases hp : p.foldlM feed (startingAt start) with
  | ok s => exact ⟨s, rfl⟩
  | error f => simp [hp, bind, Except.bind] at hs

/-- The scanner reads a string exactly after the first character of one, up to the last one. -/
theorem inString_iff (hr : p.foldlM feed (startingAt start) = .ok s)
    (hs : scan start (p ++ q) = .ok ls) : (∃ o ∈ s.pending, o.run = .string) ↔
      ∃ l ∈ ls, l.kind = .string ∧ l.Straddles s.column := by
  have h := reads_of_run hr
  obtain ⟨closed, rest, rfl, hclosed, hrest⟩ := h.straddles hs
  cases hp : s.pending with
  | none =>
    rw [hp] at hrest
    refine iff_of_false (by simp) ?_
    rintro ⟨l, hl, -, hin⟩
    rcases List.mem_append.mp hl with hl | hl
    · exact hclosed l hl hin
    · exact hrest l hl hin
  | some o =>
    rw [hp] at hrest
    obtain ⟨kind, more, rest, rfl, ⟨barred, hspells⟩, hrest⟩ := hrest
    obtain ⟨hh, u, rfl, -, hcol⟩ := h.opened o hp
    have hcolumn := h.column
    have hpos := List.length_pos_iff.mpr hh.ne_nil
    rw [List.length_append] at hcolumn
    constructor
    · rintro ⟨_, ⟨⟩, ho⟩
      rw [ho] at hh
      obtain ⟨body, hbody, hq⟩ := hh
      rw [hbody, List.cons_append] at hspells
      obtain ⟨rfl, ⟨body', hmore, -⟩, -⟩ := hspells.of_quote
      refine ⟨_, List.mem_append_right _ List.mem_cons_self, rfl, ?_⟩
      -- The string is not whole yet, since its last quote has not been read.
      have hne : more ≠ [] := by
        rintro rfl
        rw [List.append_nil] at hmore
        exact hq (by simp [hmore])
      have hmore := List.length_pos_iff.mpr hne
      simp only [Straddles, List.length_append]
      omega
    · rintro ⟨l, hl, hk, hin⟩
      refine ⟨o, rfl, ?_⟩
      obtain rfl : l = ⟨kind, o.text ++ more, o.column⟩ := by
        rcases List.mem_append.mp hl with hl | hl
        · exact (hclosed l hl hin).elim
        · exact (List.mem_cons.mp hl).resolve_right fun hl => hrest l hl hin
      obtain rfl : kind = .string := hk
      obtain ⟨body, hbody, -⟩ := hspells.of_string
      obtain ⟨c, read, ht⟩ := List.exists_cons_of_ne_nil hh.ne_nil
      rw [ht] at hbody hh
      obtain rfl := (List.cons.inj hbody).1
      exact hh.eq_string

end Scanner

end RookLang.Lexeme
