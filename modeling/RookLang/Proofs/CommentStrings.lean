import Mathlib.Data.List.Forall2
import RookLang.Proofs.CommentColumns

/-! The strings of a source: the runs of characters through which removal of comments is in a
string. What it keeps has the same strings. -/
namespace RookLang.Comment

/-- After the text, removal of comments is in a string. -/
def InString (text : List Char) : Prop := (text.foldl State.feed .initial).mode = .string

instance (text : List Char) : Decidable (InString text) := inferInstanceAs (Decidable (_ = _))

/-- A text that stands after another one. -/
structure Segment where
  before : List Char
  text : List Char

/-- After `before` the text is a string, from the character that opens it to the one that ends
it. -/
structure IsString (before text : List Char) : Prop where
  outside : ¬ InString before
  inside : ∀ p, p <+: text → p ≠ [] → p ≠ text → InString (before ++ p)
  ends : ¬ InString (before ++ text)
  two_le : 2 ≤ text.length

/-- The strings of a text that leaves no string open, in order. -/
inductive Strings : List Char → List Segment → Prop
  | nil : Strings [] []
  | other {a c rs} (h : Strings a rs) (hc : ¬ InString (a ++ [c])) : Strings (a ++ [c]) rs
  | string {a text rs} (h : Strings a rs) (hs : IsString a text) :
    Strings (a ++ text) (rs ++ [⟨a, text⟩])

variable {a b text w : List Char} {s : State} {c : Char} {r : Segment} {rs rs' : List Segment}

theorem Strings.not_inString (h : Strings a rs) : ¬ InString a := by
  cases h with
  | nil => nofun
  | other _ hc => exact hc
  | string _ hs => exact hs.ends

theorem IsString.ne_nil (h : IsString a text) : text ≠ [] :=
  List.length_pos_iff.mp (Nat.lt_of_lt_of_le Nat.two_pos h.two_le)

/-- A string is open before its last character. -/
theorem IsString.inString_of_concat (h : IsString a text) (he : a ++ text = b ++ [c]) :
    InString b := by
  have hlen := h.two_le
  obtain ⟨text, d, rfl⟩ := (List.eq_nil_or_concat' text).resolve_left h.ne_nil
  rw [← List.append_assoc] at he
  obtain ⟨rfl, -⟩ := List.append_inj' he rfl
  refine h.inside text (List.prefix_append ..) ?_ (by simp)
  rintro rfl
  simp at hlen

/-- Where no string is open, a text ends before a string or with it. -/
theorem IsString.of_prefix (h : IsString a text) (hb : b <+: a ++ text) (hn : ¬ InString b) :
    b <+: a ∨ b = a ++ text := by
  rcases List.prefix_or_prefix_of_prefix hb (List.prefix_append a text) with hb | ⟨p, rfl⟩
  · exact .inl hb
  · have hp : p <+: text := (List.prefix_append_right_inj a).mp hb
    by_cases hnil : p = []
    · exact .inl (by simp [hnil])
    by_cases hall : p = text
    · exact .inr (by rw [hall])
    · exact (hn (h.inside p hp hnil hall)).elim

theorem IsString.append_ne (h : IsString a text) : a ++ text ≠ a := fun he =>
  h.ne_nil (List.append_right_eq_self.mp he)

/-- Strings that end at one place are one string. -/
theorem IsString.unique {text' : List Char} (h : IsString a text) (h' : IsString b text')
    (he : b ++ text' = a ++ text) : b = a ∧ text' = text := by
  have hb : b <+: a := by
    refine (h.of_prefix ⟨text', he⟩ h'.outside).resolve_right fun hb => ?_
    exact h'.append_ne (he.trans hb.symm)
  have ha : a <+: b := by
    refine (h'.of_prefix ⟨text, he.symm⟩ h.outside).resolve_right fun ha => ?_
    exact h.append_ne (he.symm.trans ha.symm)
  obtain rfl := hb.eq_of_length_le ha.length_le
  exact ⟨rfl, List.append_cancel_left he⟩

/-- The strings are those that end in the text. -/
theorem Strings.mem_iff (h : Strings a rs) :
    r ∈ rs ↔ IsString r.before r.text ∧ r.before ++ r.text <+: a := by
  induction h with
  | nil =>
    refine iff_of_false (by simp) fun ⟨hs, hp⟩ => ?_
    exact hs.ne_nil (List.append_eq_nil_iff.mp (List.prefix_nil.mp hp)).2
  | @other a c rs h hc ih =>
    rw [ih]
    refine and_congr_right fun hs => ?_
    rw [List.prefix_concat_iff]
    exact (or_iff_right fun he => h.not_inString (hs.inString_of_concat he)).symm
  | @string a text rs h hs ih =>
    rw [List.mem_append, List.mem_singleton, ih]
    constructor
    · rintro (⟨hr, hp⟩ | rfl)
      · exact ⟨hr, hp.trans (List.prefix_append ..)⟩
      · exact ⟨hs, List.prefix_rfl⟩
    · rintro ⟨hr, hp⟩
      rcases hs.of_prefix hp hr.ends with hp | he
      · exact .inl ⟨hr, hp⟩
      · obtain ⟨hb, ht⟩ := hs.unique hr he
        exact .inr (by rw [← hb, ← ht])

/-- Strings come one after the other. -/
theorem Strings.pairwise (h : Strings a rs) :
    rs.Pairwise fun r r' => r.before ++ r.text <+: r'.before := by
  induction h with
  | nil => exact .nil
  | other _ _ ih => exact ih
  | string h hs ih =>
    rw [List.pairwise_append]
    refine ⟨ih, List.pairwise_singleton .., fun r hr r' hr' => ?_⟩
    obtain rfl := List.mem_singleton.mp hr'
    exact (h.mem_iff.mp hr).2

theorem Strings.of_concat (h : Strings (a ++ [c]) rs) (ha : ¬ InString a) : Strings a rs := by
  generalize he : a ++ [c] = b at h
  cases h with
  | nil => simp at he
  | other h _ =>
    obtain ⟨rfl, -⟩ := List.append_inj' he rfl
    exact h
  | string _ hs => exact (ha (hs.inString_of_concat he.symm)).elim

theorem Strings.of_append (h : Strings (a ++ text) rs) (hs : IsString a text) :
    ∃ rs', Strings a rs' ∧ rs = rs' ++ [⟨a, text⟩] := by
  generalize he : a ++ text = b at h
  cases h with
  | nil =>
    obtain ⟨rfl, rfl⟩ := List.append_eq_nil_iff.mp he
    exact (hs.append_ne rfl).elim
  | other h _ => exact (h.not_inString (hs.inString_of_concat he)).elim
  | string h hs' =>
    obtain ⟨rfl, rfl⟩ := hs'.unique hs he
    exact ⟨_, h, rfl⟩

theorem Strings.unique (h : Strings a rs) (h' : Strings a rs') : rs' = rs := by
  induction h generalizing rs' with
  | nil =>
    generalize he : [] = a at h'
    cases h' with
    | nil => rfl
    | other => simp at he
    | string _ hs => exact (hs.append_ne (by simp [List.append_eq_nil_iff.mp he.symm])).elim
  | other h _ ih => exact ih (h'.of_concat h.not_inString)
  | string _ hs ih =>
    obtain ⟨rs, hrs, rfl⟩ := h'.of_append hs
    rw [ih hrs]

/-- Before a place in a string there are strings, and the start of another one. -/
theorem exists_strings (a : List Char) : (¬ InString a → ∃ rs, Strings a rs) ∧
    (InString a → ∃ b text rs, a = b ++ text ∧ text ≠ [] ∧ Strings b rs ∧
      ∀ p, p <+: text → p ≠ [] → InString (b ++ p)) := by
  induction a using List.reverseRecOn with
  | nil => exact ⟨fun _ => ⟨[], .nil⟩, nofun⟩
  | append_singleton a c ih =>
    by_cases ha : InString a
    · obtain ⟨b, text, rs, rfl, hne, hb, hin⟩ := ih.2 ha
      constructor
      · intro hc
        refine ⟨rs ++ [⟨b, text ++ [c]⟩], ?_⟩
        rw [List.append_assoc]
        refine hb.string
          ⟨hb.not_inString, fun p hp hnil hall => ?_, by rwa [← List.append_assoc], ?_⟩
        · rcases List.prefix_concat_iff.mp hp with rfl | hp
          · exact (hall rfl).elim
          · exact hin p hp hnil
        · have := List.length_pos_iff.mpr hne
          simp
          omega
      · intro hc
        refine ⟨b, text ++ [c], rs, by simp, by simp, hb, fun p hp hnil => ?_⟩
        rcases List.prefix_concat_iff.mp hp with rfl | hp
        · rwa [← List.append_assoc]
        · exact hin p hp hnil
    · obtain ⟨rs, h⟩ := ih.1 ha
      refine ⟨fun hc => ⟨rs, h.other hc⟩,
        fun hc => ⟨a, [c], rs, rfl, by simp, h, fun p hp hnil => ?_⟩⟩
      rcases List.prefix_concat_iff.mp (show p <+: [] ++ [c] from hp) with rfl | hp
      · exact hc
      · exact (hnil (List.prefix_nil.mp hp)).elim

/-! What is kept of a source, as a source. -/

namespace State

/-- What is added to the text that is kept when the next character is read. -/
def added (s : State) (c : Char) : List Char :=
  match s.mode with
  | .code => if c = '/' then [] else [c]
  | .slash _ => if c = '/' then [] else if c = '*' then s.blanks 2 else ['/', c]
  | .string => [c]
  | .lineComment => if c = '\n' then [c] else []
  | .blockComment _ _ => if c = '\n' then [c] else s.blanks 1

theorem kept_feed (s : State) (c : Char) :
    (s.feed c).kept.reverse = s.kept.reverse ++ s.added c := by
  obtain ⟨mode, position, hasCode, kept⟩ := s
  cases mode <;> cases hasCode <;>
    simp only [feed, added, code, string, afterSlash, lineComment, blockComment] <;>
    (repeat' split) <;> simp_all [enter, keep, blank, blanks]

theorem keeps_blanks (s : State) (n : ℕ) : Keeps (· = .code) (· = .code) (s.blanks n) := by
  refine keeps_plain ?_ ?_ <;> unfold blanks <;> split <;> simp

theorem keeps_newline_of_string : Keeps (· = .string) (· = .code) ['\n'] := by
  intro s hm
  simp [feed, string, keep, enter, read, hm]

/-- What is added is read as the next character was, if that belongs to the code. -/
theorem keeps_added (s : State) (c : Char) :
    Keeps (· = s.mode.core) (· = (s.feed c).mode.core) (s.added c) := by
  have hplain (hs : c ≠ '/') (hq : c ≠ '"') : Keeps (· = .code) (· = .code) [c] :=
    keeps_plain (by simpa [eq_comm] using hs) (by simpa [eq_comm] using hq)
  have hblanks := s.keeps_blanks
  obtain ⟨mode, position, hasCode, kept⟩ := s
  cases mode with
  | code =>
    by_cases hs : c = '/'
    · simpa [added, feed, enter, Mode.core, hs] using Keeps.nil
    by_cases hq : c = '"'
    · subst hq
      exact keeps_openQuote.from_code
    · simpa [added, feed, code, enter, Mode.core, hs, hq] using hplain hs hq
  | slash p =>
    by_cases hs : c = '/'
    · simpa [added, feed, afterSlash, enter, Mode.core, hs] using Keeps.nil
    by_cases ha : c = '*'
    · simpa [added, feed, afterSlash, enter, Mode.core, ha] using hblanks 2
    by_cases hq : c = '"'
    · subst hq
      exact keeps_slash.append keeps_openQuote
    · simpa [added, feed, afterSlash, code, enter, Mode.core, hs, ha, hq] using
        keeps_slash.append (keeps_separator hs ha hq)
  | string =>
    by_cases hq : c = '"'
    · subst hq
      exact keeps_closeQuote
    by_cases hn : c = '\n'
    · subst hn
      exact keeps_newline_of_string
    · simpa [added, feed, string, enter, Mode.core, hq, hn] using keeps_inString hq hn
  | lineComment =>
    by_cases hn : c = '\n'
    · subst hn
      exact hplain (by decide) (by decide)
    · simpa [added, feed, lineComment, Mode.core, hn] using Keeps.nil
  | blockComment p star =>
    by_cases hn : c = '\n'
    · subst hn
      exact hplain (by decide) (by decide)
    · have hm : (feed ⟨.blockComment p star, position, hasCode, kept⟩ c).mode.core = .code := by
        simp only [feed, blockComment, hn, if_false]
        split <;> rfl
      have ha : added ⟨.blockComment p star, position, hasCode, kept⟩ c =
          blanks 1 ⟨.blockComment p star, position, hasCode, kept⟩ := by simp [added, hn]
      rw [hm, ha]
      exact hblanks 1

/-- The text that is kept leads where its source does, if that belongs to the code. -/
theorem keeps_kept (a : List Char) : Keeps (· = .code)
    (· = (a.foldl feed .initial).mode.core) (a.foldl feed .initial).kept.reverse := by
  induction a using List.reverseRecOn with
  | nil => exact Keeps.nil
  | append_singleton a c ih =>
    rw [List.foldl_concat, kept_feed]
    exact ih.append (keeps_added _ c)

/-- What leads to a string is a quote in the code. -/
theorem of_mode_feed_string (hs : s.mode ≠ .string) (h : (s.feed c).mode = .string) :
    c = '"' ∧ s.mode.InCode := by
  obtain ⟨mode, position, hasCode, kept⟩ := s
  cases mode <;>
    simp only [feed, code, string, afterSlash, lineComment, blockComment, enter] at h <;>
    (repeat' split at h) <;> simp_all [Mode.InCode]

theorem quote_notMem_added (hs : s.mode ≠ .string) (hf : (s.feed c).mode ≠ .string) :
    '"' ∉ s.added c := by
  have hblanks n : '"' ∉ s.blanks n := by
    unfold blanks
    split <;> simp
  obtain ⟨mode, position, hasCode, kept⟩ := s
  cases mode <;> simp only [added, feed, code, afterSlash, enter] at hf hblanks ⊢ <;>
    (repeat' split at hf) <;> (repeat' split) <;> simp_all [eq_comm]

end State

theorem not_inString_append (h : ¬ InString a) (hw : '"' ∉ w) : ¬ InString (a ++ w) := by
  induction w using List.reverseRecOn with
  | nil => rwa [List.append_nil]
  | append_singleton w c ih =>
    rw [List.mem_append, not_or] at hw
    intro hc
    rw [InString, ← List.append_assoc, List.foldl_concat] at hc
    obtain ⟨rfl, -⟩ := State.of_mode_feed_string (ih hw.1) hc
    simp at hw

theorem Strings.append (h : Strings a rs) (hw : '"' ∉ w) : Strings (a ++ w) rs := by
  induction w using List.reverseRecOn with
  | nil => rwa [List.append_nil]
  | append_singleton w c ih =>
    have hn := not_inString_append h.not_inString hw
    rw [List.mem_append, not_or] at hw
    rw [← List.append_assoc] at hn ⊢
    exact (ih hw.1).other hn

/-- What is kept of a source is in a string where the source is. -/
theorem inString_kept : InString (a.foldl State.feed .initial).kept.reverse ↔ InString a := by
  obtain ⟨hm, -⟩ := State.keeps_kept a .initial rfl
  rw [InString, hm, InString]
  cases (a.foldl State.feed .initial).mode <;> simp [Mode.core]

theorem State.exists_release (s : State) :
    ∃ w, '"' ∉ w ∧ s.release.kept.reverse = s.kept.reverse ++ w := by
  obtain ⟨mode, position, hasCode, kept⟩ := s
  cases mode with
  | slash => exact ⟨['/'], by simp, List.reverse_cons⟩
  | _ => exact ⟨[], by simp, (List.append_nil _).symm⟩

namespace IsString

variable {p : List Char}

theorem exists_cons (h : IsString a text) : ∃ body, text = '"' :: body ∧ body ≠ [] ∧
    (a.foldl State.feed .initial).mode.InCode := by
  have hlen := h.two_le
  rcases text with - | ⟨c, - | ⟨d, body⟩⟩
  · simp at hlen
  · simp at hlen
  · have hc := h.inside [c] ⟨d :: body, rfl⟩ (by simp) (by simp)
    rw [InString, List.foldl_concat] at hc
    obtain ⟨rfl, hm⟩ := State.of_mode_feed_string h.outside hc
    exact ⟨d :: body, rfl, by simp, hm⟩

/-- All of a string is kept. -/
theorem kept_append (h : IsString a text) (hp : p <+: text) (hne : p ≠ []) :
    ((a ++ p).foldl State.feed .initial).kept.reverse =
      (a.foldl State.feed .initial).release.kept.reverse ++ p := by
  induction p using List.reverseRecOn with
  | nil => exact (hne rfl).elim
  | append_singleton p c ih =>
    rw [← List.append_assoc, List.foldl_concat, State.kept_feed]
    by_cases hnil : p = []
    · subst hnil
      obtain ⟨body, rfl, -, hm⟩ := h.exists_cons
      obtain rfl : c = '"' := by simpa using hp
      rw [List.append_nil, List.nil_append]
      generalize a.foldl State.feed .initial = s at hm ⊢
      obtain ⟨mode, position, hasCode, kept⟩ := s
      cases mode with
      | code => rfl
      | slash => simp [State.added, State.release, State.keep, State.enter]
      | _ => exact hm.elim
    · have hp' : p <+: text := (List.prefix_append p [c]).trans hp
      have hproper : p ≠ text := by
        rintro rfl
        exact absurd hp.length_le (by simp)
      have hin : InString (a ++ p) := h.inside p hp' hnil hproper
      rw [ih hp' hnil, State.added, hin, List.append_assoc]

theorem kept (h : IsString a text) :
    IsString (a.foldl State.feed .initial).release.kept.reverse text := by
  refine ⟨?_, fun p hp hne hproper => ?_, ?_, h.two_le⟩
  · obtain ⟨w, hw, he⟩ := (a.foldl State.feed .initial).exists_release
    rw [he]
    exact not_inString_append (mt inString_kept.mp h.outside) hw
  · rw [← h.kept_append hp hne, inString_kept]
    exact h.inside p hp hne hproper
  · rw [← h.kept_append List.prefix_rfl h.ne_nil, inString_kept]
    exact h.ends

theorem strip_before (h : IsString a text) :
    strip a = .ok (a.foldl State.feed .initial).release.kept.reverse := by
  obtain ⟨-, -, -, hm⟩ := h.exists_cons
  refine State.finish_eq_ok_iff.mpr ⟨rfl, fun p star hb => ?_⟩
  rw [hb] at hm
  exact hm

end IsString

/-- The strings of a source stay as they are in what is kept, and no other ones come in. -/
def Kept (r k : Segment) : Prop := k.text = r.text ∧ strip r.before = .ok k.before

theorem Strings.kept (h : Strings a rs) : ∃ ks,
    Strings (a.foldl State.feed .initial).kept.reverse ks ∧ List.Forall₂ Kept rs ks := by
  induction h with
  | nil => exact ⟨[], .nil, .nil⟩
  | @other a c rs h hc ih =>
    obtain ⟨ks, hks, hkept⟩ := ih
    refine ⟨ks, ?_, hkept⟩
    rw [InString, List.foldl_concat] at hc
    rw [List.foldl_concat, State.kept_feed]
    exact hks.append (State.quote_notMem_added h.not_inString hc)
  | @string a text rs h hs ih =>
    obtain ⟨ks, hks, hkept⟩ := ih
    obtain ⟨w, hw, he⟩ := (a.foldl State.feed .initial).exists_release
    have hone : Kept ⟨a, text⟩ ⟨(a.foldl State.feed .initial).release.kept.reverse, text⟩ :=
      ⟨rfl, hs.strip_before⟩
    refine ⟨_, ?_, List.rel_append hkept (.cons hone .nil)⟩
    rw [hs.kept_append List.prefix_rfl hs.ne_nil]
    exact (he ▸ hks.append hw).string hs.kept

variable {k : List Char}

theorem Strings.of_strip (h : Strings a rs) (hk : strip a = .ok k) :
    ∃ ks, Strings k ks ∧ List.Forall₂ Kept rs ks := by
  obtain ⟨rfl, -⟩ := State.finish_eq_ok_iff.mp hk
  obtain ⟨ks, hks, hkept⟩ := h.kept
  obtain ⟨w, hw, he⟩ := (a.foldl State.feed .initial).exists_release
  exact ⟨ks, he ▸ hks.append hw, hkept⟩

/-- Before a string, what is kept has the line feeds of its source. -/
theorem IsString.line_eq (h : IsString a text) (hk : strip a = .ok k) :
    (placeAfter k).line = (placeAfter a).line := by
  obtain rfl := Except.ok.inj (h.strip_before.symm.trans hk)
  have hcount := State.count_foldl .initial a
  rw [placeAfter, placeAfter, List.count_reverse, State.count_release, hcount]
  simp [State.initial]

theorem newline_notMem_of_count (h : (a ++ w).count '\n' = a.count '\n') : '\n' ∉ w := by
  rw [List.count_append] at h
  exact List.count_eq_zero.mp (by omega)

/-- On a line that starts with code, a string stays in its column. -/
theorem IsString.column_eq {source : List Char} (h : IsString a text) (hp : a ++ text <+: source)
    (hc : CodeFirst source (placeAfter a).line) (hk : strip a = .ok k) :
    (placeAfter k).column = (placeAfter a).column := by
  obtain rfl := Except.ok.inj (h.strip_before.symm.trans hk)
  obtain ⟨body, rfl, -, hcode⟩ := h.exists_cons
  obtain ⟨quoted, x, c, b, rfl, hn, hx, hc, ho, hl, hb⟩ := hc
  obtain ⟨hm, hline⟩ := State.line_of_blank ho.free hx
  have hrelease {s : State} : (placeAfter s.release.kept.reverse).column =
      s.release.line.length + 1 := rfl
  rw [hrelease, placeAfter]
  rcases List.prefix_or_prefix_of_prefix ((List.prefix_append a _).trans hp)
    (List.prefix_append x (c :: b)) with ⟨w, rfl⟩ | ⟨w, rfl⟩
  · rcases w with - | ⟨d, w⟩
    · rw [List.append_nil] at hm hline hx
      rw [State.release_of_mode hm nofun, hline]
    · -- The quote would be a blank before the code of its line.
      rw [List.append_assoc, List.prefix_append_right_inj] at hp
      obtain rfl := (List.cons_prefix_cons.mp hp).1
      have hw := newline_notMem_of_count (Nat.succ.inj hn)
      rw [Text.lastLine_append hw] at hx
      cases hx '"' (by simp)
  · have hw := newline_notMem_of_count (Nat.succ.inj hn).symm
    rcases w with - | ⟨d, y⟩
    · rw [List.append_nil, State.release_of_mode hm nofun, hline]
    · rw [List.append_assoc, List.prefix_append_right_inj] at hp
      obtain ⟨rfl, hy⟩ := List.cons_prefix_cons.mp hp
      obtain ⟨rest, rfl⟩ := (List.prefix_append y _).trans hy
      have hstart := State.tracks_of_code hm (State.Coherent.initial.foldl x) hline hc hl hb
      have htracks := hstart.foldl fun hmem => hw (List.mem_cons_of_mem _ hmem)
      rw [← List.foldl_cons, ← List.foldl_append] at htracks
      obtain ⟨p, -, hover, hall⟩ := htracks.stands
      obtain rfl := hall fun hmode => by
        rw [hmode] at hcode
        exact hcode
      rw [← hover.length_eq, Text.lastLine_append hw, List.append_assoc, List.singleton_append]

/-- A string that a source leaves open is left open by what is kept. -/
theorem not_inString_of_strip (hk : strip a = .ok k) (h : ¬ InString k) : ¬ InString a := by
  intro ha
  obtain ⟨rfl, -⟩ := State.finish_eq_ok_iff.mp hk
  rw [State.release_of_mode ha nofun] at h
  exact h (inString_kept.mpr ha)

end RookLang.Comment
