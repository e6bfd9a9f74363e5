import Mathlib.Data.List.Induction
import RookLang.Proofs.CommentPlaces

/-! Where the text that removal of comments keeps stood in its source. On a line that starts with
code, before all comments, it stays in its columns. -/
namespace RookLang.Comment

/-- There is something that is not blank. -/
def HasInk (text : List Char) : Prop := ∃ c ∈ text, Character.isBlank c = false

/-- What is kept of a text, with spaces in the place of other characters. These come outside of
strings and after code only. -/
inductive Over : List Char → List Char → Prop
  | nil : Over [] []
  | same {p k} (h : Over p k) (c : Char) : Over (p ++ [c]) (k ++ [c])
  | blank {p k} (h : Over p k) (hk : Keeps (· = .code) (· = .code) k) (hi : HasInk k) (c : Char) :
    Over (p ++ [c]) (k ++ [' '])

variable {a b e k p r text u v x : List Char} {s : State} {c : Char} {quoted : Bool}

namespace Over

theorem refl (p : List Char) : Over p p := by
  induction p using List.reverseRecOn with
  | nil => exact .nil
  | append_singleton p c ih => exact ih.same c

theorem length_eq (h : Over p k) : p.length = k.length := by
  induction h with
  | nil => rfl
  | same _ c ih => simp [ih]
  | blank _ _ _ c ih => simp [ih]

theorem of_concat (h : Over p (k ++ [c])) : ∃ q d, p = q ++ [d] ∧ Over q k ∧
    (d ≠ c → c = ' ' ∧ Keeps (· = .code) (· = .code) k ∧ HasInk k) := by
  generalize hk : k ++ [c] = k' at h
  cases h with
  | nil => simp at hk
  | same h d =>
    obtain ⟨rfl, hd⟩ := List.append_inj' hk rfl
    obtain rfl := List.singleton_inj.mp hd
    exact ⟨_, _, rfl, h, fun hne => (hne rfl).elim⟩
  | blank h hk' hi d =>
    obtain ⟨rfl, hd⟩ := List.append_inj' hk rfl
    exact ⟨_, d, rfl, h, fun _ => ⟨List.singleton_inj.mp hd, hk', hi⟩⟩

theorem exists_suffix (h : Over p (u ++ x))
    (hx : ∀ y z, x = y ++ ' ' :: z → Keeps (· = .code) (· = .code) (u ++ y) → ¬ HasInk (u ++ y)) :
    ∃ u', p = u' ++ x ∧ u'.length = u.length := by
  induction x using List.reverseRecOn generalizing p with
  | nil => exact ⟨p, by simp, by simpa using h.length_eq⟩
  | append_singleton x c ih =>
    rw [← List.append_assoc] at h
    obtain ⟨q, d, rfl, hq, hd⟩ := h.of_concat
    obtain ⟨u', rfl, hu⟩ := ih hq fun y z ht => hx y (z ++ [c]) (by simp [ht])
    obtain rfl : d = c := by
      by_contra hne
      obtain ⟨rfl, hk, hi⟩ := hd hne
      exact hx x [] rfl hk hi
    exact ⟨u', by simp, hu⟩

/-- What is kept stood in the text, if no spaces in it came in the place of something else. -/
theorem exists_append (h : Over p (u ++ x ++ v))
    (hx : ∀ y z, x = y ++ ' ' :: z → Keeps (· = .code) (· = .code) (u ++ y) → ¬ HasInk (u ++ y)) :
    ∃ u' v', p = u' ++ x ++ v' ∧ u'.length = u.length := by
  induction v using List.reverseRecOn generalizing p with
  | nil =>
    rw [List.append_nil] at h
    obtain ⟨u', rfl, hu⟩ := h.exists_suffix hx
    exact ⟨u', [], by simp, hu⟩
  | append_singleton v c ih =>
    rw [← List.append_assoc] at h
    obtain ⟨q, d, rfl, hq, -⟩ := h.of_concat
    obtain ⟨u', v', rfl, hu⟩ := ih hq
    exact ⟨u', v' ++ [d], by simp, hu⟩

end Over

namespace State

theorem line_blank (h : s.hasCode) : s.blank.line = s.line ++ [' '] := by
  have hb : s.blank = s.keep ' ' := by simp [blank, keep, h]
  rw [hb, line_keep (by decide)]

theorem hasCode_blank : s.blank.hasCode = s.hasCode := by
  rw [blank_eq]

theorem Steady.hasInk {P : Mode → Prop} (h : s.Steady P) (hc : s.hasCode) : HasInk s.line := by
  simpa [HasInk, h.hasCode] using hc

theorem release_eq (h : ∀ p, s.mode ≠ .slash p) : s.release = s := by
  unfold release
  split
  · exact (h _ ‹_›).elim
  · rfl

theorem release_of_mode {m : Mode} (hm : s.mode = m) (h : ∀ p, m ≠ .slash p) : s.release = s :=
  release_eq fun p => hm ▸ h p

theorem feed_slash_of_code (hm : s.mode = .code) : s.feed '/' =
    { s.enter (.slash s.position) with position := s.position.after '/' } := by
  simp [feed, hm]

theorem feed_of_code (hm : s.mode = .code) (hc : c ≠ '/') :
    s.feed c = { s.code c with position := s.position.after c } := by
  simp [feed, hm, hc]

theorem Coherent.steady (h : s.Coherent) (hm : s.mode.core = .code) : s.Steady (· = .code) := by
  rwa [Coherent, hm] at h

theorem mode_code_ne_slash (s : State) (c : Char) (o : Position) : (s.code c).mode ≠ .slash o := by
  simp only [code, enter]
  split <;> simp

theorem hasCode_code (hn : c ≠ '\n') (h : s.hasCode ∨ Character.isBlank c = false) :
    (s.code c).hasCode := by
  simpa [code, keep, enter, hn] using h

theorem over_keep (h : Over p s.line) (hn : c ≠ '\n') : Over (p ++ [c]) (s.keep c).line := by
  rw [line_keep hn]
  exact h.same c

theorem over_blank (h : Over p s.line) (hs : s.Steady (· = .code)) (hc : s.hasCode) (c : Char) :
    Over (p ++ [c]) s.blank.line := by
  rw [line_blank hc]
  exact h.blank hs.keeps (hs.hasInk hc) c

/-- What is kept of a line, which goes on with `rest`, stands in its columns. -/
structure Tracks (line rest : List Char) (s : State) : Prop where
  coherent : s.Coherent
  hasCode : s.hasCode ∨ (∃ p, s.mode = .slash p) ∧ FreesSlash rest
  stands : ∃ p, p <+: line ∧ Over p s.release.line ∧ (s.mode ≠ .lineComment → p = line)

namespace Tracks

variable {line rest : List Char}

theorem of_over (h : s.Coherent) (hm : ∀ p, s.mode ≠ .slash p) (hc : s.hasCode)
    (ho : Over line s.line) : s.Tracks line rest :=
  ⟨h, .inl hc, line, List.prefix_rfl, by rwa [release_eq hm], fun _ => rfl⟩

/-- Outside of comments and after no slash, the whole line is kept. -/
theorem over_line (h : s.Tracks line rest) (hs : ∀ o, s.mode ≠ .slash o)
    (hl : s.mode ≠ .lineComment) : s.hasCode ∧ Over line s.line := by
  obtain ⟨-, hcode, p, -, hover, hline⟩ := h
  obtain rfl := hline hl
  rw [release_eq hs] at hover
  exact ⟨hcode.resolve_right fun ⟨⟨o, ho⟩, _⟩ => hs o ho, hover⟩

theorem feed_code (h : s.Tracks line (c :: rest)) (hn : c ≠ '\n') (hm : s.mode = .code) :
    (s.feed c).Tracks (line ++ [c]) rest := by
  obtain ⟨hc, hover⟩ := h.over_line (by simp [hm]) (by simp [hm])
  by_cases hs : c = '/'
  · subst hs
    have hf := feed_slash_of_code hm
    refine ⟨h.coherent.feed '/', .inl (by rwa [hf]), line ++ ['/'], List.prefix_rfl, ?_,
      fun _ => rfl⟩
    rw [hf]
    exact over_keep hover hn
  · refine of_over (h.coherent.feed c) ?_ ?_ ?_ <;> rw [feed_of_code hm hs]
    · exact mode_code_ne_slash s c
    · exact hasCode_code hn (.inl hc)
    · exact over_keep hover hn

theorem feed_slash {o : Position} (h : s.Tracks line (c :: rest)) (hn : c ≠ '\n')
    (hm : s.mode = .slash o) : (s.feed c).Tracks (line ++ [c]) rest := by
  obtain ⟨hcoh, hcode, p, -, hover, hline⟩ := h
  obtain rfl := hline (by simp [hm])
  have hr : s.release.line = s.line ++ ['/'] := by
    simp only [release, hm]
    exact line_keep (by decide)
  rw [hr] at hover
  obtain ⟨q, d, rfl, hq, hd⟩ := hover.of_concat
  obtain rfl : d = '/' := by
    by_contra hne
    exact absurd (hd hne).1 (by decide)
  have hf : s.feed c = { s.afterSlash o c with position := s.position.after c } := by
    simp [State.feed, hm]
  have hsteady := hcoh.steady (by rw [hm]; rfl)
  by_cases hs : c = '/'
  · have hc : s.hasCode := hcode.resolve_right fun h => (h.2 c rfl).1 hs
    subst hs
    have hf : s.feed '/' = { s.enter .lineComment with position := s.position.after '/' } := hf
    refine ⟨hcoh.feed '/', .inl (by rwa [hf]), q, ?_, by rwa [hf], ?_⟩
    · rw [List.append_assoc]
      exact List.prefix_append ..
    · exact fun h => (h (by rw [hf]; rfl)).elim
  by_cases ha : c = '*'
  · have hc : s.hasCode := hcode.resolve_right fun h => (h.2 c rfl).2 ha
    have hb : s.blank.hasCode := by rwa [hasCode_blank]
    subst ha
    have hf : s.feed '*' = { s.blank.blank.enter (.blockComment o false) with
        position := s.position.after '*' } := hf
    refine of_over (hcoh.feed '*') ?_ ?_ ?_ <;> rw [hf]
    · simp [State.enter]
    · rwa [← hasCode_blank] at hb
    · exact over_blank (over_blank hq hsteady hc '/') hsteady.blank hb '*'
  · simp only [afterSlash, hs, ha, if_false] at hf
    refine of_over (hcoh.feed c) ?_ ?_ ?_ <;> rw [hf]
    · exact mode_code_ne_slash (s.keep '/') c
    · exact hasCode_code hn (.inl (by simp [State.keep, Character.isBlank]))
    · exact over_keep (over_keep hq (by decide)) hn

theorem feed_string (h : s.Tracks line (c :: rest)) (hn : c ≠ '\n') (hm : s.mode = .string) :
    (s.feed c).Tracks (line ++ [c]) rest := by
  obtain ⟨hc, hover⟩ := h.over_line (by simp [hm]) (by simp [hm])
  have hf : s.feed c = { s.string c with position := s.position.after c } := by
    simp [State.feed, hm]
  refine of_over (h.coherent.feed c) ?_ ?_ ?_ <;> rw [hf]
  · intro q
    simp only [State.string, State.enter]
    split <;> simp
  · simp [State.string, State.enter, State.keep, hn, hc]
  · exact over_keep hover hn

theorem feed_lineComment (h : s.Tracks line (c :: rest)) (hn : c ≠ '\n')
    (hm : s.mode = .lineComment) : (s.feed c).Tracks (line ++ [c]) rest := by
  obtain ⟨hcoh, hcode, p, hp, hover, -⟩ := h
  have hf : s.feed c = { s with position := s.position.after c } := by
    simp [State.feed, State.lineComment, hm, hn]
  refine ⟨hcoh.feed c, ?_, p, hp.trans (List.prefix_append ..), ?_, ?_⟩ <;> rw [hf]
  · simpa [hm] using hcode
  · rw [release_eq (by simp [hm])] at hover
    rwa [release_eq (by simp [hm])]
  · exact fun h => (h hm).elim

theorem feed_blockComment {o : Position} {star : Bool} (h : s.Tracks line (c :: rest))
    (hn : c ≠ '\n') (hm : s.mode = .blockComment o star) :
    (s.feed c).Tracks (line ++ [c]) rest := by
  obtain ⟨hc, hover⟩ := h.over_line (by simp [hm]) (by simp [hm])
  have hsteady := h.coherent.steady (by rw [hm]; rfl)
  obtain ⟨m, hms, hf⟩ : ∃ m : Mode, (∀ q, m ≠ .slash q) ∧
      s.feed c = { s.blank.enter m with position := s.position.after c } := by
    simp only [State.feed, hm, State.blockComment, hn, if_false]
    split <;> refine ⟨_, fun q => ?_, rfl⟩ <;> simp
  refine of_over (h.coherent.feed c) ?_ ?_ ?_ <;> rw [hf]
  · exact hms
  · rwa [← hasCode_blank] at hc
  · exact over_blank hover hsteady hc c

theorem feed (h : s.Tracks line (c :: rest)) (hn : c ≠ '\n') :
    (s.feed c).Tracks (line ++ [c]) rest := by
  cases hm : s.mode with
  | code => exact h.feed_code hn hm
  | slash o => exact h.feed_slash hn hm
  | string => exact h.feed_string hn hm
  | lineComment => exact h.feed_lineComment hn hm
  | blockComment o star => exact h.feed_blockComment hn hm

theorem foldl (h : s.Tracks line (u ++ rest)) (hn : '\n' ∉ u) :
    (u.foldl State.feed s).Tracks (line ++ u) rest := by
  induction u generalizing s line with
  | nil => rwa [List.append_nil]
  | cons c u ih =>
    obtain ⟨hc, hn⟩ : c ≠ '\n' ∧ '\n' ∉ u := by simpa [eq_comm] using hn
    rw [List.append_cons]
    exact ih (h.feed hc) hn

end Tracks

theorem line_of_endsLine (ha : Text.EndsLine a) : (a.foldl feed .initial).line = [] ∧
    ((a.foldl feed .initial).mode = .code ∨
      ∃ p star, (a.foldl feed .initial).mode = .blockComment p star) := by
  obtain rfl | ha := ha
  · exact ⟨rfl, .inl rfl⟩
  obtain ⟨a, rfl⟩ := List.getLast?_eq_some_iff.mp ha
  rw [List.foldl_concat]
  obtain ⟨-, -, hk, hm⟩ := feed_newline (a.foldl feed .initial)
  obtain ⟨kept, hk⟩ := List.head?_eq_some_iff.mp hk
  rw [line, hk, List.reverse_cons]
  exact ⟨Text.lastLine_newline, hm⟩

theorem line_of_keeps {P : Mode → Prop} (h : Keeps P (· = .code) text) (hs : P s.mode)
    (hr : ∀ p, s.mode ≠ .slash p) (hn : '\n' ∉ text) :
    (text.foldl feed s).mode = .code ∧ (text.foldl feed s).line = s.line ++ text := by
  obtain ⟨hm, hk⟩ := h s hs
  rw [read_eq, read_eq, release_eq hr, release_eq (by simp [hm])] at hk
  refine ⟨hm, ?_⟩
  rw [line, hk, List.reverse_append, List.reverse_reverse, Text.lastLine_append hn]
  rfl

/-- Up to its first code, a line that has no comment before it is kept. -/
theorem line_of_blank (h : (a.foldl feed .initial).mode.Free b quoted)
    (ha : ∀ d ∈ Text.lastLine a, Character.isBlank d) :
    (a.foldl feed .initial).mode = .code ∧ (a.foldl feed .initial).line = Text.lastLine a := by
  have hne {c : Char} (hc : Character.isBlank c = false) : c ∉ Text.lastLine a := fun hm => by
    simp [ha c hm] at hc
  have hslash : '/' ∉ Text.lastLine a := hne rfl
  have hk : Keeps (· = .code) (· = .code) (Text.lastLine a) := keeps_plain hslash (hne rfl)
  have hn : '\n' ∉ Text.lastLine a := Text.newline_notMem_lastLine
  obtain ⟨x, hx, hend⟩ := Text.eq_append_lastLine a
  obtain ⟨hline, hm⟩ := line_of_endsLine hend
  generalize Text.lastLine a = y at hslash hk hn hx
  rw [hx, List.foldl_append] at h ⊢
  rcases hm with hm | ⟨p, star, hm⟩
  · simpa [hline] using line_of_keeps hk hm (by simp [hm]) hn
  · have hopen : ¬ ['*', '/'] <:+: (if star then ['*'] else []) ++ y := by
      intro h
      have hmem : '/' ∈ (if star then ['*'] else []) ++ y := h.subset (by simp)
      cases star <;> simp [hslash] at hmem
    obtain ⟨⟨star', hm'⟩, -⟩ := foldl_blockComment hm hopen
    rw [hm'] at h
    cases h

end State

/-- The first character of the line that is not blank is outside of comments. -/
def CodeFirst (source : List Char) (n : ℕ) : Prop :=
  ∃ quoted a c b, source = a ++ c :: b ∧ a.count '\n' + 1 = n ∧
    (∀ d ∈ Text.lastLine a, Character.isBlank d) ∧ Character.isBlank c = false ∧
    Outside quoted a (c :: b) ∧ ¬ ['/', '/'] <+: c :: b ∧ ¬ ['/', '*'] <+: c :: b

namespace State

theorem tracks_of_code (hm : s.mode = .code) (hs : s.Coherent) (hl : s.line = text)
    (hc : Character.isBlank c = false) (hll : ¬ ['/', '/'] <+: c :: b)
    (hb : ¬ ['/', '*'] <+: c :: b) : (s.feed c).Tracks (text ++ [c]) b := by
  have hn : c ≠ '\n' := by
    rintro rfl
    cases hc
  have hover : Over s.line s.line := .refl _
  subst hl
  by_cases h : c = '/'
  · subst h
    have hf := feed_slash_of_code hm
    refine ⟨hs.feed '/', .inr ⟨by rw [hf]; exact ⟨_, rfl⟩, fun d hd => ?_⟩, _, List.prefix_rfl, ?_,
      fun _ => rfl⟩
    · obtain ⟨b, rfl⟩ := List.head?_eq_some_iff.mp hd
      simpa [eq_comm] using And.intro hll hb
    · rw [hf]
      exact over_keep hover hn
  · refine .of_over (hs.feed c) ?_ ?_ ?_ <;> rw [feed_of_code hm h]
    · exact mode_code_ne_slash s c
    · exact hasCode_code hn (.inr hc)
    · exact over_keep hover hn

theorem kept_feed_newline (s : State) : (s.feed '\n').kept = '\n' :: s.release.kept := by
  obtain ⟨mode, position, hasCode, k⟩ := s
  cases mode <;> rfl

theorem count_release (s : State) : s.release.kept.count '\n' = s.kept.count '\n' := by
  unfold release
  split
  · exact List.count_cons_of_ne (by decide)
  · rfl

end State

/-- The line that is kept is done when the line of the source is. -/
theorem getElem?_pieces_of_strip (h : strip (a ++ b) = .ok text) (hb : ∀ c ∈ b.head?, c = '\n') :
    (Text.pieces text)[a.count '\n']? = some (a.foldl State.feed .initial).release.line := by
  have hcount := State.count_foldl .initial a
  rw [strip, List.foldl_append] at h
  generalize a.foldl State.feed .initial = s at h hcount ⊢
  obtain ⟨v, rfl, hv⟩ : ∃ v, text = s.release.kept.reverse ++ v ∧ ∀ c ∈ v.head?, c = '\n' := by
    cases b with
    | nil => exact ⟨[], by simpa using (State.finish_eq_ok_iff.mp h).1, by simp⟩
    | cons c b =>
      obtain rfl := hb c rfl
      have hself : (s.feed '\n').Beside (s.feed '\n').kept (s.feed '\n').kept (s.feed '\n') :=
        ⟨rfl, rfl, [], rfl, rfl⟩
      obtain ⟨v, rfl, -⟩ := (hself.foldl b).finish h
      rw [State.kept_feed_newline]
      exact ⟨'\n' :: v, by simp, by simp⟩
  have hk := Text.getElem?_pieces (a := s.release.kept.reverse) hv
  rwa [List.count_reverse, State.count_release, hcount, State.initial, List.count_nil,
    Nat.zero_add] at hk

/-- What is kept of a line that starts with code stands in its columns. -/
theorem CodeFirst.exists_over {source : List Char} {n : ℕ} (h : CodeFirst source n)
    (hs : strip source = .ok text) : ∃ p k v, (Text.pieces source)[n - 1]? = some (p ++ v) ∧
      (Text.pieces text)[n - 1]? = some k ∧ Over p k := by
  obtain ⟨quoted, a, c, b, rfl, rfl, ha, hc, ho, hl, hb⟩ := h
  obtain ⟨y, e, rfl, hy, he⟩ := Text.exists_line b
  have hn : '\n' ∉ c :: y := by
    rintro (_ | ⟨_, hm⟩)
    · cases hc
    · exact hy hm
  have hcount : (a ++ c :: y).count '\n' = a.count '\n' := by
    rw [List.count_append, List.count_eq_zero_of_not_mem hn, Nat.add_zero]
  have hline : Text.lastLine (a ++ c :: y) = Text.lastLine a ++ c :: y := Text.lastLine_append hn
  obtain ⟨hm, hblank⟩ := State.line_of_blank ho.free ha
  have ht := (State.tracks_of_code hm (State.Coherent.initial.foldl a) hblank hc hl hb).foldl hy
  rw [← List.cons_append, ← List.append_assoc] at hs ⊢
  have hsource := Text.getElem?_pieces (a := a ++ c :: y) he
  have hkept := getElem?_pieces_of_strip hs he
  rw [hcount] at hsource hkept
  rw [List.foldl_append, List.foldl_cons] at hkept
  obtain ⟨p, ⟨v, hv⟩, hover, -⟩ := ht.stands
  refine ⟨p, _, v, ?_, hkept, hover⟩
  rw [Nat.add_sub_cancel, hsource, hline, hv, List.append_assoc, List.singleton_append]

/-- No comment is dropped from the line before its column `m` has been passed: the line starts with
code, or up to there it is blank and outside of comments. -/
def Undropped (source : List Char) (n m : ℕ) : Prop :=
  CodeFirst source n ∨ ∃ quoted a b, source = a ++ b ∧ a.count '\n' + 1 = n ∧
    m ≤ (Text.lastLine a).length ∧ (∀ d ∈ Text.lastLine a, Character.isBlank d) ∧
    Outside quoted a b

theorem Undropped.mono {source : List Char} {n m m' : ℕ} (h : Undropped source n m)
    (hm : m' ≤ m) : Undropped source n m' := by
  refine h.imp_right ?_
  rintro ⟨quoted, a, b, ht, hn, hle, ha, ho⟩
  exact ⟨quoted, a, b, ht, hn, hm.trans hle, ha, ho⟩

/-- What is kept of a line stands in its columns, up to that before which no comment is dropped. -/
theorem Undropped.exists_over {source : List Char} {n m : ℕ} (h : Undropped source n m)
    (hs : strip source = .ok text) : ∃ p k v w, (Text.pieces source)[n - 1]? = some (p ++ v) ∧
      (Text.pieces text)[n - 1]? = some (k ++ w) ∧ Over p k ∧
        (w = [] ∨ v ≠ [] ∧ m ≤ k.length) := by
  obtain h | ⟨quoted, a, b, rfl, rfl, hm, ha, ho⟩ := h
  · obtain ⟨p, k, v, hp, hk, hover⟩ := h.exists_over hs
    exact ⟨p, k, v, [], hp, by rwa [List.append_nil], hover, .inl rfl⟩
  rw [Nat.add_sub_cancel]
  obtain ⟨hmode, hline⟩ := State.line_of_blank ho.free ha
  have hrelease : (a.foldl State.feed .initial).release.line = Text.lastLine a := by
    rw [State.release_of_mode hmode nofun, hline]
  obtain ⟨y, e, rfl, hy, he⟩ := Text.exists_line b
  have hcount {x y : List Char} (hy : '\n' ∉ y) : (x ++ y).count '\n' = x.count '\n' := by
    rw [List.count_append, List.count_eq_zero_of_not_mem hy, Nat.add_zero]
  have hsource := Text.getElem?_pieces (a := a ++ y) he
  rw [hcount hy, Text.lastLine_append hy, List.append_assoc] at hsource
  rcases y with - | ⟨c, y⟩
  · have hkept := getElem?_pieces_of_strip hs he
    rw [hrelease] at hkept
    exact ⟨_, _, [], [], hsource, by rwa [List.append_nil], .refl _, .inl rfl⟩
  · obtain ⟨u, v, hu, rfl, -⟩ := ho.exists_strip hs
    obtain ⟨hu, -⟩ := State.finish_eq_ok_iff.mp hu
    obtain ⟨z, e', rfl, hz, he'⟩ := Text.exists_line v
    have hucount : u.count '\n' = a.count '\n' := by
      rw [hu, List.count_reverse, State.count_release, State.count_foldl, State.initial,
        List.count_nil, Nat.zero_add]
    have huline : Text.lastLine u = Text.lastLine a := by
      rw [← hrelease, hu]
      rfl
    have hkept := Text.getElem?_pieces (a := u ++ z) he'
    rw [hcount hz, hucount, Text.lastLine_append hz, huline, List.append_assoc] at hkept
    exact ⟨_, _, c :: y, z, hsource, hkept, .refl _, .inr ⟨List.cons_ne_nil _ _, hm⟩⟩

/-! Comments that stay open. -/

theorem placeAfter_concat : placeAfter (text ++ [c]) = (placeAfter text).after c := by
  unfold placeAfter Position.after
  rw [List.count_append]
  split
  · subst c
    rw [Text.lastLine_newline]
    rfl
  · rw [Text.lastLine_append (by simpa [eq_comm] using ‹¬ c = '\n'›), List.length_append]
    simp_all

namespace State

theorem position_foldl (text : List Char) :
    (text.foldl feed .initial).position = placeAfter text := by
  induction text using List.reverseRecOn with
  | nil => rfl
  | append_singleton text c ih =>
    rw [List.foldl_concat, placeAfter_concat, ← ih]
    rfl

theorem of_mode_feed_slash {o : Position} (h : (s.feed c).mode = .slash o) :
    c = '/' ∧ o = s.position := by
  obtain ⟨mode, position, hasCode, kept⟩ := s
  cases mode <;>
    simp only [feed, code, string, afterSlash, lineComment, blockComment, enter] at h <;>
    (repeat' split at h) <;> simp_all

theorem of_mode_feed_blockComment {o : Position} {star : Bool}
    (h : (s.feed c).mode = .blockComment o star) :
    s.mode = .slash o ∧ c = '*' ∨ ∃ star', s.mode = .blockComment o star' := by
  obtain ⟨mode, position, hasCode, kept⟩ := s
  cases mode <;>
    simp only [feed, code, string, afterSlash, lineComment, blockComment, enter] at h <;>
    (repeat' split at h) <;> simp_all

theorem exists_of_slash {o : Position} (h : (text.foldl feed .initial).mode = .slash o) :
    ∃ a, text = a ++ ['/'] ∧ o = placeAfter a := by
  rcases List.eq_nil_or_concat' text with rfl | ⟨a, c, rfl⟩
  · cases h
  · rw [List.foldl_concat] at h
    obtain ⟨rfl, rfl⟩ := of_mode_feed_slash h
    exact ⟨a, rfl, position_foldl a⟩

theorem exists_of_blockComment {o : Position} {star : Bool}
    (h : (text.foldl feed .initial).mode = .blockComment o star) :
    ∃ a b, text = a ++ '/' :: '*' :: b ∧ o = placeAfter a := by
  induction text using List.reverseRecOn generalizing star with
  | nil => cases h
  | append_singleton text c ih =>
    rw [List.foldl_concat] at h
    rcases of_mode_feed_blockComment h with ⟨hm, rfl⟩ | ⟨star', hm⟩
    · obtain ⟨a, rfl, rfl⟩ := exists_of_slash hm
      exact ⟨a, [], by simp, rfl⟩
    · obtain ⟨a, b, rfl, ho⟩ := ih hm
      exact ⟨a, b ++ [c], by simp, ho⟩

end State

/-- A comment that stays open is reported where it opens. -/
theorem exists_of_strip_error {o : Position} (h : strip text = .error o) :
    ∃ a b, text = a ++ '/' :: '*' :: b ∧ o = placeAfter a := by
  cases hm : (text.foldl State.feed .initial).mode with
  | blockComment o' star =>
    obtain rfl : o' = o := by simpa [strip, State.finish, hm] using h
    exact State.exists_of_blockComment hm
  | _ => simp [strip, State.finish, hm] at h

end RookLang.Comment
