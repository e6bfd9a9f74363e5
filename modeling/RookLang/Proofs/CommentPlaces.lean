import RookLang.Proofs.Comments

/-! The places of a text that are outside of its comments: what removal of comments has kept before
such a place, and that another comment there leaves the rest as it is. -/
namespace RookLang.Comment

/-- Between `a` and `b` no comment is open; a string is if `quoted` holds. The end of a comment is
outside of it. -/
inductive Outside : Bool → List Char → List Char → Prop
  | start {b} : Outside false [] b
  | code {a c b} (h : Outside false a (c :: b)) (hq : c ≠ '"') (hl : ¬ ['/', '/'] <+: c :: b)
    (hb : ¬ ['/', '*'] <+: c :: b) : Outside false (a ++ [c]) b
  | openString {a b} (h : Outside false a ('"' :: b)) : Outside true (a ++ ['"']) b
  | string {a c b} (h : Outside true a (c :: b)) (hq : c ≠ '"') (hn : c ≠ '\n') :
    Outside true (a ++ [c]) b
  | closeString {a c b} (h : Outside true a (c :: b)) (hc : c = '"' ∨ c = '\n') :
    Outside false (a ++ [c]) b
  | lineComment {a body b} (h : Outside false a ('/' :: '/' :: body ++ b)) (hn : '\n' ∉ body)
    (hb : ∀ c ∈ b.head?, c = '\n') : Outside false (a ++ '/' :: '/' :: body) b
  | blockComment {a body b} (h : Outside false a ('/' :: '*' :: body ++ '*' :: '/' :: b))
    (hb : ¬ ['*', '/'] <:+: body) : Outside false (a ++ '/' :: '*' :: body ++ ['*', '/']) b

variable {a b w text u v k k' : List Char} {s t : State} {c : Char} {quoted : Bool} {m m' : Mode}

/-- The place of what comes after the text. -/
def placeAfter (text : List Char) : Position :=
  ⟨text.count '\n' + 1, (Text.lastLine text).length + 1⟩

/-- The comment with this text. -/
def block (text : List Char) : List Char := '/' :: '*' :: text ++ ['*', '/']

namespace State

/-- What stands in for `n` characters of a block comment. -/
def blanks (n : ℕ) (s : State) : List Char := if s.hasCode then List.replicate n ' ' else []

theorem blank_eq (s : State) : s.blank = { s with kept := s.blanks 1 ++ s.kept } := by
  obtain ⟨mode, position, hasCode, kept⟩ := s
  cases hasCode <;> rfl

theorem blanks_congr {n : ℕ} (h : s.hasCode = t.hasCode) : s.blanks n = t.blanks n := by
  rw [blanks, blanks, h]

theorem blanks_append {m n : ℕ} : s.blanks m ++ (s.blanks n ++ k) = s.blanks (n + m) ++ k := by
  unfold blanks
  split
  · rw [← List.append_assoc, List.replicate_append_replicate, Nat.add_comm]
  · rfl

theorem feed_blockComment {p : Position} {star : Bool} (hs : s.mode = .blockComment p star)
    (hc : ¬ (star ∧ c = '/')) : (s.feed c).mode = .blockComment p (c = '*') ∧ (c ≠ '\n' →
      (s.feed c).hasCode = s.hasCode ∧ (s.feed c).kept = s.blanks 1 ++ s.kept) := by
  by_cases hn : c = '\n'
  · subst hn
    simp [feed, hs, blockComment, enter]
  · have hc : (star && c = '/') = false := by simpa using hc
    simp [feed, hs, blockComment, enter, hn, hc, blank_eq]

/-- What does not close a comment at once does not close it later, after one more character. -/
theorem not_closing_cons {star : Bool}
    (hw : ¬ ['*', '/'] <:+: (if star then ['*'] else []) ++ c :: w) :
    ¬ (star ∧ c = '/') ∧ ¬ ['*', '/'] <:+: (if decide (c = '*') then ['*'] else []) ++ w := by
  constructor
  · rintro ⟨rfl, rfl⟩
    exact hw ⟨[], w, rfl⟩
  · refine fun h => hw (h.trans (List.IsSuffix.trans ?_ (List.suffix_append ..)).isInfix)
    split
    · rename_i he
      rw [of_decide_eq_true he]
      exact List.suffix_rfl
    · exact List.suffix_cons ..

/-- In a block comment it takes its end to leave it. -/
theorem foldl_blockComment {p : Position} {star : Bool} (hs : s.mode = .blockComment p star)
    (hw : ¬ ['*', '/'] <:+: (if star then ['*'] else []) ++ w) :
    (∃ star', (w.foldl feed s).mode = .blockComment p star') ∧ ('\n' ∉ w →
      (w.foldl feed s).hasCode = s.hasCode ∧
        (w.foldl feed s).kept = s.blanks w.length ++ s.kept) := by
  induction w generalizing s star with
  | nil =>
    refine ⟨⟨star, hs⟩, fun _ => ⟨rfl, ?_⟩⟩
    unfold blanks
    split <;> rfl
  | cons c w ih =>
    obtain ⟨hc, hw⟩ := not_closing_cons hw
    obtain ⟨hm, hk⟩ := feed_blockComment hs hc
    obtain ⟨hm, hw⟩ := ih hm hw
    refine ⟨hm, fun hn => ?_⟩
    obtain ⟨hc, hn⟩ : c ≠ '\n' ∧ '\n' ∉ w := by simpa [eq_comm] using hn
    obtain ⟨hh, hk⟩ := hk hc
    obtain ⟨hh', hk'⟩ := hw hn
    refine ⟨hh'.trans hh, hk'.trans ?_⟩
    rw [hk, blanks_congr hh, blanks_append, Nat.add_comm]
    rfl

theorem foldl_opening (hs : s.mode = .code) :
    (['/', '*'].foldl feed s).mode = .blockComment s.position false ∧
      (['/', '*'].foldl feed s).hasCode = s.hasCode ∧
      (['/', '*'].foldl feed s).kept = s.blanks 2 ++ s.kept := by
  obtain ⟨mode, position, hasCode, kept⟩ := s
  obtain rfl : mode = .code := hs
  cases hasCode <;> exact ⟨rfl, rfl, rfl⟩

theorem foldl_closing {p : Position} {star : Bool} (hs : s.mode = .blockComment p star) :
    (['*', '/'].foldl feed s).mode = .code ∧ (['*', '/'].foldl feed s).hasCode = s.hasCode ∧
      (['*', '/'].foldl feed s).kept = s.blanks 2 ++ s.kept := by
  obtain ⟨mode, position, hasCode, kept⟩ := s
  obtain rfl : mode = .blockComment p star := hs
  cases hasCode <;> cases star <;> exact ⟨rfl, rfl, rfl⟩

/-- A comment in the code leaves spaces if there is code before it, and nothing else. -/
theorem foldl_block (hs : s.mode = .code) (hw : ¬ ['*', '/'] <:+: w) :
    ((block w).foldl feed s).mode = .code ∧ ('\n' ∉ w →
      ((block w).foldl feed s).hasCode = s.hasCode ∧
        ((block w).foldl feed s).kept = s.blanks (w.length + 4) ++ s.kept) := by
  have hb : block w = ['/', '*'] ++ (w ++ ['*', '/']) := rfl
  rw [hb, List.foldl_append, List.foldl_append]
  obtain ⟨hm, hopen, hk⟩ := foldl_opening hs
  obtain ⟨⟨star, hm⟩, hw⟩ := foldl_blockComment hm hw
  obtain ⟨hm, hclose, hk'⟩ := foldl_closing hm
  refine ⟨hm, fun hn => ?_⟩
  obtain ⟨htext, hkw⟩ := hw hn
  refine ⟨hclose.trans (htext.trans hopen), hk'.trans ?_⟩
  rw [hkw, hk, blanks_congr (htext.trans hopen), blanks_congr hopen, blanks_append, blanks_append,
    Nat.add_comm 2, Nat.add_assoc]

theorem feed_slashes (hs : s.mode = .code) : ((s.feed '/').feed '/').mode = .lineComment := by
  obtain ⟨mode, position, hasCode, kept⟩ := s
  obtain rfl : mode = .code := hs
  rfl

/-- A comment at the end of a line is part of a comment that the line ends in. -/
theorem foldl_of_lineComment (hs : s.mode = .lineComment) (hn : '\n' ∉ text) :
    (text.foldl feed s).mode = .lineComment ∧ (text.foldl feed s).hasCode = s.hasCode ∧
      (text.foldl feed s).kept = s.kept := by
  induction text generalizing s with
  | nil => exact ⟨hs, rfl, rfl⟩
  | cons c text ih =>
    obtain ⟨hc, hn⟩ : c ≠ '\n' ∧ '\n' ∉ text := by simpa [eq_comm] using hn
    have hf : (s.feed c).mode = .lineComment ∧ (s.feed c).hasCode = s.hasCode ∧
        (s.feed c).kept = s.kept := by
      simp [feed, hs, lineComment, hc]
    obtain ⟨hm, hh, hk⟩ := ih hf.1 hn
    exact ⟨hm, hh.trans hf.2.1, hk.trans hf.2.2⟩

theorem finish_eq_ok_iff : s.finish = .ok text ↔
    text = s.release.kept.reverse ∧ ∀ p star, s.mode ≠ .blockComment p star := by
  obtain ⟨mode, position, hasCode, kept⟩ := s
  cases mode <;> simp [finish, release, keep, enter, eq_comm]

theorem kept_blank_subset (s : State) : s.blank.kept ⊆ ' ' :: s.kept := by
  unfold blank
  split <;> simp

/-- What is kept was read, or stands in for what was read. -/
theorem kept_feed_subset (s : State) (c : Char) : (s.feed c).kept ⊆ ' ' :: '/' :: c :: s.kept := by
  have hb := kept_blank_subset s
  have hbb := kept_blank_subset s.blank
  intro d
  unfold feed
  cases s.mode <;> grind [code, string, afterSlash, lineComment, blockComment, keep, enter]

theorem kept_foldl_subset (s : State) (text : List Char) :
    (text.foldl feed s).kept ⊆ ' ' :: '/' :: (text ++ s.kept) := by
  induction text generalizing s with
  | nil => simp
  | cons c text ih =>
    have hc := kept_feed_subset s c
    exact fun d hd => by grind [ih (s.feed c) hd]

end State

theorem subset_of_strip (h : strip text = .ok k) : k ⊆ ' ' :: '/' :: text := by
  obtain ⟨rfl, -⟩ := State.finish_eq_ok_iff.mp h
  have hk : _ ⊆ ' ' :: '/' :: (text ++ []) := State.kept_foldl_subset .initial text
  rw [List.append_nil] at hk
  unfold State.release
  intro d hd
  split at hd
  · have hd := List.mem_reverse.mp hd
    rcases List.mem_cons.mp hd with rfl | hd
    · simp
    · exact hk hd
  · exact hk (List.mem_reverse.mp hd)

/-- The modes in which places outside of comments are, before the text `b`. -/
inductive Mode.Free (b : List Char) : Bool → Mode → Prop
  | code : Free b false .code
  | slash {p} (h : FreesSlash b) : Free b false (.slash p)
  | lineComment (h : ∀ c ∈ b.head?, c = '\n') : Free b false .lineComment
  | string : Free b true .string

namespace Mode.Free

theorem feed_code (h : s.mode.Free (c :: b) false) (hq : c ≠ '"') (hl : ¬ ['/', '/'] <+: c :: b)
    (hb : ¬ ['/', '*'] <+: c :: b) : (s.feed c).mode.Free b false := by
  obtain ⟨mode, position, hasCode, kept⟩ := s
  cases h with
  | code =>
    by_cases hc : c = '/'
    · subst hc
      refine .slash fun d hd => ?_
      obtain ⟨b, rfl⟩ := List.head?_eq_some_iff.mp hd
      simpa [eq_comm] using And.intro hl hb
    · have hm : (State.feed ⟨.code, position, hasCode, kept⟩ c).mode = .code := by
        simp [State.feed, State.code, State.enter, hc, hq]
      rw [hm]
      exact .code
  | @slash p hf =>
    obtain ⟨hs, ha⟩ := hf c rfl
    have hm : (State.feed ⟨.slash p, position, hasCode, kept⟩ c).mode = .code := by
      simp [State.feed, State.afterSlash, State.code, State.enter, hs, ha, hq]
    rw [hm]
    exact .code
  | lineComment hn =>
    obtain rfl := hn c rfl
    exact .code

theorem feed_quote (h : s.mode.Free ('"' :: b) false) : (s.feed '"').mode = .string := by
  obtain ⟨mode, position, hasCode, kept⟩ := s
  cases h with
  | code | slash => rfl
  | lineComment hn => cases hn '"' rfl

theorem mode_eq_code (h : m.Free ('/' :: b) false) : m = .code := by
  cases h with
  | code => rfl
  | slash hf => exact ((hf '/' rfl).1 rfl).elim
  | lineComment hn => cases hn '/' rfl

theorem mode_eq_string (h : m.Free b true) : m = .string := by
  cases h
  rfl

end Mode.Free

theorem Outside.free (h : Outside quoted a b) :
    (a.foldl State.feed .initial).mode.Free b quoted := by
  induction h with
  | start => exact .code
  | code _ hq hl hb ih =>
    rw [List.foldl_concat]
    exact ih.feed_code hq hl hb
  | openString _ ih =>
    rw [List.foldl_concat, ih.feed_quote]
    exact .string
  | string _ hq hn ih =>
    rw [List.foldl_concat]
    simp only [State.feed, ih.mode_eq_string, State.string, State.enter, hq, hn]
    exact .string
  | closeString _ hc ih =>
    rw [List.foldl_concat]
    simp only [State.feed, ih.mode_eq_string, State.string, State.enter, hc]
    exact .code
  | lineComment _ hn hb ih =>
    rw [List.foldl_append, List.foldl_cons, List.foldl_cons,
      (State.foldl_of_lineComment (State.feed_slashes ih.mode_eq_code) hn).1]
    exact .lineComment hb
  | blockComment _ hb ih =>
    rw [List.append_assoc, List.foldl_append]
    have hm := (State.foldl_block ih.mode_eq_code hb).1
    rw [block] at hm
    rw [hm]
    exact .code

/-- The mode, without the place where a comment opens. -/
def Mode.unplaced : Mode → Mode
  | .slash _ => .slash ⟨1, 1⟩
  | .blockComment _ star => .blockComment ⟨1, 1⟩ star
  | m => m

/-- The mode, with another place where a comment opens. -/
def Mode.move (f : Position → Position) : Mode → Mode
  | .slash p => .slash (f p)
  | .blockComment p star => .blockComment (f p) star
  | m => m

theorem Mode.move_id : m.move id = m := by
  cases m <;> rfl

/-- Where a comment opens comes into the mode, but not into what is read. -/
theorem State.mode_feed_move {f : Position → Position} (hm : t.mode = s.mode.move f)
    (hp : t.position = f s.position) : (t.feed c).mode = (s.feed c).mode.move f := by
  obtain ⟨mode, position, hasCode, kept⟩ := s
  obtain ⟨mode', position', hasCode', kept'⟩ := t
  obtain rfl : mode' = mode.move f := hm
  obtain rfl : position' = f position := hp
  cases mode <;>
    simp only [Mode.move, feed, code, string, afterSlash, lineComment, blockComment, enter] <;>
    (repeat' split) <;> simp_all

/-- A line feed goes on in a comment that is open, and starts code otherwise. -/
theorem State.mode_feed_newline (s : State) : (s.feed '\n').mode =
    match s.mode with
    | .blockComment p _ => .blockComment p false
    | _ => .code := by
  obtain ⟨mode, position, hasCode, kept⟩ := s
  cases mode <;> simp [feed, code, string, afterSlash, lineComment, blockComment, keep, enter]

/-- The states read on in the same way, one after the text `k` and the other one after `k'`. -/
structure State.Beside (k k' : List Char) (s t : State) : Prop where
  mode : s.mode.unplaced = t.mode.unplaced
  hasCode : s.hasCode = t.hasCode
  kept : ∃ more, s.kept = more ++ k ∧ t.kept = more ++ k'

namespace State.Beside

theorem keep (h : s.Beside k k' t) (c : Char) : (s.keep c).Beside k k' (t.keep c) := by
  obtain ⟨more, hs, ht⟩ := h.kept
  refine ⟨h.mode, ?_, c :: more, congrArg (c :: ·) hs, congrArg (c :: ·) ht⟩
  simp only [State.keep, h.hasCode]

theorem blank (h : s.Beside k k' t) : s.blank.Beside k k' t.blank := by
  obtain ⟨more, hs, ht⟩ := h.kept
  rw [blank_eq, blank_eq]
  refine ⟨h.mode, h.hasCode, s.blanks 1 ++ more, ?_, ?_⟩
  · simp [hs]
  · simp [ht, blanks_congr h.hasCode]

theorem enter (h : s.Beside k k' t) (hm : m.unplaced = m'.unplaced) :
    (s.enter m).Beside k k' (t.enter m') :=
  ⟨hm, h.hasCode, h.kept⟩

theorem code (h : s.Beside k k' t) (c : Char) : (s.code c).Beside k k' (t.code c) :=
  (h.keep c).enter rfl

theorem codeOrSlash (h : s.Beside k k' t) (c : Char) : State.Beside k k'
    (if c = '/' then s.enter (.slash s.position) else s.code c)
    (if c = '/' then t.enter (.slash t.position) else t.code c) := by
  split
  · exact h.enter rfl
  · exact h.code c

theorem string (h : s.Beside k k' t) (c : Char) : (s.string c).Beside k k' (t.string c) :=
  (h.keep c).enter rfl

theorem afterSlash {p q : Position} (h : s.Beside k k' t) (c : Char) :
    (s.afterSlash p c).Beside k k' (t.afterSlash q c) := by
  unfold State.afterSlash
  split
  · exact h.enter rfl
  · split
    · exact h.blank.blank.enter rfl
    · exact (h.keep '/').code c

theorem lineComment (h : s.Beside k k' t) (c : Char) :
    (s.lineComment c).Beside k k' (t.lineComment c) := by
  unfold State.lineComment
  split
  · exact (h.keep c).enter rfl
  · exact h

theorem blockComment {p q : Position} {star : Bool} (h : s.Beside k k' t) (c : Char) :
    (s.blockComment p star c).Beside k k' (t.blockComment q star c) := by
  unfold State.blockComment
  split
  · exact (h.keep c).enter rfl
  · split
    · exact h.blank.enter rfl
    · exact h.blank.enter rfl

theorem feed (h : s.Beside k k' t) (c : Char) : (s.feed c).Beside k k' (t.feed c) := by
  have hm := h.mode
  suffices hn : ∀ {s' t' : State} {p q}, s'.Beside k k' t' →
      State.Beside k k' { s' with position := p } { t' with position := q } by
    unfold State.feed
    cases hs : s.mode <;> cases ht : t.mode <;>
      simp only [hs, ht, Mode.unplaced, reduceCtorEq] at hm
    case code.code => exact hn (h.codeOrSlash c)
    case slash.slash => exact hn (h.afterSlash c)
    case string.string => exact hn (h.string c)
    case lineComment.lineComment => exact hn (h.lineComment c)
    case blockComment.blockComment =>
      obtain ⟨-, rfl⟩ := Mode.blockComment.inj hm
      exact hn (h.blockComment c)
  exact fun h => ⟨h.mode, h.hasCode, h.kept⟩

theorem foldl (h : s.Beside k k' t) (text : List Char) :
    (text.foldl State.feed s).Beside k k' (text.foldl State.feed t) := by
  induction text generalizing s t with
  | nil => exact h
  | cons c text ih => exact ih (h.feed c)

theorem release (h : s.Beside k k' t) : s.release.Beside k k' t.release := by
  have hm := h.mode
  unfold State.release
  cases hs : s.mode <;> cases ht : t.mode <;> simp only [hs, ht, Mode.unplaced, reduceCtorEq] at hm
  case slash.slash => exact (h.keep '/').enter rfl
  all_goals exact h

theorem finish (h : s.Beside k k' t) (hs : s.finish = .ok text) :
    ∃ v, text = k.reverse ++ v ∧ t.finish = .ok (k'.reverse ++ v) := by
  obtain ⟨rfl, hne⟩ := finish_eq_ok_iff.mp hs
  obtain ⟨more, hk, hk'⟩ := h.release.kept
  refine ⟨more.reverse, ?_, finish_eq_ok_iff.mpr ⟨?_, fun p star ht => ?_⟩⟩
  · rw [hk, List.reverse_append]
  · rw [hk', List.reverse_append]
  · have hm := h.mode
    cases hs : s.mode <;> simp only [hs, ht, Mode.unplaced, reduceCtorEq] at hm
    exact hne _ _ hs

end State.Beside

/-- Where the code that is kept leads, in the place of a mode of the source. -/
def Mode.core : Mode → Mode
  | .string => .string
  | _ => .code

namespace State

/-- The line that is kept last. -/
def line (s : State) : List Char := Text.lastLine s.kept.reverse

/-- Removal of comments leads from the line that is kept last to the modes `P`, and the line tells
whether it holds code. -/
structure Steady (P : Mode → Prop) (s : State) : Prop where
  keeps : Keeps (· = .code) P s.line
  hasCode : s.hasCode = s.line.any (!Character.isBlank ·)

/-- The line that is kept last leads to the mode that was reached. -/
def Coherent (s : State) : Prop := s.Steady (· = s.mode.core)

theorem line_keep (hc : c ≠ '\n') : (s.keep c).line = s.line ++ [c] := by
  have h : '\n' ∉ [c] := by simpa [eq_comm] using hc
  simpa [line, State.keep] using Text.lastLine_append h

theorem line_keep_newline : (s.keep '\n').line = [] := by
  simpa [line, State.keep] using Text.lastLine_newline

namespace Steady

variable {P Q : Mode → Prop}

theorem keep (h : s.Steady P) (hc : c ≠ '\n' → Keeps P Q [c]) (hn : c = '\n' → Q .code) :
    (s.keep c).Steady Q := by
  by_cases hnl : c = '\n'
  · subst hnl
    refine ⟨?_, ?_⟩ <;> rw [line_keep_newline]
    · exact fun s hs => ⟨hs ▸ hn rfl, rfl⟩
    · rfl
  · refine ⟨?_, ?_⟩ <;> rw [line_keep hnl]
    · exact h.keeps.append (hc hnl)
    · rw [List.any_append, ← h.hasCode]
      simp [State.keep, hnl]

theorem blank (h : s.Steady (· = .code)) : s.blank.Steady (· = .code) := by
  by_cases hc : s.hasCode
  · have hb : s.blank = s.keep ' ' := by
      simp [State.blank, State.keep, hc]
    rw [hb]
    exact h.keep (fun _ => keeps_plain (by decide) (by decide)) (by simp)
  · have hb : s.blank = s := by simp [State.blank, hc]
    rwa [hb]

theorem enter (h : s.Steady P) : (s.enter m).Steady P := ⟨h.keeps, h.hasCode⟩

/-- A character outside of strings and comments. -/
theorem code (h : s.Steady P) (hc : c ≠ '\n' → c ≠ '"' → Keeps P (· = .code) [c])
    (hq : Keeps P (· = .string) ['"']) : (s.code c).Coherent := by
  refine enter (h.keep (fun hn => ?_) (fun hn => ?_))
  · by_cases hcq : c = '"'
    · subst hcq
      exact hq
    · simpa [State.code, State.enter, Mode.core, hcq] using hc hn hcq
  · subst hn
    rfl

theorem codeOrSlash (h : s.Steady (· = .code)) (c : Char) :
    (if c = '/' then s.enter (.slash s.position) else s.code c).Coherent := by
  split
  · exact h.enter
  · rename_i hs
    refine h.code (fun _ hq => keeps_plain ?_ ?_) keeps_openQuote.from_code <;>
      simp [eq_comm, hs, hq]

theorem afterSlash (h : s.Steady (· = .code)) (p : Position) (c : Char) :
    (s.afterSlash p c).Coherent := by
  unfold State.afterSlash
  split
  · exact h.enter
  · split
    · exact h.blank.blank.enter
    · exact (h.keep (fun _ => keeps_slash) nofun).code (fun _ hq => keeps_separator ‹_› ‹_› hq)
        keeps_openQuote

theorem string (h : s.Steady (· = .string)) (c : Char) :
    (s.string c).Coherent := by
  refine enter (h.keep (fun hn => ?_) (fun hn => ?_))
  · by_cases hq : c = '"'
    · subst hq
      exact keeps_closeQuote
    · simpa [State.string, State.enter, Mode.core, hq, hn] using keeps_inString hq hn
  · subst hn
    rfl

theorem lineComment (h : s.Steady (· = .code)) (c : Char) (hm : s.mode = .lineComment) :
    (s.lineComment c).Coherent := by
  unfold State.lineComment
  split
  · exact (h.keep (Q := (· = .code)) (fun hn => (hn ‹_›).elim) fun _ => rfl).enter
  · rw [Coherent, hm]
    exact h

theorem blockComment (h : s.Steady (· = .code)) (p : Position) (star : Bool) (c : Char) :
    (s.blockComment p star c).Coherent := by
  unfold State.blockComment
  split
  · exact (h.keep (Q := (· = .code)) (fun hn => (hn ‹_›).elim) fun _ => rfl).enter
  · split
    · exact h.blank.enter
    · exact h.blank.enter

end Steady

namespace Coherent

theorem initial : Coherent .initial := ⟨Keeps.nil, rfl⟩

theorem feed (h : s.Coherent) (c : Char) : (s.feed c).Coherent := by
  suffices hn : ∀ {t : State} {p}, t.Coherent → State.Coherent { t with position := p } by
    unfold Coherent at h
    unfold State.feed
    cases hm : s.mode <;> rw [hm] at h
    case code => exact hn (h.codeOrSlash c)
    case slash p => exact hn (h.afterSlash p c)
    case string => exact hn (h.string c)
    case lineComment => exact hn (h.lineComment c hm)
    case blockComment p star => exact hn (h.blockComment p star c)
  exact fun h => ⟨h.keeps, h.hasCode⟩

theorem foldl (h : s.Coherent) (text : List Char) : (text.foldl State.feed s).Coherent := by
  induction text generalizing s with
  | nil => exact h
  | cons c text ih => exact ih (h.feed c)

end Coherent

end State

/-- Another comment changes no more than how many spaces are kept. -/
theorem State.beside_block (hs : s.mode = .code ∨ s.mode = .lineComment) (hn : '\n' ∉ w)
    (hw : ¬ ['*', '/'] <:+: w) : ∃ n,
      s.Beside s.kept (List.replicate n ' ' ++ s.kept) ((block w).foldl feed s) ∧
        (n ≠ 0 → s.hasCode) := by
  rcases hs with hs | hs
  · obtain ⟨hm, h⟩ := foldl_block hs hw
    obtain ⟨hh, hk⟩ := h hn
    refine ⟨if s.hasCode then w.length + 4 else 0, ⟨?_, hh.symm, [], rfl, ?_⟩, ?_⟩
    · rw [hs, hm]
    · rw [hk, blanks]
      split <;> rfl
    · simp
  · have hb : '\n' ∉ block w := by simpa [block] using hn
    obtain ⟨hm, hh, hk⟩ := foldl_of_lineComment hs hb
    exact ⟨0, ⟨by rw [hs, hm], hh.symm, [], rfl, hk⟩, by simp⟩

theorem Mode.Free.foldl_release (h : s.mode.Free b quoted) :
    (b.foldl State.feed s.release).finish = (b.foldl State.feed s).finish := by
  cases b with
  | nil => exact State.finish_release
  | cons c b =>
    by_cases hf : FreesSlash (c :: b)
    · rw [State.foldl_release hf]
    · obtain ⟨mode, position, hasCode, kept⟩ := s
      cases h with
      | slash h => exact (hf h).elim
      | _ => rfl

/-- The line that is kept tells whether a string is open. -/
theorem Mode.Free.of_keeps (h : s.mode.Free b quoted) (hc : s.Coherent)
    (hk : Keeps (· = .code) Mode.InCode (Text.lastLine s.release.kept.reverse))
    (hl : s.release.kept.reverse.getLast? ≠ some '/') :
    (s.mode = .code ∨ s.mode = .lineComment) ∧ s.release = s := by
  obtain ⟨mode, position, hasCode, kept⟩ := s
  cases h with
  | code => exact ⟨.inl rfl, rfl⟩
  | slash => simp [State.release, State.keep, State.enter] at hl
  | lineComment => exact ⟨.inr rfl, rfl⟩
  | string =>
    have hk : Keeps (· = .code) Mode.InCode (Text.lastLine kept.reverse) := hk
    have hs : Keeps (· = .code) (· = .string) (Text.lastLine kept.reverse) := hc.keeps
    have hm := (hk .initial rfl).1
    rw [(hs .initial rfl).1] at hm
    exact hm.elim

/-- Removal of comments keeps a text before a place outside of comments and one after it. A comment
that comes in there adds spaces at most, and none before the code of a line. -/
theorem Outside.exists_strip (h : Outside quoted a b) (hs : strip (a ++ b) = .ok text) :
    ∃ u v, strip a = .ok u ∧ text = u ++ v ∧ ∀ w, '\n' ∉ w → ¬ ['*', '/'] <:+: w →
      Keeps (· = .code) Mode.InCode (Text.lastLine u) → u.getLast? ≠ some '/' →
      ∃ n, strip (a ++ block w ++ b) = .ok (u ++ List.replicate n ' ' ++ v) ∧
        (n ≠ 0 → ∃ c ∈ Text.lastLine u, Character.isBlank c = false) := by
  have hfree := h.free
  have hcoh := State.Coherent.initial.foldl a
  rw [strip, List.foldl_append] at hs
  simp only [strip, List.foldl_append]
  generalize a.foldl State.feed .initial = s at hs hfree hcoh ⊢
  rw [← hfree.foldl_release] at hs
  have hself : s.release.Beside s.release.kept s.release.kept s.release := ⟨rfl, rfl, [], rfl, rfl⟩
  obtain ⟨v, rfl, hv⟩ := (hself.foldl b).finish hs
  refine ⟨_, v, State.finish_eq_ok_iff.mpr ⟨rfl, ?_⟩, rfl, fun w hn hw hk hl => ?_⟩
  · rintro p star hm
    rw [hm] at hfree
    cases hfree
  obtain ⟨hm, hr⟩ := hfree.of_keeps hcoh hk hl
  rw [hr] at hs hk ⊢
  obtain ⟨n, hb, hc⟩ := State.beside_block hm hn hw
  obtain ⟨v', hv', hf⟩ := (hb.foldl b).finish hs
  obtain rfl := List.append_cancel_left hv'
  refine ⟨n, ?_, fun hne => ?_⟩
  · rw [hf]
    simp
  · have := hcoh.hasCode.symm.trans (hc hne)
    simpa [State.line] using this

end RookLang.Comment
