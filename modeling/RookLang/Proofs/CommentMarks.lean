import RookLang.Layout
import RookLang.Proofs.CommentColumns
import RookLang.Proofs.Spans

/-! What removal of comments keeps, in two steps without a state. First each character of a source
is marked as code or as part of a comment; then the marks tell what is kept of the characters. -/
namespace RookLang

namespace Comment

/-- What a character of a source belongs to. -/
inductive Mark where
  | code | lineComment | blockComment
  deriving DecidableEq, Repr

/-- The characters of a source with their marks. -/
abbrev Marked := List (Char × Mark)

def marked (m : Mark) (text : List Char) : Marked := text.map (·, m)

/-- A text before `rest` that leads from a place outside of strings and comments to the next one. A
string ends at a quote or with its line, a block comment where it is closed for the first time. -/
inductive Part : List Char → List Char → Mark → Prop
  | code {c rest} (hq : c ≠ '"') (hl : ¬ ['/', '/'] <+: c :: rest)
    (hb : ¬ ['/', '*'] <+: c :: rest) : Part [c] rest .code
  | string {body c rest} (hb : ∀ d ∈ body, d ≠ '"' ∧ d ≠ '\n') (hc : c = '"' ∨ c = '\n') :
    Part ('"' :: body ++ [c]) rest .code
  | lineComment {body rest} (hn : '\n' ∉ body) (hr : ∀ c ∈ rest.head?, c = '\n') :
    Part ('/' :: '/' :: body) rest .lineComment
  | blockComment {body rest} (hb : ¬ ['*', '/'] <:+: body) :
    Part ('/' :: '*' :: body ++ ['*', '/']) rest .blockComment

/-- The marks of a source, and what stands before a block comment that it does not close, if there
is one. -/
inductive Marks : List Char → Marked → Option (List Char) → Prop
  | nil : Marks [] [] none
  | part {text rest m ms opened} (hp : Part text rest m) (h : Marks rest ms opened) :
    Marks (text ++ rest) (marked m text ++ ms) (opened.map (text ++ ·))
  | openString {body} (hb : ∀ d ∈ body, d ≠ '"' ∧ d ≠ '\n') :
    Marks ('"' :: body) (marked .code ('"' :: body)) none
  | openComment {body} (hb : ¬ ['*', '/'] <:+: body) :
    Marks ('/' :: '*' :: body) (marked .blockComment ('/' :: '*' :: body)) (some [])

/-- The line that `before` ends in has code that is not blank. -/
def codeBefore (before : Marked) : Bool :=
  (before.reverse.takeWhile (·.1 ≠ '\n')).any fun (c, m) => m = .code && !Character.isBlank c

/-- What is kept of a character that comes after `before`. -/
def keptOf (before : Marked) : Char × Mark → List Char
  | (c, .code) => [c]
  | (_, .lineComment) => []
  | (c, .blockComment) => if c = '\n' then ['\n'] else if codeBefore before then [' '] else []

def keptAfter (before : Marked) : Marked → List Char
  | [] => []
  | x :: ms => keptOf before x ++ keptAfter (before ++ [x]) ms

/-- What is kept of a source that is marked. -/
def kept (ms : Marked) : List Char := keptAfter [] ms

variable {a b body rest rest' text text' : List Char} {m m' : Mark} {ms ms' ns before : Marked}
  {opened opened' : Option (List Char)} {s t u : State} {c : Char}

theorem map_marked : (marked m text).map Prod.fst = text := by
  simp [marked, Function.comp_def]

theorem Marks.map_fst (h : Marks a ms opened) : ms.map Prod.fst = a := by
  induction h with
  | nil => rfl
  | part _ _ ih => rw [List.map_append, map_marked, ih]
  | openString => exact map_marked
  | openComment => exact map_marked

/-- What stands before the comment that is not closed. -/
theorem Marks.eq_append (h : Marks b ms opened) (ha : a ∈ opened) :
    ∃ body, b = a ++ '/' :: '*' :: body := by
  induction h generalizing a with
  | nil => cases ha
  | @part text rest m ms opened _ _ ih =>
    obtain ⟨a, ho, rfl⟩ := Option.map_eq_some_iff.mp ha
    obtain ⟨body, rfl⟩ := ih ho
    exact ⟨body, by simp⟩
  | openString => cases ha
  | @openComment body =>
    obtain rfl := Option.some.inj ha
    exact ⟨body, rfl⟩

/-! Every source is marked, in one way. -/

theorem exists_string (text : List Char) : (∀ d ∈ text, d ≠ '"' ∧ d ≠ '\n') ∨
    ∃ body c rest, text = body ++ c :: rest ∧ (∀ d ∈ body, d ≠ '"' ∧ d ≠ '\n') ∧
      (c = '"' ∨ c = '\n') := by
  induction text with
  | nil => exact .inl nofun
  | cons c text ih =>
    by_cases hc : c = '"' ∨ c = '\n'
    · exact .inr ⟨[], c, text, rfl, nofun, hc⟩
    · have hc : c ≠ '"' ∧ c ≠ '\n' := not_or.mp hc
      rcases ih with h | ⟨body, d, rest, rfl, hb, hd⟩
      · exact .inl (List.forall_mem_cons.mpr ⟨hc, h⟩)
      · exact .inr ⟨c :: body, d, rest, rfl, List.forall_mem_cons.mpr ⟨hc, hb⟩, hd⟩

/-- What closes a comment does so at one place first. -/
theorem exists_closing (h : ['*', '/'] <:+: text) : ∃ body rest,
    text = body ++ '*' :: '/' :: rest ∧ ¬ ['*', '/'] <:+: body := by
  induction text with
  | nil => simp at h
  | cons c text ih =>
    by_cases hp : ['*', '/'] <+: c :: text
    · obtain ⟨rest, hp⟩ := hp
      exact ⟨[], rest, hp.symm, by simp⟩
    · obtain ⟨body, rest, rfl, hb⟩ := ih ((List.infix_cons_iff.mp h).resolve_left hp)
      refine ⟨c :: body, rest, rfl, fun hi => ?_⟩
      rcases List.infix_cons_iff.mp hi with hi | hi
      · exact hp (hi.trans (List.prefix_append (c :: body) _))
      · exact hb hi

theorem exists_part (c : Char) (b : List Char) :
    (∃ text rest m, c :: b = text ++ rest ∧ rest.length ≤ b.length ∧ Part text rest m) ∨
      (∃ body, c :: b = '"' :: body ∧ ∀ d ∈ body, d ≠ '"' ∧ d ≠ '\n') ∨
      ∃ body, c :: b = '/' :: '*' :: body ∧ ¬ ['*', '/'] <:+: body := by
  by_cases hq : c = '"'
  · subst hq
    rcases exists_string b with hb | ⟨body, d, rest, rfl, hb, hd⟩
    · exact .inr (.inl ⟨b, rfl, hb⟩)
    · refine .inl ⟨'"' :: body ++ [d], rest, .code, by simp, by simp; omega, .string hb hd⟩
  by_cases hl : ['/', '/'] <+: c :: b
  · obtain ⟨b, hl⟩ := hl
    obtain ⟨rfl, rfl⟩ := List.cons.inj hl
    obtain ⟨line, rest, rfl, hn, hr⟩ := Text.exists_line b
    exact .inl ⟨'/' :: '/' :: line, rest, .lineComment, by simp, by simp; omega, .lineComment hn hr⟩
  by_cases hb : ['/', '*'] <+: c :: b
  · obtain ⟨b, hb⟩ := hb
    obtain ⟨rfl, rfl⟩ := List.cons.inj hb
    by_cases hi : ['*', '/'] <:+: b
    · obtain ⟨body, rest, rfl, hbody⟩ := exists_closing hi
      exact .inl ⟨'/' :: '*' :: body ++ ['*', '/'], rest, .blockComment, by simp, by simp; omega,
        .blockComment hbody⟩
    · exact .inr (.inr ⟨b, rfl, hi⟩)
  · exact .inl ⟨[c], b, .code, rfl, Nat.le_refl _, .code hq hl hb⟩

theorem exists_marks (b : List Char) : ∃ ms opened, Marks b ms opened := by
  induction hn : b.length using Nat.strong_induction_on generalizing b with
  | _ n ih =>
    cases b with
    | nil => exact ⟨_, _, .nil⟩
    | cons c b =>
      rcases exists_part c b with ⟨text, rest, m, he, hr, hp⟩ | ⟨body, he, hb⟩ | ⟨body, he, hb⟩
      · rw [he]
        obtain ⟨ms, opened, h⟩ := ih rest.length (by simp at hn; omega) rest rfl
        exact ⟨_, _, .part hp h⟩
      · rw [he]
        exact ⟨_, _, .openString hb⟩
      · rw [he]
        exact ⟨_, _, .openComment hb⟩

/-- The characters before the first one that `p` does not hold of. -/
theorem takeWhile_eq {p : Char → Bool} (ha : ∀ d ∈ a, p d) (hr : ∀ d ∈ rest.head?, p d = false) :
    (a ++ rest).takeWhile p = a := by
  rw [List.takeWhile_append_of_pos ha]
  cases rest with
  | nil => rw [List.takeWhile_nil, List.append_nil]
  | cons c rest => rw [List.takeWhile_cons_of_neg (by simp [hr c rfl]), List.append_nil]

theorem string_unique {c' : Char} (h : body ++ c :: rest = text ++ c' :: rest')
    (hb : ∀ d ∈ body, d ≠ '"' ∧ d ≠ '\n') (ht : ∀ d ∈ text, d ≠ '"' ∧ d ≠ '\n')
    (hc : c = '"' ∨ c = '\n') (hc' : c' = '"' ∨ c' = '\n') : body = text ∧ c = c' := by
  have hp := congrArg (List.takeWhile fun d => decide (d ≠ '"' ∧ d ≠ '\n')) h
  rw [takeWhile_eq (by simpa using hb) (by rintro _ ⟨⟩; rcases hc with rfl | rfl <;> rfl),
    takeWhile_eq (by simpa using ht) (by rintro _ ⟨⟩; rcases hc' with rfl | rfl <;> rfl)] at hp
  subst hp
  exact ⟨rfl, (List.cons.inj (List.append_cancel_left h)).1⟩

theorem line_unique (h : body ++ rest = text ++ rest') (hb : '\n' ∉ body) (ht : '\n' ∉ text)
    (hr : ∀ c ∈ rest.head?, c = '\n') (hr' : ∀ c ∈ rest'.head?, c = '\n') : body = text := by
  have hne {x : List Char} (hx : '\n' ∉ x) : ∀ d ∈ x, decide (d ≠ '\n') = true := fun d hd =>
    decide_eq_true fun he => hx (he ▸ hd)
  have hp := congrArg (List.takeWhile fun d => decide (d ≠ '\n')) h
  rwa [takeWhile_eq (hne hb) (by simpa using hr), takeWhile_eq (hne ht) (by simpa using hr')] at hp

theorem prefix_of_block (h : body ++ '*' :: '/' :: rest = text ++ '*' :: '/' :: rest')
    (ht : ¬ ['*', '/'] <:+: text) : text <+: body := by
  rcases List.append_eq_append_iff.mp h with ⟨w, rfl, hw⟩ | ⟨w, rfl, -⟩
  · -- What is longer than `body` has its end in it.
    rcases w with - | ⟨x, - | ⟨y, w⟩⟩
    · simp
    · simp at hw
    · obtain ⟨rfl, rfl, -⟩ : '*' = x ∧ '/' = y ∧ _ := by simpa using hw
      exact (ht ⟨body, w, by simp⟩).elim
  · exact List.prefix_append ..

theorem block_unique (h : body ++ '*' :: '/' :: rest = text ++ '*' :: '/' :: rest')
    (hb : ¬ ['*', '/'] <:+: body) (ht : ¬ ['*', '/'] <:+: text) : body = text :=
  (prefix_of_block h.symm hb).eq_of_length_le (prefix_of_block h ht).length_le

theorem Part.unique (h : Part text rest m) (h' : Part text' rest' m')
    (he : text ++ rest = text' ++ rest') : text = text' ∧ m = m' := by
  cases h with
  | code hq hl hb =>
    cases h' with
    | code => exact ⟨congrArg ([·]) (List.cons.inj he).1, rfl⟩
    | string => exact (hq (List.cons.inj he).1).elim
    | lineComment => exact (hl ⟨_, he.symm⟩).elim
    | blockComment => exact (hb ⟨_, he.symm⟩).elim
  | @string body c _ hb hc =>
    cases h' with
    | code hq => exact (hq (List.cons.inj he).1.symm).elim
    | @string text c' _ hb' hc' =>
      obtain ⟨rfl, rfl⟩ := string_unique (by simpa using he) hb hb' hc hc'
      exact ⟨rfl, rfl⟩
    | lineComment => simp at he
    | blockComment => simp at he
  | lineComment hn hr =>
    cases h' with
    | code _ hl => exact (hl ⟨_, he⟩).elim
    | string => simp at he
    | lineComment hn' hr' =>
      obtain rfl := line_unique (by simpa using he) hn hn' hr hr'
      exact ⟨rfl, rfl⟩
    | blockComment => simp at he
  | blockComment hb =>
    cases h' with
    | code _ _ hb' => exact (hb' ⟨_, he⟩).elim
    | string => simp at he
    | lineComment => simp at he
    | blockComment hb' =>
      obtain rfl := block_unique (by simpa using he) hb hb'
      exact ⟨rfl, rfl⟩

/-- No part of a text that a string stays open in stands at its start. -/
theorem Part.ne_openString (h : Part text rest m) (hb : ∀ d ∈ body, d ≠ '"' ∧ d ≠ '\n') :
    text ++ rest ≠ '"' :: body := by
  intro he
  cases h with
  | code hq => exact hq (List.cons.inj he).1
  | @string text c rest _ hc =>
    obtain rfl : text ++ c :: rest = body := by simpa using he
    obtain ⟨hq, hn⟩ := hb c (by simp)
    exact hc.elim hq hn
  | lineComment => simp at he
  | blockComment => simp at he

theorem Part.ne_openComment (h : Part text rest m) (hb : ¬ ['*', '/'] <:+: body) :
    text ++ rest ≠ '/' :: '*' :: body := by
  intro he
  cases h with
  | code _ _ hb' => exact hb' ⟨_, he.symm⟩
  | string => simp at he
  | lineComment => simp at he
  | @blockComment text rest _ =>
    obtain rfl : text ++ '*' :: '/' :: rest = body := by simpa using he
    exact hb ⟨text, rest, by simp⟩

theorem Part.ne_nil (h : Part text rest m) : text ≠ [] := by
  cases h <;> simp

theorem Marks.unique (h : Marks b ms opened) (h' : Marks b ms' opened') :
    ms' = ms ∧ opened' = opened := by
  induction h generalizing ms' opened' with
  | nil =>
    generalize hb : [] = b at h'
    cases h' with
    | nil => exact ⟨rfl, rfl⟩
    | part hp => exact (hp.ne_nil (List.append_eq_nil_iff.mp hb.symm).1).elim
    | openString => cases hb
    | openComment => cases hb
  | @part text rest m ms opened hp _ ih =>
    generalize hb : text ++ rest = b at h'
    cases h' with
    | nil => exact (hp.ne_nil (List.append_eq_nil_iff.mp hb).1).elim
    | part hp' h' =>
      obtain ⟨rfl, rfl⟩ := hp.unique hp' hb
      obtain rfl := List.append_cancel_left hb
      obtain ⟨rfl, rfl⟩ := ih h'
      exact ⟨rfl, rfl⟩
    | openString hb' => exact (hp.ne_openString hb' hb).elim
    | openComment hb' => exact (hp.ne_openComment hb' hb).elim
  | @openString body hs =>
    generalize hb : '"' :: body = b at h'
    cases h' with
    | nil => cases hb
    | part hp => exact (hp.ne_openString hs hb.symm).elim
    | openString =>
      obtain rfl := (List.cons.inj hb).2
      exact ⟨rfl, rfl⟩
    | openComment => simp at hb
  | @openComment body hs =>
    generalize hb : '/' :: '*' :: body = b at h'
    cases h' with
    | nil => cases hb
    | part hp => exact (hp.ne_openComment hs hb.symm).elim
    | openString => simp at hb
    | openComment =>
      obtain rfl := (List.cons.inj (List.cons.inj hb).2).2
      exact ⟨rfl, rfl⟩

/-! What is kept by the marks, next to the states of removal of comments. -/

theorem keptAfter_append : keptAfter before (ms ++ ns) =
    keptAfter before ms ++ keptAfter (before ++ ms) ns := by
  induction ms generalizing before with
  | nil => rw [List.nil_append, List.append_nil]; rfl
  | cons x ms ih => simp [keptAfter, ih]

theorem codeBefore_concat : codeBefore (before ++ [(c, m)]) =
    if c = '\n' then false else codeBefore before || (m = .code && !Character.isBlank c) := by
  by_cases hc : c = '\n'
  · simp [codeBefore, hc]
  · simp [codeBefore, hc, Bool.or_comm]

namespace State

/-- From `s` to `t` there comes what is kept by the marks `ms` after `before`. -/
structure Follows (before ms : Marked) (s t : State) : Prop where
  kept : t.kept.reverse = s.kept.reverse ++ keptAfter before ms
  hasCode : t.hasCode = codeBefore (before ++ ms)

namespace Follows

theorem trans (h : Follows before ms s t) (h' : Follows (before ++ ms) ns t u) :
    Follows before (ms ++ ns) s u := by
  refine ⟨?_, ?_⟩
  · rw [h'.kept, h.kept, keptAfter_append, List.append_assoc]
  · rw [h'.hasCode, List.append_assoc]

theorem keep (hs : s.hasCode = codeBefore before) (c : Char) :
    Follows before [(c, .code)] s (s.keep c) := by
  refine ⟨by simp [State.keep, keptAfter, keptOf], ?_⟩
  rw [codeBefore_concat, ← hs]
  simp [State.keep]

theorem lineComment (hs : s.hasCode = codeBefore before) (hc : c ≠ '\n') :
    Follows before [(c, .lineComment)] s s := by
  refine ⟨by simp [keptAfter, keptOf], ?_⟩
  rw [codeBefore_concat, ← hs]
  simp [hc]

theorem blank (hs : s.hasCode = codeBefore before) (hc : c ≠ '\n') :
    Follows before [(c, .blockComment)] s s.blank := by
  refine ⟨?_, ?_⟩
  · simp only [keptAfter, keptOf, hc, if_false, ← hs, List.append_nil]
    cases h : s.hasCode <;> simp [State.blank, h]
  · rw [codeBefore_concat, ← hs, State.hasCode_blank]
    simp [hc]

theorem newline : Follows before [('\n', .blockComment)] s (s.keep '\n') := by
  refine ⟨by simp [State.keep, keptAfter, keptOf], ?_⟩
  rw [codeBefore_concat]
  simp [State.keep]

theorem of_string (hm : s.mode = .string) (hs : s.hasCode = codeBefore before) (c : Char) :
    Follows before [(c, .code)] s (s.feed c) := by
  have hf : s.feed c = { s.string c with position := s.position.after c } := by
    simp [State.feed, hm]
  obtain ⟨hk, hh⟩ := keep hs c
  exact ⟨hf ▸ hk, hf ▸ hh⟩

end Follows

/-- A character of the code, after a slash that may be held back. -/
theorem release_feed_code (h : s.mode.Free (c :: b) false)
    (hl : ¬ ['/', '/'] <+: c :: b) (hb : ¬ ['/', '*'] <+: c :: b) :
    (s.feed c).release.kept = (s.release.keep c).kept ∧
      (s.feed c).release.hasCode = (s.release.keep c).hasCode := by
  obtain ⟨mode, position, hasCode, kept⟩ := s
  cases h with
  | code =>
    by_cases hc : c = '/'
    · subst hc
      exact ⟨rfl, rfl⟩
    · by_cases hq : c = '"' <;> simp [feed, code, release, keep, enter, hc, hq]
  | slash hf =>
    obtain ⟨hs, ha⟩ := hf c rfl
    by_cases hq : c = '"' <;> simp [feed, afterSlash, code, release, keep, enter, hs, ha, hq]
  | lineComment hn =>
    obtain rfl := hn c rfl
    exact ⟨rfl, rfl⟩

theorem Follows.of_released {r : State} (h : Follows before ms s t) (hk : r.kept = t.kept)
    (hh : r.hasCode = t.hasCode) : Follows before ms s r :=
  ⟨hk ▸ h.kept, hh.trans h.hasCode⟩

theorem follows_code (hf : s.mode.Free (c :: b) false)
    (hs : s.release.hasCode = codeBefore before) (hl : ¬ ['/', '/'] <+: c :: b)
    (hb : ¬ ['/', '*'] <+: c :: b) : Follows before [(c, .code)] s.release (s.feed c).release := by
  obtain ⟨hk, hh⟩ := release_feed_code hf hl hb
  exact (Follows.keep hs c).of_released hk hh

theorem mode_feed_of_string (hm : s.mode = .string) (c : Char) :
    (s.feed c).mode = if c = '"' ∨ c = '\n' then .code else .string := by
  simp [feed, hm, string, enter]

/-- The characters of a string, after its quote. -/
theorem follows_string (hm : s.mode = .string) (hs : s.hasCode = codeBefore before)
    (hb : ∀ d ∈ body, d ≠ '"' ∧ d ≠ '\n') : (body.foldl feed s).mode = .string ∧
      Follows before (marked .code body) s (body.foldl feed s) := by
  induction body generalizing s before with
  | nil => exact ⟨hm, by simp [keptAfter, marked], by simpa [marked] using hs⟩
  | cons d body ih =>
    obtain ⟨⟨hq, hn⟩, hb⟩ := List.forall_mem_cons.mp hb
    have hd : (s.feed d).mode = .string := by simp [mode_feed_of_string hm, hq, hn]
    have hfirst := Follows.of_string hm hs d
    obtain ⟨hm, hrest⟩ := ih hd hfirst.hasCode hb
    exact ⟨hm, hfirst.trans hrest⟩

/-- The characters of a line comment, after its slashes. -/
theorem follows_lineComment (hs : s.hasCode = codeBefore before) (hn : '\n' ∉ body) :
    Follows before (marked .lineComment body) s s := by
  induction body generalizing before with
  | nil => exact ⟨by simp [keptAfter, marked], by simpa [marked] using hs⟩
  | cons d body ih =>
    obtain ⟨hd, hn⟩ : d ≠ '\n' ∧ '\n' ∉ body := by simpa [eq_comm] using hn
    have hfirst := Follows.lineComment hs hd
    exact hfirst.trans (ih hfirst.hasCode hn)

/-- A character of a block comment that does not close it. -/
theorem follows_inComment {p : Position} {star : Bool} (hm : s.mode = .blockComment p star)
    (hs : s.hasCode = codeBefore before) (hc : ¬ (star ∧ c = '/')) :
    Follows before [(c, .blockComment)] s (s.feed c) := by
  by_cases hn : c = '\n'
  · subst hn
    refine Follows.newline.of_released ?_ ?_ <;> simp [feed, hm, blockComment, enter]
  · refine (Follows.blank hs hn).of_released ?_ ?_ <;>
      simp [feed, hm, blockComment, hn, enter, hc]

theorem follows_blockComment {p : Position} {star : Bool} (hm : s.mode = .blockComment p star)
    (hs : s.hasCode = codeBefore before)
    (hb : ¬ ['*', '/'] <:+: (if star then ['*'] else []) ++ body) :
    Follows before (marked .blockComment body) s (body.foldl feed s) := by
  induction body generalizing s star before with
  | nil => exact ⟨by simp [keptAfter, marked], by simpa [marked] using hs⟩
  | cons c body ih =>
    obtain ⟨hc, hb⟩ := not_closing_cons hb
    have hfirst := follows_inComment hm hs hc
    exact hfirst.trans (ih (feed_blockComment hm hc).1 hfirst.hasCode hb)

theorem follows_opening (hm : s.mode = .code) (hs : s.hasCode = codeBefore before) :
    Follows before (marked .blockComment ['/', '*']) s (['/', '*'].foldl feed s) := by
  have hslash := Follows.blank (c := '/') hs (by decide)
  have hstar := Follows.blank (c := '*') hslash.hasCode (by decide)
  have hf : ['/', '*'].foldl feed s = { s.blank.blank.enter (.blockComment s.position false) with
      position := (s.position.after '/').after '*' } := by
    cases h : s.hasCode <;> simp [feed, hm, afterSlash, blank, enter, h]
  exact (hslash.trans hstar).of_released (by rw [hf]; rfl) (by rw [hf]; rfl)

theorem follows_closing {p : Position} {star : Bool} (hm : s.mode = .blockComment p star)
    (hs : s.hasCode = codeBefore before) :
    Follows before (marked .blockComment ['*', '/']) s (['*', '/'].foldl feed s) := by
  have hc : ¬ (star ∧ '*' = '/') := by simp
  have hstar := follows_inComment hm hs hc
  have hslash := Follows.blank (c := '/') hstar.hasCode (by decide)
  have hm' := (feed_blockComment hm hc).1
  rw [List.foldl_cons, List.foldl_cons, List.foldl_nil]
  generalize s.feed '*' = t at hstar hslash hm' ⊢
  refine (hstar.trans hslash).of_released ?_ ?_ <;> simp [State.feed, hm', blockComment, enter]

end State

/-- Removal of comments goes through a part of a source as its mark says. -/
theorem Part.follows (h : Part text rest m) (hf : s.mode.Free (text ++ rest) false)
    (hs : s.release.hasCode = codeBefore before) : (text.foldl State.feed s).mode.Free rest false ∧
      State.Follows before (marked m text) s.release (text.foldl State.feed s).release := by
  cases h with
  | code hq hl hb => exact ⟨hf.feed_code hq hl hb, State.follows_code hf hs hl hb⟩
  | @string body c _ hb hc =>
    have hopen := State.follows_code hf hs (by simp) (by simp)
    have hm := hf.feed_quote
    rw [State.release_of_mode hm nofun] at hopen
    obtain ⟨hm, hbody⟩ := State.follows_string hm hopen.hasCode hb
    have hclose := State.Follows.of_string hm (hopen.trans hbody).hasCode c
    have hcode := (State.mode_feed_of_string hm c).trans (if_pos hc)
    have hall := (hopen.trans hbody).trans hclose
    rw [List.foldl_concat, List.foldl_cons, State.release_of_mode hcode nofun, hcode]
    exact ⟨.code, by simpa [marked] using hall⟩
  | @lineComment body _ hn hr =>
    have hm := hf.mode_eq_code
    obtain ⟨hline, hh, hk⟩ := State.foldl_of_lineComment (State.feed_slashes hm) hn
    have hslashes : '\n' ∉ '/' :: '/' :: body := by simpa using hn
    rw [State.release_of_mode hm nofun] at hs ⊢
    rw [List.foldl_cons, List.foldl_cons, State.release_of_mode hline nofun, hline]
    refine ⟨.lineComment hr, (State.follows_lineComment hs hslashes).of_released (hk.trans ?_)
      (hh.trans ?_)⟩ <;> simp [State.feed, hm, State.afterSlash, State.enter]
  | @blockComment body _ hb =>
    have hm := hf.mode_eq_code
    rw [State.release_of_mode hm nofun] at hs ⊢
    have hopen := State.follows_opening hm hs
    have hstart := (State.foldl_opening hm).1
    have hbody := State.follows_blockComment hstart hopen.hasCode hb
    obtain ⟨star, hm⟩ := (State.foldl_blockComment hstart hb).1
    have hclose := State.follows_closing hm (hopen.trans hbody).hasCode
    have hcode := (State.foldl_closing hm).1
    have hall := (hopen.trans hbody).trans hclose
    have htext : '/' :: '*' :: body ++ ['*', '/'] = ['/', '*'] ++ body ++ ['*', '/'] := rfl
    rw [htext, List.foldl_append, List.foldl_append, State.release_of_mode hcode nofun, hcode]
    exact ⟨.code, by simpa [marked] using hall⟩

/-- Removal of comments ends as the marks of the source say. -/
theorem Marks.finish (h : Marks b ms opened) (hf : s.mode.Free b false)
    (hs : s.release.hasCode = codeBefore before) : (b.foldl State.feed s).finish =
      opened.elim (.ok (s.release.kept.reverse ++ keptAfter before ms))
        fun a => .error (a.foldl State.feed s).position := by
  induction h generalizing s before with
  | nil =>
    refine State.finish_eq_ok_iff.mpr ⟨by simp [keptAfter], fun p star hm => ?_⟩
    rw [List.foldl_nil] at hm
    rw [hm] at hf
    cases hf
  | @part text rest m ms opened hp _ ih =>
    obtain ⟨hf, hpart⟩ := hp.follows hf hs
    rw [List.foldl_append, ih hf hpart.hasCode]
    cases opened with
    | none => simp [hpart.kept, keptAfter_append]
    | some a => simp
  | @openString body hb =>
    have hopen := State.follows_code hf hs (by simp) (by simp)
    have hm := hf.feed_quote
    rw [State.release_of_mode hm nofun] at hopen
    obtain ⟨hm, hbody⟩ := State.follows_string hm hopen.hasCode hb
    refine State.finish_eq_ok_iff.mpr ⟨?_, by simp [hm]⟩
    have hall := hopen.trans hbody
    rw [List.foldl_cons, State.release_of_mode hm nofun, hall.kept]
    rfl
  | @openComment body hb =>
    have hm := hf.mode_eq_code
    have hstart := (State.foldl_opening hm).1
    obtain ⟨star, hm'⟩ := (State.foldl_blockComment hstart hb).1
    have htext : '/' :: '*' :: body = ['/', '*'] ++ body := rfl
    rw [htext, List.foldl_append, State.finish, hm']
    rfl

theorem Marks.strip (h : Marks b ms opened) :
    strip b = opened.elim (.ok (kept ms)) fun a => .error (placeAfter a) := by
  have hcode : State.initial.release.hasCode = codeBefore [] := rfl
  have hfinish := h.finish .code hcode
  rw [Comment.strip, hfinish]
  cases opened with
  | none => rfl
  | some a => exact congrArg Except.error (State.position_foldl a)

end Comment

/-- The error at the block comment that opens after `a` and stays open: it marks the two characters
that open the comment, and shows their line. -/
structure LexError.UnclosedAfter (source a : List Char) (e : LexError) : Prop where
  cause : e.cause = .unterminatedComment
  lexeme : e.lexeme = "/*"
  line : e.location.line = 1 + a.count '\n'
  column : e.location.column = 1 + (Text.lastLine a).length
  length : e.location.length = 2
  span : e.location.span source = ⟨Text.utf8Length a, 2⟩
  lineText : ∃ line rest, source = a ++ '/' :: '*' :: line ++ rest ∧ '\n' ∉ line ∧
    (∀ c ∈ rest.head?, c = '\n') ∧ e.location.lineText = String.ofList
      (if rest = [] then Text.lastLine a ++ '/' :: '*' :: line
        else Text.dropReturn (Text.lastLine a ++ '/' :: '*' :: line))

namespace Comment

variable {a b : List Char}

theorem shownLine_placeAfter {line rest : List Char} (hn : '\n' ∉ line)
    (hr : ∀ c ∈ rest.head?, c = '\n') : Text.shownLine (a ++ line ++ rest) (placeAfter a).line =
      if rest = [] then Text.lastLine a ++ line else Text.dropReturn (Text.lastLine a ++ line) := by
  have hcount : (a ++ line).count '\n' = a.count '\n' := by
    rw [List.count_append, List.count_eq_zero.mpr hn, Nat.add_zero]
  have hline := Text.getElem?_pieces (a := a ++ line) hr
  rw [hcount, Text.lastLine_append hn] at hline
  have hlast : a.count '\n' + 1 < (Text.pieces (a ++ line ++ rest)).length ↔ rest ≠ [] := by
    rw [Text.length_pieces, List.count_append, hcount]
    cases rest with
    | nil => simp
    | cons c rest =>
      obtain rfl := hr c rfl
      simp
  simp only [Text.shownLine, placeAfter, Nat.add_sub_cancel, hline, hlast, ite_not]

theorem unclosedAfter (a b : List Char) :
    (LexError.unclosedComment (a ++ '/' :: '*' :: b) (placeAfter a)).UnclosedAfter
      (a ++ '/' :: '*' :: b) a := by
  refine ⟨rfl, rfl, Nat.add_comm .., Nat.add_comm .., rfl, ?_, ?_⟩
  · have hspan := Location.span_eq_of_append (b := b)
      (l := (LexError.unclosedComment (a ++ '/' :: '*' :: b) (placeAfter a)).location) rfl rfl
      (x := ['/', '*']) rfl (by decide) (by decide) (by decide)
    have hsource : a ++ ['/', '*'] ++ b = a ++ '/' :: '*' :: b := by simp
    exact hsource ▸ hspan
  · obtain ⟨line, rest, rfl, hn, hr⟩ := Text.exists_line b
    refine ⟨line, rest, by simp, hn, hr, congrArg String.ofList ?_⟩
    have hopen : '\n' ∉ '/' :: '*' :: line := by simpa using hn
    have hsource : a ++ '/' :: '*' :: line ++ rest = a ++ '/' :: '*' :: (line ++ rest) := by simp
    exact hsource ▸ shownLine_placeAfter hopen hr

/-- Every source is marked in one way. If the marks have no block comment that stays open, removal
of comments keeps what they say; else it fails, and so does the lexer, at the place where the
comment opens. -/
theorem strip_eq_kept_marks (source : List Char) : ∃ ms opened,
    (∀ ms' opened', Marks source ms' opened' ↔ ms' = ms ∧ opened' = opened) ∧
      ms.map Prod.fst = source ∧
      match opened with
      | none => strip source = .ok (kept ms)
      | some a => strip source = .error ⟨1 + a.count '\n', 1 + (Text.lastLine a).length⟩ ∧
        ∃ e, lex source = .error e ∧ e.UnclosedAfter source a := by
  obtain ⟨ms, opened, h⟩ := exists_marks source
  have hstrip := h.strip
  refine ⟨ms, opened, fun ms' opened' => ⟨h.unique, ?_⟩, h.map_fst, ?_⟩
  · rintro ⟨rfl, rfl⟩
    exact h
  · cases opened with
    | none => exact hstrip
    | some a =>
      obtain ⟨body, rfl⟩ := h.eq_append rfl
      have hplace : placeAfter a = ⟨1 + a.count '\n', 1 + (Text.lastLine a).length⟩ := by
        rw [placeAfter, Nat.add_comm 1, Nat.add_comm 1]
      refine ⟨by rw [hstrip, ← hplace]; rfl, _, ?_, unclosedAfter a body⟩
      rw [lex, hstrip]
      rfl

/-- A slash does not close the comment that it opens; a comment before code leaves no spaces, one
after code does. -/
example : strip "/*/ \"*/x/***//\"*/".toList = .ok "x     /\"*/".toList := by decide

end Comment

end RookLang
