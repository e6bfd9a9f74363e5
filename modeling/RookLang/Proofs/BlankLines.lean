import RookLang.Proofs.Agreement
import RookLang.Proofs.LineFaults
import RookLang.Proofs.Programs

/-! Lines without code that come in where a line starts, in a comment too. What comes after them is
the same, one line further down. -/
namespace RookLang

/-- What the number `n` of a line becomes when another line comes in as line `i`. -/
def Text.downFrom (i n : ℕ) : ℕ := if i ≤ n then n + 1 else n

def Location.downFrom (i : ℕ) (l : Location) : Location := { l with line := Text.downFrom i l.line }

def LexError.downFrom (i : ℕ) (e : LexError) : LexError :=
  { e with location := e.location.downFrom i }

def SyntaxError.downFrom (i : ℕ) (e : SyntaxError) : SyntaxError :=
  { e with location := e.location.downFrom i }

def Diagnostic.downFrom (i : ℕ) : Diagnostic → Diagnostic
  | lexical e => lexical (e.downFrom i)
  | syntactic e => syntactic (e.downFrom i)

def Token.downFrom (i : ℕ) (t : Token) : Token := { t with line := Text.downFrom i t.line }

def TokenStream.downFrom (i : ℕ) (ts : TokenStream) : TokenStream :=
  ⟨ts.toList.map (Token.downFrom i)⟩

def CodeLine.downFrom (i : ℕ) (l : CodeLine) : CodeLine :=
  { l with number := Text.downFrom i l.number }

namespace Text

variable {a : List Char} {i n : ℕ}

theorem downFrom_of_le (h : i ≤ n) : downFrom i n = n + 1 := if_pos h

theorem downFrom_of_lt (h : n < i) : downFrom i n = n := if_neg (Nat.not_le.mpr h)

/-- What comes after a complete line does not come into the lines before. -/
theorem shownLine_of_le (ha : EndsLine a) (hn : 1 ≤ n) (hle : n ≤ a.count '\n') (b : List Char) :
    shownLine (a ++ b) n = shownLine a n := by
  obtain rfl | ha := ha
  · simp at hle
    omega
  obtain ⟨a, rfl⟩ := List.getLast?_eq_some_iff.mp ha
  have hlen : n ≤ (pieces a).length := by simpa [length_pieces] using hle
  rw [List.append_assoc, List.singleton_append]
  simp only [shownLine, pieces_append, List.length_append]
  rw [List.getElem?_append_left (by omega), List.getElem?_append_left (by omega)]
  have hb : n < (pieces a).length + (pieces b).length := by simp [length_pieces] at hlen ⊢; omega
  have he : n < (pieces a).length + (pieces []).length := by simp [length_pieces] at hlen ⊢; omega
  simp only [hb, he, if_true]

end Text

namespace Comment

variable {a w k k' : List Char} {i : ℕ} {s t : State} {c : Char} {p : Position}

def Position.downFrom (i : ℕ) (p : Position) : Position := ⟨Text.downFrom i p.line, p.column⟩

theorem Position.after_downFrom (h : i ≤ p.line) :
    (p.downFrom i).after c = (p.after c).downFrom i := by
  have h' : i ≤ p.line + 1 := Nat.le_succ_of_le h
  unfold Position.after downFrom
  split <;> simp [Text.downFrom_of_le h, Text.downFrom_of_le h']

namespace State

/-- The states read on alike after the texts `k` and `k'`, and what `s` is at is one line further
down in `t`. -/
structure Below (i : ℕ) (k k' : List Char) (s t : State) : Prop where
  beside : s.Beside k k' t
  mode : t.mode = s.mode.move (.downFrom i)
  position : t.position = s.position.downFrom i
  le_line : i ≤ s.position.line

namespace Below

theorem feed (h : Below i k k' s t) (c : Char) : Below i k k' (s.feed c) (t.feed c) := by
  refine ⟨h.beside.feed c, mode_feed_move h.mode h.position, ?_, ?_⟩
  · show t.position.after c = (s.position.after c).downFrom i
    rw [h.position, Position.after_downFrom h.le_line]
  · show i ≤ (s.position.after c).line
    have := h.le_line
    unfold Position.after
    split
    · exact Nat.le_succ_of_le this
    · exact this

theorem foldl (h : Below i k k' s t) (text : List Char) :
    Below i k k' (text.foldl State.feed s) (text.foldl State.feed t) := by
  induction text generalizing s t with
  | nil => exact h
  | cons c text ih => exact ih (h.feed c)

theorem finish (h : Below i k k' s t) : Agree (fun p q => q = p.downFrom i)
    (fun u u' => ∃ v, u = k.reverse ++ v ∧ u' = k'.reverse ++ v) s.finish t.finish := by
  cases hs : s.finish with
  | ok u =>
    obtain ⟨v, rfl, ht⟩ := h.beside.finish hs
    rw [ht]
    exact .ok ⟨v, rfl, rfl⟩
  | error p =>
    have hm := h.mode
    cases hsm : s.mode <;> simp [State.finish, hsm] at hs
    subst hs
    simp only [hsm, Mode.move] at hm
    simp only [State.finish, hm]
    exact .error rfl

end Below

/-- What is blank is kept in the code. -/
theorem foldl_of_blank (hm : s.mode = .code) (hc : s.hasCode = false)
    (hw : ∀ c ∈ w, Character.isBlank c ∧ c ≠ '\n') : (w.foldl feed s).mode = .code ∧
      (w.foldl feed s).hasCode = false ∧ (w.foldl feed s).kept = w.reverse ++ s.kept := by
  induction w generalizing s with
  | nil => exact ⟨hm, hc, rfl⟩
  | cons c w ih =>
    obtain ⟨⟨hb, hn⟩, hw⟩ := List.forall_mem_cons.mp hw
    have hne {d : Char} (hd : Character.isBlank d = false) : c ≠ d := by
      rintro rfl
      simp [hb] at hd
    have hf := feed_of_code hm (hne (d := '/') rfl)
    obtain ⟨hm, hc, hk⟩ := @ih (s.feed c) (by simp [hf, code, enter, hne (d := '"') rfl])
      (by simp [hf, code, enter, keep, hn, hc, hb]) hw
    refine ⟨hm, hc, hk.trans ?_⟩
    rw [hf, List.reverse_cons, List.append_assoc]
    rfl

/-- Where a line starts, a comment may be open from a line before. -/
theorem mode_of_endsLine (ha : Text.EndsLine a) : (a.foldl feed .initial).mode = .code ∨
    ∃ p, (a.foldl feed .initial).mode = .blockComment p false ∧ p.line ≤ a.count '\n' := by
  obtain rfl | ha := ha
  · exact .inl rfl
  obtain ⟨a, rfl⟩ := List.getLast?_eq_some_iff.mp ha
  have hm := mode_feed_newline (a.foldl feed .initial)
  rw [← List.foldl_concat feed] at hm
  split at hm
  swap
  · exact .inl hm
  refine .inr ⟨_, hm, ?_⟩
  obtain ⟨c, d, hcd, rfl⟩ := exists_of_blockComment hm
  have hn : '\n' ∈ d := by
    have hlast := congrArg List.getLast? hcd
    rw [List.getLast?_concat, List.getLast?_append_of_ne_nil _ (by simp)] at hlast
    simpa using List.mem_of_getLast? hlast.symm
  have hpos := List.count_pos_iff.mpr hn
  rw [hcd]
  simp only [placeAfter, List.count_append, List.count_cons]
  omega

theorem position_of_endsLine (ha : Text.EndsLine a) :
    (a.foldl feed .initial).position = ⟨a.count '\n' + 1, 1⟩ := by
  have hl : Text.lastLine a = [] := by
    obtain rfl | ha := ha
    · rfl
    obtain ⟨a, rfl⟩ := List.getLast?_eq_some_iff.mp ha
    exact Text.lastLine_newline
  rw [position_foldl, placeAfter, hl]
  rfl

/-- A line without code is kept, but for what of it is in a comment. -/
theorem kept_of_blank (hc : s.hasCode = false)
    (hm : s.mode = .code ∨ ∃ p, s.mode = .blockComment p false)
    (hw : ∀ c ∈ w, Character.isBlank c ∧ c ≠ '\n') :
    ∃ w', (∀ c ∈ w', Character.isBlank c ∧ c ≠ '\n') ∧
      ((w.foldl feed s).feed '\n').kept = '\n' :: w' ++ s.kept ∧
      ((w.foldl feed s).feed '\n').mode = s.mode := by
  rw [kept_feed_newline, mode_feed_newline]
  rcases hm with hm | ⟨p, hm⟩
  · obtain ⟨hm', -, hk⟩ := foldl_of_blank hm hc hw
    refine ⟨w.reverse, fun c hc => hw c (List.mem_reverse.mp hc), ?_, ?_⟩
    · rw [release_eq (by simp [hm']), hk]
      rfl
    · rw [hm', hm]
  · have hopen : ¬ ['*', '/'] <:+: (if false then ['*'] else []) ++ w := by
      intro h
      have hb := (hw '/' (h.subset (by simp))).1
      cases hb
    obtain ⟨⟨star, hm'⟩, hk⟩ := foldl_blockComment hm hopen
    obtain ⟨-, hk⟩ := hk fun h => (hw _ h).2 rfl
    refine ⟨[], List.forall_mem_nil _, ?_, ?_⟩
    · rw [release_eq (by simp [hm']), hk, blanks, hc]
      rfl
    · rw [hm', hm]

/-- A line without code that comes in where a line starts moves what is read after it down. -/
theorem below_of_blank (ha : Text.EndsLine a) (hw : ∀ c ∈ w, Character.isBlank c ∧ c ≠ '\n') :
    ∃ w', (∀ c ∈ w', Character.isBlank c ∧ c ≠ '\n') ∧
      Below (a.count '\n' + 1) (a.foldl feed .initial).kept
        ('\n' :: w' ++ (a.foldl feed .initial).kept) (a.foldl feed .initial)
        ((a ++ w ++ ['\n']).foldl feed .initial) := by
  have hmode := mode_of_endsLine ha
  have hpos := position_of_endsLine ha
  have hcode : (a.foldl feed .initial).hasCode = false := by
    rw [(Coherent.initial.foldl a).hasCode, (line_of_endsLine ha).1]
    rfl
  rw [List.foldl_append, List.foldl_append, List.foldl_cons, List.foldl_nil]
  generalize a.foldl feed .initial = s at hmode hpos hcode
  -- A comment that is open there opens before it.
  have hmove : s.mode.move (.downFrom (a.count '\n' + 1)) = s.mode := by
    rcases hmode with hm | ⟨p, hm, hp⟩
    · rw [hm]
      rfl
    · rw [hm, Mode.move, Position.downFrom, Text.downFrom_of_lt (Nat.lt_succ_of_le hp)]
  obtain ⟨w', hb, hk, hm⟩ := kept_of_blank hcode (hmode.imp_right (Exists.imp fun _ => And.left)) hw
  obtain ⟨hcode', hpos', -, -⟩ := feed_newline (w.foldl feed s)
  have hline := line_foldl s w
  rw [List.count_eq_zero_of_not_mem fun h => (hw _ h).2 rfl, Nat.add_zero, hpos] at hline
  refine ⟨w', hb, ⟨by rw [hm], by rw [hcode, hcode'], [], rfl, hk⟩, by rw [hm, hmove], ?_, ?_⟩
  · rw [hpos', hline, hpos, Position.downFrom, Text.downFrom_of_le (Nat.le_refl _)]
  · rw [hpos]

end State

/-- Removal of comments keeps a line without code that comes in as one, and all else as it is. -/
theorem strip_insert (ha : Text.EndsLine a) (hw : ∀ c ∈ w, Character.isBlank c ∧ c ≠ '\n')
    (b : List Char) : Agree (fun p q => q = p.downFrom (a.count '\n' + 1))
      (fun text text' => ∃ u v w', text = u ++ v ∧ text' = u ++ (w' ++ ['\n']) ++ v ∧
        Text.EndsLine u ∧ u.count '\n' = a.count '\n' ∧
        ∀ c ∈ w', Character.isBlank c ∧ c ≠ '\n')
      (strip (a ++ b)) (strip (a ++ w ++ '\n' :: b)) := by
  obtain ⟨w', hb, hbelow⟩ := State.below_of_blank ha hw
  have hcount := State.count_foldl .initial a
  have hends : Text.EndsLine (a.foldl State.feed .initial).kept.reverse := by
    obtain rfl | ha := ha
    · exact .inl rfl
    obtain ⟨a, rfl⟩ := List.getLast?_eq_some_iff.mp ha
    rw [List.foldl_concat]
    exact .inr (by simpa using (State.feed_newline _).2.2.1)
  rw [List.append_cons (a ++ w), strip, strip, List.foldl_append, List.foldl_append]
  refine (hbelow.foldl b).finish.imp (fun _ _ h => h) ?_
  rintro _ _ ⟨v, rfl, rfl⟩
  refine ⟨_, v, w'.reverse, rfl, by simp, hends, by simpa [State.initial] using hcount, ?_⟩
  exact fun c hc => hb c (List.mem_reverse.mp hc)

end Comment

theorem LexError.downFrom_down {n : ℕ} {e : LexError} (h : 1 ≤ e.location.line) :
    (e.down n).downFrom (n + 1) = e.down (n + 1) := by
  have hle : n + 1 ≤ e.location.line + n := by omega
  simp [down, downFrom, Location.down, Location.downFrom, Text.downFrom_of_le hle, Nat.add_assoc]

namespace CodeLine

variable {l : CodeLine} {i n : ℕ}

theorem downFrom_down (h : 1 ≤ l.number) : (l.down n).downFrom (n + 1) = l.down (n + 1) := by
  have hle : n + 1 ≤ l.number + n := by omega
  simp [down, downFrom, Text.downFrom_of_le hle, Nat.add_assoc]

theorem related_downFrom : l.Related (fun t u => u = t.downFrom i) (l.downFrom i) :=
  ⟨rfl, rfl, rfl, rfl, rfl, fun _ _ _ => rfl⟩

end CodeLine

namespace Layout

variable {a b u v w text : List Char} {n : ℕ} {lines : List CodeLine}

theorem codeLines_of_blank (h : ∀ c ∈ text, Character.isBlank c) : codeLines text = .ok [] := by
  have hc : (Text.lines text).filter isCode = [] := by
    rw [List.filter_eq_nil_iff]
    intro line hl
    obtain ⟨-, piece, hp, ht⟩ := Text.exists_piece_of_mem hl
    have hsub := Text.subset_of_mem_pieces (List.mem_of_getElem? hp)
    have hb : line.text.all Character.isBlank := List.all_eq_true.mpr fun c hc => by
      rw [ht] at hc
      exact h c (hsub ((Text.dropReturn_prefix piece).subset hc))
    simp [isCode, hb]
  rw [codeLines, hc]
  rfl

/-- The lines of code of complete lines stand in these. -/
theorem number_le_of_isCode (h : Text.EndsLine text) {line : Text.Line}
    (hl : line ∈ Text.lines text) (hc : isCode line) : line.number ≤ text.count '\n' := by
  have hne : line.text ≠ [] := fun ht => by simp [isCode, ht] at hc
  have hn := (Text.terminated_iff hl).mp (Text.terminated_of_endsLine h hl hne)
  have hle := Text.number_le hl
  rw [Text.length_pieces] at hn hle
  omega

theorem map_downFrom_of_endsLine (h : Text.EndsLine text) (hl : codeLines text = .ok lines) :
    lines.map (CodeLine.downFrom (text.count '\n' + 1)) = lines := by
  refine (List.map_congr_left fun l hm => ?_).trans (List.map_id _)
  obtain ⟨line, hline, hc, hr⟩ := readLine_of_mem hl hm
  have hle := number_le_of_isCode h hline hc
  have hn : l.number = line.number := by rw [(readLine_eq_ok_iff.mp hr).2]
  rw [CodeLine.downFrom, hn, Text.downFrom_of_lt (Nat.lt_succ_of_le hle), ← hn]
  rfl

theorem map_downFrom_down (hl : codeLines text = .ok lines) :
    (lines.map (CodeLine.down n)).map (CodeLine.downFrom (n + 1)) =
      lines.map (CodeLine.down (n + 1)) := by
  rw [List.map_map]
  refine List.map_congr_left fun l hm => CodeLine.downFrom_down ?_
  obtain ⟨line, hline, -, hr⟩ := readLine_of_mem hl hm
  rw [(readLine_eq_ok_iff.mp hr).2]
  exact Nat.one_le_iff_ne_zero.mpr (Text.exists_piece_of_mem hline).1

/-- A line without code that comes in after complete lines changes the numbers of the lines after
it. -/
theorem codeLines_insert (hu : Text.EndsLine u) (hw : ∀ c ∈ w, Character.isBlank c ∧ c ≠ '\n') :
    codeLines (u ++ (w ++ ['\n']) ++ v) =
      ((codeLines (u ++ v)).mapError (LexError.downFrom (u.count '\n' + 1))).map
        (List.map (CodeLine.downFrom (u.count '\n' + 1))) := by
  have hends : Text.EndsLine (u ++ (w ++ ['\n'])) := .inr (by simp)
  have hcount : (u ++ (w ++ ['\n'])).count '\n' = u.count '\n' + 1 := by
    simp [List.count_eq_zero_of_not_mem fun h => (hw _ h).2 rfl]
  have hblank : codeLines (w ++ ['\n']) = .ok [] := codeLines_of_blank fun c hc => by
    rcases List.mem_append.mp hc with hc | hc
    · exact (hw c hc).1
    · rw [List.mem_singleton.mp hc]
      rfl
  have hinsert : codeLines (u ++ (w ++ ['\n'])) = codeLines u := by
    rw [codeLines_append hu, hblank]
    cases codeLines u with
    | error e => rfl
    | ok xs => exact congrArg Except.ok (List.append_nil xs)
  rw [codeLines_append hends, hinsert, hcount, codeLines_append hu]
  cases hx : codeLines u with
  | error e =>
    obtain ⟨line, hl, he⟩ := exists_of_mapM_error hx
    obtain ⟨hl, hc⟩ := List.mem_filter.mp hl
    have hle := number_le_of_isCode hu hl hc
    rw [← (marks_of_readLine he (Text.newline_notMem hl)).number] at hle
    have he : e.downFrom (u.count '\n' + 1) = e := by
      rw [LexError.downFrom, Location.downFrom, Text.downFrom_of_lt (Nat.lt_succ_of_le hle)]
    exact (congrArg Except.error he).symm
  | ok xs =>
    cases hy : codeLines v with
    | error e =>
      obtain ⟨line, hl, he⟩ := marks_of_codeLines hy
      have hpos : 1 ≤ e.location.line := by
        rw [he.number]
        exact Nat.one_le_iff_ne_zero.mpr (Text.exists_piece_of_mem hl).1
      exact (congrArg Except.error (LexError.downFrom_down hpos)).symm
    | ok ys =>
      refine congrArg Except.ok ?_
      rw [List.map_append, map_downFrom_of_endsLine hu hx, map_downFrom_down hy]

theorem unclosedComment_insert {p : Comment.Position} (ha : Text.EndsLine a) (hn : '\n' ∉ w)
    (hp : 1 ≤ p.line) : LexError.unclosedComment (a ++ w ++ '\n' :: b)
      (p.downFrom (a.count '\n' + 1)) =
        (LexError.unclosedComment (a ++ b) p).downFrom (a.count '\n' + 1) := by
  have hends : Text.EndsLine (a ++ w ++ ['\n']) := .inr (by simp)
  have hcount : (a ++ w ++ ['\n']).count '\n' = a.count '\n' + 1 := by
    simp [List.count_eq_zero_of_not_mem hn]
  suffices h : Text.shownLine (a ++ w ++ '\n' :: b) (Text.downFrom (a.count '\n' + 1) p.line) =
      Text.shownLine (a ++ b) p.line by
    simp only [LexError.unclosedComment, LexError.downFrom, Location.downFrom,
      Comment.Position.downFrom, h]
  by_cases hle : a.count '\n' + 1 ≤ p.line
  · obtain ⟨n, hpn⟩ := Nat.exists_eq_add_of_le' hle
    rw [Text.downFrom_of_le hle, List.append_cons (a ++ w), hpn,
      show n + (a.count '\n' + 1) + 1 = n + 1 + (a ++ w ++ ['\n']).count '\n' by omega,
      show n + (a.count '\n' + 1) = n + 1 + a.count '\n' by omega,
      Text.shownLine_append hends (Nat.le_add_left 1 n),
      Text.shownLine_append ha (Nat.le_add_left 1 n)]
  · have hle : p.line ≤ a.count '\n' := by omega
    rw [Text.downFrom_of_lt (Nat.lt_succ_of_le hle), List.append_assoc,
      Text.shownLine_of_le ha hp hle, Text.shownLine_of_le ha hp hle]

/-- With a line without code that comes in, a text has the same tokens or the same error, in a line
further down if they come after it. -/
theorem lex_insert (ha : Text.EndsLine a) (hw : ∀ c ∈ w, Character.isBlank c ∧ c ≠ '\n')
    (hs : (∃ text, Comment.strip (a ++ b) = .ok text ∧ ∃ line ∈ Text.lines text, isCode line) ∨
      ∃ e, lex (a ++ b) = .error e) :
    Agree (fun e f => f = e.downFrom (a.count '\n' + 1))
      (fun ts us => List.Forall₂ (fun t u => u = t.downFrom (a.count '\n' + 1)) ts.toList us.toList)
      (lex (a ++ b)) (lex (a ++ w ++ '\n' :: b)) := by
  have hstrip := Comment.strip_insert ha hw b
  have hline p (hp : Comment.strip (a ++ b) = .error p) := Comment.one_le_line_of_strip hp
  have hne text (ht : Comment.strip (a ++ b) = .ok text) : codeLines text ≠ .ok [] := by
    intro hl
    rcases hs with ⟨text', ht', line, hm, hc⟩ | ⟨e, he⟩
    · obtain rfl := Except.ok.inj (ht'.symm.trans ht)
      obtain ⟨l, hm, -⟩ := exists_codeLine hl hm hc
      cases hm
    · rw [lex_eq_ok_iff.mpr ⟨text, [], ht, hl, rfl⟩] at he
      cases he
  unfold lex
  generalize Comment.strip (a ++ b) = x, Comment.strip (a ++ w ++ '\n' :: b) = y
    at hstrip hline hne
  cases hstrip with
  | @error p q h =>
    rw [h]
    exact .error (unclosedComment_insert ha (fun h => (hw _ h).2 rfl) (hline p rfl))
  | ok h =>
    obtain ⟨u, v, w', rfl, rfl, hu, hcount, hw'⟩ := h
    have hc := codeLines_insert (v := v) hu hw'
    have hne := hne _ rfl
    rw [hcount] at hc
    simp only [lexStripped, hc]
    generalize codeLines (u ++ v) = z at hne
    cases z with
    | error e => exact .error rfl
    | ok lines =>
      refine .ok (forall₂_tokens ?_ fun h => (hne (h ▸ rfl)).elim)
      rw [List.forall₂_map_right_iff, List.forall₂_same]
      exact fun _ _ => CodeLine.related_downFrom

end Layout

open Layout

/-- A line without code that comes in where line `i` starts is invisible: whatever was in line `i`
or after it is one line further down, and all else is as it was. -/
theorem lex_insert_blank_line {a b w : List Char} (ha : Text.EndsLine a)
    (hw : ∀ c ∈ w, Character.isBlank c ∧ c ≠ '\n')
    (hs : (∃ text, Comment.strip (a ++ b) = .ok text ∧ ∃ line ∈ Text.lines text, isCode line) ∨
      ∃ e, lex (a ++ b) = .error e) :
    let i := a.count '\n' + 1
    lex (a ++ w ++ '\n' :: b) =
        ((lex (a ++ b)).mapError (LexError.downFrom i)).map (TokenStream.downFrom i) ∧
      checkSource (a ++ w ++ '\n' :: b) =
        (checkSource (a ++ b)).mapError (Diagnostic.downFrom i) := by
  intro i
  have hlex := lex_insert ha hw hs
  constructor
  · refine Agree.eq_iff.mp (hlex.imp (fun _ _ h => h) fun ts us h => ?_)
    exact congrArg TokenStream.mk (forall₂_eq_map_iff.mp h)
  · refine Agree.eq_mapError_iff.mp (checkSource_agree hlex ?_ ?_ ?_ ?_)
    · rintro t _ rfl
      exact ⟨rfl, rfl, rfl⟩
    · rintro e _ rfl
      rfl
    · rintro missing t _ rfl
      rfl
    · rintro missing t _ rfl
      rfl

theorem lex_insert_blank_line_comment :
    Text.EndsLine "if a: /* b\n".toList ∧
      (∀ c ∈ "\t\u00a0\r".toList, Character.isBlank c ∧ c ≠ '\n') ∧
      (∃ text, Comment.strip ("if a: /* b\n".toList ++ " */\n\tc(1)".toList) = .ok text ∧
        ∃ line ∈ Text.lines text, isCode line) ∧
      checkSource ("if a: /* b\n".toList ++ " */\n\tc(1)".toList) = .ok 1 ∧
      checkSource ("if a: /* b\n".toList ++ "\t\u00a0\r".toList ++ '\n' :: " */\n\tc(1)".toList) =
        .ok 1 := by
  have ha : Text.EndsLine "if a: /* b\n".toList := .inr (by decide)
  have hw : ∀ c ∈ "\t\u00a0\r".toList, Character.isBlank c ∧ c ≠ '\n' := by
    intro c hc
    rcases (show c = '\t' ∨ c = '\u00a0' ∨ c = '\r' by simpa using hc) with rfl | rfl | rfl <;>
      decide
  have hs : ∃ text, Comment.strip ("if a: /* b\n".toList ++ " */\n\tc(1)".toList) = .ok text ∧
      ∃ line ∈ Text.lines text, isCode line := ⟨_, rfl, _, .head _, rfl⟩
  have hc : checkSource ("if a: /* b\n".toList ++ " */\n\tc(1)".toList) = .ok 1 := by
    decide +kernel
  obtain ⟨-, h⟩ := lex_insert_blank_line ha hw (.inl hs)
  exact ⟨ha, hw, hs, hc, h.trans (by rw [hc]; rfl)⟩

end RookLang
