import RookLang.Proofs.Comments
import RookLang.Proofs.Layout

/-! Texts that are put together where a line ends. Nothing passes from the lines of the first one
to those of the second, but the indentation. -/
namespace RookLang

def Location.down (n : ℕ) (l : Location) : Location := { l with line := l.line + n }

/-- The error, `n` lines further down. -/
def LexError.down (n : ℕ) (e : LexError) : LexError := { e with location := e.location.down n }

def CodeLine.down (n : ℕ) (l : CodeLine) : CodeLine := { l with number := l.number + n }

namespace Layout

variable {a b : List Char} {line : Text.Line} {n : ℕ} {e : LexError} {xs ys : List CodeLine}

theorem readLine_down : readLine (line.down n) =
    ((readLine line).mapError (LexError.down n)).map (CodeLine.down n) := by
  rw [readLine, readLine]
  by_cases hw : Character.isAligned (width (leading line.text))
  · cases hs : Lexeme.scan ((leading line.text).length + 1)
      (line.text.drop (leading line.text).length) <;>
    simp [Text.Line.down, hw, hs] <;> rfl
  · simp [Text.Line.down, hw]
    rfl

/-- Below a complete line, lines of code are the same further down. -/
theorem filter_isCode_append (ha : Text.EndsLine a) : (Text.lines (a ++ b)).filter isCode =
    (Text.lines a).filter isCode ++
      ((Text.lines b).filter isCode).map (Text.Line.down (a.count '\n')) := by
  obtain rfl | ha := ha
  · exact (List.map_id _).symm
  obtain ⟨a, rfl⟩ := List.getLast?_eq_some_iff.mp ha
  have hc : (a ++ ['\n']).count '\n' = a.count '\n' + 1 := by simp
  have hlast : ((Text.lines []).map (Text.Line.down (a.count '\n' + 1))).filter isCode = [] := rfl
  rw [List.append_assoc, List.singleton_append, Text.lines_append, Text.lines_append, hc,
    List.filter_append, List.filter_append, hlast, List.append_nil, List.filter_map]
  rfl

theorem codeLines_append (ha : Text.EndsLine a) : codeLines (a ++ b) = do
    let xs ← codeLines a
    let ys ← (codeLines b).mapError (LexError.down (a.count '\n'))
    return xs ++ ys.map (CodeLine.down (a.count '\n')) := by
  rw [codeLines, filter_isCode_append ha, List.mapM_append, mapM_map fun _ => readLine_down,
    ← codeLines, ← codeLines]
  cases codeLines a with
  | error e => rfl
  | ok xs => cases codeLines b <;> rfl

theorem alike_down (ys : List CodeLine) :
    List.Forall₂ CodeLine.Alike (ys.map (CodeLine.down n)) ys := by
  rw [List.forall₂_map_left_iff, List.forall₂_same]
  exact fun _ _ => ⟨rfl, rfl, rfl⟩

theorem width_head_of_lines {text : List Char} (hx : codeLines text = .ok xs)
    (h : ∀ line ∈ ((Text.lines text).filter isCode).head?, indentation line = 0) :
    ∀ l ∈ xs.head?, l.width = 0 := by
  have hw := congrArg List.head? (map_codeLines hx fun _ _ _ => indentation_eq)
  rw [List.head?_map, List.head?_map] at hw
  intro l hl
  rw [hl, Option.map_some, Option.map_eq_some_iff] at hw
  obtain ⟨line, hline, hi⟩ := hw
  exact hi ▸ h line hline

/-- The kinds and lexemes of tokens. -/
def contents (ts : List Token) : List (Kind × String) := ts.map fun t => (t.kind, t.lexeme)

theorem contents_append (ts us : List Token) :
    contents (ts ++ us) = contents ts ++ contents us := List.map_append

theorem contents_tokens (h : List.Forall₂ CodeLine.Alike xs ys) :
    contents (tokens xs) = contents (tokens ys) := by
  have hc (ts : List Token) : contents ts = (ts.map Token.content).map fun c => (c.1, c.2.1) := by
    simp [contents, Token.content]
  rw [hc, hc, map_content_tokens h]

/-- The tokens are `us` before the end of the input, and for lines that are followed by others,
the first of which is not indented, these come in the place of that end. -/
structure Continues (ts us : List Token) (more : List CodeLine → List Token) : Prop where
  eq_append : ∃ t, ts = us ++ [t] ∧ t.kind = .endOfInput ∧ t.lexeme = ""
  contents_eq {m : CodeLine} {ys : List CodeLine} (hm : m.width = 0) :
    contents (more (m :: ys)) = contents us ++ contents (tokens (m :: ys))

/-- The levels that close at the end of lines close before what follows them, too. -/
theorem continues_tokensAfter (l : CodeLine) (xs : List CodeLine) :
    ∃ us, Continues (tokensAfter l xs) us fun ys => tokensAfter l (xs ++ ys) := by
  induction xs generalizing l with
  | nil =>
    refine ⟨_, ⟨_, rfl, rfl, rfl⟩, fun {m ys} hm => ?_⟩
    have hz : dedentCount 0 0 = 0 := by rw [dedentCount_eq]
    have hd : contents (m.opening l.width) =
        contents (List.replicate (dedentCount l.width 0) (l.token .dedent "" l.finish)) := by
      simp [contents, CodeLine.opening, CodeLine.token, hm]
    have ho : m.opening 0 = [] := by simp [CodeLine.opening, hm, hz]
    rw [List.nil_append, tokensAfter, tokens_cons, CodeLine.tokens, CodeLine.tokens, ho,
      List.nil_append, List.append_assoc, List.append_assoc, contents_append, hd, List.append_assoc]
  | cons x xs ih =>
    obtain ⟨us, ⟨t, ht, hk, hl⟩, hc⟩ := ih x
    refine ⟨x.tokens l.width ++ us, ⟨t, ?_, hk, hl⟩, fun {m ys} hm => ?_⟩
    · rw [tokensAfter, ht, List.append_assoc]
    · rw [List.cons_append, tokensAfter, contents_append, hc hm, contents_append, List.append_assoc]

theorem continues_tokens (xs : List CodeLine) :
    ∃ us, Continues (tokens xs) us fun ys => tokens (xs ++ ys) := by
  cases xs with
  | nil => exact ⟨[], ⟨_, rfl, rfl, rfl⟩, fun _ => rfl⟩
  | cons x xs =>
    obtain ⟨us, ⟨t, ht, hk, hl⟩, hc⟩ := continues_tokensAfter x xs
    refine ⟨x.tokens 0 ++ us, ⟨t, ?_, hk, hl⟩, fun {m ys} hm => ?_⟩
    · rw [tokens_cons, ht, List.append_assoc]
    · rw [List.cons_append, tokens_cons, contents_append, hc hm, contents_append,
        List.append_assoc]

theorem contents_tokens_append (xs : List CodeLine) : ∃ us t, tokens xs = us ++ [t] ∧
    t.kind = .endOfInput ∧ ∀ ys : List CodeLine, (∀ m ∈ ys.head?, m.width = 0) →
      contents (tokens (xs ++ ys)) = contents us ++ contents (tokens ys) := by
  obtain ⟨us, ⟨t, ht, hk, hl⟩, hc⟩ := continues_tokens xs
  refine ⟨us, t, ht, hk, fun ys hy => ?_⟩
  cases ys with
  | nil =>
    rw [List.append_nil, ht, contents_append]
    simp [contents, hk, hl, tokens, closing]
  | cons m ys => exact hc (hy m rfl)

theorem unclosedComment_append {p : Comment.Position} (ha : Text.EndsLine a) (hp : 1 ≤ p.line) :
    LexError.unclosedComment (a ++ b) (p.down (a.count '\n')) =
      (LexError.unclosedComment b p).down (a.count '\n') := by
  simp [LexError.unclosedComment, LexError.down, Location.down, Comment.Position.down,
    Text.shownLine_append ha hp]

theorem lex_append_eq_ok {text text' : List Char} (ha : Text.EndsLine a)
    (hs : Comment.strip a = .ok text) (hxs : codeLines text = .ok xs)
    (hs' : Comment.strip b = .ok text') (hys : codeLines text' = .ok ys) :
    lex (a ++ b) = .ok ⟨tokens (xs ++ ys.map (CodeLine.down (a.count '\n')))⟩ := by
  refine lex_eq_ok_iff.mpr ⟨text ++ text', _, ?_, ?_, rfl⟩
  · rw [Comment.strip_append ha hs, hs']
    rfl
  · rw [codeLines_append (Comment.endsLine_of_strip ha hs), hxs, hys, Comment.count_of_strip ha hs]
    rfl

/-- Lines that follow other ones add their tokens, if the first of them is not indented. -/
theorem contents_tokens_below (xs : List CodeLine) (n : ℕ) : ∃ us t, tokens xs = us ++ [t] ∧
    t.kind = .endOfInput ∧ ∀ ys : List CodeLine, (∀ m ∈ ys.head?, m.width = 0) →
      contents (tokens (xs ++ ys.map (CodeLine.down n))) = contents us ++ contents (tokens ys) := by
  obtain ⟨us, t, ht, hk, hc⟩ := contents_tokens_append xs
  refine ⟨us, t, ht, hk, fun ys hy => ?_⟩
  rw [hc _, contents_tokens (alike_down ys)]
  rw [List.head?_map]
  intro m hm
  obtain ⟨l, hl, rfl⟩ := Option.map_eq_some_iff.mp hm
  exact hy l hl

end Layout

open Layout

/-- Texts that are put together at the end of a line have the tokens of the first one, without its
end, and of the second one, if that starts without indentation. The first error of the first one
is one of both together, and that of the second one if the first one has none, in a line that is
further down. -/
theorem lex_append {a b : List Char} (ha : Text.EndsLine a) :
    (∀ e, lex a = .error e → e.cause ≠ .unterminatedComment →
      (∃ text, Comment.strip b = .ok text) → lex (a ++ b) = .error e) ∧
    (∀ ts e, lex a = .ok ts → lex b = .error e →
      lex (a ++ b) = .error (e.down (a.count '\n'))) ∧
    ∀ ts us text, lex a = .ok ts → lex b = .ok us → Comment.strip b = .ok text →
      (∀ line ∈ ((Text.lines text).filter isCode).head?, indentation line = 0) →
      ∃ vs rest t, lex (a ++ b) = .ok vs ∧ ts.toList = rest ++ [t] ∧ t.kind = .endOfInput ∧
        contents vs.toList = contents rest ++ contents us.toList := by
  refine ⟨fun e hae hcause ⟨text', hb⟩ => ?_, fun ts e hats hbe => ?_,
    fun ts us text' hats hbus hb hfirst => ?_⟩
  · obtain ⟨p, -, rfl⟩ | ⟨text, hs, he⟩ := lex_eq_error_iff.mp hae
    · exact (hcause rfl).elim
    refine lex_eq_error_iff.mpr (.inr ⟨text ++ text', ?_, ?_⟩)
    · rw [Comment.strip_append ha hs, hb]
      rfl
    · rw [codeLines_append (Comment.endsLine_of_strip ha hs), he]
      rfl
  · obtain ⟨text, xs, hs, hxs, -⟩ := lex_eq_ok_iff.mp hats
    obtain ⟨p, hb, rfl⟩ | ⟨text', hb, he⟩ := lex_eq_error_iff.mp hbe
    · refine lex_eq_error_iff.mpr (.inl ⟨p.down (a.count '\n'), ?_, ?_⟩)
      · rw [Comment.strip_append ha hs, hb]
        rfl
      · exact (unclosedComment_append ha (Comment.one_le_line_of_strip hb)).symm
    · refine lex_eq_error_iff.mpr (.inr ⟨text ++ text', ?_, ?_⟩)
      · rw [Comment.strip_append ha hs, hb]
        rfl
      · rw [codeLines_append (Comment.endsLine_of_strip ha hs), hxs, he,
          Comment.count_of_strip ha hs]
        rfl
  · obtain ⟨text, xs, hs, hxs, rfl⟩ := lex_eq_ok_iff.mp hats
    obtain ⟨_, ys, hb', hys, rfl⟩ := lex_eq_ok_iff.mp hbus
    obtain rfl := Except.ok.inj (hb.symm.trans hb')
    obtain ⟨rest, t, hts, ht, hc⟩ := contents_tokens_below xs (a.count '\n')
    exact ⟨_, rest, t, lex_append_eq_ok ha hs hxs hb hys, hts, ht,
      hc ys (width_head_of_lines hys hfirst)⟩

theorem lex_append_block :
    (Text.EndsLine "a_\n".toList ∧ ∃ e, lex "a_\n".toList = .error e ∧
      lex ("a_\n".toList ++ "1.".toList) = .error e) ∧
    Text.EndsLine "if a:\n\tb()\n".toList ∧ ∃ ts, lex "if a:\n\tb()\n".toList = .ok ts ∧
      (∃ e, lex "1.".toList = .error e ∧
        lex ("if a:\n\tb()\n".toList ++ "1.".toList) = .error (e.down 2)) ∧
      ∃ us vs rest t, lex "// two\nc()".toList = .ok us ∧
        lex ("if a:\n\tb()\n".toList ++ "// two\nc()".toList) = .ok vs ∧
        ts.toList = rest ++ [t] ∧ t.kind = .endOfInput ∧
        contents vs.toList = contents rest ++ contents us.toList := by
  have ha : Text.EndsLine "a_\n".toList := .inr (by decide)
  have hb : Text.EndsLine "if a:\n\tb()\n".toList := .inr (by decide)
  obtain ⟨e, he⟩ : ∃ e, lex "a_\n".toList = .error e := ⟨_, rfl⟩
  obtain ⟨ts, hts⟩ : ∃ ts, lex "if a:\n\tb()\n".toList = .ok ts := ⟨_, rfl⟩
  obtain ⟨f, hf⟩ : ∃ f, lex "1.".toList = .error f := ⟨_, rfl⟩
  obtain ⟨us, hus⟩ : ∃ us, lex "// two\nc()".toList = .ok us := ⟨_, rfl⟩
  have hc : e.cause ≠ .unterminatedComment := by
    obtain rfl := Except.error.inj he
    decide
  have hs : Comment.strip "// two\nc()".toList = .ok "\nc()".toList := by decide
  have hn : "if a:\n\tb()\n".toList.count '\n' = 2 := by decide
  obtain ⟨hfirst, -, -⟩ := lex_append (b := "1.".toList) ha
  obtain ⟨-, hsecond, -⟩ := lex_append (b := "1.".toList) hb
  obtain ⟨-, -, hboth⟩ := lex_append (b := "// two\nc()".toList) hb
  obtain ⟨vs, rest, t, hvs, h⟩ := hboth ts us _ hts hus hs (by decide)
  exact ⟨⟨ha, e, he, hfirst e he hc ⟨_, by rfl⟩⟩, hb, ts, hts,
    ⟨f, hf, hn ▸ hsecond ts f hts hf⟩, us, vs, rest, t, hus, hvs, h⟩

end RookLang
