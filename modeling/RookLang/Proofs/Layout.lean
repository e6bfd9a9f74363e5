import RookLang.Proofs.Lex

/-! The layout of tokens: what opens, ends and closes lines of code, and in which order. -/
namespace RookLang

/-- What a token is apart from its place. -/
def Token.content (t : Token) : Kind × String × ℕ := (t.kind, t.lexeme, t.indentLevel)

/-- The lines hold the same, perhaps in other places. -/
structure CodeLine.Alike (l m : CodeLine) : Prop where
  width : l.width = m.width
  lexemes : l.lexemes.map (fun x => (x.kind, x.text)) = m.lexemes.map fun x => (x.kind, x.text)
  terminated : l.terminated = m.terminated

/-- The lines hold the same for what `f` tells of tokens, which is not in which column they are. -/
structure CodeLine.AlikeFor {α : Type} (f : Token → α) (l m : CodeLine) : Prop
    extends l.Alike m where
  token kind lexeme column column' :
    f (l.token kind lexeme column) = f (m.token kind lexeme column')

namespace Layout
open Lexeme

variable {text : List Char} {line : Text.Line} {lines : List CodeLine} {l : CodeLine}
  {before : ℕ}

/-- One level closes for each unit that is begun. -/
theorem dedentCount_eq (old new : ℕ) : dedentCount old new = (old - new + 3) / 4 := by
  induction old using Nat.strongRecOn with
  | ind old ih =>
    rw [dedentCount]
    split
    · rw [ih _ (by simp only [Character.indentUnit]; omega)]
      simp only [Character.indentUnit]
      omega
    · omega

theorem dedentCount_of_dvd {old new : ℕ} (ho : 4 ∣ old) (hn : 4 ∣ new) :
    4 * dedentCount old new = old - new := by
  rw [dedentCount_eq]
  omega

/-- By how much the indentation rises over lines of these widths, after one of width `before`. -/
def rise (before : ℕ) : List ℕ → ℕ
  | [] => 0
  | w :: ws => w - before + rise w ws

/-- The levels that open or close for a line all stand before it. -/
theorem countP_line (h : l.WellFormed) {k : Kind} (hk : k.isLayout) (hn : k ≠ .newline) :
    (l.tokens before).countP (·.kind == k) = (l.opening before).countP (·.kind == k) := by
  have hb : l.body.countP (·.kind == k) = 0 := by
    rw [List.countP_eq_zero]
    intro t ht
    rw [beq_iff_eq]
    rintro rfl
    simp [isLayout_body h t ht] at hk
  have he : l.ending.countP (·.kind == k) = 0 := by
    unfold CodeLine.ending
    split <;> simp [CodeLine.token, hn.symm]
  rw [CodeLine.tokens, List.countP_append, List.countP_append, hb, he]
  rfl

theorem countP_dedent_line (h : l.WellFormed) (hb : 4 ∣ before) :
    4 * (l.tokens before).countP (·.kind == .dedent) = before - l.width := by
  rw [countP_line (k := .dedent) h rfl nofun, CodeLine.opening]
  split
  · simp [CodeLine.token]
    omega
  · rw [List.countP_replicate, if_pos (by rfl), dedentCount_of_dvd hb h.aligned]

theorem countP_dedent_tokensAfter (hl : l.WellFormed) (h : ∀ m ∈ lines, m.WellFormed) :
    4 * (tokensAfter l lines).countP (·.kind == .dedent) =
      l.width + rise l.width (lines.map (·.width)) := by
  induction lines generalizing l with
  | nil =>
    have hc := dedentCount_of_dvd hl.aligned (Nat.dvd_zero 4)
    simpa [tokensAfter, CodeLine.closing, CodeLine.token, rise, List.countP_replicate] using hc
  | cons m lines ih =>
    obtain ⟨hm, h⟩ := List.forall_mem_cons.mp h
    rw [tokensAfter, List.countP_append, Nat.mul_add, countP_dedent_line hm hl.aligned, ih hm h,
      List.map_cons, rise]
    omega

/-- Levels close as much as the indentation rises. -/
theorem countP_dedent_tokens (h : ∀ l ∈ lines, l.WellFormed) :
    4 * (tokens lines).countP (·.kind == .dedent) = rise 0 (lines.map (·.width)) := by
  cases lines with
  | nil => rfl
  | cons l lines =>
    obtain ⟨hl, h⟩ := List.forall_mem_cons.mp h
    rw [tokens_cons, List.countP_append, Nat.mul_add, countP_dedent_line hl (Nat.dvd_zero 4),
      countP_dedent_tokensAfter hl h, List.map_cons, rise]
    omega

theorem mem_line (h : l.WellFormed) {t : Token} (ht : t ∈ l.tokens before) :
    t.kind ≠ .endOfInput ∧ t.line = l.number ∧ t.column ≤ l.finish := by
  have hs : l.start ≤ l.finish := by
    obtain ⟨x, hx⟩ := List.exists_mem_of_ne_nil _ h.lexemes_ne_nil
    exact (h.start_le x hx).trans (h.lt_finish x hx).le
  rcases List.mem_append.mp ht with ht | ht
  · rcases List.mem_append.mp ht with ht | ht
    · rcases mem_opening ht with rfl | rfl <;> exact ⟨nofun, rfl, hs⟩
    · have hk := isLayout_body h t ht
      obtain ⟨x, hx, rfl⟩ := List.mem_map.mp ht
      refine ⟨fun he => ?_, rfl, (h.lt_finish x hx).le⟩
      simp [he, Kind.isLayout] at hk
  · obtain rfl := mem_ending ht
    exact ⟨nofun, rfl, Nat.le_refl _⟩

/-- The end of the input comes once, as the last token. -/
theorem tokensAfter_eq_append (h : ∀ m ∈ lines, m.WellFormed) : ∃ ts t,
    tokensAfter l lines = ts ++ [t] ∧ t.kind = .endOfInput ∧ ∀ u ∈ ts, u.kind ≠ .endOfInput := by
  induction lines generalizing l with
  | nil =>
    refine ⟨_, _, rfl, rfl, fun u hu => ?_⟩
    rw [List.eq_of_mem_replicate hu]
    nofun
  | cons m lines ih =>
    obtain ⟨hm, h⟩ := List.forall_mem_cons.mp h
    obtain ⟨ts, t, hts, ht, hne⟩ := ih (l := m) h
    refine ⟨m.tokens l.width ++ ts, t, by rw [tokensAfter, hts, List.append_assoc], ht, ?_⟩
    exact List.forall_mem_append.mpr ⟨fun u hu => (mem_line hm hu).1, hne⟩

theorem tokens_eq_append (h : ∀ l ∈ lines, l.WellFormed) : ∃ ts t,
    tokens lines = ts ++ [t] ∧ t.kind = .endOfInput ∧ ∀ u ∈ ts, u.kind ≠ .endOfInput := by
  cases lines with
  | nil => exact ⟨[], _, rfl, rfl, by simp⟩
  | cons l lines =>
    obtain ⟨hl, h⟩ := List.forall_mem_cons.mp h
    obtain ⟨ts, t, hts, ht, hne⟩ := tokensAfter_eq_append (l := l) h
    refine ⟨l.tokens 0 ++ ts, t, by rw [tokens_cons, hts, List.append_assoc], ht, ?_⟩
    exact List.forall_mem_append.mpr ⟨fun u hu => (mem_line hl hu).1, hne⟩

/-- The first of the tokens stands before the second, or in its place. -/
def InOrder (t u : Token) : Prop := t.line < u.line ∨ t.line = u.line ∧ t.column ≤ u.column

theorem inOrder_line (h : l.WellFormed) : (l.tokens before).Pairwise InOrder := by
  rw [CodeLine.tokens, List.pairwise_append, List.pairwise_append]
  refine ⟨⟨?_, ?_, ?_⟩, ?_, ?_⟩
  · refine List.pairwise_of_forall_mem_list fun t ht u hu => .inr ?_
    rcases mem_opening ht with rfl | rfl <;> rcases mem_opening hu with rfl | rfl <;>
      exact ⟨rfl, Nat.le_refl _⟩
  · exact List.pairwise_map.mpr (h.sorted.imp fun hc => .inr ⟨rfl, hc⟩)
  · intro t ht u hu
    obtain ⟨x, hx, rfl⟩ := List.mem_map.mp hu
    rcases mem_opening ht with rfl | rfl <;> exact .inr ⟨rfl, h.start_le x hx⟩
  · refine List.pairwise_of_forall_mem_list fun t ht u hu => .inr ?_
    rw [mem_ending ht, mem_ending hu]
    exact ⟨rfl, Nat.le_refl _⟩
  · intro t ht u hu
    have ht : t ∈ l.tokens before := List.mem_append_left _ ht
    rw [mem_ending hu]
    exact .inr (mem_line h ht).2

theorem inOrder_tokensAfter (h : ∀ m ∈ lines, m.WellFormed)
    (hn : (l :: lines).Pairwise (·.number < ·.number)) :
    (tokensAfter l lines).Pairwise InOrder ∧
      ∀ t ∈ tokensAfter l lines, l.number < t.line ∨ l.number = t.line ∧ l.finish ≤ t.column := by
  induction lines generalizing l with
  | nil =>
    refine ⟨List.pairwise_of_forall_mem_list fun t ht u hu => .inr ?_, fun t ht => .inr ?_⟩
    · rcases mem_closing ht with rfl | rfl <;> rcases mem_closing hu with rfl | rfl <;>
        exact ⟨rfl, Nat.le_refl _⟩
    · rcases mem_closing ht with rfl | rfl <;> exact ⟨rfl, Nat.le_refl _⟩
  | cons m lines ih =>
    obtain ⟨hm, h⟩ := List.forall_mem_cons.mp h
    obtain ⟨hl, hn⟩ := List.pairwise_cons.mp hn
    have hlm : l.number < m.number := hl m (by simp)
    obtain ⟨hp, hafter⟩ := ih h hn
    rw [tokensAfter, List.pairwise_append, List.forall_mem_append]
    refine ⟨⟨inOrder_line hm, hp, fun t ht u hu => ?_⟩, fun t ht => ?_, fun t ht => ?_⟩
    · obtain ⟨-, htl, htc⟩ := mem_line hm ht
      have := hafter u hu
      unfold InOrder
      omega
    · exact .inl ((mem_line hm ht).2.1 ▸ hlm)
    · have := hafter t ht
      omega

/-- Tokens stand in the order of the text. -/
theorem inOrder_tokens (h : ∀ l ∈ lines, l.WellFormed)
    (hn : lines.Pairwise (·.number < ·.number)) : (tokens lines).Pairwise InOrder := by
  cases lines with
  | nil => exact List.pairwise_singleton ..
  | cons l lines =>
    obtain ⟨hl, h⟩ := List.forall_mem_cons.mp h
    obtain ⟨hp, hafter⟩ := inOrder_tokensAfter h hn
    rw [tokens_cons, List.pairwise_append]
    refine ⟨inOrder_line hl, hp, fun t ht u hu => ?_⟩
    obtain ⟨-, htl, htc⟩ := mem_line hl ht
    have := hafter u hu
    unfold InOrder
    omega

section
variable {α : Type} {f : Token → α} {m : CodeLine} {lines' : List CodeLine}

theorem map_line (h : l.AlikeFor f m) : (l.tokens before).map f = (m.tokens before).map f := by
  have hopen : (l.opening before).map f = (m.opening before).map f := by
    simp only [CodeLine.opening, h.width]
    split <;> simp [h.token _ _ l.start m.start]
  have hbody : l.body.map f = m.body.map f := by
    have hx := h.lexemes
    rw [← List.forall₂_eq_eq_eq, List.forall₂_map_left_iff, List.forall₂_map_right_iff] at hx
    rw [CodeLine.body, CodeLine.body, List.map_map, List.map_map, ← List.forall₂_eq_eq_eq,
      List.forall₂_map_left_iff, List.forall₂_map_right_iff]
    refine hx.imp fun x y hxy => ?_
    obtain ⟨hk, ht⟩ := Prod.mk.inj hxy
    rw [Function.comp_apply, Function.comp_apply, hk, ht]
    exact h.token ..
  have hend : l.ending.map f = m.ending.map f := by
    simp only [CodeLine.ending, h.terminated]
    split <;> simp [h.token _ _ l.finish m.finish]
  simp only [CodeLine.tokens, List.map_append, hopen, hend, hbody]

theorem map_closing (h : l.AlikeFor f m) : l.closing.map f = m.closing.map f := by
  simp [CodeLine.closing, h.width, h.token _ _ l.finish m.finish]

theorem map_tokensAfter (h : l.AlikeFor f m)
    (hs : List.Forall₂ (CodeLine.AlikeFor f) lines lines') :
    (tokensAfter l lines).map f = (tokensAfter m lines').map f := by
  induction hs generalizing l m with
  | nil => exact map_closing h
  | cons h' _ ih =>
    rw [tokensAfter, tokensAfter, List.map_append, List.map_append, map_line h', h.width, ih h']

/-- The tokens of lines that hold the same are the same, perhaps in other columns. -/
theorem map_tokens (hs : List.Forall₂ (CodeLine.AlikeFor f) lines lines') :
    (tokens lines).map f = (tokens lines').map f := by
  cases hs with
  | nil => rfl
  | cons h hs =>
    rw [tokens_cons, tokens_cons, List.map_append, List.map_append, map_line h,
      map_tokensAfter h hs]

theorem map_content_tokens (h : List.Forall₂ CodeLine.Alike lines lines') :
    (tokens lines).map Token.content = (tokens lines').map Token.content :=
  map_tokens (h.imp fun l m h => ⟨h, fun _ _ _ _ => by
    simp [CodeLine.token, Token.content, h.width]⟩)

end

/-- The width of the indentation of a line. -/
def indentation (line : Text.Line) : ℕ := width (leading line.text)

/-- A token of layout in a line. -/
def mark (line : Text.Line) (kind : Kind) (column : ℕ) : Token :=
  ⟨kind, "", line.number, column, String.ofList line.text, indentation line⟩

/-- Tokens of a line, apart from layout. -/
structure IsBody (line : Text.Line) (ts : List Token) : Prop where
  ne_nil : ts ≠ []
  kinds : ∀ t ∈ ts, t.kind.isLayout = false
  places : ∀ t ∈ ts, t.line = line.number ∧ t.lineText = String.ofList line.text ∧
    t.indentLevel = indentation line

/-- The levels that open or close before a line, after one of width `before`. -/
def levels (line : Text.Line) (before column : ℕ) : List Token :=
  if before < indentation line then [mark line .indent column]
  else List.replicate ((before - indentation line) / 4) (mark line .dedent column)

/-- The tokens of lines of code after the line `prev`, in a text whose last line is `last`. -/
inductive Skeleton (last : ℕ) : Option Text.Line → List Text.Line → List Token → Prop
  | empty : Skeleton last none [] [⟨.endOfInput, "", 1, 1, "", 0⟩]
  | close {prev column} (he : EndsAt prev.text column) : Skeleton last (some prev) []
    (List.replicate (indentation prev / 4) (mark prev .dedent column) ++
      [mark prev .endOfInput column])
  | line {prev line lines start finish body ts} (hs : StartsAt line.text start)
    (he : EndsAt line.text finish) (hb : IsBody line body)
    (h : Skeleton last (some line) lines ts) : Skeleton last prev (line :: lines)
      (levels line (prev.elim 0 indentation) start ++ body ++
        (if line.number = last then [] else [mark line .newline finish]) ++ ts)

variable {code : List Text.Line} {last : ℕ} {prev : Option Text.Line} {ts : List Token}

theorem dedentCount_eq_div {old new : ℕ} (ho : 4 ∣ old) (hn : 4 ∣ new) :
    dedentCount old new = (old - new) / 4 := by
  have := dedentCount_of_dvd ho hn
  omega

theorem indentation_eq (hr : readLine line = .ok l) : indentation line = l.width := by
  rw [(readLine_eq_ok_iff.mp hr).2, indentation]

theorem isBody_body (hr : readLine line = .ok l) (hc : isCode line) : IsBody line l.body := by
  have hw := wellFormed_of_readLine hc hr
  have hi := indentation_eq hr
  have hl := (readLine_eq_ok_iff.mp hr).2
  refine ⟨body_ne_nil hw, isLayout_body hw, fun t ht => ?_⟩
  obtain ⟨x, -, rfl⟩ := List.mem_map.mp ht
  exact ⟨by rw [hl]; rfl, by rw [hl]; rfl, hi.symm⟩

theorem opening_eq (hr : readLine line = .ok l) (hc : isCode line) (hb : 4 ∣ before) :
    l.opening before = levels line before l.start := by
  have hd := dedentCount_eq_div hb (wellFormed_of_readLine hc hr).aligned
  have ht kind column : l.token kind "" column = mark line kind column := by
    rw [(readLine_eq_ok_iff.mp hr).2]
    rfl
  rw [CodeLine.opening, levels, hd, indentation_eq hr, ht, ht]

theorem Skeleton.of_readLine (hr : readLine line = .ok l) (hc : isCode line)
    (ht : line.terminated ↔ line.number ≠ last) (hp : 4 ∣ prev.elim 0 indentation)
    (h : Skeleton last (some line) code ts) :
    Skeleton last prev (line :: code) (l.tokens (prev.elim 0 indentation) ++ ts) := by
  obtain ⟨hcut, hl⟩ := readLine_eq_ok_iff.mp hr
  have hs : StartsAt line.text l.start := hl ▸ startsAt_of_cutsLine hcut hc
  have he : EndsAt line.text l.finish := hl ▸ endsAt_inkLength hc
  have hend : l.ending = if line.number = last then [] else [mark line .newline l.finish] := by
    rw [CodeLine.ending, mark, indentation, hl]
    by_cases hn : line.number = last <;> simp [ht, hn, CodeLine.token]
  rw [CodeLine.tokens, opening_eq hr hc hp, hend]
  exact .line hs he (isBody_body hr hc) h

theorem skeleton_tokensAfter (h : List.Forall₂ (fun line l => readLine line = .ok l) code lines)
    (hc : ∀ line ∈ code, isCode line ∧ (line.terminated ↔ line.number ≠ last))
    (hr : readLine line = .ok l) (hl : isCode line) :
    Skeleton last (some line) code (tokensAfter l lines) := by
  have ha := (wellFormed_of_readLine hl hr).aligned
  have hi := indentation_eq hr
  induction h generalizing line l with
  | nil =>
    have he : EndsAt line.text l.finish := by
      rw [(readLine_eq_ok_iff.mp hr).2]
      exact endsAt_inkLength hl
    have ht kind : l.token kind "" l.finish = mark line kind l.finish := by
      rw [(readLine_eq_ok_iff.mp hr).2]
      rfl
    rw [tokensAfter, CodeLine.closing, ht, ht, dedentCount_eq_div ha (Nat.dvd_zero 4), ← hi]
    exact .close he
  | @cons next m code lines hm h ih =>
    obtain ⟨⟨hcm, ht⟩, hc⟩ := List.forall_mem_cons.mp hc
    have hw := (wellFormed_of_readLine hcm hm).aligned
    have hrest := ih hc hm hcm hw (indentation_eq hm)
    rw [tokensAfter, ← hi]
    have hp : 4 ∣ (some line).elim 0 indentation := by rwa [Option.elim_some, hi]
    exact .of_readLine hm hcm ht hp hrest

theorem skeleton_tokens (h : List.Forall₂ (fun line l => readLine line = .ok l) code lines)
    (hc : ∀ line ∈ code, isCode line ∧ (line.terminated ↔ line.number ≠ last)) :
    Skeleton last none code (tokens lines) := by
  cases h with
  | nil => exact .empty
  | @cons line l code lines hr h =>
    obtain ⟨⟨hl, ht⟩, hc⟩ := List.forall_mem_cons.mp hc
    rw [tokens_cons]
    exact .of_readLine hr hl ht (Nat.dvd_zero 4) (skeleton_tokensAfter h hc hr hl)

end Layout

open Layout

/-- The tokens of a text are those of its lines of code in order, between what opens, ends and
closes them. They stand in the order of the text, the end of the input is the last of them and of
no other place, and levels close as much as the indentation rises. -/
theorem lex_layout {source : List Char} {ts : TokenStream} (h : lex source = .ok ts) :
    ∃ text, Comment.strip source = .ok text ∧
      Skeleton (Text.pieces text).length none ((Text.lines text).filter isCode) ts.toList ∧
      ts.toList.Pairwise InOrder ∧
      (∃ us t, ts.toList = us ++ [t] ∧ t.kind = .endOfInput ∧ ∀ u ∈ us, u.kind ≠ .endOfInput) ∧
      4 * ts.toList.countP (·.kind == .dedent) =
        rise 0 (((Text.lines text).filter isCode).map indentation) := by
  obtain ⟨text, lines, hs, hl, rfl⟩ := lex_eq_ok_iff.mp h
  have hw := wellFormed_of_mem hl
  have hr := codeLines_eq_ok_iff.mp hl
  refine ⟨text, hs, skeleton_tokens hr ?_, inOrder_tokens hw (pairwise_codeLines hl),
    tokens_eq_append hw, ?_⟩
  · intro line hline
    obtain ⟨hm, hc⟩ := List.mem_filter.mp hline
    exact ⟨hc, Text.terminated_iff hm⟩
  · rw [map_codeLines hl fun _ _ _ => indentation_eq]
    exact countP_dedent_tokens hw

theorem lex_layout_block : ∃ ts, lex "if a:\n\tb()\n\n".toList = .ok ts ∧
    4 * ts.toList.countP (·.kind == .dedent) = 4 := by
  obtain ⟨ts, h⟩ : ∃ ts, lex "if a:\n\tb()\n\n".toList = .ok ts := ⟨_, rfl⟩
  have hs : Comment.strip "if a:\n\tb()\n\n".toList = .ok "if a:\n\tb()\n\n".toList := by decide
  obtain ⟨text, ht, -, -, -, hd⟩ := lex_layout h
  obtain rfl := Except.ok.inj (hs.symm.trans ht)
  exact ⟨ts, h, hd.trans (by decide)⟩

end RookLang
