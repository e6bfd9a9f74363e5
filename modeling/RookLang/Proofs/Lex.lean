import RookLang.Proofs.Lines

/-! The tokens of a text: which texts have tokens, and what each line of code adds to them. -/
namespace RookLang

namespace Text

variable {text : List Char}

/-- Lines are numbered in order. -/
theorem pairwise_lines : (lines text).Pairwise (·.number < ·.number) := by
  rw [List.pairwise_iff_getElem]
  intro i j hi hj hij
  simp only [lines, List.getElem_map, List.getElem_zipIdx]
  omega

theorem number_le {line : Line} (h : line ∈ lines text) : line.number ≤ (pieces text).length := by
  obtain ⟨⟨piece, n⟩, hm, rfl⟩ := List.mem_map.mp h
  exact Nat.le_of_lt_succ (List.snd_lt_of_mem_zipIdx hm)

/-- Every line but the last one is terminated. -/
theorem terminated_iff {line : Line} (h : line ∈ lines text) :
    line.terminated ↔ line.number ≠ (pieces text).length := by
  obtain ⟨⟨piece, n⟩, hm, rfl⟩ := List.mem_map.mp h
  have := List.snd_lt_of_mem_zipIdx hm
  simp
  omega

end Text

namespace Layout
open Lexeme

variable {source text : List Char} {lines : List CodeLine} {l : CodeLine} {ls ls' : List Lexeme}
  {before : ℕ} {ts : TokenStream}

theorem cutsLine_unique (h : CutsLine text ls) (h' : CutsLine text ls') : ls = ls' :=
  (cutsLine_iff.mp h).2.unique (cutsLine_iff.mp h').2

theorem codeLines_eq_ok_iff : codeLines text = .ok lines ↔
    List.Forall₂ (fun line l => readLine line = .ok l) ((Text.lines text).filter isCode) lines :=
  mapM_eq_ok_iff

theorem exists_codeLines_iff : (∃ lines, codeLines text = .ok lines) ↔
    ∀ line ∈ Text.lines text, isCode line → ∃ ls, CutsLine line.text ls := by
  rw [codeLines, exists_mapM_eq_ok_iff]
  simp only [List.mem_filter, and_imp]
  refine forall₃_congr fun line _ _ => ?_
  constructor
  · rintro ⟨l, h⟩
    exact ⟨l.lexemes, (readLine_eq_ok_iff.mp h).1⟩
  · rintro ⟨ls, h⟩
    exact ⟨⟨_, _, _, _, ls, _, _⟩, readLine_eq_ok_iff.mpr ⟨h, rfl⟩⟩

/-- Where lines read alike, so do texts. -/
theorem codeLines_congr {R : Text.Line → Text.Line → Prop} {S : CodeLine → CodeLine → Prop}
    (hr : List.Forall₂ R (Text.lines text) (Text.lines text'))
    (hc : ∀ line line', R line line' → isCode line = isCode line')
    (hs : ∀ line line' l, R line line' → readLine line = .ok l →
      ∃ m, readLine line' = .ok m ∧ S l m)
    (h : codeLines text = .ok lines) :
    ∃ ms, codeLines text' = .ok ms ∧ List.Forall₂ S lines ms := by
  simp only [codeLines_eq_ok_iff] at h ⊢
  generalize Text.lines text = xs at hr h
  generalize Text.lines text' = ys at hr ⊢
  induction hr generalizing lines with
  | nil =>
    cases h
    exact ⟨[], .nil, .nil⟩
  | @cons line line' xs ys hline hr ih =>
    rw [List.filter_cons] at h
    rw [List.filter_cons, ← hc _ _ hline]
    split at h
    · obtain - | ⟨hl, h⟩ := h
      obtain ⟨ms, hms, hss⟩ := ih h
      obtain ⟨m, hm, hsm⟩ := hs _ _ _ hline hl
      rw [if_pos ‹_›]
      exact ⟨m :: ms, .cons hm hms, .cons hsm hss⟩
    · rw [if_neg ‹_›]
      exact ih h

theorem lex_eq_ok_iff : lex source = .ok ts ↔ ∃ text lines, Comment.strip source = .ok text ∧
    codeLines text = .ok lines ∧ ts = ⟨tokens lines⟩ := by
  cases hs : Comment.strip source with
  | error p => simp [lex, hs]
  | ok text =>
    cases hc : codeLines text with
    | error e => simp [lex, hs, lexStripped, hc, Except.map]
    | ok lines => simp [lex, hs, lexStripped, hc, Except.map, eq_comm]

theorem lex_eq_error_iff {e : LexError} : lex source = .error e ↔
    (∃ p, Comment.strip source = .error p ∧ e = .unclosedComment source p) ∨
      ∃ text, Comment.strip source = .ok text ∧ codeLines text = .error e := by
  cases hs : Comment.strip source with
  | error p => simp [lex, hs, eq_comm]
  | ok text => cases hc : codeLines text <;> simp [lex, hs, lexStripped, hc, Except.map]

/-- The tokens that come after those of the line `l`. -/
def tokensAfter (l : CodeLine) : List CodeLine → List Token
  | [] => l.closing
  | m :: lines => m.tokens l.width ++ tokensAfter m lines

theorem tokens_cons : tokens (l :: lines) = l.tokens 0 ++ tokensAfter l lines := by
  have h : tokensAfter l lines = (lines.zip (l.width :: lines.map (·.width))).flatMap
      (fun p => p.1.tokens p.2) ++ closing (l :: lines) := by
    induction lines generalizing l with
    | nil => rfl
    | cons m lines ih => simp [tokensAfter, ih, closing]
  simp [tokens, h]

theorem mem_opening {t : Token} (ht : t ∈ l.opening before) :
    t = l.token .indent "" l.start ∨ t = l.token .dedent "" l.start := by
  unfold CodeLine.opening at ht
  split at ht
  · exact .inl (List.mem_singleton.mp ht)
  · exact .inr (List.eq_of_mem_replicate ht)

theorem mem_ending {t : Token} (ht : t ∈ l.ending) : t = l.token .newline "" l.finish := by
  unfold CodeLine.ending at ht
  split at ht
  · exact List.mem_singleton.mp ht
  · cases ht

theorem mem_closing {t : Token} (ht : t ∈ l.closing) :
    t = l.token .dedent "" l.finish ∨ t = l.token .endOfInput "" l.finish := by
  rcases List.mem_append.mp ht with ht | ht
  · exact .inl (List.eq_of_mem_replicate ht)
  · exact .inr (List.mem_singleton.mp ht)

/-- All tokens that have a text are those of lexemes. -/
theorem eq_empty_or_mem_body {t : Token} (ht : t ∈ tokens lines) :
    t.lexeme = "" ∨ ∃ l ∈ lines, t ∈ l.body := by
  rcases List.mem_append.mp ht with ht | ht
  · obtain ⟨⟨l, before⟩, hl, ht⟩ := List.mem_flatMap.mp ht
    simp only [CodeLine.tokens, List.mem_append] at ht
    rcases ht with (ht | ht) | ht
    · rcases mem_opening ht with rfl | rfl <;> exact .inl rfl
    · exact .inr ⟨l, (List.of_mem_zip hl).1, ht⟩
    · rw [mem_ending ht]
      exact .inl rfl
  · left
    unfold closing at ht
    split at ht
    · rcases mem_closing ht with rfl | rfl <;> rfl
    · rw [List.mem_singleton.mp ht]

theorem body_ne_nil (h : l.WellFormed) : l.body ≠ [] := by
  simpa [CodeLine.body] using h.lexemes_ne_nil

theorem isLayout_body (h : l.WellFormed) : ∀ t ∈ l.body, t.kind.isLayout = false := by
  intro t ht
  obtain ⟨x, hx, rfl⟩ := List.mem_map.mp ht
  exact h.kinds x hx

theorem filter_line (h : l.WellFormed) : (l.tokens before).filter (!·.kind.isLayout) = l.body := by
  have ho : (l.opening before).filter (!·.kind.isLayout) = [] := by
    rw [List.filter_eq_nil_iff]
    intro t ht
    rcases mem_opening ht with rfl | rfl <;> nofun
  have he : l.ending.filter (!·.kind.isLayout) = [] := by
    rw [List.filter_eq_nil_iff]
    intro t ht
    obtain rfl := mem_ending ht
    nofun
  have hb : l.body.filter (!·.kind.isLayout) = l.body := by simpa using isLayout_body h
  simp [CodeLine.tokens, ho, he, hb]

theorem filter_tokensAfter (h : ∀ m ∈ lines, m.WellFormed) :
    (tokensAfter l lines).filter (!·.kind.isLayout) = lines.flatMap (·.body) := by
  induction lines generalizing l with
  | nil =>
    rw [tokensAfter, List.flatMap_nil, List.filter_eq_nil_iff]
    intro t ht
    rcases mem_closing ht with rfl | rfl <;> nofun
  | cons m lines ih =>
    obtain ⟨hm, h⟩ := List.forall_mem_cons.mp h
    rw [tokensAfter, List.filter_append, filter_line hm, ih h, List.flatMap_cons]

/-- Apart from layout, the tokens are those of the lexemes. -/
theorem filter_tokens (h : ∀ l ∈ lines, l.WellFormed) :
    (tokens lines).filter (!·.kind.isLayout) = lines.flatMap (·.body) := by
  cases lines with
  | nil => rfl
  | cons l lines =>
    obtain ⟨hl, h⟩ := List.forall_mem_cons.mp h
    rw [tokens_cons, List.filter_append, filter_line hl, filter_tokensAfter h, List.flatMap_cons]

/-- The lexemes of a line are the tokens with its number, apart from layout. -/
theorem filter_body (hp : lines.Pairwise (·.number < ·.number)) (hl : l ∈ lines) :
    (lines.flatMap (·.body)).filter (·.line == l.number) = l.body := by
  have hbody (m : CodeLine) : m.body.filter (·.line == l.number) =
      if m.number = l.number then m.body else [] := by
    split <;> simp_all [CodeLine.body, CodeLine.token]
  have hother (ms : List CodeLine) (hm : ∀ m ∈ ms, m.number ≠ l.number) :
      (ms.flatMap (·.body)).filter (·.line == l.number) = [] := by
    rw [List.filter_flatMap, List.flatMap_eq_nil_iff]
    intro m hms
    rw [hbody, if_neg (hm m hms)]
  obtain ⟨pre, post, rfl⟩ := List.append_of_mem hl
  rw [List.pairwise_append, List.pairwise_cons] at hp
  obtain ⟨-, ⟨hpost, -⟩, hpre⟩ := hp
  have hpre := hother pre fun m hm => (hpre m hm l (by simp)).ne
  have hpost := hother post fun m hm => (hpost m hm).ne'
  simp [hpre, hpost, hbody]

theorem map_codeLines {α : Type} {f : Text.Line → α} {g : CodeLine → α}
    (h : codeLines text = .ok lines)
    (hfg : ∀ line, ∀ l ∈ lines, readLine line = .ok l → f line = g l) :
    ((Text.lines text).filter isCode).map f = lines.map g := by
  rw [codeLines_eq_ok_iff] at h
  generalize (Text.lines text).filter isCode = code at h ⊢
  induction h with
  | nil => rfl
  | cons hl _ ih =>
    obtain ⟨hf, hfg⟩ := List.forall_mem_cons.mp fun l hl line => hfg line l hl
    rw [List.map_cons, List.map_cons, hf _ hl, ih fun line l hl => hfg l hl line]

theorem pairwise_codeLines (h : codeLines text = .ok lines) :
    lines.Pairwise (·.number < ·.number) := by
  have hn := map_codeLines (f := Text.Line.number) (g := CodeLine.number) h fun line l _ hr => by
    rw [(readLine_eq_ok_iff.mp hr).2]
  rw [← List.pairwise_map (f := CodeLine.number) (R := (· < ·)), ← hn, List.pairwise_map]
  exact Text.pairwise_lines.filter isCode

theorem exists_codeLine (h : codeLines text = .ok lines) {line : Text.Line}
    (hl : line ∈ Text.lines text) (hc : isCode line) : ∃ l ∈ lines, readLine line = .ok l := by
  rw [codeLines_eq_ok_iff] at h
  have hm : line ∈ (Text.lines text).filter isCode := List.mem_filter.mpr ⟨hl, hc⟩
  generalize (Text.lines text).filter isCode = code at h hm
  induction h with
  | nil => cases hm
  | @cons _ l _ _ hr _ ih =>
    rcases List.mem_cons.mp hm with rfl | hm
    · exact ⟨l, by simp, hr⟩
    · obtain ⟨l, hl, hr⟩ := ih hm
      exact ⟨l, by simp [hl], hr⟩

theorem readLine_of_mem (h : codeLines text = .ok lines) (hl : l ∈ lines) :
    ∃ line ∈ Text.lines text, isCode line ∧ readLine line = .ok l := by
  rw [codeLines_eq_ok_iff] at h
  have hm line (hl : line ∈ (Text.lines text).filter isCode) := List.mem_filter.mp hl
  generalize (Text.lines text).filter isCode = code at h hm
  induction h with
  | nil => cases hl
  | @cons line _ _ _ hr _ ih =>
    rcases List.mem_cons.mp hl with rfl | hl
    · exact ⟨line, (hm line (by simp)).1, (hm line (by simp)).2, hr⟩
    · exact ih hl fun line hl => hm line (by simp [hl])

theorem wellFormed_of_mem (h : codeLines text = .ok lines) : ∀ l ∈ lines, l.WellFormed := by
  intro l hl
  obtain ⟨line, -, hc, hr⟩ := readLine_of_mem h hl
  exact wellFormed_of_readLine hc hr

theorem mem_tokens {l : CodeLine} {x : Lexeme} (h : codeLines text = .ok lines) (hl : l ∈ lines)
    (hx : x ∈ l.lexemes) : l.token x.kind (String.ofList x.text) x.column ∈ tokens lines := by
  have hb : l.token x.kind (String.ofList x.text) x.column ∈ lines.flatMap (·.body) :=
    List.mem_flatMap.mpr ⟨l, hl, List.mem_map.mpr ⟨x, hx, rfl⟩⟩
  rw [← filter_tokens (wellFormed_of_mem h)] at hb
  exact (List.mem_filter.mp hb).1

end Layout

open Layout Lexeme

/-- A text without comments has tokens exactly if each of its lines of code is an indentation of
whole levels and lexemes. These are unique, and the tokens of the line apart from layout. -/
theorem lex_cuts_lines {source text : List Char} (hs : Comment.strip source = .ok text) :
    ((∃ ts, lex source = .ok ts) ↔
      ∀ line ∈ Text.lines text, isCode line → ∃ ls, CutsLine line.text ls) ∧
    ∀ ts, lex source = .ok ts → ∀ line ∈ Text.lines text, isCode line →
      ∃ ls, (∀ ls', CutsLine line.text ls' ↔ ls' = ls) ∧
        (ts.toList.filter fun t => t.line == line.number && !t.kind.isLayout).map
            (fun t => (t.kind, t.lexeme, t.column)) =
          ls.map fun l => (l.kind, String.ofList l.text, l.column) := by
  have hlex ts : lex source = .ok ts ↔
      ∃ lines, codeLines text = .ok lines ∧ ts = ⟨tokens lines⟩ := by
    simp [lex_eq_ok_iff, hs]
  refine ⟨?_, ?_⟩
  · rw [← exists_codeLines_iff]
    simp only [hlex]
    exact ⟨fun ⟨_, lines, h, _⟩ => ⟨lines, h⟩, fun ⟨lines, h⟩ => ⟨_, lines, h, rfl⟩⟩
  · intro ts hts line hl hc
    obtain ⟨lines, h, rfl⟩ := (hlex ts).mp hts
    obtain ⟨l, hm, hr⟩ := exists_codeLine h hl hc
    obtain ⟨hcut, heq⟩ := readLine_eq_ok_iff.mp hr
    have hn : line.number = l.number := by rw [heq]
    refine ⟨l.lexemes, fun ls' => ⟨fun h => cutsLine_unique h hcut, fun h => h ▸ hcut⟩, ?_⟩
    rw [hn, ← List.filter_filter, filter_tokens (wellFormed_of_mem h),
      filter_body (pairwise_codeLines h) hm, CodeLine.body, List.map_map]
    rfl

theorem lex_cuts_lines_comment :
    Comment.strip "x = 1.5 // one\n\ty()".toList = .ok "x = 1.5 \n\ty()".toList ∧
      ∀ line ∈ Text.lines "x = 1.5 \n\ty()".toList, isCode line → ∃ ls, CutsLine line.text ls := by
  have hs : Comment.strip "x = 1.5 // one\n\ty()".toList = .ok "x = 1.5 \n\ty()".toList := by decide
  exact ⟨hs, (lex_cuts_lines hs).1.mp ⟨_, rfl⟩⟩

end RookLang
