import RookLang.Proofs.CommentColumns
import RookLang.Proofs.Lex
import RookLang.Proofs.Lexical.Faults

/-! Where the errors and the tokens of a line stand in it. -/
namespace RookLang.Layout
open Character Lexeme Comment

variable {text x : List Char} {line : Text.Line} {lines : List CodeLine} {column : ℕ} {e : LexError}

/-- The text stands in the line in this column. After code its spaces are those of a string, so that
they are no part of a comment. -/
structure InColumn (line text : List Char) (column : ℕ) : Prop where
  eq_append : ∃ u v, line = u ++ text ++ v ∧ column = u.length + 1 ∧ ∀ y z, text = y ++ ' ' :: z →
    Keeps (· = .code) (· = .code) (u ++ y) → ¬ HasInk (u ++ y)
  ne_nil : text ≠ []

theorem isBlank_of_mem_leading {c : Char} (h : c ∈ leading text) : isBlank c :=
  isBlank_of_isGap (List.mem_takeWhile_imp h)

theorem inColumn_leading (h : leading text ≠ []) : InColumn text (leading text) 1 := by
  refine ⟨⟨[], text.drop (leading text).length, leading_append_drop.symm, rfl, ?_⟩, h⟩
  rintro y z hy - ⟨c, hc, hb⟩
  have hm : c ∈ leading text := by
    rw [hy]
    exact List.mem_append_left _ hc
  simp [isBlank_of_mem_leading hm] at hb

/-- A string that opens after the lexemes of a line is one for the removal of comments, too. -/
theorem keeps_string {start : ℕ} {u body : List Char} {ls : List Lexeme} (hu : Cuts start u ls)
    (hn : '\n' ∉ u) (hq : '"' ∉ body) (hb : '\n' ∉ body) :
    Keeps (· = .code) (· = .string) (leading text ++ u ++ '"' :: body) := by
  have hgap {c : Char} (hb : isBlank c = false) : c ∉ leading text := fun hm => by
    simp [isBlank_of_mem_leading hm] at hb
  have hlead : Keeps (· = .code) (· = .code) (leading text) := keeps_plain (hgap rfl) (hgap rfl)
  exact (hlead.append (hu.keeps hn)).append (keeps_openString hq hb)

theorem inColumn_of_standsAt (hn : '\n' ∉ text) (h : StandsAt ((leading text).length + 1)
    (text.drop (leading text).length) x column) : InColumn text x column := by
  obtain ⟨⟨u, v, ls, ht, hu, hc⟩, hne, hs⟩ := h
  have htext : text = leading text ++ u ++ x ++ v := by
    rw [List.append_assoc, List.append_assoc, ← List.append_assoc u, ← ht, leading_append_drop]
  refine ⟨⟨leading text ++ u, v, htext, ?_, fun y z hx hk => ?_⟩, hne⟩
  · rw [hc, List.length_append]
    omega
  · obtain ⟨body, rfl, hq⟩ := hs y z hx
    rw [htext, hx] at hn
    simp only [List.mem_append, List.mem_cons, not_or] at hn
    -- The quote opens a string, in which the space is.
    have hopen : Keeps (· = .code) (· = .string) (leading text ++ u ++ '"' :: body) :=
      keeps_string hu (by tauto) hq (by tauto)
    have hm := (hk .initial rfl).1.symm.trans (hopen .initial rfl).1
    cases hm

/-- The error marks its lexeme in the line, and the next character at most. -/
structure Marks (line : Text.Line) (e : LexError) : Prop where
  number : e.location.line = line.number
  inColumn : InColumn line.text e.lexeme.toList e.location.column
  cause_ne : e.cause ≠ .unterminatedComment
  length : e.location.length = e.lexeme.toList.length ∨
    e.location.length = e.lexeme.toList.length + 1 ∧ ∃ why, e.cause = .invalidLexeme why

theorem marks_errorAt {f : Fault} (h : InColumn line.text f.lexeme f.column)
    (hc : f.cause ≠ .unterminatedComment) (hn : f.withNext → ∃ why, f.cause = .invalidLexeme why) :
    Marks line (errorAt line.number line.text f) := by
  have hpos := List.length_pos_iff.mpr h.ne_nil
  refine ⟨rfl, by rwa [errorAt, String.toList_ofList], hc, ?_⟩
  simp only [errorAt, String.toList_ofList, Fault.length]
  cases hw : f.withNext with
  | false => exact .inl (Nat.max_eq_left hpos)
  | true => exact .inr ⟨Nat.max_eq_left (Nat.le_add_left 1 _), hn hw⟩

theorem marks_of_readLine (h : readLine line = .error e) (hn : '\n' ∉ line.text) :
    Marks line e := by
  obtain ⟨f, rfl, ⟨hne, rfl⟩ | hs⟩ := exists_fault_of_readLine h
  · exact marks_errorAt (inColumn_leading hne) nofun nofun
  · have hf := fault_in_of_scan hs
    exact marks_errorAt (inColumn_of_standsAt hn hf.standsAt) hf.cause_ne hf.of_withNext

theorem marks_of_codeLines (h : codeLines text = .error e) :
    ∃ line ∈ Text.lines text, Marks line e := by
  obtain ⟨line, hl, he⟩ := exists_of_mapM_error h
  have hl := (List.mem_filter.mp hl).1
  exact ⟨line, hl, marks_of_readLine he (Text.newline_notMem hl)⟩

/-- Where tokens stand that are no layout. -/
theorem inColumn_of_mem_tokens (h : codeLines text = .ok lines) {t : Token} (ht : t ∈ tokens lines)
    (hk : t.kind.isLayout = false) : ∃ line ∈ Text.lines text, t.line = line.number ∧
      InColumn line.text t.lexeme.toList t.column ∧ t.lexeme.toList.getLast? ≠ some '\r' := by
  have hm : t ∈ (tokens lines).filter (!·.kind.isLayout) := List.mem_filter.mpr ⟨ht, by simp [hk]⟩
  rw [filter_tokens (wellFormed_of_mem h)] at hm
  obtain ⟨l, hl, hb⟩ := List.mem_flatMap.mp hm
  obtain ⟨z, hz, rfl⟩ := List.mem_map.mp hb
  obtain ⟨line, hline, -, hr⟩ := readLine_of_mem h hl
  obtain ⟨hcut, hleq⟩ := readLine_eq_ok_iff.mp hr
  have hcuts := (cutsLine_iff.mp hcut).2
  refine ⟨line, hline, by rw [hleq]; rfl, ?_, ?_⟩
  · simp only [CodeLine.token, String.toList_ofList]
    exact inColumn_of_standsAt (Text.newline_notMem hline) (hcuts.standsAt z hz)
  · obtain ⟨⟨barred, hs⟩, -⟩ := hcuts.spells z hz
    simp only [CodeLine.token, String.toList_ofList]
    exact hs.getLast?_ne

end RookLang.Layout
