import RookLang.Proofs.Excerpts
import RookLang.Proofs.Lex
import RookLang.Proofs.Lexical.Faults

/-! The first line that cannot be read, and what its error tells: where the lexeme stands, how much
of the line is marked, and what is shown under the line. -/
namespace RookLang.Lexeme

variable {start : ℕ} {text lead before marked rest u v : List Char} {f : Fault} {c : Char}

/-- The lexeme can neither end before the character nor go on with it. -/
def Stuck (lexeme : List Char) (c : Char) : Prop :=
  (∀ kind, ¬ Ends lexeme (some c) kind) ∧ ¬ Viable (lexeme ++ [c])

/-- The lexeme is marked, and the character after it only if that makes a malformed lexeme of it. -/
inductive Marks (cause : LexError.Cause) (lexeme : List Char) : List Char → List Char → Prop
  | alone {rest : List Char} (h : (∀ why, cause ≠ .invalidLexeme why) ∨ rest = []) :
    Marks cause lexeme lexeme rest
  | withNext {c : Char} {why} {rest : List Char} (h : cause = .invalidLexeme why) (hs : Stuck lexeme c) :
    Marks cause lexeme (lexeme ++ [c]) rest

/-- What the fault tells of a text whose first character is in column `start`. -/
structure Fault.Describes (f : Fault) (start : ℕ) (text before marked rest : List Char) :
    Prop where
  text_eq : text = before ++ marked ++ rest
  column : f.column = start + before.length
  lexeme_ne_nil : f.lexeme ≠ []
  length : f.length = marked.length
  marks : Marks f.cause f.lexeme marked rest

namespace Scanner

variable {s : Scanner} {o : Open}

theorem fault_of_emitOperator (h : s.emitOperator o = .error f) :
    f = o.fault .unknownOperator false := by
  unfold emitOperator at h
  split at h
  · cases h
  · exact (Except.error.inj h).symm

/-- At the end of a text nothing but the lexeme is at fault. -/
theorem fault_of_finish (ho : s.pending = some o) (h : s.finish = .error f) :
    ∃ cause, f = o.fault cause false := by
  unfold finish at h
  rw [ho] at h
  simp only at h
  split at h <;> first
    | exact ⟨_, fault_of_emitOperator h⟩
    | exact ⟨_, (Except.error.inj h).symm⟩
    | cases h

/-- Before a character the lexeme is malformed, or it is no operator. -/
theorem fault_of_extend (h : s.extend o c = .error f) :
    (∃ why, f = o.fault (.invalidLexeme why) true) ∨ f = o.fault .unknownOperator false := by
  have operator (h : (s.emitOperator o).map Step.handedBack = .error f) :
      f = o.fault .unknownOperator false := by
    refine fault_of_emitOperator (s := s) ?_
    cases he : s.emitOperator o <;> simp_all [Except.map]
  unfold extend at h
  simp only at h
  split at h <;> (repeat' split at h) <;> first
    | exact .inl ⟨_, (Except.error.inj h).symm⟩
    | exact .inr (operator h)
    | cases h

/-- The scanner fails at a character only if no lexeme goes on with it or ends before it. -/
theorem stuck_of_extend (hh : Open.Holds o.run o.text) (h : s.extend o c = .error f) :
    Stuck o.text c := by
  have hx := extends_extend (s := s) hh c
  rw [h] at hx
  cases hx with
  | failed he hv => exact ⟨he, hv⟩

end Scanner

theorem length_fault {o : Open} (cause : LexError.Cause) (withNext : Bool) (h : o.text ≠ []) :
    (o.fault cause withNext).length = o.text.length + withNext.toNat := by
  have := List.length_pos_iff.mpr h
  simp only [Fault.length, Open.fault]
  omega

/-- The lexeme that was open when the scanner failed is all that is marked. -/
theorem describes_alone {o : Open} {cause : LexError.Cause} (hh : Open.Holds o.run o.text)
    (hc : o.column = start + u.length) (hm : (∀ why, cause ≠ .invalidLexeme why) ∨ v = []) :
    (o.fault cause false).Describes start (u ++ o.text ++ v) u o.text v :=
  ⟨rfl, hc, hh.ne_nil, length_fault cause false hh.ne_nil, .alone hm⟩

theorem exists_describes_of_scan (h : scan start text = .error f) :
    ∃ before marked rest, f.Describes start text before marked rest := by
  cases faultAt_of_scan h with
  | @atEnd s o u ls _ hu ho hh hc h =>
    obtain ⟨cause, rfl⟩ := Scanner.fault_of_finish ho h
    have hd : (o.fault cause false).Describes start (u ++ o.text ++ []) u o.text [] :=
      describes_alone hh hc (.inr rfl)
    rw [List.append_nil] at hd
    exact ⟨u, o.text, [], hd⟩
  | @within s o c u v ls _ hu hh hc h =>
    rcases Scanner.fault_of_extend h with ⟨why, rfl⟩ | rfl
    · refine ⟨u, o.text ++ [c], v, by simp, hc, hh.ne_nil, ?_, ?_⟩
      · rw [length_fault _ _ hh.ne_nil, List.length_append]
        rfl
      · exact .withNext rfl (Scanner.stuck_of_extend hh h)
    · exact ⟨u, o.text, c :: v, describes_alone hh hc (.inl nofun)⟩
  | @outside s c u v ls _ hu hc h =>
    obtain ⟨rfl, -⟩ := Scanner.fault_of_start h
    exact ⟨u, [c], v, by simp, hc, by simp, rfl, .alone (.inl nofun)⟩

/-- What stands before the text moves the fault. -/
theorem Fault.Describes.append (h : f.Describes (lead.length + 1) text before marked rest) :
    f.Describes 1 (lead ++ text) (lead ++ before) marked rest := by
  refine ⟨?_, ?_, h.lexeme_ne_nil, h.length, h.marks⟩
  · rw [h.text_eq]
    simp
  · rw [h.column, List.length_append]
    omega

end RookLang.Lexeme

namespace RookLang

/-- What a lexical error tells of a line: its number and its text, and which part of it is marked. -/
structure LexError.Describes (e : LexError) (line : Text.Line) (before marked rest : List Char) :
    Prop where
  number : e.location.line = line.number
  lineText : e.location.lineText = String.ofList line.text
  text_eq : line.text = before ++ marked ++ rest
  column : e.location.column = before.length + 1
  lexeme_ne_nil : e.lexeme.toList ≠ []
  length : e.location.length = marked.length
  marks : Lexeme.Marks e.cause e.lexeme.toList marked rest

namespace LexError.Describes

variable {e : LexError} {line : Text.Line} {before marked rest : List Char}

theorem marked_ne_nil (h : e.Describes line before marked rest) : marked ≠ [] := by
  have hne := h.lexeme_ne_nil
  cases h.marks with
  | alone => exact hne
  | withNext => simp

/-- All that is marked is in the line. -/
theorem le_length (h : e.Describes line before marked rest) :
    e.location.column - 1 + e.location.length ≤ e.location.lineText.length := by
  rw [h.column, h.length, h.lineText, String.length_ofList, h.text_eq]
  simp only [List.length_append]
  omega

end LexError.Describes

namespace Layout
open Lexeme

variable {line : Text.Line} {text before marked rest : List Char} {e : LexError} {f : Fault}

theorem describes_errorAt (h : f.Describes 1 line.text before marked rest) :
    (errorAt line.number line.text f).Describes line before marked rest := by
  have hlexeme : (errorAt line.number line.text f).lexeme.toList = f.lexeme := String.toList_ofList
  exact ⟨rfl, rfl, h.text_eq, h.column.trans (Nat.add_comm ..), hlexeme ▸ h.lexeme_ne_nil,
    h.length, hlexeme ▸ h.marks⟩

theorem exists_describes_of_readLine (h : readLine line = .error e) :
    ∃ before marked rest, e.Describes line before marked rest := by
  obtain ⟨f, rfl, ⟨hne, rfl⟩ | hs⟩ := exists_fault_of_readLine h
  · have hlength := List.length_pos_iff.mpr hne
    refine ⟨[], leading line.text, line.text.drop (leading line.text).length,
      describes_errorAt ⟨leading_append_drop.symm, rfl, hne, ?_, .alone (.inl ?_)⟩⟩
    · simp only [Fault.length, Bool.toNat_false]
      omega
    · intro why hcause
      cases hcause
  · obtain ⟨before, marked, rest, hf⟩ := exists_describes_of_scan hs
    have hd := hf.append
    rw [leading_append_drop] at hd
    exact ⟨_, _, _, describes_errorAt hd⟩

/-- The error of a text is that of its first line that cannot be cut. -/
theorem exists_first_of_codeLines (h : codeLines text = .error e) :
    ∃ line ∈ Text.lines text, isCode line ∧ readLine line = .error e ∧
      ∀ line' ∈ Text.lines text, isCode line' → (¬ ∃ ls, CutsLine line'.text ls) →
        line.number ≤ line'.number := by
  obtain ⟨pre, line, post, hsplit, hpre, hline⟩ := exists_append_of_mapM_error h
  have hmem : line ∈ (Text.lines text).filter isCode := by
    rw [hsplit]
    simp
  obtain ⟨hl, hc⟩ := List.mem_filter.mp hmem
  refine ⟨line, hl, hc, hline, fun line' hl' hc' hcut => ?_⟩
  have hsorted : (pre ++ line :: post).Pairwise (·.number < ·.number) :=
    hsplit ▸ Text.pairwise_lines.filter isCode
  have hmem' : line' ∈ pre ++ line :: post := by
    rw [← hsplit]
    exact List.mem_filter.mpr ⟨hl', hc'⟩
  rcases List.mem_append.mp hmem' with hm | hm
  · -- a line before the first fault is read, so that lexemes cut it
    obtain ⟨l, hr⟩ := hpre line' hm
    exact (hcut ⟨l.lexemes, (readLine_eq_ok_iff.mp hr).1⟩).elim
  · rcases List.mem_cons.mp hm with rfl | hm
    · exact le_rfl
    · exact ((List.pairwise_cons.mp (List.pairwise_append.mp hsorted).2.1).1 line' hm).le

theorem not_cutsLine_of_error (h : readLine line = .error e) : ¬ ∃ ls, CutsLine line.text ls := by
  rintro ⟨ls, hcut⟩
  cases h.symm.trans (readLine_eq_ok_iff (l := ⟨_, _, _, _, ls, _, _⟩).mpr ⟨hcut, rfl⟩)

/-- The line is the first one of code that breaks the rule of indentation or the lexical grammar. -/
structure IsFirstFault (text : List Char) (line : Text.Line) : Prop where
  mem : line ∈ Text.lines text
  isCode : isCode line
  not_cuts : ¬ ∃ ls, CutsLine line.text ls
  number_le : ∀ line' ∈ Text.lines text, Layout.isCode line' → (¬ ∃ ls, CutsLine line'.text ls) →
    line.number ≤ line'.number

/-- A lexical error that is not about a comment is about the first line that cannot be read. It
marks the lexeme at fault in it, and carets stand under what it marks. -/
theorem lex_error_first {source : List Char} (hs : Comment.strip source = .ok text)
    (he : lex source = .error e) :
    ∃ line before marked rest, IsFirstFault text line ∧ e.Describes line before marked rest ∧
      e.location.column - 1 + e.location.length ≤ e.location.lineText.length ∧
      ∀ file, Location.Underlines ((Diagnostic.lexical e).render file).toList e.location.margin
        before marked rest := by
  obtain ⟨p, hp, -⟩ | ⟨text', ht, hc⟩ := lex_eq_error_iff.mp he
  · cases hs.symm.trans hp
  obtain rfl : text = text' := Except.ok.inj (hs.symm.trans ht)
  obtain ⟨line, hmem, hcode, hline, hfirst⟩ := exists_first_of_codeLines hc
  obtain ⟨before, marked, rest, hd⟩ := exists_describes_of_readLine hline
  have htext : e.location.lineText.toList = line.text := by
    rw [hd.lineText, String.toList_ofList]
  refine ⟨line, before, marked, rest, ⟨hmem, hcode, not_cutsLine_of_error hline, hfirst⟩, hd,
    hd.le_length, fun file => ?_⟩
  exact Location.underlines_render (d := .lexical e) (htext.trans hd.text_eq)
    (htext.symm ▸ Text.newline_notMem hmem) hd.column hd.length hd.marked_ne_nil file

/-- A number has a second point on the third line, which is marked with it; the last line cannot be
read, either. -/
theorem lex_error_first_point :
    let source := "a = 1 // one\n\nb = /* two */ 2.5.1\n!".toList
    let text := "a = 1 \n\nb =           2.5.1\n!".toList
    let e : LexError :=
      ⟨.invalidLexeme .secondPoint, "2.5", ⟨3, 15, "b =           2.5.1", 4⟩⟩
    Comment.strip source = .ok text ∧ lex source = .error e ∧
      ∃ line before marked rest, IsFirstFault text line ∧ e.Describes line before marked rest ∧
        line.number = 3 ∧ marked = "2.5.".toList ∧
        ∀ file, Location.Underlines ((Diagnostic.lexical e).render file).toList e.location.margin
          before marked rest := by
  intro source text e
  have hs : Comment.strip source = .ok text := rfl
  have he : lex source = .error e := rfl
  obtain ⟨line, before, marked, rest, hfirst, hd, -, hunder⟩ := lex_error_first hs he
  have hline : line.text = e.location.lineText.toList := by
    rw [hd.lineText, String.toList_ofList]
  have hn : before.length = 14 := Nat.succ.inj hd.column.symm
  have hm : marked.length = 4 := hd.length.symm
  have hmarked : marked = (line.text.drop 14).take 4 := by
    rw [hd.text_eq, List.append_assoc, ← hn, List.drop_left, ← hm, List.take_left]
  refine ⟨hs, he, line, before, marked, rest, hfirst, hd, hd.number.symm, ?_, hunder⟩
  rw [hmarked, hline]
  decide

end Layout

end RookLang
