import RookLang.Proofs.CommentColumns
import RookLang.Proofs.Rules.Lines
import RookLang.Proofs.StatementCount

/-! The end of the last line. A line feed there ends the line before its blocks and the input end;
without it the line ends with these. -/
namespace RookLang

def Text.Line.terminate (line : Text.Line) : Text.Line := { line with terminated := true }

def CodeLine.terminate (l : CodeLine) : CodeLine := { l with terminated := true }

theorem Comment.strip_newline (source : List Char) :
    strip (source ++ ['\n']) = (strip source).map (· ++ ['\n']) := by
  rw [strip, strip, List.foldl_concat]
  obtain ⟨mode, position, hasCode, kept⟩ := source.foldl State.feed .initial
  cases mode <;> simp [State.feed, State.code, State.string, State.afterSlash, State.lineComment,
    State.blockComment, State.keep, State.enter, State.finish, Except.map]

theorem Text.lines_newline (text : List Char) : lines (text ++ ['\n']) =
    (lines text).map Line.terminate ++ [⟨text.count '\n' + 2, [], false⟩] := by
  have hl : fullLines text = (lines text).map Line.terminate := by
    rw [fullLines, lines, List.map_map]
    rfl
  rw [lines_append, hl]
  simp [lines, pieces, dropReturn, Line.down]
  omega

namespace Layout

variable {text source : List Char} {line : Text.Line} {lines xs : List CodeLine} {l m : CodeLine}
  {n : ℕ} {ts : TokenStream}

theorem readLine_terminate : readLine line.terminate = (readLine line).map CodeLine.terminate := by
  rw [readLine, readLine]
  by_cases hw : Character.isAligned (width (leading line.text))
  · cases hs : Lexeme.scan ((leading line.text).length + 1)
      (line.text.drop (leading line.text).length) <;>
    simp [Text.Line.terminate, hw, hs] <;> rfl
  · simp [Text.Line.terminate, hw]
    rfl

theorem codeLines_newline (text : List Char) :
    codeLines (text ++ ['\n']) = (codeLines text).map (List.map CodeLine.terminate) := by
  have hf : ((Text.lines text).map Text.Line.terminate).filter isCode =
      ((Text.lines text).filter isCode).map Text.Line.terminate := by
    rw [List.filter_map]
    rfl
  have hr (line : Text.Line) : readLine line.terminate =
      ((readLine line).mapError id).map CodeLine.terminate := by
    rw [mapError_id, readLine_terminate]
  have hm := mapM_map hr ((Text.lines text).filter isCode)
  rw [mapError_id] at hm
  rw [codeLines, Text.lines_newline, List.filter_append, hf, codeLines, ← hm]
  exact congrArg (List.mapM readLine) (List.append_nil _)

theorem lex_newline_eq_ok_iff : lex (source ++ ['\n']) = .ok ts ↔ ∃ text lines,
    Comment.strip source = .ok text ∧ codeLines text = .ok lines ∧
      ts = ⟨tokens (lines.map CodeLine.terminate)⟩ := by
  rw [lex_eq_ok_iff, Comment.strip_newline]
  constructor
  · rintro ⟨text, lines, hs, hl, rfl⟩
    cases hs' : Comment.strip source with
    | error p => simp [hs', Except.map] at hs
    | ok text' =>
      obtain rfl : text' ++ ['\n'] = text := by simpa [hs', Except.map] using hs
      rw [codeLines_newline] at hl
      cases hl' : codeLines text' with
      | error e => simp [hl', Except.map] at hl
      | ok lines' =>
        obtain rfl : lines'.map CodeLine.terminate = lines := by
          simpa [hl', Except.map] using hl
        exact ⟨text', lines', rfl, hl', rfl⟩
  · rintro ⟨text, lines, hs, hl, rfl⟩
    refine ⟨text ++ ['\n'], lines.map CodeLine.terminate, ?_, ?_, rfl⟩
    · rw [hs]
      rfl
    · rw [codeLines_newline, hl]
      rfl

theorem tokensAfter_concat (l : CodeLine) (xs : List CodeLine) : ∃ pre w, ∀ m : CodeLine,
    tokensAfter l (xs ++ [m]) = pre ++ (m.tokens w ++ m.closing) := by
  induction xs generalizing l with
  | nil => exact ⟨[], l.width, fun m => rfl⟩
  | cons x xs ih =>
    obtain ⟨pre, w, h⟩ := ih x
    refine ⟨x.tokens l.width ++ pre, w, fun m => ?_⟩
    rw [List.cons_append, tokensAfter, h, List.append_assoc]

/-- The last line comes into its own tokens and into what ends the tokens. -/
theorem tokens_concat (xs : List CodeLine) : ∃ pre w, ∀ m : CodeLine,
    tokens (xs ++ [m]) = pre ++ (m.tokens w ++ m.closing) := by
  cases xs with
  | nil => exact ⟨[], 0, fun m => tokens_cons⟩
  | cons x xs =>
    obtain ⟨pre, w, h⟩ := tokensAfter_concat x xs
    refine ⟨x.tokens 0 ++ pre, w, fun m => ?_⟩
    rw [List.cons_append, tokens_cons, h, List.append_assoc]

theorem terminate_eq (h : l.terminated) : l.terminate = l := by
  obtain ⟨number, text, width, start, lexemes, finish, terminated⟩ := l
  obtain rfl : terminated = true := h
  rfl

theorem terminated_of_isChain (h : (xs ++ [m]).IsChain fun l _ => l.terminated) :
    ∀ l ∈ xs, l.terminated := by
  induction xs with
  | nil => exact List.forall_mem_nil _
  | cons x xs ih =>
    rw [List.cons_append, List.isChain_cons] at h
    obtain ⟨y, hy⟩ : ∃ y, (xs ++ [m]).head? = some y := by cases xs <;> simp
    exact List.forall_mem_cons.mpr ⟨h.1 y hy, ih h.2⟩

theorem endsBlock_closing (l : CodeLine) :
    (l.closing.map Token.terminal).head?.all (·.endsBlock) := by
  rw [CodeLine.closing]
  cases dedentCount l.width 0 <;> rfl

/-- The line feed after the last line is the token before those that end the tokens. -/
theorem exists_terminals_concat (hw : m.WellFormed) (hm : ¬ m.terminated) (xs : List CodeLine) :
    ∃ us, us ≠ [] ∧ (∀ t ∈ us.getLast?, t.isLayout = false) ∧
      (tokens (xs ++ [m])).map Token.terminal = us ++ m.closing.map Token.terminal ∧
      (tokens (xs ++ [m.terminate])).map Token.terminal =
        us ++ .plain .newline :: m.closing.map Token.terminal := by
  obtain ⟨pre, w, ht⟩ := tokens_concat xs
  refine ⟨(pre ++ m.opening w ++ m.body).map Token.terminal, ?_, ?_, ?_, ?_⟩
  · simp [body_ne_nil hw]
  · intro t hu
    rw [List.getLast?_map, List.getLast?_append_of_ne_nil _ (body_ne_nil hw)] at hu
    obtain ⟨u, hb, rfl⟩ := Option.map_eq_some_iff.mp hu
    rw [Token.isLayout_terminal]
    exact isLayout_body hw u (List.mem_of_getLast? hb)
  · have he : m.ending = [] := if_neg hm
    rw [ht, CodeLine.tokens, he, List.append_nil]
    simp only [List.map_append, List.append_assoc]
  · have he : m.terminate.ending = [m.token .newline "" m.finish] := if_pos rfl
    rw [ht, CodeLine.tokens, he]
    simp only [List.map_append, List.append_assoc]
    rfl

/-- A program stays one if its last line is terminated. -/
theorem parse_terminate (h : codeLines text = .ok lines) :
    parse ⟨tokens (lines.map CodeLine.terminate)⟩ = .ok n ↔ parse ⟨tokens lines⟩ = .ok n := by
  rcases List.eq_nil_or_concat' lines with rfl | ⟨xs, m, rfl⟩
  · rfl
  have hxs : xs.map CodeLine.terminate = xs :=
    (List.map_congr_left fun l hl =>
      terminate_eq (terminated_of_isChain (isChain_terminated h) l hl)).trans (List.map_id _)
  rw [List.map_append, hxs, List.map_singleton]
  by_cases hm : m.terminated
  · rw [terminate_eq hm]
  have hw := wellFormed_of_mem h m (by simp)
  obtain ⟨us, hne, hlast, hopen, hends⟩ := exists_terminals_concat hw hm xs
  have hp (ys : List CodeLine) : parse ⟨tokens ys⟩ = .ok n ↔ Recogniser.recognise Rule.react
      (some nestingLimit) .program ((tokens ys).map Token.terminal) = .ok n :=
    parseWithin_eq_ok_iff.trans recognise_eq_ok_iff.symm
  rw [hp, hp, hends, hopen]
  exact Rule.recognise_newline hlast hne (endsBlock_closing m)

end Layout

open Layout

/-- It makes no difference whether the last line of a program ends in a line feed. -/
theorem checkSource_newline (source : List Char) (n : ℕ) :
    checkSource source = .ok n ↔ checkSource (source ++ ['\n']) = .ok n := by
  rw [checkSource_eq_ok_iff, checkSource_eq_ok_iff]
  constructor
  · rintro ⟨ts, hts, hp⟩
    obtain ⟨text, lines, hs, hl, rfl⟩ := lex_eq_ok_iff.mp hts
    exact ⟨_, lex_newline_eq_ok_iff.mpr ⟨text, lines, hs, hl, rfl⟩, (parse_terminate hl).mpr hp⟩
  · rintro ⟨ts, hts, hp⟩
    obtain ⟨text, lines, hs, hl, rfl⟩ := lex_newline_eq_ok_iff.mp hts
    exact ⟨_, lex_eq_ok_iff.mpr ⟨text, lines, hs, hl, rfl⟩, (parse_terminate hl).mp hp⟩

end RookLang
