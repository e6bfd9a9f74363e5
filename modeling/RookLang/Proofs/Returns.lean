import RookLang.Proofs.Agreement
import RookLang.Proofs.LineFaults

/-! Lines that end in a carriage return and a line feed. The carriage returns do not come into
tokens or errors: removal of comments keeps them at the end of a line at most, where they are
dropped, or has a space for one in a comment that the line ends in. -/
namespace RookLang

/-- The text with a carriage return before each line feed. -/
def Text.withReturns (text : List Char) : List Char :=
  text.flatMap fun c => if c = '\n' then ['\r', '\n'] else [c]

namespace Comment

variable {u v w e text : List Char} {s t : State} {c : Char} {p : Position} {star : Bool}

/-- What is kept of a line, and of the line with a carriage return after it. A space stands for a
carriage return in a comment. -/
inductive Ended : List Char → List Char → Prop
  | same (line) : Ended line line
  | withReturn (line) : Ended line (line ++ ['\r'])
  | withSpace {line} (hk : Keeps (· = .code) (· = .code) line) (hl : line.getLast? = some ' ') :
    Ended line (line ++ [' '])

/-- The lines of the texts end as in `Ended`, but for the last ones, which are the same. -/
def EndedAlike (u v : List Char) : Prop :=
  ∃ xs ys x, Text.pieces u = xs ++ [x] ∧ Text.pieces v = ys ++ [x] ∧ List.Forall₂ Ended xs ys

namespace EndedAlike

theorem nil : EndedAlike [] [] := ⟨[], [], [], rfl, rfl, .nil⟩

theorem append (h : EndedAlike u v) (hw : '\n' ∉ w) : EndedAlike (u ++ w) (v ++ w) := by
  obtain ⟨xs, ys, x, hu, hv, hxy⟩ := h
  have hp : Text.pieces w = [w] := List.splitOn_eq_singleton hw
  exact ⟨xs, ys, x ++ w, Text.pieces_join hu hp, Text.pieces_join hv hp, hxy⟩

theorem newline (h : EndedAlike u v) (he : '\n' ∉ e)
    (hx : Ended (Text.lastLine u) (Text.lastLine u ++ e)) :
    EndedAlike (u ++ ['\n']) (v ++ e ++ ['\n']) := by
  obtain ⟨xs, ys, x, hu, hv, hxy⟩ := h
  rw [Text.lastLine_eq hu] at hx
  have hp : Text.pieces e = [e] := List.splitOn_eq_singleton he
  refine ⟨xs ++ [x], ys ++ [x ++ e], [], ?_, ?_, List.rel_append hxy (.cons hx .nil)⟩
  · rw [Text.pieces_append, hu]
    rfl
  · rw [Text.pieces_append, Text.pieces_join hv hp]
    rfl

theorem forall₂_pieces (h : EndedAlike u v) :
    List.Forall₂ Ended (Text.pieces u) (Text.pieces v) := by
  obtain ⟨xs, ys, x, hu, hv, hxy⟩ := h
  rw [hu, hv]
  exact List.rel_append hxy (.cons (.same x) .nil)

end EndedAlike

namespace State

/-- Removal of comments is in the same place of two texts, the second one with carriage returns. -/
structure Returned (s t : State) : Prop where
  mode : t.mode = s.mode
  position : t.position = s.position
  hasCode : t.hasCode = s.hasCode
  kept : EndedAlike s.kept.reverse t.kept.reverse

/-- In a comment after code the last character that is kept is a space. -/
theorem head?_feed_blockComment (hm : (s.feed c).mode = .blockComment p star)
    (hc : (s.feed c).hasCode) : (s.feed c).kept.head? = some ' ' := by
  obtain ⟨mode, position, hasCode, kept⟩ := s
  cases mode <;>
    simp only [feed, code, string, afterSlash, lineComment, blockComment, enter] at hm hc ⊢ <;>
    grind [keep, blank]

theorem head?_foldl_blockComment (hm : (text.foldl feed .initial).mode = .blockComment p star)
    (hc : (text.foldl feed .initial).hasCode) :
    (text.foldl feed .initial).kept.head? = some ' ' := by
  rcases List.eq_nil_or_concat' text with rfl | ⟨text, c, rfl⟩
  · cases hc
  · rw [List.foldl_concat] at hm hc ⊢
    exact head?_feed_blockComment hm hc

/-- A carriage return at the end of a line. -/
theorem kept_feed_return (t : State) : (t.feed '\r').release.kept =
    (match t.mode with
      | .lineComment => []
      | .blockComment _ _ => t.blanks 1
      | _ => ['\r']) ++ t.release.kept := by
  obtain ⟨mode, position, hasCode, kept⟩ := t
  cases mode with
  | blockComment p star => cases hasCode <;> cases star <;> rfl
  | _ => rfl

theorem mode_feed_return (t : State) : ((t.feed '\r').feed '\n').mode = (t.feed '\n').mode := by
  obtain ⟨mode, position, hasCode, kept⟩ := t
  cases mode with
  | blockComment p star => cases star <;> rfl
  | _ => rfl

namespace Returned

theorem release (h : Returned s t) : EndedAlike s.release.kept.reverse t.release.kept.reverse := by
  unfold State.release
  rw [h.mode]
  split
  · simpa [keep, enter] using h.kept.append (w := ['/']) (by decide)
  · exact h.kept

theorem feed (h : Returned s t) (hc : c ≠ '\n') : Returned (s.feed c) (t.feed c) := by
  have hb : s.Beside s.kept t.kept t := ⟨by rw [h.mode], h.hasCode.symm, [], rfl, rfl⟩
  obtain ⟨-, hcode, more, hs, ht⟩ := hb.feed c
  have hm : t.mode = s.mode.move id := h.mode.trans Mode.move_id.symm
  have hn : '\n' ∉ more.reverse := by
    have hcount := count_feed s c
    rw [hs, List.count_append, List.count_cons_of_ne hc] at hcount
    rw [List.mem_reverse, ← List.count_eq_zero]
    omega
  refine ⟨(mode_feed_move hm h.position).trans Mode.move_id, ?_, hcode.symm, ?_⟩
  · show t.position.after c = s.position.after c
    rw [h.position]
  · rw [hs, ht, List.reverse_append, List.reverse_append]
    exact h.kept.append hn

theorem feed_newline (h : Returned s t) (hs : s.Coherent)
    (hb : ∀ p star, s.mode = .blockComment p star → s.hasCode → s.kept.head? = some ' ') :
    Returned (s.feed '\n') ((t.feed '\r').feed '\n') := by
  obtain ⟨hcode, hpos, -, -⟩ := State.feed_newline s
  obtain ⟨hcode', hpos', -, -⟩ := State.feed_newline (t.feed '\r')
  have hline : (t.feed '\r').position.line = t.position.line := by
    simpa using line_foldl t ['\r']
  refine ⟨?_, ?_, by rw [hcode, hcode'], ?_⟩
  · rw [mode_feed_return, mode_feed_newline, mode_feed_newline, h.mode]
  · rw [hpos, hpos', hline, h.position]
  rw [kept_feed_newline, kept_feed_newline, kept_feed_return, List.reverse_cons, List.reverse_cons,
    List.reverse_append, h.mode]
  cases hm : s.mode with
  | code | slash | string => exact h.release.newline (by simp) (.withReturn _)
  | lineComment =>
    exact h.release.newline (by simp) (by simpa using Ended.same _)
  | blockComment p star =>
    have hrel : s.release = s := release_eq (by simp [hm])
    by_cases hc : s.hasCode
    · have hspace : t.blanks 1 = [' '] := by
        rw [blanks, h.hasCode, hc]
        rfl
      have hlast := hb p star hm hc
      have hkeeps := (hs.steady (by rw [hm]; rfl)).keeps
      rw [hspace]
      refine h.release.newline (by simp) (.withSpace ?_ ?_)
      · rwa [hrel]
      · rw [hrel]
        exact Text.getLast?_lastLine (by simpa using hlast) (by decide)
    · have hnone : t.blanks 1 = [] := by
        rw [blanks, h.hasCode, if_neg hc]
      rw [hnone]
      exact h.release.newline (by simp) (by simpa using Ended.same _)

end Returned

/-- Removal of comments reads carriage returns before line feeds as if they were not there. -/
theorem returned_foldl (text : List Char) : Returned (text.foldl feed .initial)
    ((Text.withReturns text).foldl feed .initial) := by
  induction text using List.reverseRecOn with
  | nil => exact ⟨rfl, rfl, rfl, .nil⟩
  | append_singleton text c ih =>
    rw [List.foldl_concat, Text.withReturns, List.flatMap_append, List.foldl_append,
      ← Text.withReturns, List.flatMap_singleton]
    split
    · subst c
      exact ih.feed_newline (Coherent.initial.foldl text) fun p star => head?_foldl_blockComment
    · exact ih.feed ‹_›

end State

theorem strip_withReturns (source : List Char) :
    Agree Eq EndedAlike (strip source) (strip (Text.withReturns source)) := by
  have h := State.returned_foldl source
  unfold strip
  generalize source.foldl State.feed .initial = s, (Text.withReturns source).foldl State.feed
    .initial = t at h
  cases hm : s.mode with
  | blockComment p star =>
    simp only [State.finish, h.mode, hm]
    exact .error rfl
  | _ =>
    have hs : s.finish = .ok s.release.kept.reverse :=
      State.finish_eq_ok_iff.mpr ⟨rfl, by simp [hm]⟩
    have ht : t.finish = .ok t.release.kept.reverse :=
      State.finish_eq_ok_iff.mpr ⟨rfl, by simp [h.mode, hm]⟩
    rw [hs, ht]
    exact .ok h.release

end Comment

theorem forall₂_zipIdx {α β : Type} {R : α → β → Prop} {xs : List α} {ys : List β}
    (h : List.Forall₂ R xs ys) (k : ℕ) :
    List.Forall₂ (fun p q => R p.1 q.1 ∧ p.2 = q.2) (xs.zipIdx k) (ys.zipIdx k) := by
  induction h generalizing k with
  | nil => exact .nil
  | cons h _ ih =>
    rw [List.zipIdx_cons, List.zipIdx_cons]
    exact .cons ⟨h, rfl⟩ (ih (k + 1))

namespace Text
open Comment

variable {u v p q : List Char}

/-- The second line has a space more than the first one at most, and that after another one in which
no string is open. -/
inductive Line.Spaced : Line → Line → Prop
  | same (line) : Spaced line line
  | space {line} (hk : Keeps (· = .code) (· = .code) line.text)
    (hl : line.text.getLast? = some ' ') (hn : '\n' ∉ line.text) :
    Spaced line { line with text := line.text ++ [' '] }

theorem spaced_of_ended (h : Ended p q) (hr : '\r' ∉ p) (hn : '\n' ∉ p) (number : ℕ)
    (terminated : Bool) :
    Line.Spaced ⟨number, dropReturn p, terminated⟩ ⟨number, dropReturn q, terminated⟩ := by
  have hp : dropReturn p = p := dropReturn_of_notMem hr
  cases h with
  | same => exact .same _
  | withReturn =>
    have hq : dropReturn (p ++ ['\r']) = p := by simp [dropReturn]
    rw [hp, hq]
    exact .same _
  | withSpace hk hl =>
    have hq : dropReturn (p ++ [' ']) = p ++ [' '] := by simp [dropReturn]
    rw [hp, hq]
    exact .space hk hl hn

/-- Without the returns at their ends, lines differ in a space at most. -/
theorem forall₂_lines (h : EndedAlike u v) (hr : '\r' ∉ u) :
    List.Forall₂ Line.Spaced (lines u) (lines v) := by
  have hp := h.forall₂_pieces
  have hlen := hp.length_eq
  have hmem : ∀ p ∈ pieces u, '\r' ∉ p ∧ '\n' ∉ p := fun p hp =>
    ⟨fun h => hr (subset_of_mem_pieces hp h), newline_notMem_pieces hp⟩
  have hz := forall₂_zipIdx ((List.forall₂_and_left _ _).mpr ⟨hmem, hp⟩) 1
  simp only [lines, hlen, List.forall₂_map_left_iff, List.forall₂_map_right_iff]
  refine hz.imp ?_
  rintro ⟨p, n⟩ ⟨q, m⟩ ⟨⟨⟨hr, hn⟩, hpq⟩, rfl⟩
  exact spaced_of_ended hpq hr hn n _

end Text

/-- The errors are the same, but for the line that is shown. -/
structure LexError.Matches (e f : LexError) : Prop where
  cause : e.cause = f.cause
  lexeme : e.lexeme = f.lexeme
  line : e.location.line = f.location.line
  column : e.location.column = f.location.column
  length : e.location.length = f.location.length

/-- The second text has more spaces at the end. -/
def Padded (x y : String) : Prop := ∃ n, y.toList = x.toList ++ List.replicate n ' '

theorem padded_rfl {x : String} : Padded x x := ⟨0, (List.append_nil _).symm⟩

/-- The tokens are the same, but for spaces at the end of the line. -/
structure Token.Matches (t u : Token) : Prop where
  kind : t.kind = u.kind
  lexeme : t.lexeme = u.lexeme
  line : t.line = u.line
  column : t.column = u.column
  indentLevel : t.indentLevel = u.indentLevel
  lineText : Padded t.lineText u.lineText

namespace Layout
open Lexeme Comment Character

variable {x : List Char} {line line' : Text.Line} {start : ℕ}

/-- A space after another one that ends no string makes no difference to the lexemes. -/
theorem scan_space (hl : x.getLast? = some ' ')
    (hs : ∀ u body ls, x = u ++ '"' :: body → Cuts start u ls → '"' ∈ body) :
    scan start (x ++ [' ']) = scan start x := by
  unfold scan
  rw [List.foldlM_append]
  cases hrun : x.foldlM Scanner.feed (Scanner.startingAt start) with
  | error f => rfl
  | ok s =>
    have hp : s.pending = none := by
      by_contra hne
      obtain ⟨o, ho⟩ := Option.ne_none_iff_exists'.mp hne
      obtain ⟨hh, u, hx, hu, -⟩ := (Scanner.reads_of_run hrun).opened o ho
      rw [hx, List.getLast?_append_of_ne_nil _ hh.ne_nil] at hl
      obtain ⟨y, hy⟩ := List.getLast?_eq_some_iff.mp hl
      obtain ⟨body, rfl, hq⟩ := hh.solid y [] hy
      have hb := hs u (body ++ [' ']) _ (by rw [hx, hy]; simp) hu
      simp [hq] at hb
    have hf : [' '].foldlM Scanner.feed s = .ok s.skip := by
      simp only [List.foldlM_cons, List.foldlM_nil, Scanner.feed, Scanner.step, hp]
      rfl
    have hend : s.finish = .ok s := by simp [Scanner.finish, hp]
    have hend' : s.skip.finish = .ok s.skip := by simp [Scanner.finish, Scanner.skip, hp]
    simp only [bind, Except.bind, hf, hend, hend']
    rfl

theorem drop_leading_ne_nil (hc : isCode line) :
    line.text.drop (leading line.text).length ≠ [] := by
  intro hd
  have ht : leading line.text ++ line.text.drop (leading line.text).length = line.text :=
    leading_append_drop
  rw [hd, List.append_nil] at ht
  have hb : line.text.all isBlank := by
    rw [List.all_eq_true, ← ht]
    exact fun c hc => isBlank_of_mem_leading hc
  simp [isCode, hb] at hc

theorem leading_space (hc : isCode line) :
    leading (line.text ++ [' ']) = leading line.text := by
  have ht : leading line.text ++ line.text.drop (leading line.text).length = line.text :=
    leading_append_drop
  have hgap : ∀ c ∈ leading line.text, c = ' ' ∨ c = '\t' := fun c hc =>
    isGap_iff.mp (List.mem_takeWhile_imp hc)
  have hrest : ∀ c ∈ (line.text.drop (leading line.text).length ++ [' ']).head?,
      c ≠ ' ' ∧ c ≠ '\t' := by
    rw [List.head?_append_of_ne_nil _ (drop_leading_ne_nil hc)]
    exact not_gap_after_leading
  have ha := leading_append hgap hrest
  rwa [← List.append_assoc, ht] at ha

theorem scan_line_space (hc : isCode line) (hk : Keeps (· = .code) (· = .code) line.text)
    (hl : line.text.getLast? = some ' ') (hn : '\n' ∉ line.text) :
    scan ((leading line.text).length + 1)
        ((line.text ++ [' ']).drop (leading line.text).length) =
      scan ((leading line.text).length + 1) (line.text.drop (leading line.text).length) := by
  have ht : leading line.text ++ line.text.drop (leading line.text).length = line.text :=
    leading_append_drop
  have hp : leading line.text <+: line.text := List.takeWhile_prefix isGap
  rw [List.drop_append_of_le_length hp.length_le]
  refine scan_space ?_ fun u body ls hx hu => ?_
  · rw [← hl, ← List.getLast?_append_of_ne_nil _ (drop_leading_ne_nil hc), ht]
  · by_contra hq
    rw [hx, ← List.append_assoc] at ht
    rw [← ht] at hn
    simp only [List.mem_append, List.mem_cons, not_or] at hn
    have hopen : Keeps (· = .code) (· = .string) (leading line.text ++ u ++ '"' :: body) :=
      keeps_string hu hn.1.2 hq hn.2.2
    rw [ht] at hopen
    have hm := (hk .initial rfl).1.symm.trans (hopen .initial rfl).1
    cases hm

/-- A line of code that has a space more is read as before. -/
theorem readLine_spaced (h : line.Spaced line') (hc : isCode line) :
    Agree LexError.Matches (CodeLine.Related Token.Matches) (readLine line) (readLine line') := by
  cases h with
  | same =>
    cases readLine line with
    | error e => exact .error ⟨rfl, rfl, rfl, rfl, rfl⟩
    | ok l =>
      exact .ok ⟨rfl, rfl, rfl, rfl, rfl, fun _ _ _ => ⟨rfl, rfl, rfl, rfl, rfl, padded_rfl⟩⟩
  | space hk hl hn =>
    have hlead := leading_space hc
    have hscan := scan_line_space hc hk hl hn
    have hink : inkLength (line.text ++ [' ']) = inkLength line.text := by
      simp [inkLength, isBlank]
    unfold readLine
    simp only [hlead, hscan, hink]
    split
    · exact .error ⟨rfl, rfl, rfl, rfl, rfl⟩
    · split
      · exact .error ⟨rfl, rfl, rfl, rfl, rfl⟩
      · refine .ok ⟨rfl, rfl, rfl, rfl, rfl, fun _ _ _ => ⟨rfl, rfl, rfl, rfl, rfl, 1, ?_⟩⟩
        simp [CodeLine.token]

theorem isCode_spaced (h : line.Spaced line') : isCode line = isCode line' := by
  cases h with
  | same => rfl
  | space => simp [isCode, isBlank]

theorem codeLines_agree {u v : List Char} (h : EndedAlike u v) (hr : '\r' ∉ u) :
    Agree LexError.Matches (List.Forall₂ (CodeLine.Related Token.Matches))
      (codeLines u) (codeLines v) := by
  have hf : List.Forall₂ Text.Line.Spaced ((Text.lines u).filter isCode)
      ((Text.lines v).filter isCode) :=
    List.rel_filter (fun _ _ h => Bool.coe_iff_coe.mpr (isCode_spaced h)) (Text.forall₂_lines h hr)
  have hc : ∀ line ∈ (Text.lines u).filter isCode, isCode line := fun _ hm =>
    (List.mem_filter.mp hm).2
  exact Agree.mapM ((List.forall₂_and_left _ _).mpr ⟨hc, hf⟩) fun _ _ h => readLine_spaced h.2 h.1

theorem lex_agree_withReturns {source : List Char} (hr : '\r' ∉ source) :
    Agree LexError.Matches (fun ts us => List.Forall₂ Token.Matches ts.toList us.toList)
      (lex source) (lex (Text.withReturns source)) := by
  have hstrip := strip_withReturns source
  have hmem text (hs : Comment.strip source = .ok text) : '\r' ∉ text := fun h => by
    have := subset_of_strip hs h
    simp_all
  unfold lex
  generalize Comment.strip source = x, Comment.strip (Text.withReturns source) = y
    at hstrip hmem
  cases hstrip with
  | error h =>
    rw [h]
    exact .error ⟨rfl, rfl, rfl, rfl, rfl⟩
  | ok h =>
    refine (codeLines_agree h (hmem _ rfl)).map fun xs ys hs => forall₂_tokens hs fun _ => ?_
    exact .cons ⟨rfl, rfl, rfl, rfl, rfl, padded_rfl⟩ .nil

end Layout

open Layout

theorem Token.Matches.alike {t u : Token} (h : t.Matches u) : t.Alike u where
  kind := h.kind
  keyword? := by rw [Token.keyword?, Token.keyword?, h.kind, h.lexeme]
  builtin? := by rw [Token.builtin?, Token.builtin?, h.kind, h.lexeme]

theorem LexError.Matches.message {e f : LexError} (h : e.Matches f) :
    e.summary = f.summary ∧ e.message = f.message := by
  have hs : e.summary = f.summary := by rw [summary, summary, h.cause, h.line]
  exact ⟨hs, by rw [LexError.message, LexError.message, hs, h.line, h.lexeme]⟩

theorem Token.Matches.describe {t u : Token} (h : t.Matches u) : t.describe = u.describe := by
  unfold Token.describe
  rw [h.kind, h.lexeme]

theorem Token.Matches.endColumn {t u : Token} (h : t.Matches u) : t.endColumn = u.endColumn := by
  rw [Token.endColumn, Token.endColumn, h.lexeme, h.column]

/-- Carriage returns before the line feeds of a text that has no others make no difference but for
spaces at the end of the lines that tokens show. -/
theorem lex_withReturns {source : List Char} (hr : '\r' ∉ source) :
    Agree
      (fun e f => e.cause = f.cause ∧ e.lexeme = f.lexeme ∧ e.location.line = f.location.line ∧
        e.location.column = f.location.column ∧ e.location.length = f.location.length)
      (fun ts us => List.Forall₂ (fun t u => t.kind = u.kind ∧ t.lexeme = u.lexeme ∧
        t.line = u.line ∧ t.column = u.column ∧ t.indentLevel = u.indentLevel ∧
        ∃ n, u.lineText.toList = t.lineText.toList ++ List.replicate n ' ') ts.toList us.toList)
      (lex source) (lex (Text.withReturns source)) ∧
    Agree
      (fun d d' => d.message = d'.message ∧ d.summary = d'.summary ∧
        d.location.line = d'.location.line ∧ d.location.column = d'.location.column) Eq
      (checkSource source) (checkSource (Text.withReturns source)) := by
  have hlex := lex_agree_withReturns hr
  constructor
  · refine hlex.imp ?_ fun ts us h => h.imp ?_
    · rintro e f ⟨hc, hx, hl, hcol, hlen⟩
      exact ⟨hc, hx, hl, hcol, hlen⟩
    · rintro t u ⟨hk, hx, hl, hcol, hi, ht⟩
      exact ⟨hk, hx, hl, hcol, hi, ht⟩
  · refine checkSource_agree hlex (fun t u h => h.alike) ?_ ?_ ?_
    · intro e f h
      refine ⟨h.message.2, ?_, h.line, h.column⟩
      show "lexical error: " ++ e.summary = "lexical error: " ++ f.summary
      rw [h.message.1]
    · intro missing t u h
      refine ⟨?_, ?_, h.line, h.column⟩
      · show SyntaxError.message _ = SyntaxError.message _
        simp only [SyntaxError.message, SyntaxError.summary, Token.location, h.describe, h.line,
          h.column]
      · show "syntax error: " ++ SyntaxError.summary _ = "syntax error: " ++ SyntaxError.summary _
        simp only [SyntaxError.summary, h.describe]
    · intro missing t u h
      refine ⟨?_, rfl, h.line, h.endColumn⟩
      show SyntaxError.message _ = SyntaxError.message _
      simp only [SyntaxError.message, SyntaxError.summary, Token.locationAfter, h.line,
        h.endColumn]

theorem lex_withReturns_comment :
    '\r' ∉ "x = 1 /* a\nb */\nx(\"c\")\n".toList ∧
      Text.withReturns "x = 1 /* a\nb */\nx(\"c\")\n".toList =
        "x = 1 /* a\r\nb */\r\nx(\"c\")\r\n".toList ∧
      checkSource "x = 1 /* a\nb */\nx(\"c\")\n".toList = .ok 2 ∧
      checkSource "x = 1 /* a\r\nb */\r\nx(\"c\")\r\n".toList = .ok 2 := by
  have hr : '\r' ∉ "x = 1 /* a\nb */\nx(\"c\")\n".toList := by decide
  have hs : Text.withReturns "x = 1 /* a\nb */\nx(\"c\")\n".toList =
      "x = 1 /* a\r\nb */\r\nx(\"c\")\r\n".toList := by decide
  have hc : checkSource "x = 1 /* a\nb */\nx(\"c\")\n".toList = .ok 2 := by decide +kernel
  obtain ⟨-, h⟩ := lex_withReturns hr
  rw [hs, hc] at h
  refine ⟨hr, hs, hc, ?_⟩
  generalize checkSource _ = y at h
  cases h with
  | ok h => rw [← h]

end RookLang
