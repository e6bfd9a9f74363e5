import RookLang.Diagnostic
import RookLang.Proofs.LineFaults
import RookLang.Proofs.Spans

/-! What reports mark in the source. Columns count what is kept of a line; they tell the place in
the source as well up to the first comment before code, since comments after that leave spaces. -/
namespace RookLang

/-- The lexeme goes on into the carriage returns that its line ends in, where these are several. -/
def LexError.InReturns (source : List Char) (e : LexError) : Prop :=
  ∃ piece ∈ (Text.pieces source)[e.location.line - 1]?, ['\r', '\r'] <:+ piece ∧
    (Text.dropReturns piece).length + 1 < e.location.column + e.lexeme.toList.length

instance (source : List Char) (e : LexError) : Decidable (e.InReturns source) :=
  inferInstanceAs (Decidable (∃ piece ∈ (Text.pieces source)[e.location.line - 1]?, _ ∧ _))

namespace Diagnostic

/-- The report marks the lexeme at fault: for a lexical error its own one, and the next character at
most if the lexeme cannot go on; for a syntax error that of the token at its place. -/
def MarksLexeme (source : List Char) (d : Diagnostic) : Prop :=
  match d with
  | .lexical e => (d.report source).span.Holds source e.lexeme.toList ∨
    (∃ why, e.cause = .invalidLexeme why) ∧
      ∃ c, (d.report source).span.Holds source (e.lexeme.toList ++ [c])
  | .syntactic e => ∀ ts, lex source = .ok ts → ∀ t ∈ ts.toList, t.kind.isLayout = false →
    t.location = e.location → (d.report source).span.Holds source t.lexeme.toList

end Diagnostic

namespace Location
open Layout Comment

variable {source text x : List Char} {line : Text.Line} {l : Location}

/-- What stands in a kept line in its column stands there in the source. -/
theorem exists_piece_of_inColumn (hs : strip source = .ok text)
    (hf : Undropped source l.line (l.column + x.length - 1)) (hline : line ∈ Text.lines text)
    (hn : l.line = line.number) (h : InColumn line.text x l.column) : ∃ u v,
      (Text.pieces source)[l.line - 1]? = some (u ++ x ++ v) ∧ l.column = u.length + 1 ∧
        (v = [] → x.getLast? ≠ some '\r') := by
  obtain ⟨p, k, v₀, w, hp, hk, hover, hw⟩ := hf.exists_over hs
  obtain ⟨-, k', hk', ht⟩ := Text.exists_piece_of_mem hline
  obtain rfl : k ++ w = k' := by
    rw [← hn, hk] at hk'
    exact Option.some.inj hk'
  obtain ⟨u, v, htext, hcol, hspaces⟩ := h.eq_append
  obtain ⟨r, hr⟩ := Text.dropReturn_prefix (k ++ w)
  rw [← ht, htext, List.append_assoc] at hr
  obtain ⟨z, rfl⟩ : u ++ x <+: k := by
    have hprefix : u ++ x <+: k ++ w := ⟨v ++ r, hr⟩
    rcases hw with rfl | ⟨-, hle⟩
    · rwa [List.append_nil] at hprefix
    · refine List.prefix_of_prefix_length_le hprefix (List.prefix_append k w) ?_
      rw [List.length_append]
      omega
  obtain ⟨u', v', rfl, hu⟩ := hover.exists_append hspaces
  refine ⟨u', v' ++ v₀, by rw [hp, List.append_assoc], by rw [hcol, hu], fun hv hlast => ?_⟩
  -- The whole line is kept, so that its carriage return is not part of the line that is read.
  obtain ⟨rfl, rfl⟩ := List.append_eq_nil_iff.mp hv
  obtain rfl : w = [] := hw.resolve_right fun hne => hne.1 rfl
  have hlen := hover.length_eq
  simp only [List.length_append, List.length_nil, hu] at hlen
  obtain rfl : z = [] := List.length_eq_zero_iff.mp (by omega)
  simp only [List.append_nil] at hr ht
  obtain ⟨rfl, rfl⟩ := List.append_eq_nil_iff.mp (List.append_right_eq_self.mp hr)
  refine Text.dropReturn_ne ?_ (ht.symm.trans (htext.trans (List.append_nil _)))
  rw [List.getLast?_append_of_ne_nil _ h.ne_nil, hlast]

theorem span_holds_of_inColumn (hs : strip source = .ok text)
    (hf : Undropped source l.line (l.column + l.length - 1)) (hlen : x.length ≤ l.length)
    (hline : line ∈ Text.lines text) (hn : l.line = line.number) (h : InColumn line.text x l.column)
    (hr : x.getLast? = some '\r' → ∀ piece, (Text.pieces source)[l.line - 1]? = some piece →
      ['\r', '\r'] <:+ piece → l.column + x.length ≤ (Text.dropReturns piece).length + 1) :
    (l.length = x.length → (l.span source).Holds source x) ∧
      (l.length = x.length + 1 → (l.span source).Holds source x ∨
        ∃ c, (l.span source).Holds source (x ++ [c])) := by
  obtain ⟨u, v, hp, hcol, hv⟩ :=
    exists_piece_of_inColumn hs (hf.mono (by omega)) hline hn h
  have hne := (Text.exists_piece_of_mem hline).1
  refine span_holds_of_line (hn ▸ hne) hp hcol h.ne_nil ?_
  refine Text.length_le_dropReturns hv h.ne_nil fun hlast hrr => ?_
  have := hr hlast _ hp hrr
  omega

/-- The place of a comment that stays open is that of its first two characters. -/
theorem span_holds_unclosedComment {p : Position} (h : strip source = .error p) :
    ((LexError.unclosedComment source p).location.span source).Holds source "/*".toList := by
  obtain ⟨a, b, rfl, rfl⟩ := exists_of_strip_error h
  have hb : a ++ '/' :: '*' :: b = a ++ ['/', '*'] ++ b := by simp
  have hspan := span_eq_of_append (b := b)
    (l := (LexError.unclosedComment (a ++ '/' :: '*' :: b) (placeAfter a)).location) rfl rfl
    (x := ['/', '*']) rfl (by decide) (by decide) (by decide)
  rw [← hb] at hspan
  exact ⟨a, b, hb, by rw [hspan], by rw [hspan]; rfl⟩

end Location

open Layout Comment

theorem checkSource_eq_lexical {source : List Char} {e : LexError} :
    checkSource source = .error (.lexical e) ↔ lex source = .error e := by
  cases hl : lex source with
  | error e' => simp [checkSource, hl]
  | ok ts => cases hp : parse ts <;> simp [checkSource, hl, hp, Except.mapError]

/-- A comment before the code of a line leaves nothing, so that columns do not tell the place in the
source any more, and of several carriage returns at the end of a line only one is not read. -/
theorem exists_report_misses_lexeme :
    (∃ d, checkSource "/* lead */x = @".toList = .error d ∧
      ¬ d.MarksLexeme "/* lead */x = @".toList) ∧
    ∃ d, checkSource "x = \"a\r\r\n".toList = .error d ∧
      ¬ d.MarksLexeme "x = \"a\r\r\n".toList := by
  constructor
  · refine ⟨.lexical ⟨.unexpectedCharacter '@', "@", ⟨1, 5, "x = @", 1⟩⟩, rfl, ?_⟩
    rintro (h | ⟨⟨why, h⟩, -⟩)
    · revert h
      decide
    · cases h
  · refine ⟨.lexical ⟨.unterminatedString, "\"a\r", ⟨1, 5, "x = \"a\r", 3⟩⟩, rfl, ?_⟩
    rintro (h | ⟨⟨why, h⟩, -⟩)
    · revert h
      decide
    · cases h

/-- A report marks the lexeme at fault in the source, if no comment is dropped before the end of the
lexeme or the fault is a comment that stays open. -/
theorem report_marks_lexeme {source : List Char} {d : Diagnostic}
    (h : checkSource source = .error d)
    (hc : (∀ e, d = .lexical e → e.cause ≠ .unterminatedComment) →
      Undropped source d.location.line (d.location.column + d.location.length - 1))
    (hr : ∀ e, d = .lexical e → ¬ e.InReturns source) : d.MarksLexeme source := by
  cases d with
  | lexical e =>
    rcases lex_eq_error_iff.mp (checkSource_eq_lexical.mp h) with ⟨p, hp, rfl⟩ | ⟨text, hs, hl⟩
    · exact .inl (Location.span_holds_unclosedComment hp)
    · obtain ⟨line, hline, hm⟩ := marks_of_codeLines hl
      have hf := hc fun _ he => by
        cases he
        exact hm.cause_ne
      have hlen : e.lexeme.toList.length ≤ e.location.length := by
        rcases hm.length with h | ⟨h, -⟩ <;> omega
      obtain ⟨hx, hnext⟩ := Location.span_holds_of_inColumn hs hf hlen hline hm.number hm.inColumn
        fun _ piece hp hrr => Nat.le_of_not_lt fun hlt => hr e rfl ⟨piece, hp, hrr, hlt⟩
      rcases hm.length with hlen | ⟨hlen, hwhy⟩
      · exact .inl (hx hlen)
      · exact (hnext hlen).imp_right fun hnext => ⟨hwhy, hnext⟩
  | syntactic e =>
    intro ts hts t ht hk hloc
    have hf : Undropped source e.location.line
      (e.location.column + e.location.length - 1) := hc nofun
    obtain ⟨text, lines, hs, hl, rfl⟩ := lex_eq_ok_iff.mp hts
    obtain ⟨line, hline, hn, hcol, hlast⟩ := inColumn_of_mem_tokens hl ht hk
    rw [← hloc] at hf
    have hlen : t.location.length = t.lexeme.toList.length :=
      Nat.max_eq_left (List.length_pos_iff.mpr hcol.ne_nil)
    have hspan := (Location.span_holds_of_inColumn hs hf hlen.ge hline hn hcol
      fun hr => (hlast hr).elim).1 hlen
    rwa [hloc] at hspan

/-- A comment after code leaves spaces, and one before it is dropped after the indentation. -/
theorem report_marks_lexeme_spaced :
    (∃ d, checkSource "s = \"é\" /* ö */ @ // c\r\n".toList = .error d ∧
      d.MarksLexeme "s = \"é\" /* ö */ @ // c\r\n".toList) ∧
    ∃ d, checkSource "  /* c */x".toList = .error d ∧ d.MarksLexeme "  /* c */x".toList := by
  constructor
  · have hf : CodeFirst "s = \"é\" /* ö */ @ // c\r\n".toList 1 :=
      ⟨false, [], 's', " = \"é\" /* ö */ @ // c\r\n".toList, by decide, rfl, nofun, rfl, .start,
        by decide, by decide⟩
    let e : LexError := ⟨.unexpectedCharacter '@', "@", ⟨1, 17, "s = \"é\"         @ ", 1⟩⟩
    have h : checkSource "s = \"é\" /* ö */ @ // c\r\n".toList = .error (.lexical e) := rfl
    have hr : ¬ e.InReturns "s = \"é\" /* ö */ @ // c\r\n".toList := by decide
    exact ⟨_, h, report_marks_lexeme h (fun _ => .inl hf) fun _ he =>
      Diagnostic.lexical.inj he ▸ hr⟩
  · have ho : Outside false [' ', ' '] "/* c */x".toList :=
      .code (.code .start (by decide) (by decide) (by decide)) (by decide) (by decide) (by decide)
    have hline : Text.lastLine [' ', ' '] = [' ', ' '] := rfl
    have hblank : ∀ c ∈ Text.lastLine [' ', ' '], Character.isBlank c := by
      simp [hline, Character.isBlank]
    let e : LexError := ⟨.indentation 2, "  ", ⟨1, 1, "  x", 2⟩⟩
    have h : checkSource "  /* c */x".toList = .error (.lexical e) := rfl
    have hr : ¬ e.InReturns "  /* c */x".toList := by decide
    exact ⟨_, h, report_marks_lexeme h
      (fun _ => .inr ⟨false, _, _, rfl, rfl, hline ▸ Nat.le_refl 2, hblank, ho⟩) fun _ he =>
      Diagnostic.lexical.inj he ▸ hr⟩

end RookLang
