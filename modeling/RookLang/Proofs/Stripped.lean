import RookLang.Diagnostic
import RookLang.Proofs.Comments

/-! Removal of comments from a text that has none any more. What is kept of a source leads the
removal through it as code and strings only, so a second removal changes nothing, and the text
that is kept means what the source means. -/
namespace RookLang

namespace Comment

variable {source text : List Char} {s t u : State} {c : Char} {m : Mode}

/-- The mode in which the text that is kept is left when it is read on its own. A slash that is
held back is not kept yet, and of a comment no opener is kept. -/
def Mode.settled : Mode → Mode
  | .string => .string
  | _ => .code

namespace State

/-- The text that `t` keeps beyond that of `s` leads from the one settled mode to the other. -/
def Extends (s t : State) : Prop :=
  ∃ added, t.kept.reverse = s.kept.reverse ++ added ∧
    Keeps (· = s.mode.settled) (· = t.mode.settled) added

namespace Extends

theorem refl (h : t.kept = s.kept) (hm : t.mode.settled = s.mode.settled) : s.Extends t := by
  refine ⟨[], by simp [h], ?_⟩
  rw [hm]
  exact .nil

theorem trans (h : s.Extends t) (h' : t.Extends u) : s.Extends u := by
  obtain ⟨a, ha, hk⟩ := h
  obtain ⟨b, hb, hk'⟩ := h'
  exact ⟨a ++ b, by rw [hb, ha, List.append_assoc], hk.append hk'⟩

theorem enter (h : s.Extends t) (hm : m.settled = t.mode.settled) : s.Extends (t.enter m) :=
  h.trans (refl rfl hm)

end Extends

theorem extends_keep (h : Keeps (· = s.mode.settled) (· = m.settled) [c]) :
    s.Extends ((s.keep c).enter m) :=
  ⟨[c], List.reverse_cons, h⟩

theorem extends_blank (h : s.mode.settled = .code) :
    s.Extends s.blank ∧ s.blank.mode.settled = .code := by
  unfold blank
  split
  · exact ⟨⟨[' '], List.reverse_cons, h ▸ keeps_plain (by decide) (by decide)⟩, h⟩
  · exact ⟨.refl rfl rfl, h⟩

theorem extends_newline (h : s.mode.settled = .code) (hm : m.settled = .code) :
    s.Extends ((s.keep '\n').enter m) := by
  apply extends_keep
  rw [h, hm]
  exact keeps_plain (by decide) (by decide)

theorem extends_code (h : s.mode.settled = .code) (hc : c ≠ '/') : s.Extends (s.code c) := by
  apply extends_keep
  rw [h]
  by_cases hq : c = '"'
  · subst hq
    exact keeps_openQuote.from_code
  · rw [if_neg hq]
    exact keeps_plain (by simpa using hc.symm) (by simpa using Ne.symm hq)

theorem extends_string (h : s.mode = .string) : s.Extends (s.string c) := by
  apply extends_keep
  rw [h]
  by_cases hc : c = '"' ∨ c = '\n'
  · rw [if_pos hc]
    intro s hm
    simp [feed, string, keep, State.enter, read, hm, hc, Mode.settled]
  · rw [if_neg hc]
    exact keeps_inString (fun h => hc (.inl h)) (fun h => hc (.inr h))

/-- A slash before what opens no comment is kept with the character after it. -/
theorem extends_slash (h : s.mode.settled = .code) (hs : c ≠ '/') (ha : c ≠ '*') :
    s.Extends ((s.keep '/').code c) := by
  refine ⟨['/', c], by simp [code, keep, State.enter], ?_⟩
  have hc : Keeps Mode.InCode (· = (if c = '"' then Mode.string else .code).settled) [c] := by
    by_cases hq : c = '"'
    · subst hq
      exact keeps_openQuote
    · rw [if_neg hq]
      exact keeps_separator hs ha hq
  rw [h]
  exact keeps_slash.append hc

theorem extends_blockComment (h : s.mode.settled = .code) (opened : Position) (star : Bool) :
    s.Extends (s.blockComment opened star c) := by
  obtain ⟨hb, hm⟩ := extends_blank h
  unfold blockComment
  split
  · subst c
    exact extends_newline h rfl
  · split
    · exact hb.enter hm.symm
    · exact hb.enter hm.symm

/-- Whatever is read, what is kept goes on as code and strings. -/
theorem extends_feed (s : State) (c : Char) : s.Extends (s.feed c) := by
  obtain ⟨mode, position, hasCode, kept⟩ := s
  cases mode with
  | code =>
    by_cases hc : c = '/'
    · subst hc
      exact .refl rfl rfl
    · simp only [feed, if_neg hc]
      exact extends_code rfl hc
  | slash opened =>
    simp only [feed, afterSlash]
    by_cases hs : c = '/'
    · rw [if_pos hs]
      exact .refl rfl rfl
    by_cases ha : c = '*'
    · rw [if_neg hs, if_pos ha]
      obtain ⟨hb, hm⟩ := extends_blank (s := ⟨.slash opened, position, hasCode, kept⟩) rfl
      obtain ⟨hb', hm'⟩ := extends_blank hm
      exact (hb.trans hb').enter hm'.symm
    · rw [if_neg hs, if_neg ha]
      exact extends_slash rfl hs ha
  | string => exact extends_string rfl
  | lineComment =>
    simp only [feed, lineComment]
    by_cases hn : c = '\n'
    · subst hn
      exact extends_newline rfl rfl
    · rw [if_neg hn]
      exact .refl rfl rfl
  | blockComment opened star => exact extends_blockComment rfl opened star

theorem extends_foldl (s : State) (text : List Char) : s.Extends (text.foldl feed s) := by
  induction text generalizing s with
  | nil => exact .refl rfl rfl
  | cons c text ih => exact (extends_feed s c).trans (ih (s.feed c))

end State

/-- A text without comments has none to remove. -/
theorem strip_of_strip (h : strip source = .ok text) : strip text = .ok text := by
  obtain ⟨added, ha, hk⟩ := State.extends_foldl .initial source
  rw [strip] at h
  generalize source.foldl State.feed .initial = s at h ha hk
  obtain ⟨mode, position, hasCode, kept⟩ := s
  obtain rfl : kept.reverse = added := ha
  cases mode with
  | code | lineComment =>
    obtain rfl := Except.ok.inj h
    exact strip_of_keeps hk.inCode
  | slash opened =>
    obtain rfl : (kept.reverse ++ ['/']) = text := by
      simpa [State.finish, State.keep] using h
    exact strip_of_keeps (hk.append keeps_slash)
  | string =>
    obtain rfl := Except.ok.inj h
    -- The last line ends inside of a string.
    obtain ⟨hm, hr⟩ := hk .initial rfl
    rw [strip]
    generalize kept.reverse.foldl State.feed .initial = s at hm hr ⊢
    obtain ⟨mode, position, hasCode, k⟩ := s
    obtain rfl : mode = .string := hm
    obtain rfl : k = kept := by simpa [State.read, State.initial] using hr
    rfl
  | blockComment opened star => cases h

end Comment

/-- Removal of comments changes nothing the second time, and what it keeps has the tokens of the
source, or its error, and is a program exactly as the source is. -/
theorem lex_of_strip {source text : List Char} (h : Comment.strip source = .ok text) :
    Comment.strip text = .ok text ∧ lex text = lex source ∧
      checkSource text = checkSource source := by
  have hs := Comment.strip_of_strip h
  have hl : lex text = lex source := by
    rw [lex, lex, h, hs]
  refine ⟨hs, hl, ?_⟩
  rw [checkSource, checkSource, hl]

/-- Comments that stand between slashes and stars, one at the start of a line, and a string that
looks like one. -/
theorem lex_of_strip_slashes :
    let source := "/* a */x = 1 / /* b */ / 2 * /**/ 3 // c\ny = \"/*\" /*\n*/\tz".toList
    let text := "x = 1 /         / 2 *      3 \ny = \"/*\"   \n\tz".toList
    Comment.strip source = .ok text ∧ Comment.strip text = .ok text ∧ lex text = lex source ∧
      checkSource text = checkSource source := by
  intro source text
  have h : Comment.strip source = .ok text := by decide
  exact ⟨h, lex_of_strip h⟩

end RookLang
