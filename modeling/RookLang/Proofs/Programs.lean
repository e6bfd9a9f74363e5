import RookLang.Proofs.Canonical
import RookLang.Proofs.Grammar.Letters
import RookLang.Proofs.StatementCount

/-! Programs that are put together where a line ends. Whatever is open in the first one is closed
before the second one starts, so that both keep their statements. -/
namespace RookLang

namespace Text

variable {text : List Char}

/-- If the last line is complete, what comes after it is empty. -/
theorem terminated_of_endsLine (h : EndsLine text) {line : Line} (hl : line ∈ lines text)
    (ht : line.text ≠ []) : line.terminated := by
  obtain rfl | h := h
  · simp [lines, pieces, dropReturn] at hl
    simp [hl] at ht
  obtain ⟨a, rfl⟩ := List.getLast?_eq_some_iff.mp h
  rw [lines_append] at hl
  rcases List.mem_append.mp hl with hl | hl
  · obtain ⟨p, -, rfl⟩ := List.mem_map.mp hl
    rfl
  · obtain ⟨l, hm, rfl⟩ := List.mem_map.mp hl
    simp [lines, pieces, dropReturn] at hm
    simp [hm, Line.down] at ht

end Text

namespace Layout

variable {text : List Char} {lines : List CodeLine} {l : CodeLine} {before : ℕ}

theorem terminated_of_endsLine (h : Text.EndsLine text) (hl : codeLines text = .ok lines) :
    ∀ l ∈ lines, l.terminated := by
  intro l hm
  obtain ⟨line, hline, hc, hr⟩ := readLine_of_mem hl hm
  rw [(readLine_eq_ok_iff.mp hr).2]
  refine Text.terminated_of_endsLine h hline fun ht => ?_
  simp [isCode, ht] at hc

/-- After lines that are complete, the last token before the end of the input ends a line or a
level. -/
theorem exists_layout_of_tokensAfter (hl : l.terminated) (h : ∀ m ∈ lines, m.terminated) :
    ∃ us u t, l.tokens before ++ tokensAfter l lines = us ++ [u] ++ [t] ∧ u.kind.isLayout := by
  induction lines generalizing l before with
  | nil =>
    have he : l.ending = [l.token .newline "" l.finish] := if_pos hl
    rw [tokensAfter, CodeLine.closing, CodeLine.tokens, he]
    cases dedentCount l.width 0 with
    | zero =>
      exact ⟨l.opening before ++ l.body, l.token .newline "" l.finish,
        l.token .endOfInput "" l.finish, by simp, rfl⟩
    | succ n =>
      refine ⟨l.opening before ++ l.body ++ [l.token .newline "" l.finish] ++
        List.replicate n (l.token .dedent "" l.finish), l.token .dedent "" l.finish,
        l.token .endOfInput "" l.finish, ?_, rfl⟩
      simp [List.replicate_succ']
  | cons m lines ih =>
    obtain ⟨hm, h⟩ := List.forall_mem_cons.mp h
    obtain ⟨us, u, t, hu, hk⟩ := @ih m l.width hm h
    exact ⟨l.tokens before ++ us, u, t, by rw [tokensAfter, hu]; simp, hk⟩

theorem isLayout_getLast?_tokens (h : ∀ l ∈ lines, l.terminated) {us : List Token} {t : Token}
    (ht : tokens lines = us ++ [t]) : ∀ u ∈ us.getLast?, u.kind.isLayout := by
  cases lines with
  | nil =>
    obtain ⟨rfl, -⟩ := List.append_inj' (show [] ++ [_] = us ++ [t] from ht) rfl
    simp
  | cons l lines =>
    obtain ⟨hl, h⟩ := List.forall_mem_cons.mp h
    obtain ⟨vs, u, v, hv, hk⟩ := exists_layout_of_tokensAfter hl h
    rw [tokens_cons, hv] at ht
    obtain ⟨rfl, -⟩ := List.append_inj' ht rfl
    simpa using hk

end Layout

open Layout Phrase

theorem map_terminal_of_contents {ts us : List Token} (h : contents ts = contents us) :
    ts.map Token.terminal = us.map Token.terminal :=
  map_terminal_congr (fun _ _ => Prod.mk.inj) h

/-- Programs that are put together at the end of a line are a program, which has the statements of
both. -/
theorem checkSource_append {a b : List Char} {m n : ℕ} (ha : Text.EndsLine a)
    (hm : checkSource a = .ok m) (hn : checkSource b = .ok n) :
    checkSource (a ++ b) = .ok (m + n) := by
  obtain ⟨ts, hlex, hp⟩ := checkSource_eq_ok_iff.mp hm
  obtain ⟨us, hlex', hp'⟩ := checkSource_eq_ok_iff.mp hn
  obtain ⟨text, xs, hs, hxs, rfl⟩ := lex_eq_ok_iff.mp hlex
  obtain ⟨text', ys, hs', hys, rfl⟩ := lex_eq_ok_iff.mp hlex'
  obtain ⟨rest, t, hts, ht, hc⟩ := contents_tokens_below xs (a.count '\n')
  have hc := hc ys (width_head (leveled_of_parse hp'))
  rw [← contents_append] at hc
  have hend : t.terminal = .plain .endOfInput := by
    rw [Token.terminal_eq_plain (by simp [ht]) (by simp [ht]), ht]
  have hlines : rest.map Token.terminal ∈ (line.words (some nestingLimit) ^ m) 0 := by
    refine lines_of_program ?_ ?_
    · have hw := parseWithin_eq_ok_iff.mp hp
      rwa [hts, List.map_append, List.map_singleton, hend] at hw
    · have ht := isLayout_getLast?_tokens
        (terminated_of_endsLine (Comment.endsLine_of_strip ha hs) hxs) hts
      simpa [Token.isLayout_terminal] using ht
  refine checkSource_eq_ok_iff.mpr ⟨_, lex_append_eq_ok ha hs hxs hs' hys, ?_⟩
  rw [parse, parseWithin_eq_ok_iff, map_terminal_of_contents hc, List.map_append]
  exact lines_mul_programs_le m n 0
    (Words.mem_mul.mpr ⟨_, hlines, _, parseWithin_eq_ok_iff.mp hp', rfl⟩)

theorem checkSource_append_branches :
    Text.EndsLine "if a:\n\tif b:\n\t\tc() // d\n".toList ∧
      checkSource "if a:\n\tif b:\n\t\tc() // d\n".toList = .ok 1 ∧
      checkSource "x = 1\nif a:\n\tc()\nelse:\n\td()".toList = .ok 2 ∧
      checkSource ("if a:\n\tif b:\n\t\tc() // d\n".toList ++
        "x = 1\nif a:\n\tc()\nelse:\n\td()".toList) = .ok 3 := by
  have hl : Text.EndsLine "if a:\n\tif b:\n\t\tc() // d\n".toList := .inr (by decide)
  have ha : checkSource "if a:\n\tif b:\n\t\tc() // d\n".toList = .ok 1 := by decide +kernel
  have hb : checkSource "x = 1\nif a:\n\tc()\nelse:\n\td()".toList = .ok 2 := by
    decide +kernel
  exact ⟨hl, ha, hb, checkSource_append hl ha hb⟩

end RookLang
