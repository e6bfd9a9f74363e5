import RookLang.Proofs.Lexical.Spelling
import RookLang.Proofs.Parse
import RookLang.Proofs.Rules

/-! Where a program is broken off. The tokens before a syntax error start some program, unless the
limit of nesting is counted; together with the one at the error they start none. -/
namespace RookLang

open Recogniser

theorem Token.terminal_surjective : Function.Surjective Token.terminal := by
  intro t
  cases t with
  | word k =>
    exact ⟨⟨.keyword, k.spelling, 1, 1, "", 0⟩,
      by simp [terminal, keyword?, Keyword.ofSpelling?_spelling]⟩
  | builtin b =>
    exact ⟨⟨.builtin, b.spelling, 1, 1, "", 0⟩,
      by simp [terminal, keyword?, builtin?, Builtin.ofSpelling?_spelling]⟩
  | plain k =>
    -- No reserved word and no builtin has an empty spelling.
    refine ⟨⟨k, "", 1, 1, "", 0⟩, ?_⟩
    have hk : Keyword.ofSpelling? "" = none := by decide
    have hb : Builtin.ofSpelling? "" = none := by decide
    simp [terminal, keyword?, builtin?, hk, hb]

/-- What the recogniser takes of some tokens starts a program without a limit of nesting. -/
theorem exists_program_of_takes {limit : Option ℕ} {us : List Token} {goals : List (Goal Rule)}
    {x : Context}
    (h : Takes Rule.react limit [.rule .program] .initial (us.map Token.terminal) goals x) :
    ∃ more n, Derives none 0 (Phrase.program n) ((us ++ more).map Token.terminal) := by
  obtain ⟨w, n, hw⟩ := Rule.explains_react.exists_word_of_takes h
  obtain ⟨more, rfl⟩ := Token.terminal_surjective.list_map w
  exact ⟨more, n, by rwa [List.map_append]⟩

namespace SyntaxError

@[simp] theorem ofFault_missing (tokens : List Token) (fault : Fault) :
    (ofFault tokens fault).missing = fault.missing := by
  unfold ofFault
  split <;> rfl

theorem ofFault_append_cons (missing : Expectation) (us : List Token) (t : Token)
    (rest : List Token) :
    ofFault (us ++ t :: rest) ⟨missing, us.length⟩ = ⟨missing, t.describe, t.location⟩ := by
  simp [ofFault]

theorem ofFault_concat (missing : Expectation) (us : List Token) (t : Token) :
    ofFault (us ++ [t]) ⟨missing, (us ++ [t]).length⟩ =
      ⟨missing, "end of input", t.locationAfter⟩ := by
  simp [ofFault]

end SyntaxError

theorem parseWithin_eq_error_iff {limit : Option ℕ} {ts : TokenStream} {e : SyntaxError} :
    parseWithin limit ts = .error e ↔ ∃ fault,
      recognise Rule.react limit .program (ts.toList.map Token.terminal) = .error fault ∧
        e = .ofFault ts.toList fault := by
  cases hr : recognise Rule.react limit .program (ts.toList.map Token.terminal) with
  | ok n => simp [parseWithin_eq, hr, Except.mapError]
  | error fault => simp [parseWithin_eq, hr, Except.mapError, eq_comm]

theorem parseWithin_ne_ok {limit : Option ℕ} {us : List Token} {t : Token}
    {goals : List (Goal Rule)} {x : Context} {ts : TokenStream} {n : ℕ}
    (h : Takes Rule.react limit [.rule .program] .initial (us.map Token.terminal) goals x)
    (ht : Stops Rule.react limit goals x t.terminal) (hp : us ++ [t] <+: ts.toList) :
    parseWithin limit ts ≠ .ok n := by
  obtain ⟨rest, hp⟩ := hp
  have hr : recognise Rule.react limit .program (ts.toList.map Token.terminal) ≠ .ok n := by
    rw [← hp, List.append_assoc, List.map_append]
    exact not_recognise h ht
  exact fun hn => hr (recognise_eq_ok_iff.mpr (parseWithin_eq_ok_iff.mp hn))

/-- A syntax error is a fault after the tokens that were taken. -/
theorem exists_fault_of_parse {ts : TokenStream} {e : SyntaxError} (h : parse ts = .error e) :
    ∃ k ≤ ts.length,
      Parser.parse (some nestingLimit) ts.toList = .error ⟨e, ts.toList.drop k⟩ ∧
      e = .ofFault ts.toList ⟨e.missing, k⟩ ∧
      recognise Rule.react (some nestingLimit) .program (ts.toList.map Token.terminal) =
        .error ⟨e.missing, k⟩ := by
  obtain ⟨⟨missing, k⟩, hr, rfl⟩ := parseWithin_eq_error_iff.mp h
  rw [SyntaxError.ofFault_missing]
  refine ⟨k, ?_, ?_, rfl, hr⟩
  · obtain ⟨us, rest, goals, x, hts, hk, -⟩ := takes_of_recognise hr
    have hlen : us.length + rest.length = ts.length := by
      simpa [TokenStream.length] using congrArg List.length hts
    have hk : k = us.length := hk
    omega
  · rw [Parser.parse_eq, hr, Except.mapError]

theorem eq_of_drop_eq {α : Type} {xs : List α} {j k : ℕ} (h : xs.drop j = xs.drop k)
    (hj : j ≤ xs.length) (hk : k ≤ xs.length) : j = k := by
  have hlen := congrArg List.length h
  rw [List.length_drop, List.length_drop] at hlen
  omega

/-- A syntax error stands at the first token that nothing can repair: the tokens before it start
a program, but for the limit of nesting, and no stream is parsed that starts with them and the
one at the error. This holds of all errors, those about the limit too. -/
theorem parse_error_unrepairable {ts : TokenStream} {e : SyntaxError} (h : parse ts = .error e) :
    ∃ k ≤ ts.length,
      Parser.parse (some nestingLimit) ts.toList = .error ⟨e, ts.toList.drop k⟩ ∧
      e = .ofFault ts.toList ⟨e.missing, k⟩ ∧
      (∃ more n, Derives none 0 (Phrase.program n)
        ((ts.toList.take k ++ more).map Token.terminal)) ∧
      (k < ts.length → ∀ us : TokenStream,
        ts.toList.take (k + 1) <+: us.toList → ∀ n, parse us ≠ .ok n) := by
  obtain ⟨k, hle, hparse, he, hr⟩ := exists_fault_of_parse h
  obtain ⟨us, rest, goals, x, hts, hk, ht, hs⟩ := takes_of_recognise hr
  have hk : k = us.length := hk
  have hus : us = (ts.toList.take k).map Token.terminal := by
    rw [List.map_take, ← hts, hk, List.take_left]
  rw [hus] at ht
  refine ⟨k, hle, hparse, he, exists_program_of_takes ht, fun hlt vs hp n => ?_⟩
  have hlt : k < ts.toList.length := hlt
  rw [← List.take_append_getElem hlt] at hp
  refine parseWithin_ne_ok ht (hs _ ?_) hp
  have hdrop : rest = (ts.toList.map Token.terminal).drop k := by
    rw [← hts, hk, List.drop_left]
  simp [hdrop, List.head?_drop, hlt]

theorem parse_error_unrepairable_sum :
    let ts : TokenStream := ⟨[⟨.identifier, "x", 1, 1, "x = 1 +", 0⟩,
      ⟨.operator .assign, "=", 1, 3, "x = 1 +", 0⟩, ⟨.number, "1", 1, 5, "x = 1 +", 0⟩,
      ⟨.operator .plus, "+", 1, 7, "x = 1 +", 0⟩, ⟨.newline, "", 1, 8, "x = 1 +", 0⟩]⟩
    parse ts = .error ⟨.expression, "end of line", ⟨1, 8, "x = 1 +", 1⟩⟩ ∧
      (∃ more n, Derives none 0 (Phrase.program n)
        ((ts.toList.take 4 ++ more).map Token.terminal)) ∧
      ∀ us : TokenStream, ts.toList.take 5 <+: us.toList → ∀ n, parse us ≠ .ok n := by
  intro ts
  have h : parse ts = .error ⟨.expression, "end of line", ⟨1, 8, "x = 1 +", 1⟩⟩ := by
    decide +kernel
  obtain ⟨k, hk, hparse, -, hstart, hstop⟩ := parse_error_unrepairable h
  have hfour : Parser.parse (some nestingLimit) ts.toList =
      .error ⟨⟨.expression, "end of line", ⟨1, 8, "x = 1 +", 1⟩⟩, ts.toList.drop 4⟩ := by
    decide +kernel
  have hleft := congrArg Parser.Failure.left (Except.error.inj (hparse.symm.trans hfour))
  obtain rfl := eq_of_drop_eq hleft hk (by decide)
  exact ⟨h, hstart, hstop (by decide)⟩

end RookLang
