import RookLang.Proofs.NestingLimit

/-! The places of syntax errors. An error stands at the token that the parser does not take,
whatever comes after it, or after the last token if all are taken. Since the tokens of a text end
with the end of the input, it is one of them there. -/
namespace RookLang
open Recogniser Terminal

/-- Syntax errors stand where the goals fail, after the tokens that were taken. -/
theorem parseWithin_eq_error_iff_fails {limit : Option ℕ} {ts : TokenStream} {e : SyntaxError} :
    parseWithin limit ts = .error e ↔ ∃ us rest goals x missing, us ++ rest = ts.toList ∧
      Takes Rule.react limit [.rule .program] .initial (us.map Token.terminal) goals x ∧
      Fails Rule.react limit goals x (rest.map Token.terminal).head? missing ∧
      e = .ofFault ts.toList ⟨missing, us.length⟩ := by
  rw [parseWithin_eq_error_iff]
  constructor
  · rintro ⟨⟨missing, taken⟩, hr, rfl⟩
    obtain ⟨us, rest, goals, x, hts, hk, ht, hf⟩ := recognise_eq_error_iff.mp hr
    obtain ⟨us, rest, htoks, rfl, rfl⟩ := List.map_eq_append_iff.mp hts.symm
    obtain rfl : taken = us.length := by simpa using hk
    exact ⟨us, rest, goals, x, missing, htoks.symm, ht, hf, rfl⟩
  · rintro ⟨us, rest, goals, x, missing, hts, ht, hf, rfl⟩
    refine ⟨⟨missing, us.length⟩, ?_, rfl⟩
    rw [← hts, List.map_append, ht.recognise_eq_error hf, List.length_map]

/-- After the end of the input nothing is missed. -/
theorem not_fails_after_endOfInput {l : ℕ} {us : List Terminal} {goals : List (Goal Rule)}
    {x : Context} {missing : Expectation}
    (ht : Takes Rule.react (some l) [.rule .program] .initial (us ++ [plain .endOfInput]) goals x) :
    ¬ Fails Rule.react (some l) goals x none missing := by
  intro hf
  have hr : recognise Rule.react (some l) .program (us ++ [plain .endOfInput] ++ []) =
      .error ⟨missing, (us ++ [plain .endOfInput]).length⟩ := ht.recognise_eq_error hf
  rw [List.append_nil] at hr
  cases hd : missing.isTooDeep with
  | true =>
    -- The last terminal would have opened a level.
    obtain ⟨vs, t, rest, _, _, s, e, hvs, hk, -, -, -, ho, -⟩ := exists_opener_terminal hr hd
    obtain rfl : rest = [] := by
      have hlen := congrArg List.length hvs
      simp at hlen hk
      exact List.eq_nil_of_length_eq_zero (by omega)
    obtain ⟨-, ht⟩ := List.append_inj' hvs rfl
    obtain rfl := List.singleton_injective ht
    cases ho
  | false =>
    obtain ⟨w, n, hw⟩ := Rule.explains_react.exists_word_of_takes ht
    obtain rfl : w = [] := by
      by_contra hne
      refine Phrase.endOfInput_notMem_dropLast hw ?_
      rw [List.dropLast_append_of_ne_nil hne]
      simp
    rw [List.append_nil] at hw
    have hok := recognise_eq_ok_iff.mpr (show Derives none 0 (Phrase.program n) _ from hw)
    have hlimit : recognise Rule.react none .program (us ++ [plain .endOfInput]) =
        recognise Rule.react (some l) .program (us ++ [plain .endOfInput]) := by
      refine recognise_of_limit nofun fun fault hf => ?_
      cases hr.symm.trans hf
      exact hd
    cases hok.symm.trans (hlimit.trans hr)

/-- The tokens of a text end with the end of the input. -/
theorem exists_endOfInput_of_lex {source : List Char} {ts : TokenStream}
    (h : lex source = .ok ts) :
    ∃ us t, ts.toList = us ++ [t] ∧ t.terminal = plain .endOfInput := by
  obtain ⟨text, lines, -, hc, rfl⟩ := Layout.lex_eq_ok_iff.mp h
  obtain ⟨us, t, hts, ht, -⟩ := Layout.tokens_eq_append (Layout.wellFormed_of_mem hc)
  refine ⟨us, t, hts, ?_⟩
  rw [Token.terminal_eq_plain (by simp [ht]) (by simp [ht]), ht]

theorem SyntaxError.found_suffix (e : SyntaxError) :
    (", found " ++ e.found).toList <:+ e.summary.toList :=
  ⟨e.missing.message.toList, by simp [summary]⟩

/-- An error at a token is the same whatever comes after the token. -/
theorem parse_error_local {ts vs : TokenStream} {us rest : List Token} {t : Token}
    {goals : List (Goal Rule)} {x : Context} {missing : Expectation}
    (hts : us ++ t :: rest = ts.toList)
    (ht : Takes Rule.react (some nestingLimit) [.rule .program] .initial
      (us.map Token.terminal) goals x)
    (hf : Fails Rule.react (some nestingLimit) goals x (some t.terminal) missing)
    (hvs : vs.toList.take (us.length + 1) = ts.toList.take (us.length + 1)) :
    parse vs = .error ⟨missing, t.describe, t.location⟩ := by
  have htake : ts.toList.take (us.length + 1) = us ++ [t] := by
    rw [← hts, List.append_cons]
    exact List.take_left' (by simp)
  have hv : us ++ t :: vs.toList.drop (us.length + 1) = vs.toList := by
    rw [List.append_cons, ← htake, ← hvs, List.take_append_drop]
  refine parseWithin_eq_error_iff_fails.mpr ⟨us, _, goals, x, missing, hv, ht, hf, ?_⟩
  rw [← hv, SyntaxError.ofFault_append_cons]

/-- The error is about the token number `k`, from 0 on, or about the end of the tokens. -/
structure SyntaxError.StandsAt (e : SyntaxError) (ts : TokenStream) (k : ℕ) : Prop where
  le_length : k ≤ ts.length
  /-- It names the token and stands there, and does not depend on later ones. -/
  of_token : ∀ t, ts.toList[k]? = some t → e.location = t.location ∧
    (", found " ++ t.describe).toList <:+ e.summary.toList ∧
    ∀ us : TokenStream, us.toList.take (k + 1) = ts.toList.take (k + 1) → parse us = .error e
  /-- It stands after the last token. -/
  of_end : k = ts.length → 1 ≤ ts.length ∧
    (∃ t, ts.toList[ts.length - 1]? = some t ∧ e.location = t.locationAfter) ∧
    ", found end of input".toList <:+ e.summary.toList

/-- Syntax errors are local and stand at what they name, a token or the end after the last token. In
the tokens of a text it is always a token. -/
theorem parse_error_place {ts : TokenStream} {e : SyntaxError} (h : parse ts = .error e) :
    ∃ k, e.StandsAt ts k ∧ ∀ source, lex source = .ok ts → k < ts.length := by
  obtain ⟨us, rest, goals, x, missing, hts, ht, hf, rfl⟩ := parseWithin_eq_error_iff_fails.mp h
  have hlen : us.length + rest.length = ts.length := by
    simpa [TokenStream.length] using congrArg List.length hts
  refine ⟨us.length, ?_⟩
  cases rest with
  | nil =>
    rw [List.append_nil] at hts
    obtain rfl | ⟨us, t, rfl⟩ := List.eq_nil_or_concat us
    · cases ht
      obtain hf | ⟨-, hne, -⟩ := hf
      · cases hf
      · exact (hne rfl).elim
    rw [List.concat_eq_append] at ht hts hlen ⊢
    rw [← hts, SyntaxError.ofFault_concat]
    refine ⟨⟨hlen.le, fun t' ht' => ?_, fun _ => ⟨?_, ⟨t, ?_, rfl⟩, ?_⟩⟩, fun source hl => ?_⟩
    · rw [← hts] at ht'
      simp at ht'
    · simp at hlen
      omega
    · simp [← hlen, ← hts]
    · exact SyntaxError.found_suffix ⟨missing, "end of input", t.locationAfter⟩
    · obtain ⟨vs, last, hvs, hlast⟩ := exists_endOfInput_of_lex hl
      obtain ⟨-, heq⟩ := List.append_inj' (hts.trans hvs) rfl
      obtain rfl := List.singleton_injective heq
      rw [List.map_append, List.map_singleton, hlast] at ht
      exact (not_fails_after_endOfInput ht hf).elim
  | cons t rest =>
    rw [← hts, SyntaxError.ofFault_append_cons]
    have hlt : us.length < ts.length := by
      simp at hlen
      omega
    refine ⟨⟨hlt.le, fun t' ht' => ?_, fun hk => (hlt.ne hk).elim⟩, fun _ _ => hlt⟩
    obtain rfl : t = t' := by simpa [← hts] using ht'
    exact ⟨rfl, SyntaxError.found_suffix ⟨missing, t.describe, t.location⟩,
      fun vs hvs => parse_error_local hts ht hf hvs⟩

theorem parse_error_place_sum :
    let e : SyntaxError := ⟨.expression, "end of line", ⟨1, 8, "x = 1 +", 1⟩⟩
    ∃ ts, lex "x = 1 +\n".toList = .ok ts ∧ parse ts = .error e ∧
      ∃ k, e.StandsAt ts k ∧ k < ts.length := by
  intro e
  obtain ⟨ts, hlex, h⟩ : ∃ ts, lex "x = 1 +\n".toList = .ok ts ∧ parse ts = .error e :=
    ⟨_, rfl, by decide +kernel⟩
  obtain ⟨k, hk, hlt⟩ := parse_error_place h
  exact ⟨ts, hlex, h, k, hk, hlt _ hlex⟩

end RookLang
