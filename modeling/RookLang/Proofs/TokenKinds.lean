import RookLang.Proofs.Canonical

/-! Kinds and lexemes of tokens tell the same: a lexeme names what its token stands for, and is a
text that has no other token. -/
namespace RookLang

/-- What the kind of a token says of its lexeme. -/
structure Token.Coherent (t : Token) : Prop where
  keyword : t.kind = .keyword → ∃ k, t.keyword? = some k ∧ k.spelling = t.lexeme
  builtin : t.kind = .builtin → ∃ b, t.builtin? = some b ∧ b.spelling = t.lexeme
  operator : ∀ o, t.kind.operator? = some o → o.spelling = t.lexeme
  punctuation : ∀ p, t.kind = .punctuation p → t.lexeme = p.spelling ∧ t.lexeme.length = 1
  boolean : t.kind = .boolean → ∃ b, boolean? t.lexeme = some b
  identifier : t.kind = .identifier → (∀ k : Keyword, k.spelling ≠ t.lexeme) ∧
    t.lexeme ∉ booleanSpellings ∧ (∀ o : Operator, o.spelling ≠ t.lexeme) ∧
    ∀ b : Builtin, b.spelling ≠ t.lexeme
  layout : t.kind.isLayout → t.lexeme = ""

/-- The tokens of a text that is one lexeme. -/
def TokenStream.ofLexeme (kind : Kind) (lexeme : String) : TokenStream :=
  ⟨[⟨kind, lexeme, 1, 1, lexeme, 0⟩, ⟨.endOfInput, "", 1, lexeme.length + 1, lexeme, 0⟩]⟩

namespace Lexeme
open Character

variable {kind : Kind} {text : List Char} {barred : Char → Bool}

/-- Only words have these kinds. -/
theorem Spells.names (h : Spells kind text barred)
    (hk : kind ∈ [.keyword, .boolean, .builtin, .identifier]) :
    Names kind (String.ofList text) := by
  cases h with
  | word _ hn => exact hn
  | _ => simp at hk

theorem Spells.operator_spelling {o : Operator} (h : Spells (.operator o) text barred) :
    o.spelling = String.ofList text := by
  cases h with
  | word _ hn =>
    generalize String.ofList text = word at hn
    cases hn
    rfl
  | sign _ h | compound _ h => rw [← h, String.ofList_toList]

theorem Spells.punctuation_spelling {p : Punctuation} (h : Spells (.punctuation p) text barred) :
    String.ofList text = p.spelling := by
  cases h with
  | word _ hn =>
    generalize String.ofList text = word at hn
    cases hn
  | punctuation => rfl

theorem Spells.coherent {t : Token} (h : Spells t.kind text barred)
    (ht : String.ofList text = t.lexeme) : t.Coherent := by
  obtain ⟨kind, lexeme, line, column, lineText, indentLevel⟩ := t
  have hn := h.names
  rw [ht] at hn
  constructor <;> dsimp only at h hn ht ⊢
  case keyword =>
    rintro rfl
    cases hn (by simp) with
    | keyword k => exact ⟨k, k.ofSpelling?_spelling, rfl⟩
  case builtin =>
    rintro rfl
    cases hn (by simp) with
    | builtin b => exact ⟨b, b.ofSpelling?_spelling, rfl⟩
  case operator =>
    intro o ho
    cases kind <;> cases ho
    exact h.operator_spelling.trans ht
  case punctuation =>
    rintro p rfl
    have hp : lexeme = p.spelling := ht.symm.trans h.punctuation_spelling
    exact ⟨hp, by simp [hp, Punctuation.spelling]⟩
  case boolean =>
    rintro rfl
    cases hn (by simp) with
    | boolean hb => exact Option.isSome_iff_exists.mp (isSome_boolean?_iff.mpr hb)
  case identifier =>
    rintro rfl
    cases hn (by simp) with
    | identifier hk hb ho hf => exact ⟨hk, hb, ho, hf⟩
  case layout => exact fun hl => by simp [h.isLayout_eq_false] at hl

/-- A lexeme ends in ink. -/
theorem Spells.isBlank_getLast (h : Spells kind text barred) {c : Char}
    (hc : text.getLast? = some c) : isBlank c = false := by
  by_contra hb
  have ink {d : Char} (hd : 33 ≤ d.toNat ∧ d.toNat ≤ 126) : c ≠ d := by
    rintro rfl
    exact hb (isBlank_eq_false hd)
  have hj : joinsWord c = false := by
    by_contra hj
    rw [Bool.not_eq_false, joinsWord, Bool.or_eq_true, Bool.or_eq_true, isLetter_iff, isDigit_iff,
      beq_iff_eq] at hj
    rcases hj with (hj | hj) | hj
    · exact ink (by omega) rfl
    · exact ink (by omega) rfl
    · exact ink (by decide) hj
  have hp (p : Punctuation) : p.char ≠ c := (ink (by cases p <;> decide)).symm
  obtain ⟨o, -, rfl, -⟩ := h.of_getLast? hc hj (ink (by decide)) hp
  revert hb
  cases o <;> cases hc <;> decide

end Lexeme

open Layout Lexeme

variable {kind : Kind} {text : List Char} {barred : Char → Bool}

theorem Layout.inkLength_spells (h : Spells kind text barred) : inkLength text = text.length := by
  have hd : text.reverse.dropWhile Character.isBlank = text.reverse := by
    cases hr : text.reverse with
    | nil => rfl
    | cons c cs =>
      have hc : text.getLast? = some c := by rw [← List.head?_reverse, hr, List.head?_cons]
      exact List.dropWhile_cons_of_neg (by simp [h.isBlank_getLast hc])
  rw [inkLength, hd, List.length_reverse]

theorem Layout.codeLines_spells (h : Spells kind text barred) (hn : '\n' ∉ text) :
    codeLines text =
      .ok [⟨1, String.ofList text, 0, 1, [⟨kind, text, 1⟩], text.length + 1, false⟩] := by
  have hlines : Text.lines text = [⟨1, text, false⟩] := by
    have hr : Text.dropReturn text = text := if_neg h.getLast?_ne
    simp [Text.lines, Text.pieces, List.splitOn_eq_singleton hn, hr]
  obtain ⟨c, cs, ht⟩ := List.exists_cons_of_ne_nil h.ne_nil
  have hs : Spells kind (c :: cs) barred := ht ▸ h
  have hb := hs.not_isBlank
  have hcode : isCode ⟨1, text, false⟩ := by simp [isCode, ht, hb]
  have hlead : leading text = [] := by
    rw [ht]
    refine List.takeWhile_cons_of_neg fun hg => ?_
    simp [Character.isBlank_of_isGap hg] at hb
  have hcut : Cuts 1 (text ++ []) [⟨kind, text, 1⟩] := .lexeme h (by simp) .nil
  rw [List.append_nil] at hcut
  rw [codeLines_eq_ok_iff, hlines, List.filter_cons_of_pos hcode]
  refine .cons (readLine_eq_ok_iff.mpr ⟨?_, ?_⟩) .nil
  · rw [cutsLine_iff, hlead]
    exact ⟨rfl, hcut⟩
  · rw [hlead, inkLength_spells h]
    rfl

/-- A lexeme on one line is a text of its own, which has one token. -/
theorem lex_spells (h : Spells kind text barred) (hn : '\n' ∉ text) :
    lex text = .ok (.ofLexeme kind (String.ofList text)) := by
  refine lex_eq_ok_iff.mpr ⟨text, _, Comment.strip_of_keeps (h.keeps hn), codeLines_spells h hn, ?_⟩
  simp [TokenStream.ofLexeme, tokens_cons, tokensAfter, CodeLine.tokens, CodeLine.opening,
    CodeLine.body, CodeLine.ending, CodeLine.closing, CodeLine.token, dedentCount_eq]

/-- Apart from layout, tokens are those of lexemes. -/
theorem Layout.spells_of_mem {lines : List CodeLine} (h : codeLines text = .ok lines) {t : Token}
    (ht : t ∈ tokens lines) (hk : t.kind.isLayout = false) :
    (∃ barred, Spells t.kind t.lexeme.toList barred) ∧ '\n' ∉ t.lexeme.toList := by
  have ht : t ∈ (tokens lines).filter (!·.kind.isLayout) := List.mem_filter.mpr ⟨ht, by simp [hk]⟩
  rw [filter_tokens (wellFormed_of_mem h)] at ht
  obtain ⟨l, hl, ht⟩ := List.mem_flatMap.mp ht
  obtain ⟨x, hx, rfl⟩ := List.mem_map.mp ht
  simpa [CodeLine.token] using printable_of_mem h l hl x hx

theorem Layout.lexeme_eq_empty {lines : List CodeLine} (h : codeLines text = .ok lines) {t : Token}
    (ht : t ∈ tokens lines) (hk : t.kind.isLayout) : t.lexeme = "" := by
  refine (eq_empty_or_mem_body ht).resolve_right ?_
  rintro ⟨l, hl, ht⟩
  simp [isLayout_body (wellFormed_of_mem h l hl) t ht] at hk

theorem Token.coherent_of_isLayout {t : Token} (hk : t.kind.isLayout) (hl : t.lexeme = "") :
    t.Coherent := by
  constructor
  case layout => exact fun _ => hl
  case operator =>
    intro o ho
    cases hk' : t.kind <;> simp_all [Kind.isLayout, Kind.operator?]
  all_goals (intros; simp_all [Kind.isLayout])

/-- In the tokens of every text, kind and lexeme tell the same, and each lexeme that is not of
layout is a text that has the token again and nothing else. -/
theorem lex_coherent {source : List Char} {ts : TokenStream} (h : lex source = .ok ts) :
    ∀ t ∈ ts.toList, t.Coherent ∧
      (t.kind.isLayout = false → lex t.lexeme.toList = .ok (.ofLexeme t.kind t.lexeme)) := by
  obtain ⟨text, lines, hs, hl, rfl⟩ := lex_eq_ok_iff.mp h
  intro t ht
  cases hk : t.kind.isLayout with
  | true => exact ⟨Token.coherent_of_isLayout hk (lexeme_eq_empty hl ht hk), nofun⟩
  | false =>
    obtain ⟨⟨barred, hs⟩, hn⟩ := spells_of_mem hl ht hk
    have halone := lex_spells hs hn
    rw [String.ofList_toList] at halone
    exact ⟨hs.coherent String.ofList_toList, fun _ => halone⟩

/-- A mark of a comment in a string is no comment, and stays none where the string is all. -/
theorem lex_coherent_string : ∃ ts, lex "x = \"/*\" // y".toList = .ok ts ∧
    lex "\"/*\"".toList = .ok (.ofLexeme .string "\"/*\"") := by
  obtain ⟨ts, h⟩ : ∃ ts, lex "x = \"/*\" // y".toList = .ok ts := ⟨_, rfl⟩
  have ht : (lex "x = \"/*\" // y".toList).toOption.bind (·.toList[2]?) =
      some ⟨.string, "\"/*\"", 1, 5, "x = \"/*\" ", 0⟩ := by decide +kernel
  rw [h] at ht
  exact ⟨ts, h, (lex_coherent h _ (List.mem_of_getElem? ht)).2 rfl⟩

end RookLang
