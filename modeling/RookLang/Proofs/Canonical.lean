import RookLang.Proofs.Concatenation
import RookLang.Proofs.Indentation
import RookLang.Proofs.Lexical.Characters

/-! Printing of tokens: one space between lexemes, spaces for indentation, and no line without
code. What is printed has the same tokens again. -/
namespace RookLang

namespace Lexeme
open Character Comment

variable {kind : Kind} {text : List Char} {barred : Char → Bool} {column : ℕ} {ls : List Lexeme}
  {c : Char}

/-- The texts of lexemes with one space between them. -/
def spaced (ls : List Lexeme) : List Char := [' '].intercalate (ls.map (·.text))

theorem spaced_cons_cons {x y : Lexeme} :
    spaced (x :: y :: ls) = x.text ++ ' ' :: spaced (y :: ls) := by
  simp [spaced, List.intercalate_cons_cons]

theorem spaced_singleton {x : Lexeme} : spaced [x] = x.text := by simp [spaced]

section
variable (h : ∀ x ∈ ls, ∃ barred, Spells x.kind x.text barred)
include h

/-- Lexemes with spaces between them are the same lexemes, perhaps in other columns. -/
theorem exists_cuts_spaced (column : ℕ) : ∃ ls', Cuts column (spaced ls) ls' ∧
    ls'.map (fun x => (x.kind, x.text)) = ls.map fun x => (x.kind, x.text) := by
  induction ls generalizing column with
  | nil => exact ⟨[], .nil, rfl⟩
  | cons x ls ih =>
    obtain ⟨⟨barred, hx⟩, h⟩ := List.forall_mem_cons.mp h
    cases ls with
    | nil =>
      have hc : Cuts column (x.text ++ []) [⟨x.kind, x.text, column⟩] :=
        .lexeme hx (by simp) .nil
      rw [List.append_nil] at hc
      exact ⟨[⟨x.kind, x.text, column⟩], by rwa [spaced_singleton], rfl⟩
    | cons y ls =>
      obtain ⟨ls', hc, hm⟩ := ih h (column + x.text.length + 1)
      refine ⟨⟨x.kind, x.text, column⟩ :: ls', ?_, by rw [List.map_cons, hm]; rfl⟩
      rw [spaced_cons_cons]
      refine .lexeme hx ?_ (.gap (by decide) hc)
      rintro _ ⟨⟩
      exact hx.barred_space

theorem keeps_spaced (hn : ∀ x ∈ ls, '\n' ∉ x.text) :
    Keeps (· = .code) Mode.InCode (spaced ls) := by
  induction ls with
  | nil => exact Keeps.nil.inCode
  | cons x ls ih =>
    obtain ⟨⟨barred, hx⟩, h⟩ := List.forall_mem_cons.mp h
    obtain ⟨hnx, hn⟩ := List.forall_mem_cons.mp hn
    cases ls with
    | nil =>
      rw [spaced_singleton]
      exact hx.keeps hnx
    | cons y ls =>
      have hs : Keeps Mode.InCode (· = .code) [' '] :=
        keeps_separator (by decide) (by decide) (by decide)
      rw [spaced_cons_cons]
      exact (hx.keeps hnx).append (hs.append (ih h hn))

/-- What is spaced starts with ink, and ends in no carriage return, which would be taken for a part
of the end of its line. -/
theorem spaced_ends (hne : ls ≠ []) : ∃ c cs, spaced ls = c :: cs ∧ isBlank c = false ∧
    (spaced ls).getLast? ≠ some '\r' := by
  induction ls with
  | nil => exact (hne rfl).elim
  | cons x ls ih =>
    obtain ⟨⟨barred, hx⟩, h⟩ := List.forall_mem_cons.mp h
    have hlast := hx.getLast?_ne
    generalize ht : x.text = text at *
    obtain - | ⟨c, cs⟩ := text
    · exact (hx.ne_nil rfl).elim
    cases ls with
    | nil =>
      rw [spaced_singleton, ht]
      exact ⟨c, cs, rfl, hx.not_isBlank, hlast⟩
    | cons y ls =>
      obtain ⟨d, ds, hd, -, hr⟩ := ih h nofun
      refine ⟨c, _, by rw [spaced_cons_cons, ht]; rfl, hx.not_isBlank, ?_⟩
      rw [spaced_cons_cons, hd, List.getLast?_append_of_ne_nil _ (List.cons_ne_nil _ _),
        List.getLast?_cons_cons, ← hd]
      exact hr

end

theorem newline_notMem_spaced (h : ∀ x ∈ ls, '\n' ∉ x.text) : '\n' ∉ spaced ls := by
  induction ls with
  | nil => simp [spaced]
  | cons x ls ih =>
    obtain ⟨hx, h⟩ := List.forall_mem_cons.mp h
    cases ls with
    | nil => rwa [spaced_singleton]
    | cons y ls => simpa [spaced_cons_cons, hx] using ih h

end Lexeme

/-- The lexemes of the line spell something, on one line. -/
def CodeLine.Printable (l : CodeLine) : Prop :=
  ∀ x ∈ l.lexemes, (∃ barred, Lexeme.Spells x.kind x.text barred) ∧ '\n' ∉ x.text

/-- The line as it is printed, without its end. -/
def CodeLine.printed (l : CodeLine) : List Char :=
  List.replicate l.width ' ' ++ Lexeme.spaced l.lexemes

/-- The line as it is printed. -/
def CodeLine.print (l : CodeLine) : List Char :=
  l.printed ++ if l.terminated then ['\n'] else []

namespace Layout
open Lexeme

variable {l m : CodeLine} {lines : List CodeLine} {text : List Char} {line : Text.Line}

theorem printable_of_mem (h : codeLines text = .ok lines) : ∀ l ∈ lines, l.Printable := by
  intro l hl x hx
  obtain ⟨line, hline, -, hr⟩ := readLine_of_mem h hl
  obtain ⟨hs, ht⟩ := (cutsLine_iff.mp (readLine_eq_ok_iff.mp hr).1).2.spells x hx
  exact ⟨hs, fun hn => Text.newline_notMem hline (List.mem_of_mem_drop (ht hn))⟩

theorem keeps_printed (hp : l.Printable) :
    Comment.Keeps (· = .code) Comment.Mode.InCode l.printed := by
  have hlead : Comment.Keeps (· = .code) (· = .code) (List.replicate l.width ' ') :=
    Comment.keeps_plain (by simp [List.mem_replicate]) (by simp [List.mem_replicate])
  exact hlead.append (keeps_spaced (fun x hx => (hp x hx).1) fun x hx => (hp x hx).2)

theorem strip_print (hp : l.Printable) : Comment.strip l.print = .ok l.print := by
  refine Comment.strip_of_keeps ((keeps_printed hp).append ?_)
  split
  · have hn : Comment.Keeps Comment.Mode.InCode (· = .code) ['\n'] :=
      Comment.keeps_separator (by decide) (by decide) (by decide)
    exact hn.inCode
  · exact .nil

theorem newline_notMem_printed (hp : l.Printable) : '\n' ∉ l.printed := by
  have hs := newline_notMem_spaced fun x hx => (hp x hx).2
  simpa [CodeLine.printed, List.mem_replicate] using hs

/-- The line that is printed reads as it was. -/
theorem exists_readLine_printed (hl : l.WellFormed) (hp : l.Printable) (n : ℕ) :
    isCode ⟨n, l.printed, l.terminated⟩ ∧
      ∃ m, readLine ⟨n, l.printed, l.terminated⟩ = .ok m ∧ m.Alike l := by
  obtain ⟨c, cs, hs, hc, -⟩ := spaced_ends (fun x hx => (hp x hx).1) hl.lexemes_ne_nil
  obtain ⟨ls, hcuts, hls⟩ := exists_cuts_spaced (fun x hx => (hp x hx).1) (l.width + 1)
  have hlead : ∀ d ∈ List.replicate l.width ' ', d = ' ' ∨ d = '\t' :=
    fun d hd => .inl (List.eq_of_mem_replicate hd)
  have hrest : ∀ d ∈ (spaced l.lexemes).head?, d ≠ ' ' ∧ d ≠ '\t' := by
    rw [hs]
    intro d hd
    obtain rfl : c = d := Option.some.inj hd
    constructor <;> rintro rfl <;> exact absurd hc (by decide)
  have hw : width (leading l.printed) = l.width := by
    rw [CodeLine.printed, leading_append hlead hrest, width_eq_count hlead]
    simp [List.count_replicate]
  have hcut : CutsLine l.printed ls := by
    refine .intro hlead hrest ?_ (by rwa [List.length_replicate])
    simpa [List.count_replicate] using hl.aligned
  refine ⟨?_, ⟨_, _, _, _, ls, _, _⟩, readLine_eq_ok_iff.mpr ⟨hcut, rfl⟩, ⟨hw, hls, rfl⟩⟩
  simp [isCode, CodeLine.printed, hs, hc]

/-- What is printed is one line. -/
theorem lines_print (hl : l.WellFormed) (hp : l.Printable) : Text.lines l.print =
    ⟨1, l.printed, l.terminated⟩ :: if l.terminated then [⟨2, [], false⟩] else [] := by
  have hpieces : Text.pieces l.printed = [l.printed] :=
    List.splitOn_eq_singleton (newline_notMem_printed hp)
  have hr : Text.dropReturn l.printed = l.printed := by
    obtain ⟨c, cs, hs, -, hlast⟩ := spaced_ends (fun x hx => (hp x hx).1) hl.lexemes_ne_nil
    rw [Text.dropReturn, if_neg]
    rwa [CodeLine.printed, List.getLast?_append_of_ne_nil _ (by simp [hs])]
  unfold CodeLine.print
  cases l.terminated with
  | false => simp [Text.lines, hpieces, hr]
  | true =>
    have hc : l.printed.count '\n' = 0 := List.count_eq_zero.mpr (newline_notMem_printed hp)
    rw [if_pos rfl, if_pos rfl, Text.lines_append, Text.fullLines, hpieces, hc]
    simp only [List.zipIdx_singleton, List.map_singleton, hr]
    rfl

theorem codeLines_print (hl : l.WellFormed) (hp : l.Printable) :
    ∃ m, codeLines l.print = .ok [m] ∧ m.Alike l := by
  obtain ⟨hcode, m, hr, hm⟩ := exists_readLine_printed hl hp 1
  refine ⟨m, ?_, hm⟩
  have hlast :
      (if l.terminated then [(⟨2, [], false⟩ : Text.Line)] else []).filter isCode = [] := by
    split <;> rfl
  rw [codeLines_eq_ok_iff, lines_print hl hp, List.filter_cons_of_pos hcode, hlast]
  exact .cons hr .nil

/-- Lines that are printed have no comments, and read as they were. -/
theorem read_printed (hl : ∀ l ∈ lines, l.WellFormed) (hp : ∀ l ∈ lines, l.Printable)
    (ht : lines.IsChain fun l _ => l.terminated) :
    Comment.strip (lines.flatMap CodeLine.print) = .ok (lines.flatMap CodeLine.print) ∧
      ∃ ms, codeLines (lines.flatMap CodeLine.print) = .ok ms ∧
        List.Forall₂ CodeLine.Alike ms lines := by
  induction lines with
  | nil => exact ⟨rfl, [], rfl, .nil⟩
  | cons l lines ih =>
    obtain ⟨hw, hl⟩ := List.forall_mem_cons.mp hl
    obtain ⟨hq, hp⟩ := List.forall_mem_cons.mp hp
    obtain ⟨m, hm, ha⟩ := codeLines_print hw hq
    cases lines with
    | nil =>
      rw [List.flatMap_singleton]
      exact ⟨strip_print hq, [m], hm, .cons ha .nil⟩
    | cons k lines =>
      obtain ⟨ht, hts⟩ := List.isChain_cons_cons.mp ht
      obtain ⟨hs, ms, hms, has⟩ := ih hl hp hts
      -- A line with another one after it is complete, so that the two are read apart.
      have he : Text.EndsLine l.print := .inr (by simp [CodeLine.print, ht])
      rw [List.flatMap_cons]
      refine ⟨?_, m :: ms.map (CodeLine.down (l.print.count '\n')), ?_, ?_⟩
      · rw [Comment.strip_append he (strip_print hq), hs]
        rfl
      · rw [codeLines_append he, hm, hms]
        rfl
      · refine .cons ha (List.forall₂_map_left_iff.mpr (has.imp fun _ _ h => ?_))
        exact ⟨h.width, h.lexemes, h.terminated⟩

/-- The tokens of a line, apart from layout. -/
def lineTokens (ts : TokenStream) (line : Text.Line) : List Token :=
  ts.toList.filter fun t => t.line == line.number && !t.kind.isLayout

/-- Does a line of the text have a token for its end? -/
def hasNewline (ts : TokenStream) (line : Text.Line) : Bool :=
  ts.toList.any fun t => t.kind == .newline && t.line == line.number

/-- The tokens of a line as text: its indentation in spaces, and one space between lexemes. -/
def canonicalLine (ts : List Token) : List Char :=
  List.replicate (ts.head?.elim 0 (·.indentLevel)) ' ' ++
    [' '].intercalate (ts.map (·.lexeme.toList))

/-- The tokens of a text as text. The last line ends in a line feed if the last line of code has a
token for it. -/
def canonical (text : List Char) (ts : TokenStream) : List Char :=
  let code := (Text.lines text).filter isCode
  ['\n'].intercalate (code.map fun line => canonicalLine (lineTokens ts line)) ++
    if code.getLast?.any (hasNewline ts) then ['\n'] else []

theorem canonicalLine_body (hl : l.WellFormed) : canonicalLine l.body = l.printed := by
  have hi : l.body.head?.elim 0 (·.indentLevel) = l.width := by
    have hne := hl.lexemes_ne_nil
    cases h : l.lexemes with
    | nil => exact (hne h).elim
    | cons x xs => simp [CodeLine.body, CodeLine.token, h]
  have ht : l.body.map (·.lexeme.toList) = l.lexemes.map (·.text) := by
    simp [CodeLine.body, CodeLine.token]
  rw [canonicalLine, hi, ht, CodeLine.printed, spaced]

theorem any_newline_line (hl : l.WellFormed) {before n : ℕ} :
    ((l.tokens before).any fun t => t.kind == .newline && t.line == n) =
      (l.terminated && l.number == n) := by
  have ho : ((l.opening before).any fun t => t.kind == .newline && t.line == n) = false := by
    rw [List.any_eq_false]
    intro t ht
    rcases mem_opening ht with rfl | rfl <;> simp [CodeLine.token]
  have hb : (l.body.any fun t => t.kind == .newline && t.line == n) = false := by
    rw [List.any_eq_false]
    intro t ht hn
    have hk := isLayout_body hl t ht
    simp_all [Kind.isLayout]
  rw [CodeLine.tokens, List.any_append, List.any_append, ho, hb, CodeLine.ending]
  split <;> simp_all [CodeLine.token]

theorem any_newline_tokensAfter (hl : ∀ l ∈ lines, l.WellFormed) {n : ℕ} :
    ((tokensAfter l lines).any fun t => t.kind == .newline && t.line == n) =
      lines.any fun l => l.terminated && l.number == n := by
  induction lines generalizing l with
  | nil =>
    rw [tokensAfter, List.any_nil, List.any_eq_false]
    intro t ht
    rcases mem_closing ht with rfl | rfl <;> simp [CodeLine.token]
  | cons m lines ih =>
    obtain ⟨hm, hl⟩ := List.forall_mem_cons.mp hl
    rw [tokensAfter, List.any_append, any_newline_line hm, ih hl, List.any_cons]

theorem any_newline_tokens (hl : ∀ l ∈ lines, l.WellFormed) {n : ℕ} :
    ((tokens lines).any fun t => t.kind == .newline && t.line == n) =
      lines.any fun l => l.terminated && l.number == n := by
  cases lines with
  | nil => rfl
  | cons l lines =>
    obtain ⟨hm, hl⟩ := List.forall_mem_cons.mp hl
    rw [tokens_cons, List.any_append, any_newline_line hm, any_newline_tokensAfter hl,
      List.any_cons]

/-- A line has a token for its end exactly if a line feed ends it. -/
theorem hasNewline_eq (h : codeLines text = .ok lines) (hl : l ∈ lines)
    (hr : readLine line = .ok l) : hasNewline ⟨tokens lines⟩ line = l.terminated := by
  have hn : line.number = l.number := by rw [(readLine_eq_ok_iff.mp hr).2]
  have hp : (lines.map (·.number)).Nodup :=
    List.pairwise_map.mpr ((pairwise_codeLines h).imp fun h => h.ne)
  rw [hasNewline, any_newline_tokens (wellFormed_of_mem h), hn, Bool.eq_iff_iff, List.any_eq_true]
  constructor
  · rintro ⟨m, hm, h⟩
    obtain ⟨ht, hnum⟩ := Bool.and_eq_true_iff.mp h
    obtain rfl := List.inj_on_of_nodup_map hp hm hl (beq_iff_eq.mp hnum)
    exact ht
  · exact fun ht => ⟨l, hl, by simp [ht]⟩

/-- Lines of code that end where others start are printed each with its end. -/
theorem intercalate_printed (ht : lines.IsChain fun l _ => l.terminated) :
    ['\n'].intercalate (lines.map CodeLine.printed) ++
        (if lines.getLast?.any (·.terminated) then ['\n'] else []) =
      lines.flatMap CodeLine.print := by
  induction lines with
  | nil => rfl
  | cons l lines ih =>
    cases lines with
    | nil =>
      rw [List.flatMap_singleton, CodeLine.print, List.map_singleton, List.intercalate_singleton]
      rfl
    | cons m lines =>
      obtain ⟨ht, hts⟩ := List.isChain_cons_cons.mp ht
      rw [List.flatMap_cons, ← ih hts, List.map_cons, List.map_cons, List.intercalate_cons_cons,
        List.getLast?_cons_cons, CodeLine.print, if_pos ht, List.append_assoc]

theorem canonical_eq (h : codeLines text = .ok lines) :
    canonical text ⟨tokens lines⟩ = lines.flatMap CodeLine.print := by
  have hw := wellFormed_of_mem h
  have hp := pairwise_codeLines h
  have hlines : ((Text.lines text).filter isCode).map
      (fun line => canonicalLine (lineTokens ⟨tokens lines⟩ line)) =
        lines.map CodeLine.printed := by
    refine map_codeLines h fun line l hl hr => ?_
    have hn : line.number = l.number := by rw [(readLine_eq_ok_iff.mp hr).2]
    rw [lineTokens, hn, ← List.filter_filter, filter_tokens hw, filter_body hp hl,
      canonicalLine_body (hw l hl)]
  have hends : ((Text.lines text).filter isCode).map (hasNewline ⟨tokens lines⟩) =
      lines.map (·.terminated) := map_codeLines h fun line l hl hr => hasNewline_eq h hl hr
  have hlast : ((Text.lines text).filter isCode).getLast?.any (hasNewline ⟨tokens lines⟩) =
      lines.getLast?.any (·.terminated) := by
    have hm := congrArg (fun bs : List Bool => bs.getLast?.any id) hends
    simpa only [List.getLast?_map, Option.any_map, id_eq] using hm
  rw [canonical, hlines, hlast]
  exact intercalate_printed (isChain_terminated h)

end Layout

open Layout

/-- The kinds and lexemes of tokens tell their terminals. -/
theorem map_terminal_congr {α : Type} {f : Token → α} {ts us : List Token}
    (hf : ∀ t u, f t = f u → t.kind = u.kind ∧ t.lexeme = u.lexeme) (h : ts.map f = us.map f) :
    ts.map Token.terminal = us.map Token.terminal := by
  rw [← List.forall₂_eq_eq_eq, List.forall₂_map_left_iff, List.forall₂_map_right_iff] at h ⊢
  refine h.imp fun t u ht => ?_
  obtain ⟨hk, hl⟩ := hf t u ht
  simp only [Token.terminal, Token.keyword?, Token.builtin?, hk, hl]

theorem checkSource_congr {a b : List Char} {ts us : TokenStream} {n : ℕ} (ha : lex a = .ok ts)
    (hb : lex b = .ok us)
    (h : ts.toList.map Token.terminal = us.toList.map Token.terminal) :
    checkSource a = .ok n ↔ checkSource b = .ok n := by
  have hp : parse ts = .ok n ↔ parse us = .ok n := by
    rw [parse, parse, parseWithin_eq_ok_iff, parseWithin_eq_ok_iff, h]
  simp [checkSource_eq_ok_iff, ha, hb, hp]

/-- What is printed has the same tokens as the text from which it came, perhaps in other places,
and is a program exactly if that is one, with the same number of statements. -/
theorem lex_canonical {source : List Char} {ts : TokenStream} (h : lex source = .ok ts) :
    ∃ text us, Comment.strip source = .ok text ∧ lex (canonical text ts) = .ok us ∧
      us.toList.map (fun t => (t.kind, t.lexeme, t.indentLevel)) =
        ts.toList.map (fun t => (t.kind, t.lexeme, t.indentLevel)) ∧
      ∀ n, checkSource (canonical text ts) = .ok n ↔ checkSource source = .ok n := by
  obtain ⟨text, lines, hs, hl, rfl⟩ := lex_eq_ok_iff.mp h
  obtain ⟨hstrip, ms, hms, ha⟩ := read_printed (wellFormed_of_mem hl) (printable_of_mem hl)
    (isChain_terminated hl)
  rw [← canonical_eq hl] at hstrip hms
  have hlex : lex (canonical text ⟨tokens lines⟩) = .ok ⟨tokens ms⟩ :=
    lex_eq_ok_iff.mpr ⟨_, ms, hstrip, hms, rfl⟩
  have hc := map_content_tokens ha
  have ht := map_terminal_congr (fun _ _ h => by simp_all [Token.content]) hc
  exact ⟨text, _, hs, hlex, hc, fun n => checkSource_congr hlex h ht⟩

theorem lex_canonical_respaced :
    ∃ ts us, lex "if a: /* b */\n\n\tx=\"//\"+1//\n".toList = .ok ts ∧
      lex "if a :\n    x = \"//\" + 1\n".toList = .ok us ∧
      us.toList.map (fun t => (t.kind, t.lexeme, t.indentLevel)) =
        ts.toList.map (fun t => (t.kind, t.lexeme, t.indentLevel)) ∧
      ∀ n, checkSource "if a :\n    x = \"//\" + 1\n".toList = .ok n ↔
        checkSource "if a: /* b */\n\n\tx=\"//\"+1//\n".toList = .ok n := by
  obtain ⟨ts, h⟩ : ∃ ts, lex "if a: /* b */\n\n\tx=\"//\"+1//\n".toList = .ok ts := ⟨_, rfl⟩
  obtain ⟨text, us, hs, hlex, hm, hc⟩ := lex_canonical h
  have hp : (lex "if a: /* b */\n\n\tx=\"//\"+1//\n".toList).toOption.map (canonical text) =
      some "if a :\n    x = \"//\" + 1\n".toList := by
    have ht : Comment.strip "if a: /* b */\n\n\tx=\"//\"+1//\n".toList =
        .ok "if a:        \n\n\tx=\"//\"+1\n".toList := by decide
    obtain rfl := Except.ok.inj (ht.symm.trans hs)
    decide +kernel
  rw [h] at hp
  rw [Option.some.inj hp] at hlex hc
  exact ⟨ts, us, h, hlex, hm, hc⟩

end RookLang
