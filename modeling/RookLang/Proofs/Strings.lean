import RookLang.Proofs.CommentStrings
import RookLang.Proofs.Lex
import RookLang.Proofs.Lexical.Strings

/-! Strings in removal of comments and in the tokens: both find the same ones. -/
namespace RookLang

theorem forall₂_comp {α β γ : Type} {R : α → β → Prop} {S : β → γ → Prop} {T : α → γ → Prop}
    {as : List α} {bs : List β} {cs : List γ} (h : List.Forall₂ R as bs) (h' : List.Forall₂ S bs cs)
    (ht : ∀ a b c, R a b → S b c → T a c) : List.Forall₂ T as cs := by
  induction h generalizing cs with
  | nil =>
    cases h'
    exact .nil
  | cons hr _ ih =>
    obtain - | ⟨hs, h'⟩ := h'
    exact .cons (ht _ _ _ hr hs) (ih h')

namespace Comment

variable {a body : List Char}

/-- A quoted text in the code is a string. -/
theorem isString_quoted (hm : (a.foldl State.feed .initial).mode.InCode) (hq : '"' ∉ body)
    (hn : '\n' ∉ body) : IsString a ('"' :: body ++ ['"']) := by
  refine ⟨?_, fun p hp hne hproper => ?_, ?_, by simp⟩
  · intro hs
    rw [hs] at hm
    exact hm
  · rcases p with - | ⟨c, p⟩
    · exact (hne rfl).elim
    have hopen : c :: p <+: '"' :: body := (List.prefix_concat_iff.mp hp).resolve_left hproper
    obtain ⟨rfl, hbody⟩ := List.cons_prefix_cons.mp hopen
    have hq : '"' ∉ p := fun h => hq (hbody.subset h)
    have hn : '\n' ∉ p := fun h => hn (hbody.subset h)
    have hopen := keeps_openString hq hn
    rw [InString, List.foldl_append]
    exact (hopen _ hm).1
  · have hclosed := (keeps_openString hq hn).append keeps_closeQuote
    rw [InString, List.foldl_append, (hclosed _ hm).1]
    simp

theorem placeAfter_append {w : List Char} (hw : '\n' ∉ w) :
    placeAfter (a ++ w) = ⟨(placeAfter a).line, (placeAfter a).column + w.length⟩ := by
  rw [placeAfter, placeAfter, List.count_append, List.count_eq_zero.mpr hw,
    Text.lastLine_append hw, List.length_append, Nat.add_zero, Nat.add_right_comm]

end Comment

open Comment Lexeme Layout Character

variable {a text lead rest piece : List Char} {ls : List Lexeme} {ks : List Segment}
  {column n : ℕ} {line : Text.Line} {lines : List CodeLine}

/-- There are quotes around a text of one line that has none. -/
def Comment.Segment.Quoted (k : Segment) : Prop :=
  ∃ body, k.text = '"' :: body ++ ['"'] ∧ '"' ∉ body ∧ '\n' ∉ body

/-- The lexeme is this string, which stands in line `n`. -/
structure Lexeme.Stands (n : ℕ) (k : Segment) (l : Lexeme) : Prop where
  kind : l.kind = .string
  quoted : k.Quoted
  text : k.text = l.text
  place : placeAfter k.before = ⟨n, l.column⟩

/-- What comes after `a` has these strings, and leads to the code again. -/
structure Comment.Adds (a text : List Char) (ks : List Segment) : Prop where
  strings : ∀ before, Strings a before → Strings (a ++ text) (before ++ ks)
  mode : ((a ++ text).foldl State.feed .initial).mode.InCode

theorem Comment.Adds.append {ks' : List Segment} (h : Adds a text ks)
    (h' : Adds (a ++ text) rest ks') : Adds a (text ++ rest) (ks ++ ks') := by
  refine ⟨fun before hb => ?_, ?_⟩
  · rw [← List.append_assoc, ← List.append_assoc]
    exact h'.strings _ (h.strings before hb)
  · rw [← List.append_assoc]
    exact h'.mode

/-- What has neither quotes nor slashes has no strings. -/
theorem Comment.adds_plain (hm : (a.foldl State.feed .initial).mode = .code) (hs : '/' ∉ text)
    (hq : '"' ∉ text) : Adds a text [] ∧ ((a ++ text).foldl State.feed .initial).mode = .code := by
  have hcode := (keeps_plain hs hq _ hm).1
  rw [← List.foldl_append] at hcode
  refine ⟨⟨fun before hb => ?_, by rw [hcode]; trivial⟩, hcode⟩
  rw [List.append_nil]
  exact hb.append hq

/-- A character that ends a line adds no string. -/
theorem Comment.adds_separator {c : Char} (hm : (a.foldl State.feed .initial).mode.InCode)
    (hs : c ≠ '/') (ha : c ≠ '*') (hq : c ≠ '"') :
    Adds a [c] [] ∧ ((a ++ [c]).foldl State.feed .initial).mode = .code := by
  have hcode := (keeps_separator hs ha hq _ hm).1
  rw [← List.foldl_append] at hcode
  refine ⟨⟨fun before hb => ?_, by rw [hcode]; trivial⟩, hcode⟩
  rw [List.append_nil]
  exact hb.append (by simpa [eq_comm] using hq)

/-- A lexeme adds itself if it is a string, and nothing else. -/
theorem Lexeme.Spells.adds {kind : Kind} {barred : Char → Bool} (h : Spells kind text barred)
    (hn : '\n' ∉ text) (hopen : (a.foldl State.feed .initial).mode.InCode)
    (hafter : ((a ++ text).foldl State.feed .initial).mode.InCode)
    (ha : placeAfter a = ⟨n, column⟩) : ∃ ks, Adds a text ks ∧
      List.Forall₂ (Lexeme.Stands n) ks ([⟨kind, text, column⟩].filter (·.kind = .string)) := by
  by_cases hk : kind = .string
  · subst hk
    obtain ⟨body, rfl, hq⟩ := h.of_string
    have hbody : '\n' ∉ body := by simp_all
    have hstring : IsString a _ := isString_quoted hopen hq hbody
    refine ⟨[⟨a, _⟩], ⟨fun before hb => hb.string hstring, hafter⟩, ?_⟩
    rw [List.filter_cons_of_pos (by simp)]
    exact .cons ⟨rfl, ⟨body, rfl, hq, hbody⟩, rfl, ha⟩ .nil
  · refine ⟨[], ⟨fun before hb => by simpa using hb.append (h.quote_notMem hk), hafter⟩, ?_⟩
    rw [List.filter_cons_of_neg (by simpa using hk)]
    exact .nil

/-- The strings among lexemes are the strings of their text. -/
theorem Lexeme.Cuts.adds (h : Cuts column text ls) (hn : '\n' ∉ text)
    (hm : ∀ u us v, text = u ++ v → Cuts column u us →
      ((a ++ u).foldl State.feed .initial).mode.InCode) (ha : placeAfter a = ⟨n, column⟩) :
    ∃ ks, Adds a text ks ∧ List.Forall₂ (Lexeme.Stands n) ks (ls.filter (·.kind = .string)) := by
  induction h generalizing a with
  | nil => exact ⟨[], ⟨by simp, hm [] [] [] rfl .nil⟩, .nil⟩
  | @gap column c text ls hc h ih =>
    obtain ⟨hcn, htext⟩ : c ≠ '\n' ∧ '\n' ∉ text := by simpa [eq_comm] using hn
    have hopen := hm [] [] _ rfl .nil
    rw [List.append_nil] at hopen
    have hfirst : Adds a [c] [] := by
      rcases isGap_iff.mp hc with rfl | rfl <;>
        exact (adds_separator hopen (by decide) (by decide) (by decide)).1
    have hcode u us v (ht : text = u ++ v) (hu : Cuts (column + 1) u us) :
        ((a ++ [c] ++ u).foldl State.feed .initial).mode.InCode := by
      rw [List.append_assoc]
      exact hm (c :: u) us v (by simp [ht]) (.gap hc hu)
    have hplace : placeAfter (a ++ [c]) = ⟨n, column + 1⟩ := by
      rw [placeAfter_append (by simpa [eq_comm] using hcn), ha]
      rfl
    obtain ⟨ks, hks, hl⟩ := ih htext hcode hplace
    exact ⟨ks, hfirst.append hks, hl⟩
  | @lexeme column kind text barred rest ls hs hb h ih =>
    obtain ⟨htext, hrest⟩ : '\n' ∉ text ∧ '\n' ∉ rest := by simpa using hn
    have hopen := hm [] [] _ rfl .nil
    rw [List.append_nil] at hopen
    have hcode u us v (ht : rest = u ++ v) (hu : Cuts (column + text.length) u us) :
        ((a ++ text ++ u).foldl State.feed .initial).mode.InCode := by
      rw [List.append_assoc]
      refine hm (text ++ u) _ v (by simp [ht]) (.lexeme hs (fun c hc => ?_) hu)
      exact hb c (by simp [ht, Option.mem_def.mp hc])
    have hafter : ((a ++ text).foldl State.feed .initial).mode.InCode := by
      simpa using hcode [] [] rest rfl .nil
    have hplace : placeAfter (a ++ text) = ⟨n, column + text.length⟩ := by
      rw [placeAfter_append htext, ha]
    obtain ⟨js, hjs, hj⟩ := hs.adds htext hopen hafter ha
    obtain ⟨ks, hks, hl⟩ := ih hrest hcode hplace
    refine ⟨js ++ ks, hjs.append hks, ?_⟩
    rw [← List.singleton_append, List.filter_append]
    exact List.rel_append hj hl

theorem Lexeme.CutsLine.adds (h : CutsLine text ls) (hn : '\n' ∉ text)
    (hm : (a.foldl State.feed .initial).mode = .code) (ha : placeAfter a = ⟨n, 1⟩) :
    ∃ ks, Adds a text ks ∧ List.Forall₂ (Lexeme.Stands n) ks (ls.filter (·.kind = .string)) := by
  obtain ⟨hl, -, -, hc⟩ := h
  rename_i lead rest
  obtain ⟨hlead, hrest⟩ : '\n' ∉ lead ∧ '\n' ∉ rest := by simpa using hn
  have hgap {c : Char} (hs : c ≠ ' ') (ht : c ≠ '\t') : c ∉ lead := fun hm => by
    rcases hl c hm with rfl | rfl <;> contradiction
  obtain ⟨hadds, hcode⟩ :=
    adds_plain hm (hgap (by decide) (by decide)) (hgap (by decide) (by decide))
  have hplace : placeAfter (a ++ lead) = ⟨n, lead.length + 1⟩ := by
    rw [placeAfter_append hlead, ha, Nat.add_comm]
  have hin u us v (ht : rest = u ++ v) (hu : Cuts (lead.length + 1) u us) :
      ((a ++ lead ++ u).foldl State.feed .initial).mode.InCode := by
    rw [List.foldl_append]
    exact (hu.keeps (by simp_all) _ hcode).1
  obtain ⟨ks, hks, hf⟩ := hc.adds hrest hin hplace
  exact ⟨ks, hadds.append hks, hf⟩

theorem Comment.Adds.of_dropReturn (h : Adds a (Text.dropReturn piece) ks) : Adds a piece ks := by
  unfold Text.dropReturn at h
  split at h
  · obtain ⟨text, rfl⟩ := List.getLast?_eq_some_iff.mp ‹_›
    rw [List.dropLast_concat] at h
    simpa using h.append (adds_separator h.mode (by decide) (by decide) (by decide)).1
  · exact h

/-- The strings of a line of code are its lexemes that are strings; other lines have none. -/
theorem Comment.exists_adds (hline : line.text = Text.dropReturn piece) (hn : '\n' ∉ piece)
    (hm : (a.foldl State.feed .initial).mode = .code) (ha : placeAfter a = ⟨n, 1⟩)
    (hcut : isCode line → CutsLine line.text ls) : ∃ ks, Adds a piece ks ∧
      List.Forall₂ (Lexeme.Stands n) ks
        (if isCode line then ls.filter (·.kind = .string) else []) := by
  have hsub := (Text.dropReturn_prefix piece).subset
  rw [← hline] at hsub
  split
  · obtain ⟨ks, hks, hf⟩ := (hcut ‹_›).adds (fun hmem => hn (hsub hmem)) hm ha
    exact ⟨ks, (hline ▸ hks).of_dropReturn, hf⟩
  · have hblank {c : Char} (hc : isBlank c = false) : c ∉ line.text := fun hmem => by
      have hall : line.text.all isBlank := by simpa [isCode] using ‹¬ isCode line = true›
      simp [List.all_eq_true.mp hall c hmem] at hc
    have hplain := (adds_plain hm (hblank (by decide)) (hblank (by decide))).1
    exact ⟨[], (hline ▸ hplain).of_dropReturn, .nil⟩

/-- The token is this string, in the line and column where it stands. -/
structure Token.Stands (k : Segment) (t : Token) : Prop where
  kind : t.kind = .string
  quoted : k.Quoted
  lexeme : t.lexeme = String.ofList k.text
  place : placeAfter k.before = ⟨t.line, t.column⟩

namespace Layout

theorem stands_body {l : CodeLine}
    (h : List.Forall₂ (Lexeme.Stands l.number) ks (l.lexemes.filter (·.kind = .string))) :
    List.Forall₂ Token.Stands ks (l.body.filter (·.kind = .string)) := by
  rw [CodeLine.body, List.filter_map, List.forall₂_map_right_iff]
  exact h.imp fun k x hx => ⟨hx.kind, hx.quoted, by rw [hx.text]; rfl, hx.place⟩

/-- The line that a piece of a text is. -/
def lineOf (last n : ℕ) (piece : List Char) : Text.Line :=
  ⟨n, Text.dropReturn piece, n < last⟩

/-- The lines of code among these lines are read as `lines`. -/
def ReadAs (code : List Text.Line) (lines : List CodeLine) : Prop :=
  List.Forall₂ (fun line l => readLine line = .ok l) (code.filter isCode) lines

/-- The strings of lines that are read are their tokens that are strings. -/
theorem exists_adds_piece {last : ℕ} {code : List Text.Line}
    (hl : ReadAs (lineOf last n piece :: code) lines) (hn : '\n' ∉ piece)
    (hm : (a.foldl State.feed .initial).mode = .code) (ha : placeAfter a = ⟨n, 1⟩) :
    ∃ ks ms lines', lines = ms ++ lines' ∧ ReadAs code lines' ∧ Adds a piece ks ∧
      List.Forall₂ Token.Stands ks ((ms.flatMap (·.body)).filter (·.kind = .string)) := by
  rw [ReadAs, List.filter_cons] at hl
  by_cases hc : isCode (lineOf last n piece)
  · rw [if_pos hc] at hl
    obtain - | @⟨_, l, _, lines, hr, hl⟩ := hl
    obtain ⟨hcut, he⟩ := readLine_eq_ok_iff.mp hr
    obtain ⟨ks, hks, hf⟩ := exists_adds rfl hn hm ha fun _ => hcut
    rw [if_pos hc] at hf
    have hnumber : n = l.number := by rw [he]; rfl
    refine ⟨ks, [l], lines, rfl, hl, hks, ?_⟩
    rw [List.flatMap_singleton]
    exact stands_body (hnumber ▸ hf)
  · rw [if_neg hc] at hl
    have hcut : isCode (lineOf last n piece) → CutsLine (lineOf last n piece).text [] :=
      fun h => (hc h).elim
    obtain ⟨ks, hks, hf⟩ := exists_adds rfl hn hm ha hcut
    rw [if_neg hc] at hf
    cases hf
    exact ⟨[], [], lines, rfl, hl, hks, .nil⟩

theorem exists_adds_pieces {pieces : List (List Char)} {last : ℕ}
    (hl : ReadAs ((pieces.zipIdx n).map fun (piece, number) => lineOf last number piece) lines)
    (hn : ∀ piece ∈ pieces, '\n' ∉ piece) (hm : (a.foldl State.feed .initial).mode = .code)
    (ha : placeAfter a = ⟨n, 1⟩) : ∃ ks, Adds a (['\n'].intercalate pieces) ks ∧
      List.Forall₂ Token.Stands ks ((lines.flatMap (·.body)).filter (·.kind = .string)) := by
  induction pieces generalizing a n lines with
  | nil =>
    cases hl
    refine ⟨[], ⟨by simp, ?_⟩, .nil⟩
    rw [List.intercalate_nil, List.append_nil, hm]
    trivial
  | cons piece pieces ih =>
    obtain ⟨hpiece, hn⟩ := List.forall_mem_cons.mp hn
    rw [List.zipIdx_cons, List.map_cons] at hl
    obtain ⟨ks, ms, lines, rfl, hl, hks, hf⟩ := exists_adds_piece hl hpiece hm ha
    rw [List.flatMap_append, List.filter_append]
    cases pieces with
    | nil =>
      cases hl
      exact ⟨ks, by simpa using hks, by simpa using hf⟩
    | cons next pieces =>
      obtain ⟨hend, hcode⟩ :=
        adds_separator (c := '\n') hks.mode (by decide) (by decide) (by decide)
      have hplace : placeAfter (a ++ piece ++ ['\n']) = ⟨n + 1, 1⟩ := by
        rw [placeAfter_concat, placeAfter_append hpiece, ha]
        rfl
      obtain ⟨ks', hks', hf'⟩ := ih hl hn hcode hplace
      refine ⟨ks ++ ks', ?_, List.rel_append hf hf'⟩
      rw [List.intercalate_cons_cons, List.append_assoc]
      simpa using hks.append (hend.append hks')

theorem exists_strings_tokens (h : codeLines text = .ok lines) : ∃ ks, Strings text ks ∧
    List.Forall₂ Token.Stands ks ((tokens lines).filter (·.kind = .string)) := by
  have hl : ReadAs (((Text.pieces text).zipIdx 1).map fun (piece, number) =>
      lineOf (Text.pieces text).length number piece) lines := codeLines_eq_ok_iff.mp h
  obtain ⟨ks, hks, hf⟩ := exists_adds_pieces (a := []) hl
    (fun _ => Text.newline_notMem_pieces) rfl rfl
  have hall := hks.strings [] .nil
  rw [Text.pieces, List.intercalate_splitOn] at hall
  refine ⟨ks, hall, ?_⟩
  rw [← filter_tokens (wellFormed_of_mem h), List.filter_filter] at hf
  have hkind (t : Token) :
      (decide (t.kind = .string) && !t.kind.isLayout) = decide (t.kind = .string) := by
    by_cases ht : t.kind = .string <;> simp [ht, Kind.isLayout]
  simpa only [hkind] using hf

end Layout

/-- The token is a string of the source, with its text unchanged. It has the line of the string, the
column of what is kept of it, and its column in the source if the line starts with code. -/
structure Token.OfString (source : List Char) (r : Segment) (t : Token) : Prop where
  kind : t.kind = .string
  quoted : r.Quoted
  lexeme : t.lexeme = String.ofList r.text
  line : t.line = (placeAfter r.before).line
  kept : ∃ k, strip r.before = .ok k ∧ placeAfter k = ⟨t.line, t.column⟩
  column : CodeFirst source t.line → t.column = (placeAfter r.before).column

/-- In line `n` there is a string from before the column `first` to after the column `last`. -/
def TokenStream.HasString (ts : TokenStream) (n first last : ℕ) : Prop :=
  ∃ t ∈ ts.toList, t.kind = .string ∧ t.line = n ∧ t.column < first ∧ last < t.endColumn

/-- The scanner reads the strings among the tokens of the line, and nothing else, as strings, and
what opens a comment stands in one of them. -/
structure Text.Line.Scans (line : Text.Line) (ts : TokenStream) : Prop where
  scanner p q (h : line.text.drop (leading line.text).length = p ++ q) : ∃ s,
    p.foldlM Scanner.feed (.startingAt ((leading line.text).length + 1)) = .ok s ∧
      s.column = (leading line.text).length + 1 + p.length ∧
      ((∃ o ∈ s.pending, o.run = .string) ↔ ts.HasString line.number s.column s.column)
  opening u c v (h : line.text = u ++ '/' :: c :: v) (hc : c = '/' ∨ c = '*') :
    ts.HasString line.number (u.length + 1) (u.length + 2)

variable {source : List Char} {ts : TokenStream} {l : CodeLine} {first last : ℕ}

theorem Token.OfString.of_kept {r k : Segment} {t : Token} (hs : IsString r.before r.text)
    (hp : r.before ++ r.text <+: source) (hk : Kept r k) (ht : t.Stands k) :
    t.OfString source r := by
  obtain ⟨htext, hstrip⟩ := hk
  have hplace := ht.place
  have hline : t.line = (placeAfter r.before).line := by
    rw [← hs.line_eq hstrip, hplace]
  refine ⟨ht.kind, ?_, htext ▸ ht.lexeme, hline, ⟨k.before, hstrip, hplace⟩, fun hc => ?_⟩
  · rw [Segment.Quoted, ← htext]
    exact ht.quoted
  · rw [hline] at hc
    rw [← hs.column_eq hp hc hstrip, hplace]

theorem Layout.hasString_iff (h : codeLines text = .ok lines) (hl : l ∈ lines) :
    (⟨tokens lines⟩ : TokenStream).HasString l.number first last ↔ ∃ x ∈ l.lexemes,
      x.kind = .string ∧ x.column < first ∧ last < x.column + x.text.length := by
  constructor
  · rintro ⟨t, ht, hk, hn, hcol⟩
    have hbody : t ∈ l.body := by
      rw [← filter_body (pairwise_codeLines h) hl, ← filter_tokens (wellFormed_of_mem h)]
      simp [ht, hk, hn, Kind.isLayout]
    obtain ⟨x, hx, rfl⟩ := List.mem_map.mp hbody
    exact ⟨x, hx, hk, by simpa [CodeLine.token, Token.endColumn] using hcol⟩
  · rintro ⟨x, hx, hk, hcol⟩
    exact ⟨_, mem_tokens h hl hx, hk, rfl, by simpa [CodeLine.token, Token.endColumn] using hcol⟩

theorem Layout.scans (h : codeLines text = .ok lines) (hline : line ∈ Text.lines text)
    (hc : isCode line) : line.Scans ⟨tokens lines⟩ := by
  obtain ⟨l, hl, hr⟩ := exists_codeLine h hline hc
  obtain ⟨hcut, he⟩ := readLine_eq_ok_iff.mp hr
  obtain ⟨-, hcuts⟩ := cutsLine_iff.mp hcut
  have hnumber : line.number = l.number := by rw [he]
  refine ⟨fun p q hpq => ?_, fun u c v hu hop => ?_⟩
  · rw [hpq] at hcuts
    have hscan := scan_eq_ok_iff.mpr hcuts
    obtain ⟨s, hs⟩ := Scanner.exists_run hscan
    refine ⟨s, hs, (Scanner.reads_of_run hs).column, ?_⟩
    rw [Scanner.inString_iff hs hscan, hnumber, hasString_iff h hl]
    rfl
  · have hsplit := leading_append_drop.trans hu
    obtain ⟨w, rfl, hw⟩ : ∃ w, u = leading line.text ++ w ∧
        line.text.drop (leading line.text).length = w ++ '/' :: c :: v := by
      rcases List.append_eq_append_iff.mp hsplit with ⟨w, hw, hd⟩ | ⟨w, hw, hd⟩
      · exact ⟨w, hw, hd⟩
      · cases w with
        | nil => exact ⟨[], by simpa using hw.symm, by simpa using hd.symm⟩
        | cons d w =>
          obtain rfl := (List.cons.inj hd).1
          have hmem : '/' ∈ leading line.text := by simp [hw]
          cases List.mem_takeWhile_imp hmem
    rw [hw] at hcuts
    obtain ⟨x, hx, hk, hfirst, hlast⟩ := hcuts.string_of_opening hop
    rw [hnumber, hasString_iff h hl, List.length_append]
    exact ⟨x, hx, hk, by omega, by omega⟩

/-- The strings through which removal of comments goes are, in order, the tokens that are strings,
and the scanner reads nothing else as strings. What opens a comment stands in a string. -/
theorem lex_strings (h : lex source = .ok ts) : ¬ InString source ∧
    (∃ rs : List Segment,
      (∀ r, r ∈ rs ↔ IsString r.before r.text ∧ r.before ++ r.text <+: source) ∧
      rs.Pairwise (fun r r' => r.before ++ r.text <+: r'.before) ∧
      List.Forall₂ (Token.OfString source) rs (ts.toList.filter (·.kind = .string))) ∧
    ∃ text, strip source = .ok text ∧
      ∀ line ∈ Text.lines text, isCode line → line.Scans ts := by
  obtain ⟨text, lines, hs, hc, rfl⟩ := lex_eq_ok_iff.mp h
  obtain ⟨ks, hks, htokens⟩ := exists_strings_tokens hc
  have hopen := not_inString_of_strip hs hks.not_inString
  obtain ⟨rs, hrs⟩ := (exists_strings source).1 hopen
  obtain ⟨ks', hks', hkept⟩ := hrs.of_strip hs
  obtain rfl := hks.unique hks'
  have hin : ∀ r ∈ rs, IsString r.before r.text ∧ r.before ++ r.text <+: source :=
    fun r => hrs.mem_iff.mp
  have hall := forall₂_comp ((List.forall₂_and_left ..).mpr ⟨hin, hkept⟩) htokens
    fun r k t hr ht => Token.OfString.of_kept hr.1.1 hr.1.2 hr.2 ht
  exact ⟨hopen, ⟨rs, fun r => hrs.mem_iff, hrs.pairwise, hall⟩, text, hs, fun line => scans hc⟩

/-- What opens a comment in the string, and the quote in the comment, are no more than text. -/
theorem lex_strings_comment :
    let source := "x = \"/* //\" /* \" */\n".toList
    let r : Segment := ⟨"x = ".toList, "\"/* //\"".toList⟩
    let t : Token := ⟨.string, "\"/* //\"", 1, 5, "x = \"/* //\"        ", 0⟩
    ∃ ts, lex source = .ok ts ∧ ¬ InString source ∧ IsString r.before r.text ∧
      ts.toList.filter (·.kind = .string) = [t] ∧ t.OfString source r := by
  intro source r t
  obtain ⟨ts, hlex⟩ : ∃ ts, lex source = .ok ts := ⟨_, rfl⟩
  have hr : IsString r.before r.text := by
    refine ⟨by decide, fun p hp => ?_, by decide, by decide⟩
    rw [← List.mem_inits] at hp
    revert p
    decide
  have hts : ts.toList.filter (·.kind = .string) = [t] := by
    have h : (lex source).toOption.map (·.toList.filter (·.kind = .string)) = some [t] := by
      decide +kernel
    rw [hlex] at h
    exact Option.some.inj h
  obtain ⟨hopen, ⟨rs, hrs, -, hall⟩, -⟩ := lex_strings hlex
  refine ⟨ts, hlex, hopen, hr, hts, ?_⟩
  rw [hts] at hall
  cases hall with
  | cons h hnone =>
    cases hnone
    obtain rfl := List.mem_singleton.mp ((hrs r).mpr ⟨hr, by decide⟩)
    exact h

end RookLang
