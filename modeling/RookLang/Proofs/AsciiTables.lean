import RookLang.Proofs.Lexical.Characters
import RookLang.Proofs.Lex
import RookLang.Table.Ascii

/-! Token tables for reading. All lines of a table are equally long, since every cell is filled up
to the width of its column, and the cells can be read back from them. -/
namespace RookLang

namespace Text

/-- Lines that are put together come apart again. -/
theorem pieces_flatMap {lines : List (List Char)} (h : ∀ line ∈ lines, '\n' ∉ line) :
    pieces (lines.flatMap (· ++ ['\n'])) = lines ++ [[]] := by
  induction lines with
  | nil => rfl
  | cons line lines ih =>
    obtain ⟨hline, h⟩ := List.forall_mem_cons.mp h
    have hp : pieces line = [line] := List.splitOn_eq_singleton hline
    rw [List.flatMap_cons, List.append_assoc, List.singleton_append, pieces_append, ih h, hp]
    rfl

end Text

theorem Kind.ofTag?_tag (k : Kind) : ofTag? k.tag = some k := by
  cases k with
  | operator o => cases o <;> decide
  | punctuation p => cases p <;> decide
  | _ => decide

/-- No two kinds have the same name. -/
theorem Kind.tag_injective {k k' : Kind} (h : k.tag = k'.tag) : k = k' := by
  have ht := ofTag?_tag k
  rw [h, ofTag?_tag k'] at ht
  exact (Option.some.inj ht).symm

/-- Names of kinds are made of capital letters and underscores. -/
theorem Kind.tag_chars (k : Kind) : ∀ c ∈ k.tag.toList, c.isUpper ∨ c = '_' := by
  have hk : k.tag.toList.all fun c => c.isUpper || c == '_' := by
    cases k with
    | operator o => cases o <;> rfl
    | punctuation p => cases p <;> rfl
    | _ => rfl
  simpa using hk

namespace Table

variable {w w' : Widths} {r r' : Row} {rows rows' : List Row} {a b x y : List Char} {m n : ℕ}

/-- The row has room between the rules. -/
structure Widths.Fits (w : Widths) (r : Row) : Prop where
  token_le : r.token.length ≤ w.token
  lexeme_le : r.lexeme.length ≤ w.lexeme

theorem Widths.Fits.cover (h : w.Fits r) (r' : Row) : (w.cover r').Fits r :=
  ⟨h.token_le.trans (Nat.le_max_left ..), h.lexeme_le.trans (Nat.le_max_left ..)⟩

theorem Widths.fits_cover (w : Widths) (r : Row) : (w.cover r).Fits r :=
  ⟨Nat.le_max_right .., Nat.le_max_right ..⟩

theorem Widths.Fits.foldl (h : w.Fits r) (rows : List Row) :
    (rows.foldl Widths.cover w).Fits r := by
  induction rows generalizing w with
  | nil => exact h
  | cons r' rows ih => exact ih (h.cover r')

/-- All rows have room in the columns that are as wide as the widest of their cells. -/
theorem Widths.fits_ofRows : ∀ r ∈ rows, (ofRows rows).Fits r := by
  intro r hr
  obtain ⟨pre, post, rfl⟩ := List.append_of_mem hr
  rw [ofRows, List.foldl_append, List.foldl_cons]
  exact (fits_cover _ r).foldl post

/-! The lines of a table, without their ends. -/

def ruleLine (w : Widths) : List Char :=
  '+' :: List.replicate (w.token + 2) '-' ++ '+' :: List.replicate (w.lexeme + 2) '-' ++ ['+']

/-- A cell up to the rule after it. -/
def padded (width : ℕ) (text : String) : List Char :=
  ' ' :: text.toList ++ List.replicate (width - text.length + 1) ' '

def Row.chars (w : Widths) (r : Row) : List Char :=
  '|' :: padded w.token r.token ++ '|' :: padded w.lexeme r.lexeme ++ ['|']

def tableLines (w : Widths) (rows : List Row) : List (List Char) :=
  [ruleLine w, heading.chars w, ruleLine w] ++ rows.map (·.chars w) ++ [ruleLine w]

theorem toList_rule (w : Widths) : (rule w).toList = ruleLine w ++ ['\n'] := by
  simp [rule, repeated, ruleLine]

theorem Row.toList_line (w : Widths) (r : Row) : (r.line w).toList = r.chars w ++ ['\n'] := by
  simp [line, cell, repeated, chars, padded]

theorem toList_ascii (ts : TokenStream) : (ascii ts).toList =
    (tableLines (Widths.ofRows (heading :: ts.toList.map Row.ofToken))
      (ts.toList.map Row.ofToken)).flatMap (· ++ ['\n']) := by
  simp [ascii, tableLines, toList_rule, Row.toList_line, List.flatMap_map]

theorem length_ruleLine (w : Widths) : (ruleLine w).length = w.token + w.lexeme + 7 := by
  simp [ruleLine]
  omega

theorem length_padded {width : ℕ} {text : String} (h : text.length ≤ width) :
    (padded width text).length = width + 2 := by
  simp [padded, String.length_toList]
  omega

theorem Row.length_chars (h : w.Fits r) : (r.chars w).length = w.token + w.lexeme + 7 := by
  have htoken := length_padded h.token_le
  have hlexeme := length_padded h.lexeme_le
  simp [chars, htoken, hlexeme]
  omega

theorem newline_notMem_ruleLine (w : Widths) : '\n' ∉ ruleLine w := by
  simp [ruleLine, List.mem_replicate]

theorem Row.newline_notMem_chars (ht : '\n' ∉ r.token.toList) (hl : '\n' ∉ r.lexeme.toList) :
    '\n' ∉ r.chars w := by
  simp [chars, padded, List.mem_replicate, ht, hl]

theorem newline_notMem_heading : '\n' ∉ heading.token.toList ∧ '\n' ∉ heading.lexeme.toList := by
  decide

/-! What can be read back from the lines. -/

theorem replicate_append_inj {c d : Char} (hc : c ≠ d)
    (h : List.replicate m c ++ d :: x = List.replicate n c ++ d :: y) : m = n ∧ x = y := by
  induction m generalizing n with
  | zero =>
    cases n with
    | zero => exact ⟨rfl, by simpa using h⟩
    | succ n => simp [List.replicate_succ, hc.symm] at h
  | succ m ih =>
    cases n with
    | zero => simp [List.replicate_succ, hc] at h
    | succ n =>
      obtain ⟨rfl, rfl⟩ := ih (by simpa [List.replicate_succ] using h)
      exact ⟨rfl, rfl⟩

/-- The rules tell how wide the columns are. -/
theorem ruleLine_injective (h : ruleLine w = ruleLine w') : w = w' := by
  simp only [ruleLine, List.cons_append, List.append_assoc, List.cons.injEq, true_and] at h
  obtain ⟨ht, h⟩ := replicate_append_inj (by decide) h
  obtain ⟨hl, -⟩ := replicate_append_inj (by decide) h
  obtain ⟨token, lexeme⟩ := w
  obtain ⟨token', lexeme'⟩ := w'
  simp_all

/-- Texts that end in no space are told apart from the spaces after them. -/
theorem append_spaces_inj (ha : a.getLast? ≠ some ' ') (hb : b.getLast? ≠ some ' ')
    (h : a ++ List.replicate m ' ' = b ++ List.replicate n ' ') : a = b := by
  have strip {z : List Char} (hz : z.getLast? ≠ some ' ') (k : ℕ) :
      (z ++ List.replicate k ' ').reverse.dropWhile (· == ' ') = z.reverse := by
    rw [List.reverse_append, List.reverse_replicate,
      List.dropWhile_append_of_pos (by simp [List.mem_replicate])]
    cases hr : z.reverse with
    | nil => rfl
    | cons c cs =>
      have hc : c ≠ ' ' := by
        rintro rfl
        exact hz (by rw [← List.head?_reverse, hr, List.head?_cons])
      simp [hc]
  rw [← List.reverse_inj, ← strip ha m, h, strip hb n]

theorem padded_inj {width : ℕ} {s t : String} (hs : s.toList.getLast? ≠ some ' ')
    (ht : t.toList.getLast? ≠ some ' ') (h : padded width s = padded width t) : s = t := by
  rw [padded, padded, List.cons_append, List.cons_append, List.cons.injEq] at h
  exact String.toList_inj.mp (append_spaces_inj hs ht h.2)

/-- The cells of a row end in no space. -/
structure Row.Trimmed (r : Row) : Prop where
  token : r.token.toList.getLast? ≠ some ' '
  lexeme : r.lexeme.toList.getLast? ≠ some ' '

theorem Row.chars_inj (hr : r.Trimmed) (hr' : r'.Trimmed) (hw : w.Fits r) (hw' : w.Fits r')
    (h : r.chars w = r'.chars w) : r = r' := by
  simp only [chars, List.cons_append, List.append_assoc, List.cons.injEq, true_and] at h
  obtain ⟨ht, h⟩ := List.append_inj h
    (by rw [length_padded hw.token_le, length_padded hw'.token_le])
  obtain ⟨hl, -⟩ := List.append_inj (List.cons.inj h).2
    (by rw [length_padded hw.lexeme_le, length_padded hw'.lexeme_le])
  obtain ⟨token, lexeme⟩ := r
  obtain ⟨token', lexeme'⟩ := r'
  obtain rfl := padded_inj hr.token hr'.token ht
  obtain rfl := padded_inj hr.lexeme hr'.lexeme hl
  rfl

theorem rows_inj (hr : ∀ r ∈ rows, r.Trimmed ∧ w.Fits r) (hr' : ∀ r ∈ rows', r.Trimmed ∧ w.Fits r)
    (h : rows.map (·.chars w) = rows'.map (·.chars w)) : rows = rows' := by
  induction rows generalizing rows' with
  | nil => exact (List.map_eq_nil_iff.mp h.symm).symm
  | cons r rows ih =>
    cases rows' with
    | nil => cases h
    | cons r' rows' =>
      rw [List.map_cons, List.map_cons, List.cons.injEq] at h
      obtain ⟨⟨ht, hw⟩, hr⟩ := List.forall_mem_cons.mp hr
      obtain ⟨⟨ht', hw'⟩, hr'⟩ := List.forall_mem_cons.mp hr'
      rw [Row.chars_inj ht ht' hw hw' h.1, ih hr hr' h.2]

end Table

/-- The lexemes show in a table as they are: they stand on one line, and end in no space. -/
def TokenStream.Plain (ts : TokenStream) : Prop :=
  ∀ t ∈ ts.toList, '\n' ∉ t.lexeme.toList ∧ t.lexeme.toList.getLast? ≠ some ' '

open Layout Lexeme

/-- Lexemes end in no space. -/
theorem Lexeme.Spells.getLast?_ne_space {kind : Kind} {text : List Char} {barred : Char → Bool}
    (h : Spells kind text barred) : text.getLast? ≠ some ' ' := by
  intro hs
  obtain ⟨o, -, rfl, -⟩ := h.of_getLast? hs (by decide) (by decide) fun p => by cases p <;> decide
  revert hs
  cases o <;> decide

theorem TokenStream.plain_of_lex {source : List Char} {ts : TokenStream}
    (h : lex source = .ok ts) : ts.Plain := by
  obtain ⟨text, lines, -, hl, rfl⟩ := lex_eq_ok_iff.mp h
  intro t ht
  obtain he | ⟨l, hm, hb⟩ := eq_empty_or_mem_body ht
  · simp [he]
  · obtain ⟨x, hx, rfl⟩ := List.mem_map.mp hb
    obtain ⟨line, hline, -, hr⟩ := readLine_of_mem hl hm
    have hcuts := (cutsLine_iff.mp (readLine_eq_ok_iff.mp hr).1).2
    obtain ⟨⟨barred, hs⟩, hsub⟩ := hcuts.spells x hx
    simp only [CodeLine.token, String.toList_ofList]
    refine ⟨fun hn => ?_, hs.getLast?_ne_space⟩
    exact Text.newline_notMem hline (List.mem_of_mem_drop (hsub hn))

namespace Table

variable {ts us : TokenStream}

theorem trimmed_ofToken (h : ts.Plain) : ∀ r ∈ ts.toList.map Row.ofToken, r.Trimmed := by
  intro r hr
  obtain ⟨t, ht, rfl⟩ := List.mem_map.mp hr
  refine ⟨fun hs => ?_, (h t ht).2⟩
  have hc := t.kind.tag_chars ' ' (List.mem_of_getLast? hs)
  exact absurd hc (by decide)

theorem newline_notMem_tableLines (h : ∀ t ∈ ts.toList, '\n' ∉ t.lexeme.toList) :
    ∀ line ∈ tableLines w (ts.toList.map Row.ofToken), '\n' ∉ line := by
  intro line hl
  simp only [tableLines, List.mem_append, List.mem_cons, List.not_mem_nil, or_false] at hl
  rcases hl with ((rfl | rfl | rfl) | hl) | rfl
  · exact newline_notMem_ruleLine w
  · exact Row.newline_notMem_chars newline_notMem_heading.1 newline_notMem_heading.2
  · exact newline_notMem_ruleLine w
  · obtain ⟨r, hr, rfl⟩ := List.mem_map.mp hl
    obtain ⟨t, ht, rfl⟩ := List.mem_map.mp hr
    refine Row.newline_notMem_chars (fun hn => ?_) (h t ht)
    exact absurd (t.kind.tag_chars _ hn) (by decide)
  · exact newline_notMem_ruleLine w

theorem length_tableLines (h : ∀ r ∈ heading :: rows, w.Fits r) :
    ∀ line ∈ tableLines w rows, line.length = w.token + w.lexeme + 7 := by
  obtain ⟨hh, hr⟩ := List.forall_mem_cons.mp h
  intro line hl
  simp only [tableLines, List.mem_append, List.mem_cons, List.not_mem_nil, or_false] at hl
  rcases hl with ((rfl | rfl | rfl) | hl) | rfl
  · exact length_ruleLine w
  · exact Row.length_chars hh
  · exact length_ruleLine w
  · obtain ⟨r, hm, rfl⟩ := List.mem_map.mp hl
    exact Row.length_chars (hr r hm)
  · exact length_ruleLine w

/-- Equal lines come from equal columns and rows. -/
theorem tableLines_inj (hr : ∀ r ∈ rows, r.Trimmed ∧ w.Fits r)
    (hr' : ∀ r ∈ rows', r.Trimmed ∧ w'.Fits r) (h : tableLines w rows = tableLines w' rows') :
    rows = rows' := by
  simp only [tableLines, List.cons_append, List.nil_append, List.cons.injEq] at h
  obtain ⟨hrule, -, -, h⟩ := h
  obtain rfl := ruleLine_injective hrule
  exact rows_inj hr hr' (List.append_inj_left' h rfl)

/-- A table of rows that have no spaces at the end tells the rows. -/
theorem rows_of_ascii_eq (ht : ts.Plain) (hu : us.Plain) (h : ascii ts = ascii us) :
    ts.toList.map Row.ofToken = us.toList.map Row.ofToken := by
  have hl := congrArg (fun s => Text.pieces s.toList) h
  simp only [toList_ascii] at hl
  rw [Text.pieces_flatMap (newline_notMem_tableLines fun t hm => (ht t hm).1),
    Text.pieces_flatMap (newline_notMem_tableLines fun t hm => (hu t hm).1)] at hl
  refine tableLines_inj (fun r hr => ⟨trimmed_ofToken ht r hr, ?_⟩)
    (fun r hr => ⟨trimmed_ofToken hu r hr, ?_⟩) (List.append_inj_left' hl rfl)
  · exact Widths.fits_ofRows r (List.mem_cons_of_mem _ hr)
  · exact Widths.fits_ofRows r (List.mem_cons_of_mem _ hr)

/-- Rows that are equal come from equal kinds and lexemes. -/
theorem map_ofToken_eq_iff : ts.toList.map Row.ofToken = us.toList.map Row.ofToken ↔
    ts.toList.map (fun t => (t.kind, t.lexeme)) = us.toList.map fun t => (t.kind, t.lexeme) := by
  have hrow : Function.Injective fun p : Kind × String => (⟨p.1.tag, p.2⟩ : Row) := by
    rintro ⟨k, l⟩ ⟨k', l'⟩ h
    obtain ⟨hk, hl⟩ := Row.mk.inj h
    exact Prod.ext (Kind.tag_injective hk) hl
  rw [← (List.map_injective_iff.mpr hrow).eq_iff, List.map_map, List.map_map]
  rfl

theorem ascii_eq_iff (ht : ts.Plain) (hu : us.Plain) : ascii ts = ascii us ↔
    ts.toList.map (fun t => (t.kind, t.lexeme)) = us.toList.map fun t => (t.kind, t.lexeme) := by
  rw [← map_ofToken_eq_iff]
  refine ⟨rows_of_ascii_eq ht hu, fun h => ?_⟩
  unfold ascii
  rw [h]

/-- If all lexemes stand on one line, a table has one line for each token and four more. Each is
longer by seven than both columns are wide, and no cell is wider than its column. If the lexemes end
in no space either, which holds of the tokens of every text, the table tells kinds and lexemes. -/
theorem ascii_shows_tokens :
    (∀ ts : TokenStream, (∀ t ∈ ts.toList, '\n' ∉ t.lexeme.toList) →
      let rows := heading :: ts.toList.map Row.ofToken
      let w := Widths.ofRows rows
      (∃ lines : List (List Char), (ascii ts).toList = lines.flatMap (· ++ ['\n']) ∧
        lines.length = ts.length + 4 ∧
        ∀ line ∈ lines, '\n' ∉ line ∧ line.length = w.token + w.lexeme + 7) ∧
      ∀ r ∈ rows, w.Fits r) ∧
    (∀ ts us : TokenStream, ts.Plain → us.Plain → (ascii ts = ascii us ↔
      ts.toList.map (fun t => (t.kind, t.lexeme)) = us.toList.map fun t => (t.kind, t.lexeme))) ∧
    ∀ source ts, lex source = .ok ts → ts.Plain := by
  refine ⟨fun ts h => ⟨⟨_, toList_ascii ts, ?_, fun line hl => ⟨?_, ?_⟩⟩, Widths.fits_ofRows⟩,
    fun ts us => ascii_eq_iff, fun source ts => TokenStream.plain_of_lex⟩
  · simp [tableLines, TokenStream.length]
  · exact newline_notMem_tableLines h line hl
  · exact length_tableLines Widths.fits_ofRows line hl

theorem ascii_shows_tokens_string :
    ∃ ts us : TokenStream, lex "s = \"|  é\"".toList = .ok ts ∧ lex "s = \"|\"".toList = .ok us ∧
      ts.Plain ∧ us.Plain ∧ ascii ts ≠ ascii us ∧
      ∃ lines : List (List Char), (ascii ts).toList = lines.flatMap (· ++ ['\n']) ∧
        lines.length = 8 ∧ ∀ line ∈ lines, '\n' ∉ line ∧ line.length = 23 := by
  obtain ⟨ts, us, ht, hu, hne, hlen, hw⟩ : ∃ ts us : TokenStream,
      lex "s = \"|  é\"".toList = .ok ts ∧ lex "s = \"|\"".toList = .ok us ∧
      ts.toList.map (fun t => (t.kind, t.lexeme)) ≠ us.toList.map (fun t => (t.kind, t.lexeme)) ∧
      ts.length = 4 ∧ Widths.ofRows (heading :: ts.toList.map Row.ofToken) = ⟨10, 6⟩ :=
    ⟨_, _, rfl, rfl, by decide +kernel⟩
  obtain ⟨hshape, hshow, hlex⟩ := ascii_shows_tokens
  have hpt := hlex _ _ ht
  have hpu := hlex _ _ hu
  obtain ⟨⟨lines, htext, hn, hl⟩, -⟩ := hshape ts fun t hm => (hpt t hm).1
  rw [hw] at hl
  rw [hlen] at hn
  exact ⟨ts, us, ht, hu, hpt, hpu, fun h => hne ((hshow ts us hpt hpu).mp h), lines, htext, hn, hl⟩

end Table

end RookLang
