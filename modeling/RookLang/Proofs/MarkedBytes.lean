import RookLang.Proofs.Spans

/-! The bytes that a location marks, for every line, column and length: they are those of the
characters of its line from the column on, as many as it marks and the line has. -/
namespace RookLang

namespace Text

variable {text x piece : List Char} {xs : List (List Char)}

theorem size_utf8Encode (text : List Char) : text.utf8Encode.size = utf8Length text := by
  induction text with
  | nil => rfl
  | cons c text ih =>
    have hc : (String.utf8EncodeChar c).toByteArray.size = c.utf8Size := by
      rw [List.size_toByteArray, String.length_utf8EncodeChar]
    rw [List.utf8Encode_cons, List.utf8Encode_singleton, ByteArray.size_append, hc, ih,
      utf8Length_cons]

/-- The byte at which the character number `n` of a text starts, from 0 on. Where there is none it
is the end of the text. -/
def byteIndex (text : List Char) (n : ℕ) : ℕ := utf8Length (text.take n)

theorem byteIndex_add (text : List Char) (m n : ℕ) :
    byteIndex text (m + n) = byteIndex text m + utf8Length ((text.drop m).take n) := by
  rw [byteIndex, byteIndex, List.take_add, utf8Length_append]

/-- The pieces of a text that is cut after each line feed. No piece is empty. -/
def fullPieces : List Char → List (List Char)
  | [] => []
  | c :: text =>
    if c = '\n' then [c] :: fullPieces text
    else match fullPieces text with
      | [] => [[c]]
      | piece :: pieces => (c :: piece) :: pieces

theorem flatten_fullPieces (text : List Char) : (fullPieces text).flatten = text := by
  induction text with
  | nil => rfl
  | cons c text ih =>
    unfold fullPieces
    split
    · simp [ih]
    · split <;> simp_all

/-- A piece without the line feeds and carriage returns that it ends in. -/
def dropLineEnd (piece : List Char) : List Char :=
  (piece.reverse.dropWhile fun c => c == '\n' || c == '\r').reverse

theorem exists_append_of_dropLineEnd (piece : List Char) :
    ∃ ends, dropLineEnd piece ++ ends = piece := by
  have h := List.dropWhile_suffix (fun c => c == '\n' || c == '\r') (l := piece.reverse)
  rw [← List.reverse_prefix, List.reverse_reverse] at h
  exact h

theorem dropLineEnd_newline (piece : List Char) :
    dropLineEnd (piece ++ ['\n']) = dropLineEnd piece := by
  simp [dropLineEnd]

theorem dropLineEnd_of_notMem (h : '\n' ∉ piece) : dropLineEnd piece = dropReturns piece := by
  have hp (cs : List Char) (hcs : '\n' ∉ cs) :
      cs.dropWhile (fun c => c == '\n' || c == '\r') = cs.dropWhile (· == '\r') := by
    induction cs with
    | nil => rfl
    | cons c cs ih =>
      simp only [List.mem_cons, not_or] at hcs
      simp [List.dropWhile_cons, ih hcs.2, Ne.symm hcs.1]
  rw [dropLineEnd, dropReturns, hp _ (by simpa using h)]

/-- All texts before line feeds end in them; the text after the last one is a piece of its own
unless it is empty. -/
theorem fullPieces_eq (ht : pieces text = xs ++ [x]) :
    fullPieces text = xs.map (· ++ ['\n']) ++ if x = [] then [] else [x] := by
  induction text generalizing xs x with
  | nil =>
    obtain ⟨rfl, rfl⟩ : xs = [] ∧ x = [] := by
      cases xs <;> simp_all [pieces]
    rfl
  | cons c text ih =>
    rw [fullPieces]
    obtain ⟨hc, zs, rfl, hp⟩ | ⟨hc, rfl, z, rfl, hp⟩ | ⟨hc, z, zs, rfl, hp⟩ := pieces_cons_cases ht
    · rw [ih hp, if_pos hc, hc]
      rfl
    · rw [ih hp, if_neg hc]
      by_cases hz : z = [] <;> simp [hz]
    · rw [ih hp, if_neg hc]
      rfl

theorem fullPieces_cases (text : List Char) : ∃ xs x, pieces text = xs ++ [x] ∧
    fullPieces text = xs.map (· ++ ['\n']) ++ if x = [] then [] else [x] := by
  obtain ⟨xs, x, h⟩ := (List.eq_nil_or_concat' (pieces text)).resolve_left pieces_ne_nil
  exact ⟨xs, x, h, fullPieces_eq h⟩

/-- A piece that is cut after its line feed is one of those between line feeds. -/
theorem exists_of_fullPieces {n : ℕ} (h : (fullPieces text)[n]? = some piece) : ∃ p,
    (pieces text)[n]? = some p ∧ dropReturns p = dropLineEnd piece ∧
      ((pieces text).take n).flatMap (· ++ ['\n']) = ((fullPieces text).take n).flatten := by
  obtain ⟨xs, x, hp, hf⟩ := fullPieces_cases text
  have hnot {p : List Char} (hm : p ∈ xs ++ [x]) : '\n' ∉ p := newline_notMem_pieces (hp ▸ hm)
  rw [hf] at h ⊢
  rw [hp]
  have hlen : (xs.map (· ++ ['\n'])).length = xs.length := List.length_map ..
  by_cases hn : n < xs.length
  · rw [List.getElem?_append_left (hlen ▸ hn), List.getElem?_map,
      List.getElem?_eq_getElem hn] at h
    obtain rfl := Option.some.inj h
    refine ⟨xs[n], ?_, ?_, ?_⟩
    · rw [List.getElem?_append_left hn, List.getElem?_eq_getElem hn]
    · rw [dropLineEnd_newline, dropLineEnd_of_notMem (hnot (by simp))]
    · rw [List.take_append_of_le_length hn.le, List.take_append_of_le_length (hlen ▸ hn.le),
        ← List.map_take, List.flatMap_def]
  · -- the text after the last line feed, which is not empty
    rw [List.getElem?_append_right (by simpa using hn), hlen] at h
    split at h
    · simp at h
    · obtain ⟨hi, rfl⟩ : n - xs.length = 0 ∧ x = piece := by
        simpa [List.getElem?_singleton] using h
      obtain rfl : n = xs.length := by omega
      refine ⟨x, by simp, (dropLineEnd_of_notMem (hnot (by simp))).symm, ?_⟩
      rw [List.take_left, ← hlen, List.take_left, List.flatMap_def]

/-- What comes after all pieces is the end of the text. -/
theorem getElem?_pieces_of_fullPieces {n : ℕ} (h : (fullPieces text).length ≤ n) :
    (pieces text)[n]? = none ∨ (pieces text)[n]? = some [] ∧
      ((pieces text).take n).flatMap (· ++ ['\n']) = text := by
  obtain ⟨xs, x, hp, hf⟩ := fullPieces_cases text
  rw [hf, List.length_append, List.length_map] at h
  by_cases hn : n = xs.length
  · obtain rfl : x = [] := by
      by_contra hx
      rw [if_neg hx, List.length_singleton] at h
      omega
    refine .inr ⟨by simp [hp, hn], ?_⟩
    rw [hp, hn, List.take_left]
    exact (List.append_nil _).symm.trans (eq_flatMap_append hp).symm
  · refine .inl (List.getElem?_eq_none ?_)
    rw [hp, List.length_append, List.length_singleton]
    omega

end Text

/-- The bytes that the span tells are cut from the source between characters: they are those of
`marked`, which comes after `front`. -/
structure Span.Cuts (s : Span) (source front marked : List Char) : Prop where
  eq_append : ∃ back, source = front ++ marked ++ back
  offset : front.utf8Encode.size = s.offset
  length : marked.utf8Encode.size = s.length

namespace Span.Cuts

variable {s : Span} {source front marked : List Char}

/-- The bytes themselves. -/
theorem extract_eq (h : s.Cuts source front marked) :
    source.utf8Encode.extract s.offset (s.offset + s.length) = marked.utf8Encode := by
  obtain ⟨back, rfl⟩ := h.eq_append
  rw [List.utf8Encode_append, List.utf8Encode_append, ← h.offset, ← h.length,
    ← ByteArray.size_append, ByteArray.extract_append_size_left]
  exact ByteArray.extract_append_eq_right rfl ByteArray.size_append

theorem offset_add_le (h : s.Cuts source front marked) :
    s.offset + s.length ≤ source.utf8Encode.size := by
  obtain ⟨back, rfl⟩ := h.eq_append
  rw [← h.offset, ← h.length, List.utf8Encode_append, List.utf8Encode_append,
    ByteArray.size_append, ByteArray.size_append]
  omega

/-- No character is cut through at the start of the bytes. -/
theorem isValid_start (h : s.Cuts source front marked) :
    String.Pos.Raw.IsValid (String.ofList source) ⟨s.offset⟩ := by
  obtain ⟨back, rfl⟩ := h.eq_append
  refine String.Pos.Raw.isValid_iff_exists_append.mpr
    ⟨String.ofList front, String.ofList (marked ++ back), by simp, ?_⟩
  rw [← h.offset]
  rfl

/-- No character is cut through at the end of the bytes. -/
theorem isValid_stop (h : s.Cuts source front marked) :
    String.Pos.Raw.IsValid (String.ofList source) ⟨s.offset + s.length⟩ := by
  obtain ⟨back, rfl⟩ := h.eq_append
  refine String.Pos.Raw.isValid_iff_exists_append.mpr
    ⟨String.ofList (front ++ marked), String.ofList back, String.ofList_append, ?_⟩
  rw [← h.offset, ← h.length, ← ByteArray.size_append, ← List.utf8Encode_append]
  rfl

end Span.Cuts

namespace Location
open Text

variable {l : Location} {source piece : List Char}

/-- Where the line stands, the marked columns are cut from it, as many as it has. -/
theorem span_cuts (hl : l.line ≠ 0) (h : (fullPieces source)[l.line - 1]? = some piece) :
    (l.span source).Cuts source
      (((fullPieces source).take (l.line - 1)).flatten ++ (dropLineEnd piece).take (l.column - 1))
      (((dropLineEnd piece).drop (l.column - 1)).take (max l.length 1)) := by
  obtain ⟨p, hp, hdrop, hbefore⟩ := exists_of_fullPieces h
  obtain ⟨ends, hends⟩ := exists_append_of_dropLineEnd piece
  refine ⟨⟨((dropLineEnd piece).drop (l.column - 1)).drop (max l.length 1) ++ ends ++
    ((fullPieces source).drop l.line).flatten, ?_⟩, ?_, ?_⟩
  · have hsplit : (fullPieces source).drop (l.line - 1) =
        piece :: (fullPieces source).drop l.line := by
      rw [List.drop_eq_getElem?_toList_append, h, Nat.sub_add_cancel (by omega)]
      rfl
    calc source = ((fullPieces source).take (l.line - 1)).flatten ++
          ((fullPieces source).drop (l.line - 1)).flatten := by
          rw [← List.flatten_append, List.take_append_drop, flatten_fullPieces]
      _ = _ := by
          rw [hsplit, List.flatten_cons]
          nth_rewrite 1 [← hends]
          nth_rewrite 1 [← List.take_append_drop (l.column - 1) (dropLineEnd piece)]
          nth_rewrite 1 [← List.take_append_drop (max l.length 1)
            ((dropLineEnd piece).drop (l.column - 1))]
          simp only [List.append_assoc]
  · rw [size_utf8Encode, utf8Length_append, ← hbefore]
    simp [span, hl, hp, hdrop, foldl_utf8Length]
  · rw [size_utf8Encode]
    simp [span, hl, hp, hdrop]

theorem span_eq_end (h : l.line = 0 ∨ (fullPieces source).length < l.line) :
    l.span source = ⟨source.utf8Encode.size, 0⟩ := by
  rw [size_utf8Encode]
  by_cases hl : l.line = 0
  · simp [span, hl]
  · have hn : (fullPieces source).length ≤ l.line - 1 := by omega
    rcases getElem?_pieces_of_fullPieces hn with hp | ⟨hp, hs⟩
    · simp [span, hl, hp]
    · simp [span, hl, hp, foldl_utf8Length, hs, dropReturns]
      rfl

theorem exists_span_cuts (l : Location) (source : List Char) :
    ∃ front marked, (l.span source).Cuts source front marked := by
  by_cases h : l.line = 0 ∨ (fullPieces source).length < l.line
  · rw [span_eq_end h]
    exact ⟨source, [], ⟨⟨[], by simp⟩, rfl, rfl⟩⟩
  · have hl : l.line - 1 < (fullPieces source).length := by omega
    exact ⟨_, _, span_cuts (fun h0 => h (.inl h0)) (List.getElem?_eq_getElem hl)⟩

/-- The marked columns start at `first` and stop before `stop`, counted from zero. Where the source
has the line, they are cut from its body, and the bytes start where they do; a line that the source
does not have is the end of the source. No bound is needed on any number. -/
theorem span_marks_columns (l : Location) (source : List Char) :
    let first := max l.column 1 - 1
    let stop := first + max l.length 1
    let s := l.span source
    (∀ piece, l.line ≠ 0 → (fullPieces source)[l.line - 1]? = some piece →
      let before := ((fullPieces source).take (l.line - 1)).flatten
      let body := dropLineEnd piece
      s.Cuts source (before ++ body.take first) ((body.take stop).drop first) ∧
        s.offset = before.utf8Encode.size + byteIndex body first ∧
        byteIndex body first ≤ byteIndex body stop ∧
        s.length = byteIndex body stop - byteIndex body first) ∧
    (l.line = 0 ∨ (fullPieces source).length < l.line → s = ⟨source.utf8Encode.size, 0⟩) ∧
    s.offset + s.length ≤ source.utf8Encode.size ∧
    String.Pos.Raw.IsValid (String.ofList source) ⟨s.offset⟩ ∧
    String.Pos.Raw.IsValid (String.ofList source) ⟨s.offset + s.length⟩ := by
  intro first stop s
  have hfirst : first = l.column - 1 := by
    simp only [first]
    omega
  obtain ⟨front, marked, hcuts⟩ := exists_span_cuts l source
  refine ⟨fun piece hl h => ?_, span_eq_end, hcuts.offset_add_le, hcuts.isValid_start,
    hcuts.isValid_stop⟩
  intro before body
  have hs : s.Cuts source (before ++ body.take first) ((body.drop first).take (max l.length 1)) :=
    hfirst ▸ span_cuts hl h
  have hoffset : s.offset = before.utf8Encode.size + byteIndex body first := by
    rw [← hs.offset, List.utf8Encode_append, ByteArray.size_append, byteIndex,
      size_utf8Encode (body.take first)]
  have hlength : byteIndex body stop = byteIndex body first + s.length := by
    rw [byteIndex_add, ← hs.length, size_utf8Encode]
  refine ⟨?_, hoffset, by omega, by omega⟩
  rw [List.drop_take, Nat.add_sub_cancel_left]
  exact hs

/-- Both letters with umlauts, of two bytes each, and what the line ends in is not marked. -/
theorem span_marks_columns_umlauts :
    let source := "a\r\nsäö\r\nx".toList
    let l : Location := ⟨2, 2, "säö", 5⟩
    l.line ≠ 0 ∧ (fullPieces source)[l.line - 1]? = some "säö\r\n".toList ∧
      (l.span source).Cuts source "a\r\ns".toList "äö".toList ∧
      l.span source = ⟨4, 4⟩ := by
  intro source l
  have h : (fullPieces source)[l.line - 1]? = some "säö\r\n".toList := by decide
  have hcuts := ((span_marks_columns l source).1 _ (by decide) h).1
  exact ⟨by decide, h, hcuts, by decide⟩

end Location

end RookLang
