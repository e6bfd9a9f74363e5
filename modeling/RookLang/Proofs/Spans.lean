import RookLang.Location
import RookLang.Proofs.TextLines

/-! The bytes that a location marks in its source: which text they are. -/
namespace RookLang

namespace Text

variable {a b text p q u v x : List Char} {c : Char}

theorem utf8Length_append (a b : List Char) :
    utf8Length (a ++ b) = utf8Length a + utf8Length b := by
  induction a with
  | nil => exact (Nat.zero_add _).symm
  | cons c a ih => rw [List.cons_append, utf8Length_cons, utf8Length_cons, ih, Nat.add_assoc]

/-- In a text that is put together from lines, one of them comes after those before it. -/
theorem exists_intercalate {lines : List (List Char)} {n : ℕ} {line : List Char}
    (h : lines[n]? = some line) : ∃ back,
      ['\n'].intercalate lines = (lines.take n).flatMap (· ++ ['\n']) ++ line ++ back := by
  induction lines generalizing n with
  | nil => simp at h
  | cons x lines ih =>
    cases n with
    | zero =>
      obtain rfl : x = line := by simpa using h
      cases lines with
      | nil => exact ⟨[], by simp⟩
      | cons y lines => exact ⟨_, List.intercalate_cons_cons.trans (List.append_assoc ..)⟩
    | succ n =>
      obtain ⟨back, he⟩ := ih (by simpa using h)
      cases lines with
      | nil => simp at h
      | cons y lines =>
        refine ⟨back, ?_⟩
        rw [List.intercalate_cons_cons, he]
        simp

theorem foldl_utf8Length (lines : List (List Char)) (n : ℕ) :
    lines.foldl (fun n p => n + utf8Length p + 1) n =
      n + utf8Length (lines.flatMap (· ++ ['\n'])) := by
  induction lines generalizing n with
  | nil => rfl
  | cons x lines ih =>
    have hn : utf8Length ['\n'] = 1 := rfl
    rw [List.foldl_cons, ih, List.flatMap_cons, utf8Length_append, utf8Length_append, hn]
    omega

theorem intercalate_concat (xs : List (List Char)) (x : List Char) :
    ['\n'].intercalate (xs ++ [x]) = xs.flatMap (· ++ ['\n']) ++ x := by
  induction xs with
  | nil => simp
  | cons y xs ih =>
    obtain ⟨z, zs, hz⟩ := List.exists_cons_of_ne_nil (List.append_ne_nil_of_right_ne_nil xs
      (List.cons_ne_nil x []))
    rw [List.cons_append, hz, List.intercalate_cons_cons, ← hz, ih]
    simp

/-- A text is its complete lines, and what comes after them. -/
theorem eq_flatMap_append {xs : List (List Char)} (h : pieces text = xs ++ [x]) :
    text = xs.flatMap (· ++ ['\n']) ++ x := by
  rw [← intercalate_concat, ← h]
  exact (List.intercalate_splitOn ..).symm

theorem exists_piece {n : ℕ} {piece : List Char} (h : (pieces text)[n]? = some piece) :
    ∃ front back, text = front ++ piece ++ back ∧
      utf8Length front = ((pieces text).take n).foldl (fun n p => n + utf8Length p + 1) 0 := by
  obtain ⟨back, he⟩ := exists_intercalate h
  refine ⟨((pieces text).take n).flatMap (· ++ ['\n']), back, ?_, ?_⟩
  · rw [← he]
    exact (List.intercalate_splitOn ..).symm
  · rw [foldl_utf8Length, Nat.zero_add]

theorem dropReturns_prefix (piece : List Char) : dropReturns piece <+: piece := by
  have h := (List.dropWhile_suffix (· == '\r') (l := piece.reverse))
  rw [← List.reverse_prefix] at h
  simpa [dropReturns] using h

/-- What comes up to a character that is no carriage return is not dropped. -/
theorem prefix_dropReturns (hc : c ≠ '\r') : p ++ [c] <+: dropReturns (p ++ c :: q) := by
  have hq : (p ++ c :: q).reverse = q.reverse ++ (p ++ [c]).reverse := by simp
  rw [dropReturns, hq, List.dropWhile_append]
  split
  · have hp : (p ++ [c]).reverse.dropWhile (· == '\r') = (p ++ [c]).reverse := by simp [hc]
    rw [hp]
    simp
  · rw [List.reverse_append, List.reverse_reverse]
    exact List.prefix_append ..

/-- A text in a line ends before what is dropped, unless it goes on into several carriage returns at
the end of the line. -/
theorem length_le_dropReturns (hv : v = [] → x.getLast? ≠ some '\r') (hx : x ≠ [])
    (hr : x.getLast? = some '\r' → ['\r', '\r'] <:+ u ++ x ++ v →
      u.length + x.length ≤ (dropReturns (u ++ x ++ v)).length) :
    u.length + x.length ≤ (dropReturns (u ++ x ++ v)).length := by
  obtain ⟨x, c, rfl⟩ := (List.eq_nil_or_concat' x).resolve_left hx
  have hlen {w : List Char} (h : u ++ x ++ [c] <+: w) :
      u.length + (x ++ [c]).length ≤ w.length := by
    simpa [Nat.add_assoc] using h.length_le
  have htext : u ++ (x ++ [c]) ++ v = u ++ x ++ c :: v := by simp
  by_cases hc : c = '\r'
  · subst hc
    by_cases hall : ∀ d ∈ v, d = '\r'
    · have hne : v ≠ [] := fun h => hv h List.getLast?_concat
      obtain ⟨w, d, rfl⟩ := (List.eq_nil_or_concat' v).resolve_left hne
      obtain rfl := hall d (by simp)
      refine hr (by simp) ?_
      rcases List.eq_nil_or_concat' w with rfl | ⟨w, d, rfl⟩
      · exact ⟨u ++ x, by simp⟩
      · obtain rfl := hall d (by simp)
        exact ⟨u ++ x ++ '\r' :: w, by simp⟩
    · obtain ⟨d, hd, hne⟩ : ∃ d ∈ v, d ≠ '\r' := by simpa using hall
      obtain ⟨v₁, v₂, rfl⟩ := List.append_of_mem hd
      have hsplit : u ++ (x ++ ['\r']) ++ (v₁ ++ d :: v₂) =
          u ++ x ++ '\r' :: v₁ ++ d :: v₂ := by simp
      rw [hsplit]
      exact hlen (List.IsPrefix.trans ⟨v₁ ++ [d], by simp⟩ (prefix_dropReturns hne))
  · rw [htext]
    exact hlen (prefix_dropReturns hc)

end Text

/-- The bytes of the source that the span tells are those of the text. -/
def Span.Holds (s : Span) (source text : List Char) : Prop :=
  ∃ pre post, source = pre ++ text ++ post ∧ Text.utf8Length pre = s.offset ∧
    Text.utf8Length text = s.length

theorem Span.holds_iff {s : Span} {source text : List Char} : s.Holds source text ↔
    ∃ n < source.length + 1, Text.utf8Length (source.take n) = s.offset ∧
      text <+: source.drop n ∧ Text.utf8Length text = s.length := by
  constructor
  · rintro ⟨pre, post, rfl, hp, ht⟩
    refine ⟨pre.length, ?_, ?_, ?_, ht⟩
    · simp only [List.length_append]
      omega
    · rw [List.append_assoc, List.take_left, hp]
    · rw [List.append_assoc, List.drop_left]
      exact List.prefix_append ..
  · rintro ⟨n, -, hp, ⟨post, hd⟩, ht⟩
    refine ⟨source.take n, post, ?_, hp, ht⟩
    rw [List.append_assoc, hd, List.take_append_drop]

instance (s : Span) (source text : List Char) : Decidable (s.Holds source text) :=
  decidable_of_iff _ Span.holds_iff.symm

namespace Location
open Text

variable {l : Location} {source piece u x v : List Char}

theorem span_holds (hl : l.line ≠ 0) (h : (pieces source)[l.line - 1]? = some piece) :
    (l.span source).Holds source
      (((dropReturns piece).drop (l.column - 1)).take (max l.length 1)) := by
  obtain ⟨front, back, hs, hf⟩ := exists_piece h
  obtain ⟨ends, he⟩ := dropReturns_prefix piece
  generalize hb : dropReturns piece = body at he ⊢
  refine ⟨front ++ body.take (l.column - 1),
    (body.drop (l.column - 1)).drop (max l.length 1) ++ ends ++ back, ?_, ?_, ?_⟩
  · have hbody : body = body.take (l.column - 1) ++ ((body.drop (l.column - 1)).take
        (max l.length 1) ++ (body.drop (l.column - 1)).drop (max l.length 1)) := by
      rw [List.take_append_drop, List.take_append_drop]
    rw [hs, ← he]
    nth_rewrite 1 [hbody]
    simp only [List.append_assoc]
  · rw [utf8Length_append, hf]
    simp [span, hl, h, hb]
  · simp [span, hl, h, hb]

/-- The text of a line that the location marks, and perhaps the character after it. -/
theorem span_holds_of_line (hl : l.line ≠ 0)
    (h : (pieces source)[l.line - 1]? = some (u ++ x ++ v)) (hu : l.column = u.length + 1)
    (hx : x ≠ []) (hr : u.length + x.length ≤ (dropReturns (u ++ x ++ v)).length) :
    (l.length = x.length → (l.span source).Holds source x) ∧
      (l.length = x.length + 1 → (l.span source).Holds source x ∨
        ∃ c, (l.span source).Holds source (x ++ [c])) := by
  have hspan := span_holds hl h
  obtain ⟨ends, he⟩ := dropReturns_prefix (u ++ x ++ v)
  have hpos := List.length_pos_iff.mpr hx
  obtain ⟨w, hw⟩ : u ++ x <+: dropReturns (u ++ x ++ v) := by
    refine List.prefix_of_prefix_length_le (List.prefix_append ..) ⟨ends, he⟩ ?_
    simpa using hr
  rw [← hw, hu, Nat.add_sub_cancel, List.append_assoc, List.drop_left] at hspan
  refine ⟨fun hlen => ?_, fun hlen => ?_⟩
  · rw [hlen, Nat.max_eq_left hpos, List.take_left] at hspan
    exact hspan
  · rw [hlen, Nat.max_eq_left (by omega), List.take_add, List.take_left,
      List.drop_left] at hspan
    cases w with
    | nil =>
      rw [List.take_nil, List.append_nil] at hspan
      exact .inl hspan
    | cons c w => exact .inr ⟨c, hspan⟩

/-- A text that ends in no carriage return is marked where it stands in the source. -/
theorem span_eq_of_append {a b : List Char} (hl : l.line = a.count '\n' + 1)
    (hc : l.column = (lastLine a).length + 1) (hlen : l.length = x.length) (hx : x ≠ [])
    (hn : '\n' ∉ x) (hr : x.getLast? ≠ some '\r') :
    l.span (a ++ x ++ b) = ⟨utf8Length a, utf8Length x⟩ := by
  obtain ⟨y, rest, rfl, hy, hrest⟩ := exists_line b
  obtain ⟨xs, ha, hxs⟩ := pieces_eq_lastLine a
  have hxy : '\n' ∉ x ++ y := by simp [hn, hy]
  have hline : pieces (a ++ (x ++ y)) = xs ++ [lastLine a ++ (x ++ y)] :=
    pieces_join ha (List.splitOn_eq_singleton hxy)
  obtain ⟨ys, hp⟩ : ∃ ys,
      pieces (a ++ (x ++ y) ++ rest) = xs ++ (lastLine a ++ (x ++ y)) :: ys := by
    cases rest with
    | nil => exact ⟨[], by rw [List.append_nil, hline]⟩
    | cons c rest =>
      obtain rfl := hrest c rfl
      exact ⟨pieces rest, by rw [pieces_append, hline, List.append_assoc]; rfl⟩
  obtain ⟨w, hw⟩ : lastLine a ++ x <+: dropReturns (lastLine a ++ (x ++ y)) := by
    obtain ⟨x, c, rfl⟩ := (List.eq_nil_or_concat' x).resolve_left hx
    have hdrop := prefix_dropReturns (p := lastLine a ++ x) (q := y) fun h =>
      hr (h ▸ List.getLast?_concat)
    simpa using hdrop
  have hpos := List.length_pos_iff.mpr hx
  have hoffset : xs.foldl (fun n p => n + utf8Length p + 1) 0 + utf8Length (lastLine a) =
      utf8Length a := by
    nth_rewrite 2 [eq_flatMap_append ha]
    rw [foldl_utf8Length, utf8Length_append, Nat.zero_add]
  have hsource : a ++ x ++ (y ++ rest) = a ++ (x ++ y) ++ rest := by simp
  rw [hsource]
  generalize a ++ (x ++ y) ++ rest = source at hp
  simp [span, hl, hc, hlen, hp, ← hxs, ← hw, hoffset, Nat.max_eq_left hpos]

end Location

end RookLang
