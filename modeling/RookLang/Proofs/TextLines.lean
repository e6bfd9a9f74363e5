import Mathlib.Data.List.Basic
import Mathlib.Data.List.Induction
import Mathlib.Data.List.TakeWhile
import RookLang.Text.Lines

/-! Physical lines: where line feeds stand, and the lines of texts that are put together. -/
namespace RookLang.Text

variable {a b text : List Char} {n : ℕ}

/-- A text that is empty or whose last line is complete. -/
def EndsLine (text : List Char) : Prop := text = [] ∨ text.getLast? = some '\n'

def Line.down (n : ℕ) (line : Line) : Line := { line with number := line.number + n }

theorem pieces_append : pieces (a ++ '\n' :: b) = pieces a ++ pieces b :=
  List.splitOn_append_cons_self ..

theorem pieces_cons {c : Char} : pieces (c :: a) =
    if c = '\n' then [] :: pieces a else (pieces a).modifyHead (List.cons c) := by
  rw [pieces, List.splitOn_cons_eq_if_modifyHead]
  simp only [beq_iff_eq]
  rfl

theorem length_pieces : (pieces a).length = a.count '\n' + 1 := by
  induction a with
  | nil => rfl
  | cons c a ih =>
    rw [pieces_cons, List.count_cons]
    split <;> simp_all

theorem pieces_ne_nil : pieces a ≠ [] := by
  rw [← List.length_pos_iff, length_pieces]
  omega

/-- A piece of a text is one of what follows its first character, or starts with that. -/
theorem mem_pieces_cons {c : Char} {piece : List Char} (h : piece ∈ pieces (c :: text)) :
    piece = [] ∨ piece ∈ pieces text ∨ c ≠ '\n' ∧ ∃ q ∈ pieces text, piece = c :: q := by
  rw [pieces_cons] at h
  split at h
  · exact (List.mem_cons.mp h).imp_right .inl
  · rename_i hc
    cases hp : pieces text with
    | nil => exact (pieces_ne_nil hp).elim
    | cons q qs =>
      rw [hp, List.modifyHead_cons] at h
      rcases List.mem_cons.mp h with rfl | h
      · exact .inr (.inr ⟨hc, q, List.mem_cons_self, rfl⟩)
      · exact .inr (.inl (List.mem_cons_of_mem q h))

theorem newline_notMem_pieces {piece : List Char} (h : piece ∈ pieces text) : '\n' ∉ piece := by
  induction text generalizing piece with
  | nil => simp_all [pieces]
  | cons c text ih =>
    obtain rfl | h | ⟨hc, q, hq, rfl⟩ := mem_pieces_cons h
    · simp
    · exact ih h
    · simpa [Ne.symm hc] using ih hq

theorem subset_of_mem_pieces {piece : List Char} (h : piece ∈ pieces text) : piece ⊆ text := by
  induction text generalizing piece with
  | nil => simp_all [pieces]
  | cons c text ih =>
    obtain rfl | h | ⟨-, q, hq, rfl⟩ := mem_pieces_cons h
    · simp
    · exact List.subset_cons_of_subset _ (ih h)
    · exact List.cons_subset_cons _ (ih hq)

/-- A line feed ends the first piece; another character comes before it. -/
theorem pieces_cons_cases {c : Char} {xs : List (List Char)} {x : List Char}
    (h : pieces (c :: text) = xs ++ [x]) :
    (c = '\n' ∧ ∃ zs, xs = [] :: zs ∧ pieces text = zs ++ [x]) ∨
      (c ≠ '\n' ∧ xs = [] ∧ ∃ z, x = c :: z ∧ pieces text = [] ++ [z]) ∨
      c ≠ '\n' ∧ ∃ z zs, xs = (c :: z) :: zs ∧ pieces text = z :: zs ++ [x] := by
  obtain ⟨zs, z, hz⟩ := (List.eq_nil_or_concat' (pieces text)).resolve_left pieces_ne_nil
  rw [pieces_cons, hz] at h
  rw [hz]
  split at h
  · have he : ([] :: zs) ++ [z] = xs ++ [x] := h
    obtain ⟨rfl, hx⟩ := List.append_inj' he rfl
    obtain rfl := List.singleton_inj.mp hx
    exact .inl ⟨‹_›, zs, rfl, rfl⟩
  · cases zs with
    | nil =>
      have he : [] ++ [c :: z] = xs ++ [x] := h
      obtain ⟨rfl, hx⟩ := List.append_inj' he rfl
      obtain rfl := List.singleton_inj.mp hx
      exact .inr (.inl ⟨‹_›, rfl, z, rfl, rfl⟩)
    | cons w zs =>
      have he : ((c :: w) :: zs) ++ [z] = xs ++ [x] := h
      obtain ⟨rfl, hx⟩ := List.append_inj' he rfl
      obtain rfl := List.singleton_inj.mp hx
      exact .inr (.inr ⟨‹_›, w, zs, rfl, rfl⟩)

/-- Where two texts meet, the last piece of the first one and the first piece of the second one
make up one piece. -/
theorem pieces_join {xs ys : List (List Char)} {x y : List Char} (ha : pieces a = xs ++ [x])
    (hb : pieces b = y :: ys) : pieces (a ++ b) = xs ++ (x ++ y) :: ys := by
  induction a generalizing xs x with
  | nil =>
    obtain ⟨rfl, rfl⟩ : xs = [] ∧ x = [] := by
      cases xs <;> simp_all [pieces]
    exact hb
  | cons c a ih =>
    rw [List.cons_append, pieces_cons]
    obtain ⟨hc, zs, rfl, hp⟩ | ⟨hc, rfl, z, rfl, hp⟩ | ⟨hc, z, zs, rfl, hp⟩ := pieces_cons_cases ha
    · rw [ih hp, if_pos hc]
      rfl
    · rw [ih hp, if_neg hc]
      rfl
    · rw [ih hp, if_neg hc]
      rfl

/-- What stands in a text after its last line feed. -/
def lastLine (text : List Char) : List Char := (pieces text).getLast pieces_ne_nil

theorem pieces_eq_lastLine (text : List Char) : ∃ xs, pieces text = xs ++ [lastLine text] ∧
    xs.length = text.count '\n' := by
  refine ⟨(pieces text).dropLast, (List.dropLast_append_getLast _).symm, ?_⟩
  rw [List.length_dropLast, length_pieces, Nat.add_sub_cancel]

theorem lastLine_eq {xs : List (List Char)} {x : List Char} (h : pieces text = xs ++ [x]) :
    lastLine text = x := by
  simp [lastLine, h]

theorem lastLine_append (h : '\n' ∉ b) : lastLine (a ++ b) = lastLine a ++ b := by
  obtain ⟨xs, ha, -⟩ := pieces_eq_lastLine a
  exact lastLine_eq (pieces_join ha (List.splitOn_eq_singleton h))

theorem lastLine_newline : lastLine (a ++ ['\n']) = [] := lastLine_eq (pieces_append (b := []))

theorem lastLine_subset (text : List Char) : lastLine text ⊆ text :=
  subset_of_mem_pieces (List.getLast_mem pieces_ne_nil)

/-- A text ends as its last line does, unless it ends in a line feed. -/
theorem getLast?_lastLine {c : Char} (h : text.getLast? = some c) (hc : c ≠ '\n') :
    (lastLine text).getLast? = some c := by
  obtain ⟨a, rfl⟩ := List.getLast?_eq_some_iff.mp h
  have hn : '\n' ∉ [c] := by simpa [eq_comm] using hc
  rw [lastLine_append hn, List.getLast?_concat]

theorem newline_notMem_lastLine : '\n' ∉ lastLine text :=
  newline_notMem_pieces (List.getLast_mem pieces_ne_nil)

theorem eq_append_lastLine (text : List Char) : ∃ a, text = a ++ lastLine text ∧ EndsLine a := by
  induction text using List.reverseRecOn with
  | nil => exact ⟨[], rfl, .inl rfl⟩
  | append_singleton text c ih =>
    by_cases hc : c = '\n'
    · subst hc
      rw [lastLine_newline]
      exact ⟨text ++ ['\n'], (List.append_nil _).symm, .inr (by simp)⟩
    · obtain ⟨a, ht, ha⟩ := ih
      refine ⟨a, ?_, ha⟩
      rw [lastLine_append (by simpa [eq_comm] using hc), ← List.append_assoc, ← ht]

/-- A text is the end of a line, and what comes after it. -/
theorem exists_line (text : List Char) : ∃ line rest, text = line ++ rest ∧ '\n' ∉ line ∧
    ∀ c ∈ rest.head?, c = '\n' := by
  refine ⟨text.takeWhile (· ≠ '\n'), text.dropWhile (· ≠ '\n'),
    List.takeWhile_append_dropWhile.symm, fun h => by simpa using List.mem_takeWhile_imp h,
    fun c hc => ?_⟩
  have h := List.head?_dropWhile_not (fun c => decide (c ≠ '\n')) text
  rw [Option.mem_def.mp hc] at h
  simpa using h

/-- The piece that a text ends in, if it goes on with a line feed or not at all. -/
theorem getElem?_pieces (h : ∀ c ∈ b.head?, c = '\n') :
    (pieces (a ++ b))[a.count '\n']? = some (lastLine a) := by
  obtain ⟨xs, hx, hn⟩ := pieces_eq_lastLine a
  rw [← hn]
  cases b with
  | nil => simp [hx]
  | cons c b =>
    obtain rfl := h c rfl
    rw [pieces_append, hx]
    simp

theorem newline_notMem {line : Line} (h : line ∈ lines text) : '\n' ∉ line.text := by
  obtain ⟨⟨piece, n⟩, hm, rfl⟩ := List.mem_map.mp h
  have hp : '\n' ∉ piece := newline_notMem_pieces (List.fst_mem_of_mem_zipIdx hm)
  simp only [dropReturn]
  split
  · exact fun h => hp ((List.dropLast_sublist piece).subset h)
  · exact hp

theorem dropReturn_prefix (piece : List Char) : dropReturn piece <+: piece := by
  unfold dropReturn
  split
  · exact List.dropLast_prefix piece
  · exact List.prefix_rfl

/-- A carriage return at the end is dropped. -/
theorem dropReturn_ne {piece : List Char} (h : piece.getLast? = some '\r') :
    dropReturn piece ≠ piece := by
  obtain ⟨p, rfl⟩ := List.getLast?_eq_some_iff.mp h
  simp [dropReturn]

theorem exists_piece_of_mem {line : Line} (h : line ∈ lines text) : line.number ≠ 0 ∧
    ∃ piece, (pieces text)[line.number - 1]? = some piece ∧ line.text = dropReturn piece := by
  obtain ⟨⟨piece, n⟩, hm, rfl⟩ := List.mem_map.mp h
  obtain ⟨hn, -, hp⟩ := List.mem_zipIdx hm
  exact ⟨Nat.ne_of_gt hn, piece, by simp [hp], rfl⟩

/-- The lines of a text, all of them terminated. -/
def fullLines (a : List Char) : List Line :=
  ((pieces a).zipIdx 1).map fun (piece, number) => ⟨number, dropReturn piece, true⟩

theorem lines_append :
    lines (a ++ '\n' :: b) = fullLines a ++ (lines b).map (.down (a.count '\n' + 1)) := by
  rw [← length_pieces]
  simp only [lines, fullLines, pieces_append, List.zipIdx_append, List.map_append, List.map_map,
    List.length_append]
  congr 1
  · refine List.map_congr_left fun p hp => ?_
    have := List.snd_lt_of_mem_zipIdx hp
    have : 0 < (pieces b).length := by simp [length_pieces]
    simp
    omega
  · rw [Nat.add_comm 1, ← List.map_snd_add_zipIdx_eq_zipIdx (k := 1), List.map_map]
    refine List.map_congr_left fun p hp => ?_
    simp [Line.down]
    omega

/-- What stands between two texts on one line leaves the other lines as they are. -/
theorem exists_lines_join {xs ys : List (List Char)} {x y : List Char} (ha : pieces a = xs ++ [x])
    (hb : pieces b = y :: ys) : ∃ before after terminated, ∀ z, '\n' ∉ z →
      lines (a ++ z ++ b) =
        before ++ ⟨xs.length + 1, dropReturn (x ++ z ++ y), terminated⟩ :: after := by
  have hz z (h : '\n' ∉ z) : pieces (a ++ z ++ b) = xs ++ (x ++ z ++ y) :: ys :=
    pieces_join (pieces_join ha (List.splitOn_eq_singleton h)) hb
  let line (p : List Char × ℕ) : Line := ⟨p.2, dropReturn p.1, p.2 < xs.length + (ys.length + 1)⟩
  refine ⟨(xs.zipIdx 1).map line, (ys.zipIdx (xs.length + 2)).map line, 0 < ys.length,
    fun z h => ?_⟩
  rw [lines, hz z h]
  simp [line, List.zipIdx_append, List.zipIdx_cons, Nat.add_comm 1]

theorem dropReturn_of_notMem (h : '\r' ∉ text) : dropReturn text = text :=
  if_neg fun hl => h (List.mem_of_getLast? hl)

/-- Where lines have no carriage returns, they hold all that stands between line feeds. -/
theorem exists_lines_of_notMem (hr : '\r' ∉ a ++ b) : ∃ before after y terminated, ∀ z, '\n' ∉ z →
    '\r' ∉ z → lines (a ++ z ++ b) =
      before ++ ⟨a.count '\n' + 1, lastLine a ++ z ++ y, terminated⟩ :: after := by
  obtain ⟨xs, hx, hn⟩ := pieces_eq_lastLine a
  obtain ⟨y, ys, hy⟩ := List.exists_cons_of_ne_nil (pieces_ne_nil (a := b))
  obtain ⟨before, after, terminated, hlines⟩ := exists_lines_join hx hy
  refine ⟨before, after, y, terminated, fun z hz hzr => ?_⟩
  have ha := lastLine_subset a
  have hb : y ⊆ b := subset_of_mem_pieces (by simp [hy])
  rw [hlines z hz, hn, dropReturn_of_notMem]
  simp only [List.mem_append, not_or] at hr ⊢
  exact ⟨⟨fun h => hr.1 (ha h), hzr⟩, fun h => hr.2 (hb h)⟩

/-- The line that is shown under a number is shown further down if lines come before it. -/
theorem shownLine_append (ha : EndsLine a) (hn : 1 ≤ n) :
    shownLine (a ++ b) (n + a.count '\n') = shownLine b n := by
  obtain rfl | ha := ha
  · rfl
  obtain ⟨a, rfl⟩ := List.getLast?_eq_some_iff.mp ha
  have hc : (a ++ ['\n']).count '\n' = (pieces a).length := by simp [length_pieces]
  have hi : n + (pieces a).length - 1 - (pieces a).length = n - 1 := by omega
  rw [hc, List.append_assoc, List.singleton_append]
  simp only [shownLine, pieces_append, List.length_append]
  rw [List.getElem?_append_right (by omega), hi]
  split
  · simp only [Nat.add_comm n, Nat.add_lt_add_iff_left]
  · rfl

end RookLang.Text
