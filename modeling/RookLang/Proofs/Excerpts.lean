import RookLang.Diagnostic
import RookLang.Proofs.TextLines

/-! What is shown of a location: its line, and carets under the columns that it marks. -/
namespace RookLang.Location
open Text

variable {l : Location}

/-- What stands before the shown line. -/
def margin (l : Location) : List Char := ("  " ++ toString l.line ++ " | ").toList

/-- What stands before the carets, as wide as the margin of the line. -/
def blankMargin (l : Location) : List Char :=
  ("  " ++ spaces (toString l.line).length ++ " |" ++ " ").toList

def carets (l : Location) : List Char :=
  (spaces (l.column - 1) ++ String.ofList (List.replicate (max l.length 1) '^')).toList

theorem toList_spaces (n : ℕ) : (spaces n).toList = List.replicate n ' ' := String.toList_ofList

theorem carets_eq (l : Location) :
    l.carets = List.replicate (l.column - 1) ' ' ++ List.replicate (max l.length 1) '^' := by
  rw [carets, String.toList_append, toList_spaces, String.toList_ofList]

theorem length_blankMargin : l.blankMargin.length = l.margin.length := by
  simp only [blankMargin, margin, String.toList_append, toList_spaces, List.length_append,
    List.length_replicate, String.length_toList]
  rfl

theorem notMem_blankMargin {c : Char} (h : c ∉ [' ', '|']) : c ∉ l.blankMargin := by
  simp_all [blankMargin, toList_spaces]

/-- No number is broken into lines. -/
theorem newline_notMem_margin : '\n' ∉ l.margin := by
  have hd : '\n' ∉ Nat.toDigits 10 l.line := fun h =>
    absurd (Nat.isDigit_of_mem_toDigits (by decide) (by decide) h) (by decide)
  simp [margin, hd]

/-- Carets stand under the marked columns, and nowhere else. -/
theorem getElem?_carets_iff {i : ℕ} : (l.blankMargin ++ l.carets)[i]? = some '^' ↔
    l.margin.length + (l.column - 1) ≤ i ∧
      i < l.margin.length + (l.column - 1) + max l.length 1 := by
  rw [← length_blankMargin]
  by_cases hi : i < l.blankMargin.length
  · rw [List.getElem?_append_left hi, List.getElem?_eq_getElem hi]
    refine iff_of_false (fun h => ?_) (by omega)
    have hm := List.getElem_mem hi
    rw [Option.some.inj h] at hm
    exact notMem_blankMargin (by decide) hm
  · rw [List.getElem?_append_right (by omega), carets_eq, List.getElem?_append]
    simp only [List.length_replicate, List.getElem?_replicate]
    split <;> simp <;> omega

/-- However the text begins, the last two lines that are shown are the line of the location and the
carets under it. -/
theorem pieces_render {d : Diagnostic} (h : '\n' ∉ d.location.lineText.toList) (file : String) :
    ∃ front, pieces (d.render file).toList = front ++
      [d.location.margin ++ d.location.lineText.toList,
        d.location.blankMargin ++ d.location.carets] := by
  have hline : '\n' ∉ d.location.margin ++ d.location.lineText.toList := by
    simp [newline_notMem_margin, h]
  have hcarets : '\n' ∉ d.location.blankMargin ++ d.location.carets := by
    simp [notMem_blankMargin, carets_eq]
  have hbreak : "\n".toList = ['\n'] := rfl
  have hrender : (d.render file).toList = (d.summary ++ "\n" ++ "  --> " ++ file ++ ":" ++
      toString d.location.line ++ ":" ++ toString d.location.column ++ "\n" ++ "  " ++
      spaces (toString d.location.line).length ++ " |").toList ++
      ("\n".toList ++ (d.location.margin ++ d.location.lineText.toList ++
        ("\n".toList ++ (d.location.blankMargin ++ d.location.carets)))) := by
    unfold Diagnostic.render excerpt margin blankMargin carets
    simp only [String.toList_append]
    simp only [List.append_assoc]
  rw [hrender, hbreak, List.singleton_append, List.singleton_append, pieces_append, pieces_append,
    pieces, pieces, pieces, List.splitOn_eq_singleton hline, List.splitOn_eq_singleton hcarets]
  exact ⟨_, rfl⟩

/-- The last line has carets under `marked`, which is part of the line above it, and nowhere else. -/
def Underlines (shown margin before marked rest : List Char) : Prop :=
  ∃ front carets, pieces shown = front ++ [margin ++ before ++ marked ++ rest, carets] ∧
    ∀ i : ℕ, carets[i]? = some '^' ↔
      (margin ++ before).length ≤ i ∧ i < (margin ++ before ++ marked).length

/-- Whatever the name of the file and the number of the line, what is marked is underlined. -/
theorem underlines_render {d : Diagnostic} {before marked rest : List Char}
    (ht : d.location.lineText.toList = before ++ marked ++ rest)
    (hn : '\n' ∉ d.location.lineText.toList) (hc : d.location.column = before.length + 1)
    (hl : d.location.length = marked.length) (hm : marked ≠ []) (file : String) :
    Underlines (d.render file).toList d.location.margin before marked rest := by
  obtain ⟨front, hp⟩ := pieces_render hn file
  rw [ht, ← List.append_assoc, ← List.append_assoc] at hp
  refine ⟨front, _, hp, fun i => ?_⟩
  have hpos := List.length_pos_iff.mpr hm
  simp only [List.length_append]
  rw [getElem?_carets_iff, hc, hl, Nat.add_sub_cancel, Nat.max_eq_left hpos]

end RookLang.Location
