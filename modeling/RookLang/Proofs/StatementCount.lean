import RookLang.Proofs.Grammar.TopLines
import RookLang.Proofs.Indentation

/-! The statements of a program outside all blocks are its lines that are not indented, apart from
those that go on with an `if`. -/
namespace RookLang

namespace Token

variable {t : Token}

theorem isLayout_terminal (t : Token) : t.terminal.isLayout = t.kind.isLayout := by
  rw [← kind_terminal]
  cases t.terminal <;> rfl

/-- Does the token start another branch of an `if`? -/
def isBranch (t : Token) : Bool := t.keyword? = some .elif || t.keyword? = some .else_

theorem isBranch_terminal (t : Token) : t.terminal.isBranch = t.isBranch := by
  unfold terminal isBranch
  cases t.keyword? with
  | some k => cases k <;> rfl
  | none => cases t.builtin? <;> rfl

end Token

namespace Layout

variable {text : List Char} {lines : List CodeLine} {l m : CodeLine} {before level : ℕ}
  {ts : List Token} {fresh : Bool} {v : List Terminal}

/-- Is a line with these tokens neither indented nor a branch of an `if`? -/
def isTop (width : ℕ) (ts : List Token) : Bool := width == 0 && ts.head?.all (!·.isBranch)

theorem topLines_tokens (h : ∀ t ∈ ts, t.kind.isLayout = false) :
    topLines false level (ts.map Token.terminal ++ v) = topLines false level v := by
  induction ts with
  | nil => rfl
  | cons t ts ih =>
    obtain ⟨ht, h⟩ := List.forall_mem_cons.mp h
    rw [List.map_cons, List.cons_append, topLines_ink (t.isLayout_terminal.trans ht), ih h]
    exact Nat.zero_add _

theorem topLines_body (h : l.WellFormed) (hw : l.width = 4 * level) :
    topLines true level (l.body.map Token.terminal ++ v) =
      (isTop l.width l.body).toNat + topLines false level v := by
  obtain ⟨t, ts, hb⟩ := List.exists_cons_of_ne_nil (body_ne_nil h)
  have hk := isLayout_body h
  rw [hb] at hk ⊢
  obtain ⟨ht, hts⟩ := List.forall_mem_cons.mp hk
  have hz : (l.width == 0) = (level == 0) := by
    rw [Bool.eq_iff_iff, beq_iff_eq, beq_iff_eq]
    omega
  rw [List.map_cons, List.cons_append, topLines_ink (t.isLayout_terminal.trans ht),
    topLines_tokens hts, isTop, hz, t.isBranch_terminal]
  simp

theorem topLines_dedents (n : ℕ) :
    topLines true level (List.replicate n (Terminal.plain .dedent) ++ v) =
      topLines true (level - n) v := by
  induction n generalizing level with
  | zero => rfl
  | succ n ih =>
    rw [List.replicate_succ, List.cons_append, topLines_layout rfl, ih]
    simp only [Terminal.levelAfter]
    congr 1
    omega

theorem topLines_opening (hw : l.width = 4 * level)
    (hb : before < l.width → l.width = before + 4) (hd : 4 ∣ before) :
    topLines true (before / 4) ((l.opening before).map Token.terminal ++ v) =
      topLines true level v := by
  rw [CodeLine.opening]
  split
  · rename_i hlt
    have ht : (l.token .indent "" l.start).terminal = .plain .indent := rfl
    rw [List.map_singleton, ht, List.singleton_append, topLines_layout rfl]
    simp only [Terminal.levelAfter]
    congr 1
    have := hb hlt
    omega
  · have ht : (l.token .dedent "" l.start).terminal = .plain .dedent := rfl
    rw [List.map_replicate, ht, topLines_dedents, dedentCount_eq]
    congr 1
    omega

theorem topLines_closing : topLines fresh level (l.closing.map Token.terminal) = 0 := by
  apply topLines_eq_zero
  simp only [List.mem_map]
  rintro _ ⟨t, ht, rfl⟩
  rcases mem_closing ht with rfl | rfl <;> rfl

/-- A line after one of width `before` adds to the count if it is not indented and no branch. -/
theorem topLines_line (h : l.WellFormed) (hb : before < l.width → l.width = before + 4)
    (hd : 4 ∣ before) : topLines true (before / 4) ((l.tokens before).map Token.terminal ++ v) =
      (isTop l.width l.body).toNat + topLines l.terminated (l.width / 4) v := by
  have hw : l.width = 4 * (l.width / 4) := (Nat.mul_div_cancel' h.aligned).symm
  have he : topLines false (l.width / 4) (l.ending.map Token.terminal ++ v) =
      topLines l.terminated (l.width / 4) v := by
    rw [CodeLine.ending]
    split
    · rename_i ht
      rw [ht]
      exact topLines_layout rfl
    · rename_i ht
      rw [Bool.eq_false_of_not_eq_true ht]
      rfl
  rw [CodeLine.tokens, List.map_append, List.map_append, List.append_assoc, List.append_assoc,
    topLines_opening hw hb hd, topLines_body h hw, he]

theorem topLines_tokensAfter (hl : l.WellFormed) (h : ∀ m ∈ lines, m.WellFormed)
    (ht : (l :: lines).IsChain fun l _ => l.terminated)
    (hu : (l :: lines).IsChain fun l m => l.width < m.width → m.width = l.width + 4) :
    topLines l.terminated (l.width / 4) ((tokensAfter l lines).map Token.terminal) =
      lines.countP fun m => isTop m.width m.body := by
  induction lines generalizing l with
  | nil => exact topLines_closing
  | cons m lines ih =>
    obtain ⟨hm, h⟩ := List.forall_mem_cons.mp h
    obtain ⟨ht, hts⟩ := List.isChain_cons_cons.mp ht
    obtain ⟨hu, hus⟩ := List.isChain_cons_cons.mp hu
    rw [tokensAfter, List.map_append, ht, topLines_line hm hu hl.aligned, ih hm h hts hus,
      List.countP_cons, Nat.add_comm]
    cases isTop m.width m.body <;> rfl

theorem topLines_codeLines (h : ∀ l ∈ lines, l.WellFormed)
    (ht : lines.IsChain fun l _ => l.terminated) (hz : ∀ l ∈ lines.head?, l.width = 0)
    (hu : lines.IsChain fun l m => l.width < m.width → m.width = l.width + 4) :
    topLines true 0 ((tokens lines).map Token.terminal) =
      lines.countP fun l => isTop l.width l.body := by
  cases lines with
  | nil => rfl
  | cons l lines =>
    obtain ⟨hl, h⟩ := List.forall_mem_cons.mp h
    have hz := hz l rfl
    rw [tokens_cons, List.map_append, topLines_line hl (by omega) (Nat.dvd_zero 4),
      topLines_tokensAfter hl h ht hu, List.countP_cons, Nat.add_comm]
    cases isTop l.width l.body <;> rfl

/-- Is the line neither indented nor a branch of an `if`? Its tokens, apart from layout, tell. -/
def isTopLine (ts : TokenStream) (line : Text.Line) : Bool :=
  isTop (indentation line)
    (ts.toList.filter fun t => t.line == line.number && !t.kind.isLayout)

theorem map_isTopLine (h : codeLines text = .ok lines) :
    ((Text.lines text).filter isCode).map (isTopLine ⟨tokens lines⟩) =
      lines.map fun l => isTop l.width l.body := by
  refine map_codeLines h fun line l hl hr => ?_
  have hn : line.number = l.number := by rw [(readLine_eq_ok_iff.mp hr).2]
  rw [isTopLine, indentation_eq hr, hn, ← List.filter_filter, filter_tokens (wellFormed_of_mem h),
    filter_body (pairwise_codeLines h) hl]

end Layout

open Layout

/-- The statements that are counted are the lines of code that are not indented and do not start
with `elif` or `else`. -/
theorem checkSource_counts_lines {source : List Char} {n : ℕ} (h : checkSource source = .ok n) :
    ∃ text ts, Comment.strip source = .ok text ∧ lex source = .ok ts ∧
      n = ((Text.lines text).filter isCode).countP (isTopLine ts) := by
  obtain ⟨ts, hlex, hp⟩ := checkSource_eq_ok_iff.mp h
  obtain ⟨text, lines, hs, hl, rfl⟩ := lex_eq_ok_iff.mp hlex
  have hw := wellFormed_of_mem hl
  have hts := leveled_of_parse hp
  have hn := (parseWithin_eq_ok_iff.mp hp).topLines_program
  refine ⟨text, _, hs, hlex, hn.symm.trans ?_⟩
  rw [topLines_codeLines hw (isChain_terminated hl) (width_head hts) (isChain_unit hw hts)]
  have hm := congrArg (List.countP id) (map_isTopLine hl)
  rw [List.countP_map, List.countP_map] at hm
  exact hm.symm

theorem checkSource_counts_lines_branches :
    checkSource "if a:\n\tb()\nelse:\n\tc()\n\nx = 1".toList = .ok 2 ∧
      ∃ text ts, Comment.strip "if a:\n\tb()\nelse:\n\tc()\n\nx = 1".toList = .ok text ∧
        lex "if a:\n\tb()\nelse:\n\tc()\n\nx = 1".toList = .ok ts ∧
        ((Text.lines text).filter isCode).map (isTopLine ts) = [true, false, false, false, true] ∧
        2 = ((Text.lines text).filter isCode).countP (isTopLine ts) := by
  let source := "if a:\n\tb()\nelse:\n\tc()\n\nx = 1".toList
  have h : checkSource source = .ok 2 := by decide +kernel
  have hs : Comment.strip source = .ok source := by decide
  have ho : (lex source).toOption.map
      (fun ts => ((Text.lines source).filter isCode).map (isTopLine ts)) =
        some [true, false, false, false, true] := by decide +kernel
  obtain ⟨text, ts, ht, hlex, hn⟩ := checkSource_counts_lines h
  obtain rfl := Except.ok.inj (hs.symm.trans ht)
  rw [hlex] at ho
  exact ⟨h, source, ts, hs, hlex, Option.some.inj ho, hn⟩

end RookLang
