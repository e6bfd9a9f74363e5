import RookLang.Proofs.Canonical
import RookLang.Proofs.CommentPlaces

/-! Comments that come in between tokens. What is kept of them are spaces at most, which do not
come into a token and do not come before the code of a line. -/
namespace RookLang

/-- The place is inside of the token, or directly after a division sign, which would make another
comment of one. -/
def Token.Bars (p : Comment.Position) (t : Token) : Prop :=
  t.line = p.line ∧ (t.column < p.column ∧ p.column < t.endColumn ∨
    t.kind = .operator .divide ∧ t.endColumn = p.column)

instance (p : Comment.Position) (t : Token) : Decidable (t.Bars p) :=
  inferInstanceAs (Decidable (_ ∧ (_ ∨ _)))

namespace Lexeme
open Comment

variable {x y lead rest : List Char} {ls us vs : List Lexeme}

/-- A line with code before a place that is outside of its lexemes falls into parts there. -/
theorem CutsLine.exists_append (h : CutsLine (x ++ y) ls)
    (hx : ∃ c ∈ x, Character.isBlank c = false)
    (hs : ∀ z ∈ ls, ¬ z.Straddles (x.length + 1)) : ∃ lead c rest us vs, x = lead ++ c :: rest ∧
      (∀ d ∈ lead, d = ' ' ∨ d = '\t') ∧ (c ≠ ' ' ∧ c ≠ '\t') ∧
      4 ∣ lead.count ' ' + 4 * lead.count '\t' ∧ ls = us ++ vs ∧
      Cuts (lead.length + 1) (c :: rest) us ∧ Cuts (x.length + 1) y vs := by
  generalize ht : x ++ y = text at h
  obtain ⟨hl, hr, hw, hc⟩ := h
  rename_i lead rest
  obtain ⟨d, hm, hblank⟩ := hx
  have hd : d ∉ lead := fun hm => by
    rcases hl d hm with rfl | rfl <;> exact absurd hblank (by decide)
  rcases List.append_eq_append_iff.mp ht with ⟨w, rfl, rfl⟩ | ⟨w, rfl, rfl⟩
  · exact (hd (List.mem_append_left _ hm)).elim
  cases w with
  | nil => exact (hd (by simpa using hm)).elim
  | cons c w =>
    have hlen : (lead ++ c :: w).length + 1 = lead.length + 1 + (c :: w).length := by
      rw [List.length_append, Nat.add_right_comm]
    rw [hlen] at hs ⊢
    obtain ⟨us, vs, rfl, hu, hv⟩ := hc.exists_append hs
    exact ⟨lead, c, w, us, vs, rfl, hl, hr c rfl, hw, rfl, hu, hv⟩

end Lexeme

namespace Layout
open Lexeme Comment

variable {x y : List Char} {number : ℕ} {terminated : Bool} {l : CodeLine}

/-- A line with code before a place outside of its lexemes is read up to this place, and spaces may
come in there. -/
theorem readLine_spaces (h : readLine ⟨number, x ++ y, terminated⟩ = .ok l) (hn : '\n' ∉ x)
    (hx : ∃ c ∈ x, Character.isBlank c = false)
    (hs : ∀ z ∈ l.lexemes, ¬ z.Straddles (x.length + 1))
    (hd : ∀ z ∈ l.lexemes, z.kind = .operator .divide → z.column + z.text.length ≠ x.length + 1) :
    Keeps (· = .code) Mode.InCode x ∧ x.getLast? ≠ some '/' ∧
      ∀ n, ∃ m, readLine ⟨number, x ++ List.replicate n ' ' ++ y, terminated⟩ = .ok m ∧
        l.Alike m ∧ m.number = l.number := by
  obtain ⟨hcut, hl⟩ := readLine_eq_ok_iff.mp h
  obtain ⟨lead, c, rest, us, vs, rfl, hlead, hc, hw, hls, hu, hv⟩ := hcut.exists_append hx hs
  rw [hls] at hd hl
  have hne : c :: rest ≠ [] := nofun
  have hlen : (lead ++ c :: rest).length + 1 = lead.length + 1 + (c :: rest).length := by
    rw [List.length_append, Nat.add_right_comm]
  have hwidth z : width (leading (lead ++ c :: rest ++ z)) = width lead := by
    rw [List.append_assoc, leading_append hlead (by simpa using hc)]
  refine ⟨?_, fun hlast => ?_, fun n => ?_⟩
  · have hk : Keeps (· = .code) (· = .code) lead := by
      refine keeps_plain (fun h => ?_) (fun h => ?_) <;>
        rcases hlead _ h with h | h <;> exact absurd h (by decide)
    exact hk.append (hu.keeps fun h => hn (List.mem_append_right _ h))
  · rw [List.getLast?_append_of_ne_nil _ hne] at hlast
    obtain ⟨z, hz, hk, hcol⟩ := hu.exists_divide hlast
    exact hd z (List.mem_append_left _ hz) hk (hcol.trans hlen.symm)
  · cases n with
    | zero => exact ⟨l, by simpa using h, ⟨rfl, rfl, rfl⟩, rfl⟩
    | succ n =>
      rw [hlen] at hv
      have hrest : ∀ d ∈ (c :: rest ++ (List.replicate (n + 1) ' ' ++ y)).head?,
          d ≠ ' ' ∧ d ≠ '\t' := by simpa using hc
      have hcut' := CutsLine.intro hlead hrest hw (hu.append_spaces hv n)
      rw [← List.append_assoc, ← List.append_assoc] at hcut'
      refine ⟨⟨_, _, _, _, _, _, _⟩, readLine_eq_ok_iff.mpr ⟨hcut', rfl⟩, ⟨?_, ?_, ?_⟩, ?_⟩
      · have hspaced := hwidth (List.replicate (n + 1) ' ' ++ y)
        rw [← List.append_assoc] at hspaced
        rw [hl]
        exact (hwidth y).trans hspaced.symm
      · rw [hls, List.map_append, List.map_append, List.map_map]
        rfl
      · rw [hl]
      · rw [hl]

section
variable {u v : List Char} {lines : List CodeLine}

theorem codeLines_spaces_of_ink (h : codeLines (u ++ v) = .ok lines) (hr : '\r' ∉ u ++ v)
    (hp : ∀ t ∈ tokens lines, ¬ t.Bars (placeAfter u))
    (hink : ∃ c ∈ Text.lastLine u, Character.isBlank c = false) :
    Keeps (· = .code) Mode.InCode (Text.lastLine u) ∧ (Text.lastLine u).getLast? ≠ some '/' ∧
      ∀ n, ∃ ms, codeLines (u ++ List.replicate n ' ' ++ v) = .ok ms ∧
        List.Forall₂ (fun l m => l.Alike m ∧ m.number = l.number) lines ms := by
  obtain ⟨before, after, y, terminated, hlines⟩ := Text.exists_lines_of_notMem hr
  let line (z : List Char) : Text.Line :=
    ⟨u.count '\n' + 1, Text.lastLine u ++ z ++ y, terminated⟩
  have hcode z : isCode (line z) := by
    obtain ⟨c, hc, hb⟩ := hink
    have : ∃ d ∈ (line z).text, Character.isBlank d = false := ⟨c, by simp [line, hc], hb⟩
    simpa [isCode] using this
  have hself : Text.lines (u ++ v) = before ++ line [] :: after := by
    simpa [line] using hlines [] List.not_mem_nil List.not_mem_nil
  obtain ⟨l, hl, hread⟩ := exists_codeLine h (by simp [hself]) (hcode [])
  have hplace : l.number = (placeAfter u).line := by
    rw [(readLine_eq_ok_iff.mp hread).2]
    rfl
  have hbars x (hx : x ∈ l.lexemes) : ¬ x.Straddles (placeAfter u).column ∧
      (x.kind = .operator .divide → x.column + x.text.length ≠ (placeAfter u).column) := by
    simpa [Token.Bars, CodeLine.token, Token.endColumn, hplace, Straddles] using
      hp _ (mem_tokens h hl hx)
  have hjoined : readLine ⟨u.count '\n' + 1, Text.lastLine u ++ y, terminated⟩ = .ok l := by
    simpa [line] using hread
  obtain ⟨hk, hlast, hspaces⟩ := readLine_spaces hjoined Text.newline_notMem_lastLine hink
    (fun x hx => (hbars x hx).1) (fun x hx => (hbars x hx).2)
  refine ⟨hk, hlast, fun n => ?_⟩
  obtain ⟨m, hm, halike⟩ := hspaces n
  refine codeLines_congr (R := fun k k' => k' = k ∨ k = line [] ∧ k' = line (.replicate n ' '))
    ?_ ?_ ?_ h
  · rw [hself, hlines _ (by simp [List.mem_replicate]) (by simp [List.mem_replicate])]
    exact List.rel_append (List.forall₂_same.mpr fun _ _ => .inl rfl)
      (.cons (.inr ⟨rfl, rfl⟩) (List.forall₂_same.mpr fun _ _ => .inl rfl))
  · rintro k _ (rfl | ⟨rfl, rfl⟩)
    · rfl
    · rw [hcode, hcode]
  · rintro k _ l' (rfl | ⟨rfl, rfl⟩) hk
    · exact ⟨l', hk, ⟨rfl, rfl, rfl⟩, rfl⟩
    · obtain rfl := Except.ok.inj (hread.symm.trans hk)
      exact ⟨m, hm, halike⟩

/-- In a text spaces may come in at a place outside of tokens, unless they indent the line. -/
theorem codeLines_spaces (h : codeLines (u ++ v) = .ok lines) (hr : '\r' ∉ u ++ v)
    (hp : ∀ t ∈ tokens lines, ¬ t.Bars (placeAfter u)) :
    Keeps (· = .code) Mode.InCode (Text.lastLine u) ∧ u.getLast? ≠ some '/' ∧
      ∀ n, (n ≠ 0 → ∃ c ∈ Text.lastLine u, Character.isBlank c = false) →
        ∃ ms, codeLines (u ++ List.replicate n ' ' ++ v) = .ok ms ∧
          List.Forall₂ (fun l m => l.Alike m ∧ m.number = l.number) lines ms := by
  have hslash (hl : u.getLast? = some '/') : (Text.lastLine u).getLast? = some '/' :=
    Text.getLast?_lastLine hl (by decide)
  by_cases hink : ∃ c ∈ Text.lastLine u, Character.isBlank c = false
  · obtain ⟨hk, hlast, hspaces⟩ := codeLines_spaces_of_ink h hr hp hink
    exact ⟨hk, fun hl => hlast (hslash hl), fun n _ => hspaces n⟩
  · have hblank {c : Char} (hc : Character.isBlank c = false) : c ∉ Text.lastLine u :=
      fun hm => hink ⟨c, hm, hc⟩
    refine ⟨(keeps_plain (hblank rfl) (hblank rfl)).inCode, fun hl => ?_, fun n hn => ?_⟩
    · exact hblank rfl (List.mem_of_getLast? (hslash hl))
    · obtain rfl : n = 0 := by_contra fun hne => hink (hn hne)
      refine ⟨lines, by simpa using h, ?_⟩
      rw [List.forall₂_same]
      exact fun _ _ => ⟨⟨rfl, rfl, rfl⟩, rfl⟩

end

end Layout

open Layout Lexeme Comment

/-- A comment that comes in at a place outside of tokens and of other comments, but not directly
after a division sign, changes no tokens but their columns. So the source stays a program with as
many statements, or stays none. -/
theorem lex_insert_comment {a b w : List Char} {quoted : Bool} {ts : TokenStream}
    (h : lex (a ++ b) = .ok ts) (hr : '\r' ∉ a ++ b) (hn : '\n' ∉ w) (hw : ¬ ['*', '/'] <:+: w)
    (ho : Outside quoted a b)
    (hp : ∀ u, Comment.strip a = .ok u → ∀ t ∈ ts.toList, ¬ t.Bars (placeAfter u)) :
    ∃ us, lex (a ++ block w ++ b) = .ok us ∧
      us.toList.map (fun t => (t.kind, t.lexeme, t.line, t.indentLevel)) =
        ts.toList.map (fun t => (t.kind, t.lexeme, t.line, t.indentLevel)) ∧
      ∀ n, checkSource (a ++ block w ++ b) = .ok n ↔ checkSource (a ++ b) = .ok n := by
  obtain ⟨text, lines, hs, hl, rfl⟩ := lex_eq_ok_iff.mp h
  obtain ⟨u, v, hu, rfl, hins⟩ := ho.exists_strip hs
  have hr' : '\r' ∉ u ++ v := fun hm => by
    simpa [hr] using subset_of_strip hs hm
  obtain ⟨hk, hlast, hspaces⟩ := codeLines_spaces hl hr' (hp u hu)
  obtain ⟨n, hs', hn'⟩ := hins w hn hw hk hlast
  obtain ⟨ms, hms, ha⟩ := hspaces n hn'
  have hlex : lex (a ++ block w ++ b) = .ok ⟨tokens ms⟩ := lex_eq_ok_iff.mpr ⟨_, ms, hs', hms, rfl⟩
  have ht := map_tokens (f := fun t => (t.kind, t.lexeme, t.line, t.indentLevel))
    (ha.imp fun l m h => ⟨h.1, fun _ _ _ _ => by simp [CodeLine.token, h.1.width, h.2]⟩)
  refine ⟨_, hlex, ht.symm, fun n => checkSource_congr hlex h ?_⟩
  exact map_terminal_congr (fun _ _ h => by simp_all) ht.symm

theorem lex_insert_comment_quote :
    ∃ ts us, lex "/*q*/x = 1".toList = .ok ts ∧ lex "/*q*/x/*\"//*/ = 1".toList = .ok us ∧
      us.toList.map (fun t => (t.kind, t.lexeme, t.line, t.indentLevel)) =
        ts.toList.map (fun t => (t.kind, t.lexeme, t.line, t.indentLevel)) ∧
      ∀ n, checkSource "/*q*/x/*\"//*/ = 1".toList = .ok n ↔
        checkSource "/*q*/x = 1".toList = .ok n := by
  obtain ⟨ts, h, hp⟩ : ∃ ts, lex ("/*q*/x".toList ++ " = 1".toList) = .ok ts ∧
      ∀ t ∈ ts.toList, ¬ t.Bars (placeAfter ['x']) := ⟨_, rfl, by decide +kernel⟩
  have hs : Comment.strip "/*q*/x".toList = .ok ['x'] := by decide
  have hstart : Outside false [] ("/*q".toList ++ "*/x = 1".toList) := .start
  have hq : Outside false "/*q*/".toList "x = 1".toList := hstart.blockComment (by decide)
  have ho : Outside false "/*q*/x".toList " = 1".toList :=
    hq.code (by decide) (by decide) (by decide)
  obtain ⟨us, hus, hm, hc⟩ := lex_insert_comment (w := "\"//".toList) h (by decide) (by decide)
    (by decide) ho fun u hu => Except.ok.inj (hs.symm.trans hu) ▸ hp
  exact ⟨ts, us, h, hus, hm, hc⟩

end RookLang
