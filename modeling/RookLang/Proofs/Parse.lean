import RookLang.Proofs.Recognition
import RookLang.Proofs.Statements

/-! Parsing accepts the programs of the grammar and counts their statements. -/
namespace RookLang

namespace Recogniser
open Words

section
variable {R : Type} {g : Grammar R} {limit : Option ℕ} {n : ℕ} {gs gs' : List (Goal R)}
  {M : Words} {L : ℕ → Words} {eager : Set (Option Terminal)}

/-- The goals `gs` take all that is left if it is a word of one of `L`, and count up to that one. -/
structure Counts (g : Grammar R) (limit : Option ℕ) (n : ℕ) (gs : List (Goal R)) (L : ℕ → Words) :
    Prop where
  run_iff {k x ts y} (hn : ts.length < n) : run g limit k gs x ts = .ok (y, []) ↔
    ∃ m, ts ∈ L m x.depth ∧ y = { x with statements := x.statements + m }

/-- The languages, one later. -/
def later (L : ℕ → Words) : ℕ → Words
  | 0 => 0
  | m + 1 => L m

theorem Counts.tally (h : Counts g limit n gs L) : Counts g limit n (.tally :: gs) (later L) := by
  refine ⟨fun {k x ts y} hn => ?_⟩
  have hr : advance g limit ts.head? (.tally :: gs) x =
      advance g limit ts.head? gs { x with statements := x.statements + 1 } := by simp [advance]
  rw [run_congr hr, h.run_iff hn]
  constructor
  · rintro ⟨m, hm, rfl⟩
    exact ⟨m + 1, hm, by simp [Nat.add_comm m, Nat.add_assoc]⟩
  · rintro ⟨m, hm, rfl⟩
    cases m with
    | zero => exact (notMem_zero hm).elim
    | succ m => exact ⟨m, hm, by simp [Nat.add_comm m, Nat.add_assoc]⟩

theorem Reads.counts (h : Reads g limit n gs M eager) (h' : Counts g limit n gs' L)
    (hc : ∀ t m, some t ∈ eager → after t (L m) = 0) (hnone : none ∉ eager) :
    Counts g limit n (gs ++ gs') (fun m => M * L m) := by
  refine ⟨fun {k x ts y} hn => ?_⟩
  constructor
  · intro hrun
    obtain ⟨u, v, rfl, hu, hrun⟩ := h.sound hn hrun
    obtain ⟨m, hv, rfl⟩ := (h'.run_iff (by simp at hn; omega)).mp hrun
    exact ⟨m, mem_mul.mpr ⟨u, hu, v, hv, rfl⟩, rfl⟩
  · rintro ⟨m, hts, rfl⟩
    obtain ⟨u, hu, v, hv, rfl⟩ := mem_mul.mp hts
    rw [h.complete hn hu]
    · exact (h'.run_iff (by simp at hn; omega)).mpr ⟨m, hv, rfl⟩
    · cases v with
      | nil => exact hnone
      | cons t v =>
        exact fun ht => cons_notMem (hc t m ht) hv

end

end Recogniser

namespace Phrase
open Recogniser Words Terminal

variable {limit : Option ℕ} {n : ℕ}

theorem exists_later_congr {L M : ℕ → Words} {u v : List Terminal} {d : ℕ} {P : ℕ → Prop}
    (h : ∀ m, u ∈ L m d ↔ v ∈ M m d) :
    (∃ m, u ∈ later L m d ∧ P m) ↔ ∃ m, v ∈ later M m d ∧ P m := by
  refine exists_congr fun m => and_congr_left' ?_
  cases m with
  | zero => rfl
  | succ m => exact h m

theorem counts_statementEnd (h : Counts Rule.react limit n [.rule .program] (programs limit)) :
    Counts Rule.react limit n [.rule .statementEnd, .tally, .rule .program]
      (later (nextProgram limit)) := by
  refine ⟨fun {k x ts y} hn => ?_⟩
  cases ts with
  | nil =>
    have hr : advance Rule.react limit none [.rule .statementEnd, .tally, .rule .program] x =
        advance Rule.react limit none [.tally, .rule .program] x := by simp [advance, Rule.react]
    rw [run_congr hr, h.tally.run_iff hn]
    exact exists_later_congr fun m => nil_mem_programs.trans nil_mem_nextProgram.symm
  | cons t ts =>
    by_cases hl : t = newline
    · subst hl
      rw [run_took [.tally, .rule .program] x (by simp [advance, Rule.react]),
        h.tally.run_iff (by simp at hn; omega)]
      refine exists_later_congr fun m => ?_
      rw [← after_newline_nextProgram]
      rfl
    by_cases he : t.endsBlock
    · obtain ⟨hs, hc⟩ := notMem_starts_of_endsBlock he
      have hr : advance Rule.react limit (some t) [.rule .statementEnd, .tally, .rule .program] x =
          advance Rule.react limit (some t) [.tally, .rule .program] x := by
        simp [advance, Rule.react, hl, he, endsLine_iff]
      rw [run_congr hr, h.tally.run_iff hn]
      refine exists_later_congr fun m => ?_
      rw [← mem_after, ← mem_after, after_nextProgram hl, after_programs hs hc]
    · have hl' : ¬ t.endsLine := by simpa [endsLine_iff, hl] using he
      have hr : advance Rule.react limit (some t) [.rule .statementEnd, .tally, .rule .program] x =
          .error .statementEnd := by simp [advance, Rule.react, hl, hl', Context.blame]
      refine iff_of_false (not_run_of_error hr) ?_
      rintro ⟨m, hm, -⟩
      cases m with
      | zero => exact notMem_zero hm
      | succ m =>
        have hne : t ∉ [plain .endOfInput] := fun h => by simp_all [endsBlock]
        refine cons_notMem ?_ hm
        rw [later, after_nextProgram hl, after_programs_zero, if_neg hne, ite_self]

/-- What a program of any number of statements has after the start of the first one. -/
theorem after_programs_of_ne {t : Terminal} (h : t ≠ plain .endOfInput) (m : ℕ) :
    after t (programs limit m) =
      after t (simple.words limit) * later (nextProgram limit) m +
        after t (compound.words limit) * later (programs limit) m := by
  cases m with
  | zero =>
    rw [after_programs_zero, if_neg (by simpa using h), later, later, mul_zero, mul_zero, add_zero]
  | succ m => rw [after_programs_succ, later, later]

section
variable {t : Terminal} (h : Counts Rule.react limit n [.rule .program] (programs limit))
include h

theorem counts_simple (ht : t ∈ simpleStarts) : ∃ gs, Rule.startStatement (some t) = .ok gs ∧
    Counts Rule.react limit n (gs ++ [Goal.tally, .rule Rule.program])
      (fun m => after t (programs limit m)) := by
  obtain ⟨gs, hg, hr⟩ := reads_simple limit n ht
  refine ⟨_, hg, ?_⟩
  have he : t ≠ plain .endOfInput := by
    rintro rfl
    exact absurd ht (by decide)
  have hc : after t (compound.words limit) = 0 :=
    startsIn_compound.after_eq_zero t (notMem_compoundStarts t ht)
  simp only [after_programs_of_ne he, hc, zero_mul, add_zero]
  rw [List.append_assoc]
  refine (hr.mono (Nat.le_succ n)).counts (counts_statementEnd h) ?_ (by simp [inLine])
  intro u m hu
  cases m with
  | zero => rfl
  | succ m =>
    have hl : u ≠ newline := fun h => hu (by simp [h, endsLine])
    have he : u ≠ plain .endOfInput := fun h => hu (by simp [h, endsLine])
    rw [later, after_nextProgram hl, after_programs_zero,
      if_neg (show u ∉ [plain .endOfInput] by simpa using he), ite_self]

theorem counts_compound (ht : t ∈ compoundStarts) :
    ∃ gs, Rule.startStatement (some t) = .ok gs ∧
      Counts Rule.react limit n (gs ++ [Goal.tally, .rule Rule.program])
        (fun m => after t (programs limit m)) := by
  have hS : Reads Rule.react limit n [.rule .statements] (statements.words limit) inBlock :=
    reads_statements n
  obtain ⟨gs, hg, hr⟩ := reads_compound hS ht
  refine ⟨_, hg, ?_⟩
  have hs : t ∉ simpleStarts := fun hs => notMem_compoundStarts t hs ht
  have he : t ≠ plain .endOfInput := by
    rintro rfl
    exact absurd ht (by decide)
  simp only [after_programs_of_ne he, startsIn_simple.after_eq_zero t hs, zero_mul, zero_add]
  refine hr.counts h.tally ?_ none_notMem_among
  intro u m hu
  rw [some_mem_among] at hu
  cases m with
  | zero => rfl
  | succ m =>
    rw [later, after_programs (by revert u; decide) (by revert u; decide),
      after_programs_zero, if_neg (show u ∉ _ by revert u; decide), ite_self]

end

section
variable {k : ℕ} {x y : Context} {t : Terminal} {ts : List Terminal}

theorem run_program_nil : run Rule.react limit k [.rule .program] x [] = .ok (y, []) ↔
    ∃ m, [] ∈ programs limit m x.depth ∧ y = { x with statements := x.statements + m } := by
  have hr : advance Rule.react limit none [.rule .program] x =
      advance Rule.react limit none [] x := by simp [advance, Rule.react]
  rw [run_congr hr]
  simp only [run, advance, nil_mem_programs, exists_eq_left, Except.ok.injEq, Prod.mk.injEq,
    and_true, Nat.add_zero]
  exact eq_comm

theorem run_program_endOfInput :
    run Rule.react limit k [.rule .program] x (plain .endOfInput :: ts) = .ok (y, []) ↔
      ∃ m, plain .endOfInput :: ts ∈ programs limit m x.depth ∧
        y = { x with statements := x.statements + m } := by
  have hrun : run Rule.react limit (k + 1) [] x ts = .ok (x, ts) := by
    cases ts <;> rfl
  have ha m : plain .endOfInput :: ts ∈ programs limit m x.depth ↔
      ts ∈ (if m = 0 then 1 else 0 : Words) x.depth := by
    rw [← mem_after, after_programs (by decide) (by decide), after_programs_zero,
      if_pos (List.mem_singleton.mpr rfl)]
  rw [run_took [] x (by simp [advance, Rule.react]), hrun]
  simp only [ha, Except.ok.injEq, Prod.mk.injEq]
  constructor
  · rintro ⟨rfl, rfl⟩
    exact ⟨0, rfl, rfl⟩
  · rintro ⟨m, hm, rfl⟩
    by_cases h : m = 0
    · subst h
      exact ⟨rfl, hm⟩
    · rw [if_neg h] at hm
      exact (notMem_zero hm).elim

theorem react_program (he : t ≠ plain .endOfInput) : Rule.react (some t) .program =
    (Rule.startStatement.followedBy [.tally, .rule .program]).react (some t) := by
  simp only [Rule.react]
  split <;> simp_all

theorem run_program_start (he : t ≠ plain .endOfInput) (hn : ts.length < n)
    (h : ∃ gs, Rule.startStatement (some t) = .ok gs ∧
      Counts Rule.react limit n (gs ++ [Goal.tally, .rule Rule.program])
        (fun m => after t (programs limit m))) :
    run Rule.react limit k [.rule .program] x (t :: ts) = .ok (y, []) ↔
      ∃ m, t :: ts ∈ programs limit m x.depth ∧
        y = { x with statements := x.statements + m } := by
  obtain ⟨gs, hg, h⟩ := h
  rw [run_took (gs ++ [Goal.tally, .rule Rule.program]) x (by simp [advance, react_program he,
    Rule.Start.react, Rule.Start.followedBy, Except.map, hg])]
  exact h.run_iff hn

theorem not_run_program (he : t ≠ plain .endOfInput) (hs : t ∉ simpleStarts)
    (hc : t ∉ compoundStarts) :
    run Rule.react limit k [.rule .program] x (t :: ts) ≠ .ok (y, []) := by
  obtain ⟨missing, hg⟩ := startStatement_error hs hc
  have hr : advance Rule.react limit (some t) [.rule .program] x =
      .error (x.blame (some t) missing) := by
    simp [advance, react_program he, Rule.Start.react, Rule.Start.followedBy, Except.map, hg]
  exact not_run_of_error hr

end

theorem counts_program (limit : Option ℕ) (n : ℕ) :
    Counts Rule.react limit n [.rule .program] (programs limit) := by
  induction n with
  | zero => exact ⟨fun hn => absurd hn (Nat.not_lt_zero _)⟩
  | succ n ih =>
    refine ⟨fun {k x ts y} hn => ?_⟩
    cases ts with
    | nil => exact run_program_nil
    | cons t ts =>
      have hn : ts.length < n := by simpa using hn
      by_cases he : t = plain .endOfInput
      · exact he ▸ run_program_endOfInput
      by_cases hs : t ∈ simpleStarts
      · exact run_program_start he hn (counts_simple ih hs)
      by_cases hc : t ∈ compoundStarts
      · exact run_program_start he hn (counts_compound ih hc)
      · refine iff_of_false (not_run_program he hs hc) ?_
        rintro ⟨m, hm, -⟩
        have he : t ∉ [plain .endOfInput] := by simpa using he
        refine cons_notMem ?_ hm
        rw [after_programs hs hc, after_programs_zero, if_neg he, ite_self]

end Phrase

theorem recognise_eq_ok_iff {limit : Option ℕ} {ts : List Terminal} {n : ℕ} :
    Recogniser.recognise Rule.react limit .program ts = .ok n ↔
      Derives limit 0 (Phrase.program n) ts := by
  have h {y} : Recogniser.run Rule.react limit 0 [.rule .program] .initial ts = .ok (y, []) ↔ _ :=
    (Phrase.counts_program limit (ts.length + 1)).run_iff (Nat.lt_succ_self _)
  constructor
  · intro hr
    unfold Recogniser.recognise at hr
    split at hr
    · rename_i hrun
      obtain ⟨m, hm, rfl⟩ := h.mp hrun
      obtain rfl : m = n := by simpa [Context.initial] using hr
      exact hm
    · cases hr
    · cases hr
  · intro hd
    have hrun := h.mpr ⟨n, hd, rfl⟩
    rw [Recogniser.recognise, hrun]
    simp [Context.initial]

theorem parseWithin_eq_ok_iff {limit : Option ℕ} {ts : TokenStream} {n : ℕ} :
    parseWithin limit ts = .ok n ↔
      Derives limit 0 (Phrase.program n) (ts.toList.map Token.terminal) := by
  rw [← recognise_eq_ok_iff, parseWithin_eq]
  cases Recogniser.recognise Rule.react limit .program (ts.toList.map Token.terminal) <;>
    simp [Except.mapError]

/-- Parsing accepts exactly the programs of the grammar, and answers the number of their
statements. -/
theorem parse_eq_ok_iff (ts : TokenStream) (n : ℕ) : parse ts = .ok n ↔
    Derives (some nestingLimit) 0 (Phrase.program n) (ts.toList.map Token.terminal) :=
  parseWithin_eq_ok_iff

end RookLang
