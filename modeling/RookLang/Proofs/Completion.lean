import Mathlib.Order.CompletePartialOrder
import RookLang.Proofs.Steps

/-! What a recogniser still owes, as words: those that complete a list of goals. Every terminal
that is taken keeps them, so that what was taken is the start of a word. -/
namespace RookLang

/-- Is there no room for one more level? -/
def Expectation.isTooDeep : Expectation → Bool
  | shallowNesting _ => true
  | _ => false

namespace Recogniser
open Words

/-- The recogniser takes terminals from some goals on, and then owes others. -/
inductive Takes {R : Type} (g : Grammar R) (limit : Option ℕ) :
    List (Goal R) → Context → List Terminal → List (Goal R) → Context → Prop
  | nil {goals x} : Takes g limit goals x [] goals x
  | cons {goals x t next y ts goals' x'} (h : advance g limit (some t) goals x = .ok (.took next y))
    (ht : Takes g limit next y ts goals' x') : Takes g limit goals x (t :: ts) goals' x'

section Takes
variable {R : Type} {g : Grammar R} {limit : Option ℕ} {k l n : ℕ} {goals goals' : List (Goal R)}
  {x x' : Context} {t : Terminal} {us ts : List Terminal} {start : R}

/-- The goals do not take the terminal. -/
def Stops (g : Grammar R) (limit : Option ℕ) (goals : List (Goal R)) (x : Context) (t : Terminal) :
    Prop :=
  ∀ next y, advance g limit (some t) goals x ≠ .ok (.took next y)

theorem Takes.run_append (h : Takes g limit goals x us goals' x') :
    run g limit k goals x (us ++ ts) = run g limit (k + us.length) goals' x' ts := by
  induction h generalizing k with
  | nil => rfl
  | cons h _ ih =>
    rw [List.cons_append, run_took _ _ h, ih, List.length_cons, Nat.add_right_comm, Nat.add_assoc]

/-- Goals are left until one takes the terminal. -/
theorem exists_runs_of_advance (h : advance g limit (some t) goals x = .ok (.took goals' x'))
    (ts : List Terminal) :
    ∃ worked, Runs g limit ⟨goals, x, t :: ts⟩ worked ⟨goals', x', ts⟩ := by
  induction goals generalizing x with
  | nil => cases h
  | cons goal goals ih =>
    obtain ⟨owed, hw, rfl⟩ | ⟨y, hw, ha⟩ := took_or_left h
    · exact ⟨_, .step (.took hw) .refl⟩
    · obtain ⟨worked, hr⟩ := ih ha
      exact ⟨_, .step (.left hw) hr⟩

theorem Takes.exists_runs (h : Takes g limit goals x us goals' x') (ts : List Terminal) :
    ∃ worked, Runs g limit ⟨goals, x, us ++ ts⟩ worked ⟨goals', x', ts⟩ := by
  induction h with
  | nil => exact ⟨[], .refl⟩
  | cons ha _ ih =>
    obtain ⟨worked, hr⟩ := exists_runs_of_advance ha _
    obtain ⟨worked', hr'⟩ := ih
    exact ⟨_, hr.trans hr'⟩

/-- What is taken in a run is taken terminal by terminal. -/
theorem Runs.exists_takes {a c : Config R} {worked : List (Goal R)} (h : Runs g limit a worked c) :
    ∃ us goals x, a.rest = us ++ c.rest ∧ Takes g limit a.goals a.context us goals x := by
  induction h with
  | refl => exact ⟨[], _, _, rfl, .nil⟩
  | @step a goal b worked c h _ ih =>
    obtain ⟨us, goals', y, hu, ht⟩ := ih
    cases h with
    | @took _ goals x t rest owed y h =>
      have ha : advance g limit (some t) (goal :: goals) x = .ok (.took (owed ++ goals) y) := by
        rw [advance_cons, h]
      exact ⟨t :: us, goals', _, congrArg (t :: ·) hu, .cons ha ht⟩
    | @left _ goals x rest y h =>
      cases ht with
      | nil => exact ⟨[], _, _, hu, .nil⟩
      | @cons _ _ t next z us _ _ ha ht =>
        obtain rfl : rest = t :: (us ++ _) := hu
        have ha' : advance g limit (some t) (goal :: goals) x = .ok (.took next z) := by
          rw [advance_cons, show work g limit (some t) x goal = .ok (.left y) from h]
          exact ha
        exact ⟨t :: us, _, _, rfl, .cons ha' ht⟩

theorem Takes.exists_of_append (h : Takes g limit goals x (us ++ ts) goals' x') :
    ∃ next y, Takes g limit goals x us next y ∧ Takes g limit next y ts goals' x' := by
  induction us generalizing goals x with
  | nil => exact ⟨goals, x, .nil, h⟩
  | cons t us ih =>
    obtain - | ⟨ha, ht⟩ := h
    obtain ⟨next, y, hu, ht⟩ := ih ht
    exact ⟨next, y, .cons ha hu, ht⟩

/-- Every run takes terminals up to one at which it stops, or to the last one. -/
theorem exists_takes (g : Grammar R) (limit : Option ℕ) (goals : List (Goal R)) (x : Context)
    (ts : List Terminal) : ∃ us rest goals' x', us ++ rest = ts ∧
      Takes g limit goals x us goals' x' ∧ ∀ t ∈ rest.head?, Stops g limit goals' x' t := by
  induction ts generalizing goals x with
  | nil => exact ⟨[], [], goals, x, rfl, .nil, nofun⟩
  | cons t ts ih =>
    by_cases h : Stops g limit goals x t
    · refine ⟨[], t :: ts, goals, x, rfl, .nil, ?_⟩
      rintro _ ⟨⟩
      exact h
    · obtain ⟨next, y, h⟩ : ∃ next y, advance g limit (some t) goals x = .ok (.took next y) := by
        simpa [Stops] using h
      obtain ⟨us, rest, goals', x', rfl, ht, hs⟩ := ih next y
      exact ⟨t :: us, rest, goals', x', rfl, .cons h ht, hs⟩

/-- The goals miss something at the lookahead: one of them fails, or none is left to take it. -/
def Fails (g : Grammar R) (limit : Option ℕ) (goals : List (Goal R)) (x : Context)
    (next : Option Terminal) (missing : Expectation) : Prop :=
  advance g limit next goals x = .error missing ∨
    missing = .endOfInput ∧ next ≠ none ∧ ∃ y, advance g limit next goals x = .ok (.done y)

theorem Fails.stops {missing : Expectation} (h : Fails g limit goals x (some t) missing) :
    Stops g limit goals x t := by
  intro next y ha
  rcases h with h | ⟨-, -, _, h⟩ <;> cases h.symm.trans ha

theorem Stops.exists_fails (h : Stops g limit goals x t) :
    ∃ missing, Fails g limit goals x (some t) missing := by
  cases ha : advance g limit (some t) goals x with
  | error missing => exact ⟨missing, .inl ha⟩
  | ok o =>
    cases o with
    | took next y => exact (h next y ha).elim
    | done y => exact ⟨.endOfInput, .inr ⟨rfl, nofun, y, ha⟩⟩

theorem Takes.recognise_eq_error {missing : Expectation} {rest : List Terminal}
    (h : Takes g limit [.rule start] .initial us goals x)
    (hf : Fails g limit goals x rest.head? missing) :
    recognise g limit start (us ++ rest) = .error ⟨missing, us.length⟩ := by
  rw [recognise, h.run_append, Nat.zero_add]
  rcases hf with ha | ⟨rfl, hne, y, ha⟩
  · cases rest with
    | nil =>
      rw [List.head?_nil] at ha
      simp [run, ha]
    | cons t rest =>
      rw [List.head?_cons] at ha
      simp [run, ha]
  · cases rest with
    | nil => exact (hne rfl).elim
    | cons t rest =>
      rw [List.head?_cons] at ha
      simp [run, ha]

/-- No word is recognised past a terminal at which the recogniser stops. -/
theorem not_recognise (h : Takes g limit [.rule start] .initial us goals x)
    (ht : Stops g limit goals x t) : recognise g limit start (us ++ t :: ts) ≠ .ok n := by
  obtain ⟨missing, hf⟩ := ht.exists_fails
  have hr : recognise g limit start (us ++ t :: ts) = .error ⟨missing, us.length⟩ :=
    h.recognise_eq_error hf
  rw [hr]
  nofun

/-- Faults stand where the goals fail. -/
theorem recognise_eq_error_iff {fault : Fault} : recognise g limit start ts = .error fault ↔
    ∃ us rest goals x, us ++ rest = ts ∧ fault.taken = us.length ∧
      Takes g limit [.rule start] .initial us goals x ∧
      Fails g limit goals x rest.head? fault.missing := by
  constructor
  · intro h
    obtain ⟨us, rest, goals, x, rfl, ht, hs⟩ := exists_takes g limit [.rule start] .initial ts
    have hfails : (∃ missing, Fails g limit goals x rest.head? missing) ∨ rest = [] ∧
        ∃ o, advance g limit none goals x = .ok o := by
      cases rest with
      | nil =>
        cases ha : advance g limit none goals x with
        | error missing => exact .inl ⟨missing, .inl ha⟩
        | ok o => exact .inr ⟨rfl, o, rfl⟩
      | cons t rest => exact .inl (hs t rfl).exists_fails
    obtain ⟨missing, hf⟩ | ⟨rfl, o, ha⟩ := hfails
    · obtain rfl := Except.error.inj (h.symm.trans (ht.recognise_eq_error hf))
      exact ⟨us, rest, goals, x, rfl, rfl, ht, hf⟩
    · rw [recognise, ht.run_append] at h
      cases o <;> simp [run, ha] at h
  · rintro ⟨us, rest, goals, x, rfl, hk, ht, hf⟩
    rw [ht.recognise_eq_error hf, ← hk]

/-- A fault stands where the recogniser stops, or at the end. -/
theorem takes_of_recognise {fault : Fault} (h : recognise g limit start ts = .error fault) :
    ∃ us rest goals x, us ++ rest = ts ∧ fault.taken = us.length ∧
      Takes g limit [.rule start] .initial us goals x ∧
      ∀ t ∈ rest.head?, Stops g limit goals x t := by
  obtain ⟨us, rest, goals, x, hts, hk, ht, hf⟩ := recognise_eq_error_iff.mp h
  refine ⟨us, rest, goals, x, hts, hk, ht, fun t hn => ?_⟩
  rw [Option.mem_def.mp hn] at hf
  exact hf.stops

/-- A context that has room for one more level has it with a higher limit, too. -/
theorem enter_cases (hl : ∀ m ∈ limit, l ≤ m) : x.enter (some l) = .error (.shallowNesting l) ∨
    ∃ y, x.enter (some l) = .ok y ∧ x.enter limit = .ok y := by
  by_cases h : l ≤ x.depth
  · exact .inl (by simp [Context.enter, h])
  · refine .inr ⟨_, enter_ok ?_, enter_ok fun m hm => ?_⟩
    · rintro _ ⟨⟩
      omega
    · have := hl m hm
      omega

theorem work_of_limit {next : Option Terminal} {goal : Goal R} (hl : ∀ m ∈ limit, l ≤ m)
    (h : ∀ missing, work g (some l) next x goal = .error missing → missing.isTooDeep = false) :
    work g limit next x goal = work g (some l) next x goal := by
  cases goal with
  | need | allow | rule | closeGroup | leaveBlock | tally => rfl
  | openGroup | enterBlock =>
    obtain hx | ⟨y, hx, hy⟩ := enter_cases (x := x) hl
    · simp only [work, hx] at h
      cases h _ rfl
    · simp only [work, hx, hy]

/-- A higher limit makes no difference to goals that do not pass this one. -/
theorem advance_of_limit {next : Option Terminal} (hl : ∀ m ∈ limit, l ≤ m)
    (h : ∀ missing, advance g (some l) next goals x = .error missing → missing.isTooDeep = false) :
    advance g limit next goals x = advance g (some l) next goals x := by
  induction goals generalizing x with
  | nil => rfl
  | cons goal goals ih =>
    have hw : work g limit next x goal = work g (some l) next x goal :=
      work_of_limit hl fun missing hm => h missing (by rw [advance_cons, hm])
    rw [advance_cons] at h
    rw [advance_cons, advance_cons, hw]
    split
    · rfl
    · rename_i hleft
      rw [hleft] at h
      exact ih h
    · rfl

/-- What the goals do within a limit they also do without one. -/
theorem advance_none {next : Option Terminal} {o : Outcome R}
    (h : advance g limit next goals x = .ok o) : advance g none next goals x = .ok o := by
  cases limit with
  | none => exact h
  | some l =>
    rw [← h]
    refine advance_of_limit (by simp) fun missing hm => ?_
    cases h.symm.trans hm

theorem Takes.to_none (h : Takes g limit goals x us goals' x') :
    Takes g none goals x us goals' x' := by
  induction h with
  | nil => exact .nil
  | cons h _ ih => exact .cons (advance_none h) ih

end Takes

section Completes
variable {R : Type} {L : R → Words} {idle : R → Set (Option Terminal)} {gs gs' : List (Goal R)}
  {M N : Words} {t : Terminal} {w : List Terminal}

/-- The words that complete the goals inside the groups `groups`, at the depth `d`. A rule `r`
stands for a word of `L r`, but for the empty word only before the lookaheads of `idle r`. -/
def Completes (L : R → Words) (idle : R → Set (Option Terminal)) :
    List (Goal R) → List Group → ℕ → List Terminal → Prop
  | [], _, _, w => w = []
  | goal :: goals, groups, d, w =>
    match goal with
    | .need t _ => ∃ v, w = t :: v ∧ Completes L idle goals groups d v
    | .allow t => Completes L idle goals groups d w ∨
        ∃ v, w = t :: v ∧ Completes L idle goals groups d v
    | .rule r => ∃ u v, u ++ v = w ∧ u ∈ L r d ∧ (u = [] → v.head? ∈ idle r) ∧
        Completes L idle goals groups d v
    | .openGroup group => Completes L idle goals (group :: groups) (d + 1) w
    | .closeGroup => ∃ v, w = (groups.headD .paren).closer :: v ∧
        Completes L idle goals groups.tail (d - 1) v
    | .enterBlock => Completes L idle goals groups (d + 1) w
    | .leaveBlock => Completes L idle goals groups (d - 1) w
    | .tally => Completes L idle goals groups d w

/-- What completes the goals `gs`, and others after them, starts with a word of `M`. -/
def Yields (L : R → Words) (idle : R → Set (Option Terminal)) (gs : List (Goal R)) (M : Words) :
    Prop :=
  ∀ goals groups d w, Completes L idle (gs ++ goals) groups d w →
    ∃ u v, u ++ v = w ∧ u ∈ M d ∧ Completes L idle goals groups d v

theorem Yields.mono (h : Yields L idle gs M) (hM : M ≤ N) : Yields L idle gs N := by
  intro goals groups d w hw
  obtain ⟨u, v, huv, hu, hv⟩ := h goals groups d w hw
  exact ⟨u, v, huv, hM d hu, hv⟩

theorem Yields.nil : Yields L idle [] 1 := fun _ _ _ w hw => ⟨[], w, rfl, rfl, hw⟩

theorem Yields.append (h : Yields L idle gs M) (h' : Yields L idle gs' N) :
    Yields L idle (gs ++ gs') (M * N) := by
  intro goals groups d w hw
  rw [List.append_assoc] at hw
  obtain ⟨u, v, rfl, hu, hv⟩ := h _ groups d w hw
  obtain ⟨u', v', rfl, hu', hv⟩ := h' goals groups d v hv
  exact ⟨u ++ u', v', List.append_assoc .., mem_mul.mpr ⟨u, hu, u', hu', rfl⟩, hv⟩

theorem Yields.cons {goal : Goal R} (h : Yields L idle [goal] M) (h' : Yields L idle gs N) :
    Yields L idle (goal :: gs) (M * N) :=
  h.append h'

theorem Yields.need {missing : Expectation} : Yields L idle [.need t missing] (letters [t]) := by
  rintro goals groups d w ⟨v, rfl, hv⟩
  exact ⟨[t], v, rfl, by simp, hv⟩

theorem Yields.allow : Yields L idle [.allow t] (letters [t] + 1) := by
  rintro goals groups d w (hw | ⟨v, rfl, hv⟩)
  · exact ⟨[], w, rfl, mem_add.mpr (.inr rfl), hw⟩
  · exact ⟨[t], v, rfl, mem_add.mpr (.inl (by simp)), hv⟩

theorem Yields.rule (r : R) : Yields L idle [.rule r] (L r) := by
  rintro goals groups d w ⟨u, v, rfl, hu, -, hv⟩
  exact ⟨u, v, rfl, hu, hv⟩

theorem Yields.tally (h : Yields L idle gs M) : Yields L idle (.tally :: gs) M :=
  fun goals groups d w hw => h goals groups d w hw

theorem Yields.grouped {group : Group} (h : Yields L idle gs M) :
    Yields L idle (.openGroup group :: gs ++ [Goal.closeGroup])
      (deeper none M * letters [group.closer]) := by
  intro goals groups d w hw
  rw [List.append_assoc] at hw
  obtain ⟨u, _, rfl, hu, v, rfl, hv⟩ := h _ (group :: groups) (d + 1) w hw
  refine ⟨u ++ [group.closer], v, by simp, mem_mul.mpr ⟨u, ⟨nofun, hu⟩, _, ?_, rfl⟩, hv⟩
  exact ⟨_, List.mem_singleton_self _, rfl⟩

theorem Yields.block {missing : Expectation} (h : Yields L idle gs M) :
    Yields L idle (.enterBlock :: gs ++ [Goal.need t missing, .leaveBlock])
      (deeper none M * letters [t]) := by
  intro goals groups d w hw
  rw [List.append_assoc] at hw
  obtain ⟨u, _, rfl, hu, v, rfl, hv⟩ := h _ groups (d + 1) w hw
  refine ⟨u ++ [t], v, by simp, mem_mul.mpr ⟨u, ⟨nofun, hu⟩, _, ?_, rfl⟩, hv⟩
  exact ⟨_, List.mem_singleton_self _, rfl⟩

/-- The rules of a grammar stand for their words: what a rule owes after a terminal completes one
of its words, a rule that leaves the lookahead may stand for the empty word, and each rule stands
for some word. -/
structure Explains (g : Grammar R) (L : R → Words) (idle : R → Set (Option Terminal)) : Prop where
  take {t r body} (h : g (some t) r = .take body) : Yields L idle body (after t (L r))
  pass {t r} (h : g (some t) r = .pass) : (∀ d, [] ∈ L r d) ∧ some t ∈ idle r
  exists_word (r : R) (d : ℕ) : ∃ w ∈ L r d, w = [] → idle r = Set.univ

variable {g : Grammar R} {goals goals' : List (Goal R)} {x x' : Context} {us : List Terminal}

/-- What completes the goals after a terminal, completes them before it, together with it. -/
theorem Explains.completes_cons (hg : Explains g L idle)
    (h : advance g none (some t) goals x = .ok (.took goals' x'))
    (hw : Completes L idle goals' x'.groups x'.depth w) :
    Completes L idle goals x.groups x.depth (t :: w) := by
  induction goals generalizing x with
  | nil => cases h
  | cons goal goals ih =>
    obtain ⟨owed, hb, rfl⟩ | ⟨y, hb, h⟩ := took_or_left h
    · cases works_of_work hb with
      | need hn | closeGroup hn => exact ⟨w, by rw [Option.some.inj hn], hw⟩
      | allow hn => exact .inr ⟨w, by rw [Option.some.inj hn], hw⟩
      | take hr =>
        obtain ⟨u, v, rfl, hu, hv⟩ := hg.take hr goals _ _ w hw
        exact ⟨t :: u, v, rfl, hu, fun h => (List.cons_ne_nil _ _ h).elim, hv⟩
    · have hc := ih h
      cases works_of_work hb with
      | skip => exact .inl hc
      | pass hr =>
        obtain ⟨hnil, ht⟩ := hg.pass hr
        exact ⟨[], t :: w, rfl, hnil _, fun _ => ht, hc⟩
      | openGroup hy | enterBlock hy =>
        rw [enter_eq_ok hy] at hc
        exact hc
      | leaveBlock | tally => exact hc

theorem Explains.completes_append (hg : Explains g L idle)
    (h : Takes g none goals x us goals' x') (hw : Completes L idle goals' x'.groups x'.depth w) :
    Completes L idle goals x.groups x.depth (us ++ w) := by
  induction h with
  | nil => exact hw
  | cons h _ ih => exact hg.completes_cons h (ih hw)

/-- All goals can be completed. -/
theorem Explains.exists_completes (hg : Explains g L idle) (goals : List (Goal R))
    (groups : List Group) (d : ℕ) : ∃ w, Completes L idle goals groups d w := by
  induction goals generalizing groups d with
  | nil => exact ⟨[], rfl⟩
  | cons goal goals ih =>
    cases goal with
    | need t missing =>
      obtain ⟨w, hw⟩ := ih groups d
      exact ⟨t :: w, w, rfl, hw⟩
    | allow t =>
      obtain ⟨w, hw⟩ := ih groups d
      exact ⟨w, .inl hw⟩
    | rule r =>
      obtain ⟨u, hu, hi⟩ := hg.exists_word r d
      obtain ⟨w, hw⟩ := ih groups d
      exact ⟨u ++ w, u, w, rfl, hu, fun h => hi h ▸ Set.mem_univ _, hw⟩
    | closeGroup =>
      obtain ⟨w, hw⟩ := ih groups.tail (d - 1)
      exact ⟨_ :: w, w, rfl, hw⟩
    | openGroup | enterBlock | leaveBlock | tally => exact ih _ _

/-- All that the recogniser takes is the start of a word of its first rule. -/
theorem Explains.exists_word_of_takes (hg : Explains g L idle) {limit : Option ℕ} {start : R}
    (h : Takes g limit [.rule start] x us goals' x') : ∃ w, us ++ w ∈ L start x.depth := by
  obtain ⟨w, hw⟩ := hg.exists_completes goals' x'.groups x'.depth
  obtain ⟨u, v, huv, hu, -, rfl⟩ := hg.completes_append h.to_none hw
  exact ⟨w, by simpa [← huv] using hu⟩

end Completes

end Recogniser

end RookLang
