import RookLang.Proofs.Reads

/-! The recogniser goal by goal. It works off the first goal of its list, which takes the lookahead
and owes other goals instead, or leaves the lookahead to the goals after it. A run is a sequence of
such steps, and fails where the first goal does. -/
namespace RookLang.Recogniser

variable {R : Type} {g : Grammar R} {limit : Option ℕ} {l k : ℕ} {goal : Goal R}
  {goals goals' : List (Goal R)} {x y : Context} {next : Option Terminal} {ts : List Terminal}
  {missing : Expectation}

/-- What becomes of a goal. -/
inductive Worked (R : Type) where
  | took (owed : List (Goal R)) (x : Context)
  | left (x : Context)

/-- What is remembered after the goal. -/
def Worked.context : Worked R → Context
  | took _ x | left x => x

/-- Work off one goal. -/
def work (g : Grammar R) (limit : Option ℕ) (next : Option Terminal) (x : Context) :
    Goal R → Except Expectation (Worked R)
  | .need t missing => if next = some t then .ok (.took [] x) else .error missing
  | .allow t => .ok (if next = some t then .took [] x else .left x)
  | .rule r =>
    match g next r with
    | .take body => .ok (.took body x)
    | .pass => .ok (.left x)
    | .refuse missing => .error (x.blame next missing)
  | .openGroup group => (x.enter limit).map fun y => .left { y with groups := group :: y.groups }
  | .closeGroup =>
    let group := x.groups.headD .paren
    if next = some group.closer then .ok (.took [] { x.leave with groups := x.groups.tail })
    else .error (.closing group)
  | .enterBlock => (x.enter limit).map .left
  | .leaveBlock => .ok (.left x.leave)
  | .tally => .ok (.left { x with statements := x.statements + 1 })

theorem advance_cons (goal : Goal R) (goals : List (Goal R)) (x : Context) :
    advance g limit next (goal :: goals) x = match work g limit next x goal with
      | .ok (.took owed y) => .ok (.took (owed ++ goals) y)
      | .ok (.left y) => advance g limit next goals y
      | .error missing => .error missing := by
  cases goal with
  | need | allow | closeGroup =>
    simp only [advance, work]
    split <;> rfl
  | rule r =>
    simp only [advance, work]
    cases g next r <;> rfl
  | openGroup | enterBlock =>
    simp only [advance, work]
    cases x.enter limit <;> rfl
  | leaveBlock | tally => rfl

/-- The lookahead is taken by the first goal, or by a later one once the first is left. -/
theorem took_or_left (h : advance g limit next (goal :: goals) x = .ok (.took goals' y)) :
    (∃ owed, work g limit next x goal = .ok (.took owed y) ∧ goals' = owed ++ goals) ∨
      ∃ m, work g limit next x goal = .ok (.left m) ∧
        advance g limit next goals m = .ok (.took goals' y) := by
  rw [advance_cons] at h
  split at h
  · cases h
    exact .inl ⟨_, ‹_›, rfl⟩
  · exact .inr ⟨_, ‹_›, h⟩
  · cases h

/-- The first goal fails, or a later one once the first is left. -/
theorem failed_or_left (h : advance g limit next (goal :: goals) x = .error missing) :
    work g limit next x goal = .error missing ∨
      ∃ m, work g limit next x goal = .ok (.left m) ∧
        advance g limit next goals m = .error missing := by
  rw [advance_cons] at h
  split at h
  · cases h
  · exact .inr ⟨_, ‹_›, h⟩
  · cases h
    exact .inl ‹_›

theorem enter_eq_ok (h : x.enter limit = .ok y) : y = { x with depth := x.depth + 1 } := by
  unfold Context.enter at h
  split at h
  · split at h <;> cases h
    rfl
  · cases h
    rfl

theorem enter_depth_le (h : x.enter (some l) = .ok y) : y.depth ≤ l := by
  simp only [Context.enter] at h
  split at h <;> cases h
  simp only
  omega

/-- How goals are met. -/
inductive Works (g : Grammar R) (limit : Option ℕ) (next : Option Terminal) (x : Context) :
    Goal R → Worked R → Prop
  | need {t : Terminal} {missing : Expectation} (h : next = some t) :
    Works g limit next x (.need t missing) (.took [] x)
  | allow {t : Terminal} (h : next = some t) : Works g limit next x (.allow t) (.took [] x)
  | skip {t : Terminal} : Works g limit next x (.allow t) (.left x)
  | take {r : R} {body : List (Goal R)} (h : g next r = .take body) :
    Works g limit next x (.rule r) (.took body x)
  | pass {r : R} (h : g next r = .pass) : Works g limit next x (.rule r) (.left x)
  | openGroup {group : Group} {y : Context} (h : x.enter limit = .ok y) :
    Works g limit next x (.openGroup group) (.left { y with groups := group :: y.groups })
  | closeGroup (h : next = some (x.groups.headD .paren).closer) :
    Works g limit next x .closeGroup (.took [] { x.leave with groups := x.groups.tail })
  | enterBlock {y : Context} (h : x.enter limit = .ok y) : Works g limit next x .enterBlock (.left y)
  | leaveBlock : Works g limit next x .leaveBlock (.left x.leave)
  | tally : Works g limit next x .tally (.left { x with statements := x.statements + 1 })

theorem works_of_work {w : Worked R} (h : work g limit next x goal = .ok w) :
    Works g limit next x goal w := by
  cases goal with
  | need =>
    simp only [work] at h
    split at h <;> cases h
    exact .need ‹_›
  | allow =>
    cases h
    split
    · exact .allow ‹_›
    · exact .skip
  | rule r =>
    simp only [work] at h
    split at h <;> cases h
    · exact .take ‹_›
    · exact .pass ‹_›
  | openGroup =>
    simp only [work] at h
    cases hy : x.enter limit <;> rw [hy] at h <;> cases h
    exact .openGroup hy
  | closeGroup =>
    simp only [work] at h
    split at h <;> cases h
    exact .closeGroup ‹_›
  | enterBlock =>
    simp only [work] at h
    cases hy : x.enter limit <;> rw [hy] at h <;> cases h
    exact .enterBlock hy
  | leaveBlock =>
    cases h
    exact .leaveBlock
  | tally =>
    cases h
    exact .tally

/-- What goals miss that are not met. -/
inductive Misses (g : Grammar R) (limit : Option ℕ) (next : Option Terminal) (x : Context) :
    Goal R → Expectation → Prop
  | need {t : Terminal} {missing : Expectation} : Misses g limit next x (.need t missing) missing
  | refuse {r : R} {missing : Expectation} (h : g next r = .refuse missing) :
    Misses g limit next x (.rule r) (x.blame next missing)
  | openGroup {group : Group} {missing : Expectation} (h : x.enter limit = .error missing) :
    Misses g limit next x (.openGroup group) missing
  | closeGroup : Misses g limit next x .closeGroup (.closing (x.groups.headD .paren))
  | enterBlock {missing : Expectation} (h : x.enter limit = .error missing) :
    Misses g limit next x .enterBlock missing

theorem misses_of_work (h : work g limit next x goal = .error missing) :
    Misses g limit next x goal missing := by
  cases goal with
  | need | closeGroup =>
    simp only [work] at h
    split at h <;> cases h
    constructor
  | rule r =>
    simp only [work] at h
    split at h <;> cases h
    exact .refuse ‹_›
  | openGroup =>
    simp only [work] at h
    cases hy : x.enter limit <;> rw [hy] at h <;> cases h
    exact .openGroup hy
  | enterBlock =>
    simp only [work] at h
    cases hy : x.enter limit <;> rw [hy] at h <;> cases h
    exact .enterBlock hy
  | allow | leaveBlock | tally => cases h

/-- The goals that are owed, what is remembered, and the terminals that are left. -/
structure Config (R : Type) where
  goals : List (Goal R)
  context : Context
  rest : List Terminal

/-- The first goal is worked off. -/
inductive Step (g : Grammar R) (limit : Option ℕ) : Config R → Goal R → Config R → Prop
  | took {goal goals x t rest owed y} (h : work g limit (some t) x goal = .ok (.took owed y)) :
    Step g limit ⟨goal :: goals, x, t :: rest⟩ goal ⟨owed ++ goals, y, rest⟩
  | left {goal goals x rest y} (h : work g limit rest.head? x goal = .ok (.left y)) :
    Step g limit ⟨goal :: goals, x, rest⟩ goal ⟨goals, y, rest⟩

/-- The recogniser works off some goals, one after the other. -/
inductive Runs (g : Grammar R) (limit : Option ℕ) : Config R → List (Goal R) → Config R → Prop
  | refl {c} : Runs g limit c [] c
  | step {a goal b worked c} (h : Step g limit a goal b) (hr : Runs g limit b worked c) :
    Runs g limit a (goal :: worked) c

variable {a b c : Config R} {worked : List (Goal R)}

/-- Goals after those that are worked off do not matter. -/
theorem Runs.append (h : Runs g limit a worked c) (goals : List (Goal R)) :
    Runs g limit { a with goals := a.goals ++ goals } worked
      { c with goals := c.goals ++ goals } := by
  induction h with
  | refl => exact .refl
  | step h _ ih =>
    refine .step ?_ ih
    cases h with
    | took h =>
      rw [List.append_assoc]
      exact .took h
    | left h => exact .left h

theorem Runs.trans {worked' : List (Goal R)} (h : Runs g limit a worked b)
    (h' : Runs g limit b worked' c) : Runs g limit a (worked ++ worked') c := by
  induction h with
  | refl => exact h'
  | step h _ ih => exact .step h (ih h')

/-- Steps are those of the recogniser. -/
theorem Step.run_eq (h : Step g limit a goal b) (k : ℕ) : ∃ us, a.rest = us ++ b.rest ∧
    run g limit k a.goals a.context a.rest =
      run g limit (k + us.length) b.goals b.context b.rest := by
  cases h with
  | @took goal goals x t rest owed y h =>
    refine ⟨[t], rfl, run_took _ _ ?_⟩
    rw [advance_cons, h]
  | @left goal goals x rest y h =>
    refine ⟨[], rfl, run_congr ?_⟩
    rw [advance_cons, h]

theorem Runs.run_eq (h : Runs g limit a worked c) (k : ℕ) : ∃ us, a.rest = us ++ c.rest ∧
    run g limit k a.goals a.context a.rest =
      run g limit (k + us.length) c.goals c.context c.rest := by
  induction h generalizing k with
  | refl => exact ⟨[], rfl, rfl⟩
  | step h _ ih =>
    obtain ⟨us, hu, hrun⟩ := h.run_eq k
    obtain ⟨vs, hv, hrun'⟩ := ih (k + us.length)
    refine ⟨us ++ vs, by rw [hu, hv, List.append_assoc], ?_⟩
    rw [hrun, hrun', List.length_append, Nat.add_assoc]

theorem run_of_work (h : work g limit ts.head? x goal = .error missing) :
    run g limit k (goal :: goals) x ts = .error ⟨missing, k⟩ := by
  have ha : advance g limit ts.head? (goal :: goals) x = .error missing := by
    rw [advance_cons, h]
  cases ts <;> simp only [List.head?_nil, List.head?_cons] at ha <;> simp only [run, ha]

/-- No goals are left, or the first one fails. -/
inductive Ends (g : Grammar R) (limit : Option ℕ) : Config R → Prop
  | done {x rest} : Ends g limit ⟨[], x, rest⟩
  | failed {goal goals x rest missing} (h : work g limit rest.head? x goal = .error missing) :
    Ends g limit ⟨goal :: goals, x, rest⟩

/-- Nothing is taken after the terminals. -/
theorem work_none_ne_took (hg : ∀ r body, g none r ≠ .take body) {owed : List (Goal R)} :
    work g limit none x goal ≠ .ok (.took owed y) := by
  intro h
  cases works_of_work h with
  | need hn | allow hn | closeGroup hn => cases hn
  | take hb => exact hg _ _ hb

theorem exists_runs_of_tail (hg : ∀ r body, g none r ≠ .take body)
    (hts : ∀ t rest, ts = t :: rest → ∀ goals x,
      ∃ worked c, Runs g limit ⟨goals, x, rest⟩ worked c ∧ Ends g limit c)
    (goals : List (Goal R)) (x : Context) :
    ∃ worked c, Runs g limit ⟨goals, x, ts⟩ worked c ∧ Ends g limit c := by
  induction goals generalizing x with
  | nil => exact ⟨[], _, .refl, .done⟩
  | cons goal goals ih =>
    cases hw : work g limit ts.head? x goal with
    | error missing => exact ⟨[], _, .refl, .failed hw⟩
    | ok w =>
      cases w with
      | left y =>
        obtain ⟨worked, c, hr, hc⟩ := ih y
        exact ⟨_, c, .step (.left hw) hr, hc⟩
      | took owed y =>
        cases ts with
        | nil => exact (work_none_ne_took hg hw).elim
        | cons t rest =>
          obtain ⟨worked, c, hr, hc⟩ := hts t rest rfl (owed ++ goals) y
          exact ⟨_, c, .step (.took hw) hr, hc⟩

/-- Goals are worked off until none is left or one fails. -/
theorem exists_runs (hg : ∀ r body, g none r ≠ .take body) (goals : List (Goal R)) (x : Context)
    (ts : List Terminal) : ∃ worked c, Runs g limit ⟨goals, x, ts⟩ worked c ∧ Ends g limit c := by
  induction ts generalizing goals x with
  | nil =>
    refine exists_runs_of_tail hg ?_ goals x
    intro t rest h
    cases h
  | cons t ts ih =>
    refine exists_runs_of_tail hg ?_ goals x
    rintro _ _ ⟨⟩
    exact ih

/-- A run that fails does so at one of the goals that it comes to. -/
theorem exists_failed_of_run (hg : ∀ r body, g none r ≠ .take body) {fault : Fault}
    (h : run g limit k goals x ts = .error fault) : ∃ worked goal goals' y rest,
      Runs g limit ⟨goals, x, ts⟩ worked ⟨goal :: goals', y, rest⟩ ∧
        work g limit rest.head? y goal = .error fault.missing := by
  obtain ⟨worked, c, hr, hc⟩ := exists_runs hg goals x ts
  obtain ⟨us, -, hrun⟩ := hr.run_eq k
  rw [h] at hrun
  cases hc with
  | @done y rest => cases rest <;> cases hrun
  | @failed goal goals' y rest missing hw =>
    rw [run_of_work hw] at hrun
    cases hrun
    exact ⟨worked, goal, goals', y, rest, hr, hw⟩

/-- Terminals that are left when the goals run out are the only other fault. -/
theorem run_of_recognise {start : R} {fault : Fault}
    (h : recognise g limit start ts = .error fault) :
    fault.missing = .endOfInput ∨ run g limit 0 [.rule start] .initial ts = .error fault := by
  unfold recognise at h
  cases hr : run g limit 0 [.rule start] .initial ts with
  | ok answer =>
    obtain ⟨y, rest⟩ := answer
    rw [hr] at h
    cases rest <;> cases h
    exact .inl rfl
  | error f =>
    rw [hr] at h
    cases h
    exact .inr rfl

theorem work_depth_le {w : Worked R} (hx : x.depth ≤ l)
    (h : work g (some l) next x goal = .ok w) : w.context.depth ≤ l := by
  cases works_of_work h with
  | openGroup he | enterBlock he =>
    have hy := enter_depth_le he
    exact hy
  | closeGroup | leaveBlock => exact (Nat.sub_le _ _).trans hx
  | _ => exact hx

/-- The limit is never passed. -/
theorem Runs.depth_le (h : Runs g (some l) a worked c) (ha : a.context.depth ≤ l) :
    c.context.depth ≤ l := by
  induction h with
  | refl => exact ha
  | step h _ ih =>
    refine ih ?_
    cases h with
    | took h => exact work_depth_le ha h
    | left h => exact work_depth_le ha h

end RookLang.Recogniser
