import Mathlib.Data.Nat.Notation
import RookLang.Parse

/-! The parser goal by goal. It works off the first goal of its list, which takes the next token and
owes other goals instead, or leaves the token to the goals after it. A run is a sequence of such
steps, and fails where the first goal does. -/
namespace RookLang.Parser

variable {R : Type}

/-- What was noted of the next token is its kind. -/
def InStep (p : Parser) (next : Option Token) : Prop := p.current = next.map (·.kind)

/-- The goals that are owed, the state, and the tokens that are left. -/
structure Config (R : Type) where
  goals : List (Goal R)
  parser : Parser
  rest : List Token

namespace Config

def run (g : Rules R) (limit : Option ℕ) (c : Config R) : Except Failure (Parser × List Token) :=
  c.parser.run g limit c.goals c.rest

def InStep (c : Config R) : Prop := c.parser.InStep c.rest.head?

end Config

/-- The first goal is worked off. -/
inductive Step (g : Rules R) (limit : Option ℕ) : Config R → Goal R → Config R → Prop
  | took {goal goals p t rest owed q} (h : p.work g limit (some t) goal = .ok (.took owed q)) :
    Step g limit ⟨goal :: goals, p, t :: rest⟩ goal ⟨owed ++ goals, q.advance t rest, rest⟩
  | left {goal goals p rest q} (h : p.work g limit rest.head? goal = .ok (.left q)) :
    Step g limit ⟨goal :: goals, p, rest⟩ goal ⟨goals, q, rest⟩

/-- Some goals are worked off, one after the other. -/
inductive Runs (g : Rules R) (limit : Option ℕ) : Config R → List (Goal R) → Config R → Prop
  | refl {c} : Runs g limit c [] c
  | step {a goal b worked c} (h : Step g limit a goal b) (hr : Runs g limit b worked c) :
    Runs g limit a (goal :: worked) c

/-- No goals are left, or the first one fails. -/
inductive Ends (g : Rules R) (limit : Option ℕ) : Config R → Prop
  | done {p rest} : Ends g limit ⟨[], p, rest⟩
  | failed {goal goals p rest missing} (h : p.work g limit rest.head? goal = .error missing) :
    Ends g limit ⟨goal :: goals, p, rest⟩

variable {g : Rules R} {limit : Option ℕ} {p q : Parser} {next : Option Token}
  {goal : Goal R} {goals gs worked : List (Goal R)} {ts rest : List Token} {a b c : Config R}

theorem inStep_start (ts : List Token) : (start ts).InStep ts.head? := rfl

theorem inStep_advance (p : Parser) (t : Token) (rest : List Token) :
    (p.advance t rest).InStep rest.head? := rfl

/-- The state after a goal. -/
def Worked.parser : Worked R → Parser
  | took _ p | left p => p

/-- Goals are worked off without a look at other tokens. -/
theorem current_of_work {w : Worked R} (h : p.work g limit next goal = .ok w) :
    w.parser.current = p.current ∧ w.parser.previous = p.previous := by
  cases goal with
  | need | closeGroup =>
    simp only [work] at h
    split at h <;> cases h
    exact ⟨rfl, rfl⟩
  | allow =>
    cases h
    split <;> exact ⟨rfl, rfl⟩
  | rule =>
    simp only [work] at h
    split at h <;> cases h <;> exact ⟨rfl, rfl⟩
  | openGroup | enterBlock =>
    simp only [work] at h
    cases hx : p.enter limit <;> rw [hx] at h <;> cases h
    exact ⟨rfl, rfl⟩
  | leaveBlock | tally =>
    cases h
    exact ⟨rfl, rfl⟩

@[simp] theorem error_missing (p : Parser) (next : Option Token) (missing : Expectation) :
    (p.error next missing).missing = missing := by
  cases next <;> rfl

/-! What the first goal makes of a run. -/

theorem run_nil : p.run g limit [] ts = .ok (p, ts) := by
  cases ts <;> rfl

theorem run_of_took {t : Token} {owed : List (Goal R)}
    (h : p.work g limit (some t) goal = .ok (.took owed q)) :
    p.run g limit (goal :: goals) (t :: ts) = (q.advance t ts).run g limit (owed ++ goals) ts := by
  simp only [run, seek, h]

theorem run_of_left (h : p.work g limit ts.head? goal = .ok (.left q)) :
    p.run g limit (goal :: goals) ts = q.run g limit goals ts := by
  cases ts <;> simp only [List.head?_nil, List.head?_cons] at h <;> simp only [run, seek, h]

theorem run_of_error {missing : Expectation} (h : p.work g limit ts.head? goal = .error missing) :
    p.run g limit (goal :: goals) ts = .error ⟨p.error ts.head? missing, ts⟩ := by
  cases ts <;> simp only [List.head?_nil, List.head?_cons] at h ⊢ <;> simp only [run, seek, h]

theorem Step.run_eq (h : Step g limit a goal b) : a.run g limit = b.run g limit := by
  cases h with
  | took h => exact run_of_took h
  | left h => exact run_of_left h

theorem Step.inStep (h : Step g limit a goal b) (ha : a.InStep) : b.InStep := by
  cases h with
  | took => exact inStep_advance ..
  | left h => exact (current_of_work h).1.trans ha

/-- What is left of the tokens is the end of what was there. -/
theorem Step.suffix (h : Step g limit a goal b) : b.rest <:+ a.rest := by
  cases h with
  | took => exact List.suffix_cons ..
  | left => exact List.suffix_rfl

/-- Goals after those that are worked off do not matter. -/
theorem Step.append (h : Step g limit a goal b) (goals : List (Goal R)) :
    Step g limit { a with goals := a.goals ++ goals } goal
      { b with goals := b.goals ++ goals } := by
  cases h with
  | took h =>
    rw [List.append_assoc]
    exact .took h
  | left h => exact .left h

namespace Runs

/-- Steps are those of the parser. -/
theorem run_eq (h : Runs g limit a worked c) : a.run g limit = c.run g limit := by
  induction h with
  | refl => rfl
  | step h _ ih => exact h.run_eq.trans ih

theorem inStep (h : Runs g limit a worked c) (ha : a.InStep) : c.InStep := by
  induction h with
  | refl => exact ha
  | step h _ ih => exact ih (h.inStep ha)

theorem suffix (h : Runs g limit a worked c) : c.rest <:+ a.rest := by
  induction h with
  | refl => exact List.suffix_rfl
  | step h _ ih => exact ih.trans h.suffix

theorem append (h : Runs g limit a worked c) (goals : List (Goal R)) :
    Runs g limit { a with goals := a.goals ++ goals } worked
      { c with goals := c.goals ++ goals } := by
  induction h with
  | refl => exact .refl
  | step h _ ih => exact .step (h.append goals) ih

theorem trans {worked' : List (Goal R)} (h : Runs g limit a worked b)
    (h' : Runs g limit b worked' c) : Runs g limit a (worked ++ worked') c := by
  induction h with
  | refl => exact h'
  | step h _ ih => exact .step h (ih h')

/-- The last of the tokens that were taken is noted. -/
theorem previous_eq (h : Runs g limit a worked c) : ∃ us, a.rest = us ++ c.rest ∧
    c.parser.previous = us.getLast?.or a.parser.previous := by
  induction h with
  | refl => exact ⟨[], rfl, rfl⟩
  | step h _ ih =>
    obtain ⟨us, hu, hp⟩ := ih
    cases h with
    | @took _ _ _ u rest _ q h =>
      refine ⟨u :: us, congrArg (u :: ·) hu, hp.trans ?_⟩
      rw [List.getLast?_cons, Option.some_or]
      exact Option.or_some
    | left h => exact ⟨us, hu, hp.trans (congrArg _ (current_of_work h).2)⟩

end Runs

/-- After the last token no rule takes one. -/
def Rules.Idle (g : Rules R) : Prop :=
  ∀ (p : Parser) (r : R) (body : List (Goal R)), p.InStep none → g p none r ≠ .take body

theorem not_sees_none (h : p.InStep none) (t : Terminal) : p.sees none t = false := by
  have hc : p.current = none := h
  cases t with
  | word | builtin => rfl
  | plain k => rw [sees, check, hc, Option.none_beq_some]

theorem work_none_ne_took (hg : g.Idle) (h : p.InStep none) {owed : List (Goal R)} :
    p.work g limit none goal ≠ .ok (.took owed q) := by
  intro hw
  have hs := not_sees_none h
  cases goal with
  | need | allow | closeGroup => simp [work, hs] at hw
  | rule r =>
    simp only [work] at hw
    split at hw <;> cases hw
    exact hg p r owed h ‹_›
  | openGroup | enterBlock =>
    simp only [work] at hw
    cases hx : p.enter limit <;> rw [hx] at hw <;> cases hw
  | leaveBlock | tally => cases hw

theorem exists_runs_of_tail (hg : g.Idle) (h : p.InStep ts.head?)
    (hts : ∀ t rest, ts = t :: rest → ∀ goals p, p.InStep rest.head? →
      ∃ worked c, Runs g limit ⟨goals, p, rest⟩ worked c ∧ Ends g limit c) :
    ∃ worked c, Runs g limit ⟨goals, p, ts⟩ worked c ∧ Ends g limit c := by
  induction goals generalizing p with
  | nil => exact ⟨[], _, .refl, .done⟩
  | cons goal goals ih =>
    cases hw : p.work g limit ts.head? goal with
    | error missing => exact ⟨[], _, .refl, .failed hw⟩
    | ok w =>
      cases w with
      | left q =>
        obtain ⟨worked, c, hr, hc⟩ := ih ((current_of_work hw).1.trans h)
        exact ⟨_, c, .step (.left hw) hr, hc⟩
      | took owed q =>
        cases ts with
        | nil => exact (work_none_ne_took hg h hw).elim
        | cons t rest =>
          obtain ⟨worked, c, hr, hc⟩ := hts t rest rfl (owed ++ goals) _ (inStep_advance q t rest)
          exact ⟨_, c, .step (.took hw) hr, hc⟩

/-- Goals are worked off until none is left or one fails. -/
theorem exists_runs (limit : Option ℕ) (hg : g.Idle) (goals : List (Goal R))
    (h : p.InStep ts.head?) :
    ∃ worked c, Runs g limit ⟨goals, p, ts⟩ worked c ∧ Ends g limit c := by
  induction ts generalizing goals p with
  | nil =>
    refine exists_runs_of_tail hg h ?_
    intro t rest h
    cases h
  | cons t ts ih =>
    refine exists_runs_of_tail hg h ?_
    rintro _ _ ⟨⟩
    exact fun goals p => ih goals

/-- What the parser answers is where its steps end. -/
theorem runs_of_run (hg : g.Idle) (h : p.InStep ts.head?)
    (hr : p.run g limit goals ts = .ok (q, rest)) :
    ∃ worked, Runs g limit ⟨goals, p, ts⟩ worked ⟨[], q, rest⟩ := by
  obtain ⟨worked, c, hruns, hc⟩ := exists_runs limit hg goals h
  have he : c.run g limit = .ok (q, rest) := hruns.run_eq.symm.trans hr
  cases hc with
  | done =>
    obtain ⟨rfl, rfl⟩ := Prod.mk.inj (Except.ok.inj (run_nil.symm.trans he))
    exact ⟨worked, hruns⟩
  | failed hw => cases (run_of_error hw).symm.trans he

/-- A run that fails does so at one of the goals that it comes to. -/
theorem exists_failed_of_run (hg : g.Idle) (h : p.InStep ts.head?) {f : Failure}
    (hr : p.run g limit goals ts = .error f) : ∃ worked goal goals' q missing,
      Runs g limit ⟨goals, p, ts⟩ worked ⟨goal :: goals', q, f.left⟩ ∧
        q.work g limit f.left.head? goal = .error missing ∧
        f.error = q.error f.left.head? missing := by
  obtain ⟨worked, c, hruns, hc⟩ := exists_runs limit hg goals h
  have he : c.run g limit = .error f := hruns.run_eq.symm.trans hr
  cases hc with
  | done => cases run_nil.symm.trans he
  | failed hw =>
    obtain rfl := Except.error.inj ((run_of_error hw).symm.trans he)
    exact ⟨worked, _, _, _, _, hruns, hw, rfl⟩

/-- Goals are worked off one after the other: first all of `gs`, and the goals after them with what
is left then. -/
theorem run_append (hg : g.Idle) (h : p.InStep ts.head?) (gs goals : List (Goal R)) :
    p.run g limit (gs ++ goals) ts =
      (p.run g limit gs ts).bind fun (q, rest) => q.run g limit goals rest := by
  obtain ⟨worked, c, hruns, hc⟩ := exists_runs limit hg gs h
  have hall : p.run g limit (gs ++ goals) ts = _ := (hruns.append goals).run_eq
  have hfirst : p.run g limit gs ts = _ := hruns.run_eq
  rw [hall, hfirst]
  cases hc with
  | done => simp only [Config.run, run_nil, Except.bind, List.nil_append]
  | failed hw => simp only [Config.run, List.cons_append, run_of_error hw, Except.bind]

/-! The rules of the language. -/

/-- What a rule does in the end is what it does first, with the calls followed. -/
theorem react_unfold (p : Parser) (next : Option Token) (r : Rule) :
    p.react next r = match p.action next r with
      | .take goals => .take goals
      | .call r' goals => (p.react next r').followedBy goals
      | .pass => .pass
      | .refuse missing => .refuse missing := by
  rw [react]
  split <;> simp only [*]

theorem action_none_ne_take (h : p.InStep none) (r : Rule) (body : List (Goal Rule)) :
    p.action none r ≠ .take body := by
  have hc : p.current = none := h
  cases r <;> simp [action, statement, statementEnd, identifierUse, moreTargets, printArgument,
    branches, clauses, iterable, moreComparisons, value, element, moreElements, takeIf, check,
    checkAny, checkKeyword, checkBuiltin, atLineEnd, hc]

theorem idle_react : Rules.Idle react := by
  intro p r body h hr
  generalize hn : (none : Option Token) = next at hr
  fun_induction p.react next r generalizing body with
  | case1 r goals ha =>
    subst hn
    exact action_none_ne_take h r goals ha
  | case2 r r' goals ha ih =>
    cases hs : p.react next r' with
    | take owed => exact ih owed hs
    | pass | refuse =>
      rw [hs] at hr
      cases hr
  | case3 | case4 => cases hr

end RookLang.Parser
