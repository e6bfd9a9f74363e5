import Mathlib.Logic.Relation
import RookLang.Proofs.Parse

/-! Progress of the parser. A goal is worked off with a token or without one, and without one it
owes no other goals. So each part of a program that cannot be empty takes a token, and what a rule
calls comes after fewer tokens or is lower in rank. -/
namespace RookLang

namespace Parser

section
variable {R : Type} {g : Rules R} {limit : Option ℕ} {a b c : Config R} {goal : Goal R}
  {goals gs worked : List (Goal R)}

/-- As long as no token is taken, the goals that are worked off are those that were owed. -/
theorem Runs.left_or_shorter (h : Runs g limit a worked c) :
    c.rest.length < a.rest.length ∨
      a.goals = worked ++ c.goals ∧
        ∀ goal ∈ worked, ∃ p q, work g limit p a.rest.head? goal = .ok (.left q) := by
  induction h with
  | refl => exact .inr ⟨rfl, by simp⟩
  | step h hr ih =>
    cases h with
    | took h =>
      have hs := hr.suffix.length_le
      exact .inl (Nat.lt_succ_of_le hs)
    | left h =>
      refine ih.imp_right ?_
      rintro ⟨hg, hl⟩
      exact ⟨congrArg _ hg, List.forall_mem_cons.mpr ⟨⟨_, _, h⟩, hl⟩⟩

/-- A step takes a token, or it takes none and leaves one goal less. -/
theorem Step.lex_lt (h : Step g limit a goal b) : Prod.Lex (· < ·) (· < ·)
    (b.rest.length, b.goals.length) (a.rest.length, a.goals.length) := by
  cases h with
  | took => exact .left _ _ (Nat.lt_succ_self _)
  | left => exact .right _ (Nat.lt_succ_self _)

theorem wellFounded_lex : WellFounded (Prod.Lex (· < · : ℕ → ℕ → Prop) (· < · : ℕ → ℕ → Prop)) :=
  Nat.lt_wfRel.wf.prod_lex Nat.lt_wfRel.wf

/-- No run goes on forever. -/
theorem wellFounded_step : WellFounded fun b a : Config R => ∃ goal, Step g limit a goal b :=
  Subrelation.wf (fun ⟨_, h⟩ => h.lex_lt)
    (InvImage.wf (fun c : Config R => (c.rest.length, c.goals.length)) wellFounded_lex)

/-- A run comes to its end before the goals after `gs`, or goes on with them once those are done. -/
theorem Runs.split (h : Runs g limit a worked c) (ha : a.goals = gs ++ goals) :
    (∃ goals', c.goals = goals' ++ goals ∧
      Runs g limit { a with goals := gs } worked { c with goals := goals' }) ∨
    ∃ first later p mid, Runs g limit { a with goals := gs } first ⟨[], p, mid⟩ ∧
      Runs g limit ⟨goals, p, mid⟩ later c := by
  induction h generalizing gs with
  | refl => exact .inl ⟨gs, ha, .refl⟩
  | @step a goal b worked c h hr ih =>
    cases gs with
    | nil =>
      obtain ⟨_, p, ts⟩ := a
      obtain rfl : _ = goals := ha
      exact .inr ⟨[], _, p, ts, .refl, .step h hr⟩
    | cons goal' gs =>
      cases h with
      | took h =>
        obtain ⟨rfl, rfl⟩ := List.cons.inj ha
        refine (ih (List.append_assoc ..).symm).imp ?_ ?_
        · rintro ⟨goals', hc, hr⟩
          exact ⟨goals', hc, .step (.took h) hr⟩
        · rintro ⟨first, later, p, mid, hr, hr'⟩
          exact ⟨_, later, p, mid, .step (.took h) hr, hr'⟩
      | left h =>
        obtain ⟨rfl, rfl⟩ := List.cons.inj ha
        refine (ih rfl).imp ?_ ?_
        · rintro ⟨goals', hc, hr⟩
          exact ⟨goals', hc, .step (.left h) hr⟩
        · rintro ⟨first, later, p, mid, hr, hr'⟩
          exact ⟨_, later, p, mid, .step (.left h) hr, hr'⟩

end

end Parser

namespace Rule

variable {r r' : Rule} {goals gs : List (Goal Rule)}

/-- May the rule be worked off without a token? -/
def mayPass : Rule → Bool
  | statement | identifierUse | moreTargets | assignedValue | printArgument | clauses
  | instanceGuard | instancePattern | iterable | expression | conjunction | negation | comparison
  | sum | product | signed | value => false
  | _ => true

/-- Rules do not call others that may be worked off without a token. -/
theorem mayPass_of_mem_calls (h : (r, r', goals) ∈ calls) : r'.mayPass = false := by
  have hall : ∀ c ∈ calls, c.2.1.mayPass = false := by decide
  exact hall _ h

/-- Is the goal worked off with a token only? -/
def takes : Goal Rule → Bool
  | .need _ _ | .closeGroup => true
  | .rule r => !r.mayPass
  | _ => false

/-- Parts of programs that are not empty: statements, blocks, the layers of expressions, what
follows the opener of arrays and arguments and the names of builtins, and declarations. -/
def fullParts : List (List (Goal Rule)) :=
  [[.rule .statement], block, clauseBlock, [.rule .expression], [.rule .conjunction],
    [.rule .negation], [.rule .comparison], [.rule .sum], [.rule .product], [.rule .signed],
    [.rule .value], arrayElements, callArguments, builtinCall .print, builtinCall .input,
    [.rule .identifierUse], [.rule .moreTargets], [.rule .assignedValue]]

theorem any_takes_of_mem (h : gs ∈ fullParts) : gs.any takes := by
  revert gs
  decide

end Rule

namespace Parser

/-- While the one rule is run before its tokens, the other one is run before others: as the rule
that it calls first, or as one that is owed after that, or after the token that it takes. -/
inductive Calls (limit : Option ℕ) : Rule × List Token → Rule × List Token → Prop
  | first {p r r' more ts} (hs : InStep p ts.head?) (h : p.action ts.head? r = .call r' more) :
    Calls limit (r, ts) (r', ts)
  | later {p q r r' r'' gs goals ts left} (hs : InStep p ts.head?)
    (h : p.action ts.head? r = .call r' (gs ++ .rule r'' :: goals))
    (hr : p.run react limit (.rule r' :: gs) ts = .ok (q, left)) : Calls limit (r, ts) (r'', left)
  | owed {p q r r' gs goals t rest left} (hs : InStep p (some t))
    (h : p.action (some t) r = .take (gs ++ .rule r' :: goals))
    (hr : (p.advance t rest).run react limit gs rest = .ok (q, left)) :
    Calls limit (r, t :: rest) (r', left)

variable {limit : Option ℕ} {p q m : Parser} {next : Option Token} {t : Token} {r r' : Rule}
  {goal : Goal Rule} {goals gs more worked : List (Goal Rule)} {ts rest left : List Token}

theorem mayPass_of_action (h : p.action next r = .pass) : r.mayPass := by
  cases r with
  | statement | identifierUse | moreTargets | assignedValue | printArgument | clauses
  | instanceGuard | instancePattern | iterable | expression | conjunction | negation | comparison
  | sum | product | signed | value =>
    simp only [action, statement, simpleStatement, identifierUse, moreTargets, printArgument,
      clauses, iterable, value, Action.ofStart] at h
    repeat' split at h
    all_goals cases h
  | _ => rfl

theorem mayPass_of_pass (h : p.react next r = .pass) : r.mayPass := by
  fun_induction p.react next r with
  | case1 | case4 => cases h
  | case2 r r' goals ha ih =>
    cases hs : p.react next r' with
    | take | refuse =>
      rw [hs] at h
      cases h
    | pass => cases (ih hs).symm.trans (Rule.mayPass_of_mem_calls (mem_calls_of_action ha))
  | case3 r ha => exact mayPass_of_action ha

theorem takes_eq_false (h : p.work react limit next goal = .ok (.left q)) :
    Rule.takes goal = false := by
  cases goal with
  | need | closeGroup =>
    simp only [work] at h
    split at h <;> cases h
  | rule r =>
    simp only [work] at h
    split at h <;> cases h
    rw [Rule.takes, mayPass_of_pass ‹_›, Bool.not_true]
  | allow | openGroup | enterBlock | leaveBlock | tally => rfl

/-- Goals of which one needs a token are not worked off without any. -/
theorem length_lt_of_takes (hs : p.InStep ts.head?)
    (h : p.run react limit gs ts = .ok (q, rest)) (hg : gs.any Rule.takes) :
    rest.length < ts.length := by
  obtain ⟨worked, hr⟩ := runs_of_run idle_react hs h
  refine hr.left_or_shorter.resolve_right ?_
  rintro ⟨hw, hl⟩
  obtain rfl : gs = worked := hw.trans (List.append_nil worked)
  obtain ⟨goal, hm, ht⟩ := List.any_eq_true.mp hg
  obtain ⟨_, _, hw⟩ := hl goal hm
  rw [takes_eq_false hw] at ht
  cases ht

/-! The run of a rule, by its reaction. -/

theorem run_of_take {owed : List (Goal Rule)} (h : p.react (some t) r = .take owed) :
    p.run react limit (.rule r :: goals) (t :: rest) =
      (p.advance t rest).run react limit (owed ++ goals) rest :=
  run_of_took (by rw [work, h])

theorem run_of_refuse {missing : Expectation} (h : p.react ts.head? r = .refuse missing) :
    p.run react limit (.rule r :: goals) ts = .error ⟨p.error ts.head? missing, ts⟩ :=
  run_of_error (by rw [work, h])

/-- A rule that calls another one runs as that one does, and what it owes then. -/
theorem run_of_call (hs : p.InStep ts.head?) (h : p.action ts.head? r = .call r' more) :
    p.run react limit (.rule r :: goals) ts =
      p.run react limit (.rule r' :: (more ++ goals)) ts := by
  have hr : p.react ts.head? r = (p.react ts.head? r').followedBy more := by
    rw [react_unfold, h]
  cases hr' : p.react ts.head? r' with
  | take owed =>
    cases ts with
    | nil => exact (idle_react p r' owed hs hr').elim
    | cons t rest =>
      rw [hr'] at hr
      rw [run_of_take hr, run_of_take hr', List.append_assoc]
  | pass =>
    have hno := Rule.mayPass_of_mem_calls (mem_calls_of_action h)
    rw [mayPass_of_pass hr'] at hno
    cases hno
  | refuse missing =>
    rw [hr'] at hr
    rw [run_of_refuse hr, run_of_refuse hr']

theorem suffix_of_run (hs : p.InStep ts.head?) (h : p.run react limit gs ts = .ok (q, rest)) :
    q.InStep rest.head? ∧ rest <:+ ts := by
  obtain ⟨worked, hr⟩ := runs_of_run idle_react hs h
  exact ⟨hr.inStep hs, hr.suffix⟩

/-- Calls go down in the tokens that are left, and then in rank. -/
theorem Calls.lex_lt {a b : Rule × List Token} (h : Calls limit a b) :
    Prod.Lex (· < ·) (· < ·) (b.2.length, b.1.rank) (a.2.length, a.1.rank) := by
  cases h with
  | first hs h => exact .right _ (Rule.rank_lt_of_mem_calls (mem_calls_of_action h))
  | @later p q r r' r'' gs goals ts left hs h hr =>
    refine .left _ _ (length_lt_of_takes hs hr ?_)
    rw [List.any_cons, Rule.takes, Rule.mayPass_of_mem_calls (mem_calls_of_action h)]
    rfl
  | owed hs h hr =>
    have hle := (suffix_of_run (inStep_advance ..) hr).2.length_le
    exact .left _ _ (Nat.lt_succ_of_le hle)

theorem wellFounded_calls (limit : Option ℕ) : WellFounded fun b a => Calls limit a b :=
  Subrelation.wf (fun h => h.lex_lt)
    (InvImage.wf (fun a : Rule × List Token => (a.2.length, a.1.rank)) wellFounded_lex)

theorem lex_lt_of_transGen {a b : Rule × List Token} (h : Relation.TransGen (Calls limit) a b) :
    b.2.length < a.2.length ∨ b.2.length = a.2.length ∧ b.1.rank < a.1.rank := by
  induction h with
  | single h => exact Prod.lex_def.mp h.lex_lt
  | tail _ h ih =>
    have hlast := Prod.lex_def.mp h.lex_lt
    simp only at hlast
    omega

/-- A rule that is called again, in a loop or inside of itself, comes after fewer tokens. -/
theorem length_lt_of_again (h : Relation.TransGen (Calls limit) (r, ts) (r, rest)) :
    rest.length < ts.length :=
  (lex_lt_of_transGen h).resolve_right fun ⟨_, hr⟩ => Nat.lt_irrefl _ hr

theorem goals_eq_nil_of_runs {c : Config Rule} (h : Runs react limit ⟨[], p, ts⟩ worked c) :
    c.goals = [] := by
  cases h with
  | refl => rfl
  | step h => cases h

/-- Only rules owe other goals. -/
theorem exists_rule_of_runs {c : Config Rule} (h : Runs react limit ⟨[goal], p, ts⟩ worked c)
    (hw : worked ≠ []) (hc : c.goals ≠ []) : ∃ r, goal = .rule r := by
  cases h with
  | refl => exact (hw rfl).elim
  | step h hr =>
    cases h with
    | left => exact (hc (goals_eq_nil_of_runs hr)).elim
    | took h =>
      cases goal with
      | rule r => exact ⟨r, rfl⟩
      | need | closeGroup =>
        simp only [work] at h
        split at h <;> cases h
        exact (hc (goals_eq_nil_of_runs hr)).elim
      | allow =>
        simp only [work, Except.ok.injEq] at h
        split at h <;> cases h
        exact (hc (goals_eq_nil_of_runs hr)).elim
      | openGroup | enterBlock =>
        simp only [work] at h
        cases hx : p.enter limit <;> rw [hx] at h <;> cases h
      | leaveBlock | tally => cases h

theorem run_eq_ok_of_runs (h : Runs react limit ⟨gs, p, ts⟩ worked ⟨[], q, rest⟩) :
    p.run react limit gs ts = .ok (q, rest) := by
  have hr : p.run react limit gs ts = q.run react limit [] rest := h.run_eq
  rw [hr, run_nil]

/-- While `r` is run before `ts`, the rule `r'` comes up before `rest`, be it as `r` itself. -/
def ComesUp (limit : Option ℕ) (p : Parser) (r : Rule) (ts : List Token) (r' : Rule) (q : Parser)
    (rest : List Token) : Prop :=
  (r, ts) = (r', rest) ∨ ∃ worked goals, worked ≠ [] ∧
    Runs react limit ⟨[.rule r], p, ts⟩ worked ⟨.rule r' :: goals, q, rest⟩

/-- What comes up while some goals are worked off does so while one of them is. -/
theorem exists_goal_of_runs
    (h : Runs react limit ⟨gs, p, ts⟩ worked ⟨.rule r' :: goals, q, rest⟩) :
    ∃ before r after m mid, gs = before ++ .rule r :: after ∧
      p.run react limit before ts = .ok (m, mid) ∧ ComesUp limit m r mid r' q rest := by
  induction gs generalizing p ts worked with
  | nil => cases goals_eq_nil_of_runs h
  | cons goal gs ih =>
    obtain ⟨goals', hg, hr⟩ | ⟨first, later, m, mid, hr, hr'⟩ :=
      h.split (show goal :: gs = [goal] ++ gs from rfl)
    · cases goals' with
      | nil =>
        have hgs : .rule r' :: goals = gs := hg
        exact ⟨[goal], r', goals, q, rest, by rw [← hgs, List.singleton_append],
          run_eq_ok_of_runs hr, .inl rfl⟩
      | cons goal' goals' =>
        obtain ⟨rfl, -⟩ := List.cons.inj hg
        by_cases hw : worked = []
        · subst hw
          cases hr
          exact ⟨[], r', gs, _, _, rfl, run_nil, .inl rfl⟩
        · obtain ⟨r, rfl⟩ := exists_rule_of_runs hr hw nofun
          exact ⟨[], r, gs, p, ts, rfl, run_nil, .inr ⟨worked, goals', hw, hr⟩⟩
    · obtain ⟨before, r, after, m', mid', rfl, hrun, hend⟩ := ih hr'
      have hfirst : p.run react limit ([goal] ++ before) ts = m.run react limit before mid :=
        (hr.append before).run_eq
      exact ⟨goal :: before, r, after, m', mid', rfl, hfirst.trans hrun, hend⟩

theorem owed_of_take {owed owed' : List (Goal Rule)} (h : p.react next r = .take owed)
    (ha : p.action next r = .take owed') : owed = owed' := by
  rw [react_unfold, ha] at h
  exact (Reaction.take.inj h).symm

theorem exists_owed_of_call {owed : List (Goal Rule)} (h : p.react next r = .take owed)
    (ha : p.action next r = .call r' more) :
    ∃ owed', p.react next r' = .take owed' ∧ owed = owed' ++ more := by
  rw [react_unfold, ha] at h
  have h : (p.react next r').followedBy more = .take owed := h
  cases hr : p.react next r' <;> rw [hr] at h <;> cases h
  exact ⟨_, rfl, rfl⟩

/-- What comes up while a rule is run, but not as that rule itself, does so while a rule is run that
it calls. -/
theorem exists_calls_of_runs (hs : p.InStep ts.head?) (hw : worked ≠ [])
    (h : Runs react limit ⟨[.rule r], p, ts⟩ worked ⟨.rule r' :: goals, q, rest⟩) :
    ∃ r₀ m mid, Calls limit (r, ts) (r₀, mid) ∧ m.InStep mid.head? ∧
      ComesUp limit m r₀ mid r' q rest := by
  cases h with
  | refl => exact (hw rfl).elim
  | step hstep hr =>
    cases hstep with
    | left => cases goals_eq_nil_of_runs hr
    | @took _ _ _ t left owed p' h =>
      simp only [work] at h
      split at h <;> cases h
      rename_i hreact
      rw [List.append_nil] at hr
      cases ha : p.action (some t) r with
      | take owed' =>
        obtain rfl := owed_of_take hreact ha
        obtain ⟨before, r₀, after, m, mid, rfl, hrun, hend⟩ := exists_goal_of_runs hr
        exact ⟨r₀, m, mid, .owed hs ha hrun, (suffix_of_run (inStep_advance ..) hrun).1, hend⟩
      | call r₁ more =>
        -- The same steps from the rule that is called, and then from what is owed after it.
        obtain ⟨owed₁, hr₁, rfl⟩ := exists_owed_of_call hreact ha
        have hfirst : Runs react limit ⟨.rule r₁ :: more, p, t :: left⟩ (.rule r₁ :: _) _ :=
          .step (.took (by simp only [work, hr₁])) hr
        obtain ⟨before, r₀, after, m, mid, hgs, hrun, hend⟩ := exists_goal_of_runs hfirst
        cases before with
        | nil =>
          obtain ⟨⟨⟩, rfl⟩ := List.cons.inj hgs
          obtain ⟨rfl, rfl⟩ := Prod.mk.inj (Except.ok.inj (run_nil.symm.trans hrun))
          exact ⟨_, _, _, .first hs ha, hs, hend⟩
        | cons goal before =>
          obtain ⟨rfl, rfl⟩ := List.cons.inj hgs
          exact ⟨r₀, m, mid, .later hs ha hrun, (suffix_of_run hs hrun).1, hend⟩
      | pass | refuse =>
        rw [react_unfold, ha] at hreact
        cases hreact

/-- All rules that come up while a rule is run are called, by it or by those that it calls. -/
theorem transGen_of_runs (hs : p.InStep ts.head?) (hw : worked ≠ [])
    (h : Runs react limit ⟨[.rule r], p, ts⟩ worked ⟨.rule r' :: goals, q, rest⟩) :
    Relation.TransGen (Calls limit) (r, ts) (r', rest) := by
  induction hn : (r, ts) using (wellFounded_calls limit).induction
    generalizing p r ts worked goals with
  | _ a ih =>
  subst hn
  obtain ⟨r₀, m, mid, hcall, hm, he | ⟨worked', goals', hne, hr⟩⟩ := exists_calls_of_runs hs hw h
  · exact he ▸ .single hcall
  · exact .head hcall (ih _ hcall hm hne hr rfl)

end Parser

namespace Phrase
open Words

variable {limit : Option ℕ} {d n : ℕ} {w : List Terminal}

/-- Every statement has a terminal. -/
theorem le_length_of_mem_programs (h : w ∈ programs limit n d) : n ≤ w.length := by
  induction n generalizing w with
  | zero => exact Nat.zero_le _
  | succ n ih =>
    rw [programs_succ] at h
    obtain h | h := mem_add.mp h
    · obtain ⟨u, hu, v, hv, rfl⟩ := mem_mul.mp h
      have hne : u ≠ [] := fun hn => startsIn_simple.nil_notMem d (hn ▸ hu)
      have hv : n ≤ v.length := by
        cases n with
        | zero => exact Nat.zero_le _
        | succ n =>
          obtain ⟨t, -, v', hv', rfl⟩ := mem_mul.mp hv
          rw [List.length_append]
          exact (ih hv').trans (Nat.le_add_left _ _)
      have := List.length_pos_iff.mpr hne
      rw [List.length_append]
      omega
    · obtain ⟨u, hu, v, hv, rfl⟩ := mem_mul.mp h
      have hne : u ≠ [] := fun hn => startsIn_compound.nil_notMem d (hn ▸ hu)
      have := ih hv
      have := List.length_pos_iff.mpr hne
      rw [List.length_append]
      omega

end Phrase

theorem parseWithin_le_length {limit : Option ℕ} {ts : TokenStream} {n : ℕ}
    (h : parseWithin limit ts = .ok n) : n ≤ ts.length := by
  have hl := Phrase.le_length_of_mem_programs (parseWithin_eq_ok_iff.mp h)
  rwa [List.length_map] at hl

/-- How the parser gets on in the state `p` before the tokens `ts`. -/
structure Parser.Progress (limit : Option ℕ) (p : Parser) (ts : List Token) : Prop where
  /-- A part of a program that comes to its end leaves the end of the tokens, and fewer if it cannot
  be empty. What comes after the part is run from there. -/
  shorter : ∀ gs goals q rest, p.run react limit (gs ++ goals) ts = .ok (q, rest) →
    ∃ m mid, p.run react limit gs ts = .ok (m, mid) ∧ m.InStep mid.head? ∧
      m.run react limit goals mid = .ok (q, rest) ∧ mid <:+ ts ∧ rest <:+ mid ∧
      (gs ∈ Rule.fullParts → mid.length < ts.length)
  /-- A rule that calls another one is run as that one, and then as what it owes. -/
  call : ∀ r r' more goals, p.action ts.head? r = .call r' more →
    p.run react limit (.rule r :: goals) ts = p.run react limit (.rule r' :: (more ++ goals)) ts
  /-- A rule that takes a token itself is run as what it owes. -/
  take : ∀ t rest r owed goals, ts = t :: rest → p.action (some t) r = .take owed →
    p.run react limit (.rule r :: goals) ts =
      (p.advance t rest).run react limit (owed ++ goals) rest
  /-- Steps are those of the parser, -/
  steps : ∀ goals worked c, Runs react limit ⟨goals, p, ts⟩ worked c →
    p.run react limit goals ts = c.run react limit
  /-- and all rules that they come to are called. -/
  called : ∀ r r' worked goals q rest,
    Runs react limit ⟨[.rule r], p, ts⟩ worked ⟨.rule r' :: goals, q, rest⟩ → worked ≠ [] →
      Relation.TransGen (Calls limit) (r, ts) (r', rest)
  /-- What comes round again in a loop, in the place of a rule, has taken a token. -/
  again : ∀ r r' worked goals q rest,
    Runs react limit ⟨.rule r :: goals, p, ts⟩ worked ⟨.rule r' :: goals, q, rest⟩ →
      worked ≠ [] → rest.length < ts.length
  /-- The steps come to an end. -/
  ends : ∀ goals, ∃ worked c, Runs react limit ⟨goals, p, ts⟩ worked c ∧ Ends react limit c

namespace Parser

variable {limit : Option ℕ} {p : Parser} {ts : List Token}

theorem exists_of_run_append {gs goals : List (Goal Rule)} {q : Parser} {rest : List Token}
    (hs : p.InStep ts.head?) (h : p.run react limit (gs ++ goals) ts = .ok (q, rest)) :
    ∃ m mid, p.run react limit gs ts = .ok (m, mid) ∧
      m.run react limit goals mid = .ok (q, rest) := by
  rw [run_append idle_react hs] at h
  cases hr : p.run react limit gs ts with
  | error f =>
    rw [hr] at h
    cases h
  | ok x =>
    rw [hr] at h
    exact ⟨x.1, x.2, rfl, h⟩

theorem progress_of_inStep (hs : p.InStep ts.head?) : Progress limit p ts where
  shorter gs goals q rest h := by
    obtain ⟨m, mid, hr, hr'⟩ := exists_of_run_append hs h
    obtain ⟨hm, hmid⟩ := suffix_of_run hs hr
    exact ⟨m, mid, hr, hm, hr', hmid, (suffix_of_run hm hr').2,
      fun hg => length_lt_of_takes hs hr (Rule.any_takes_of_mem hg)⟩
  call r r' more goals h := run_of_call hs h
  take := by
    rintro t rest r owed goals rfl h
    exact run_of_take (by rw [react_unfold, h])
  steps goals worked c h := h.run_eq
  called r r' worked goals q rest h hw := transGen_of_runs hs hw h
  again r r' worked goals q rest h hw := by
    refine h.left_or_shorter.resolve_right ?_
    rintro ⟨he, -⟩
    have hlen := congrArg List.length he
    have hpos := List.length_pos_iff.mpr hw
    simp only [List.length_cons, List.length_append] at hlen
    omega
  ends goals := exists_runs limit idle_react goals hs

end Parser

/-- The parser makes progress in every state. What a rule calls decreases in the tokens that are
left and then in rank, so that a rule that is called again comes after fewer tokens. So every run
comes to an end, and a program has no more statements than tokens. -/
theorem parse_progress (limit : Option ℕ) :
    (∀ (p : Parser) (ts : List Token), p.InStep ts.head? → p.Progress limit ts) ∧
    (∀ a b, Parser.Calls limit a b →
      Prod.Lex (· < ·) (· < ·) (b.2.length, b.1.rank) (a.2.length, a.1.rank)) ∧
    (∀ r ts rest, Relation.TransGen (Parser.Calls limit) (r, ts) (r, rest) →
      rest.length < ts.length) ∧
    (WellFounded fun b a => Parser.Calls limit a b) ∧
    (WellFounded fun b a => ∃ goal, Parser.Step Parser.react limit a goal b) ∧
    ∀ ts n, parseWithin limit ts = .ok n → n ≤ ts.length :=
  ⟨fun _ _ h => Parser.progress_of_inStep h, fun _ _ h => h.lex_lt,
    fun _ _ _ h => Parser.length_lt_of_again h, Parser.wellFounded_calls limit,
    Parser.wellFounded_step, fun _ _ => parseWithin_le_length⟩

/-- After a factor there may be more of them. -/
theorem parse_progress_factor :
    let star : Token := ⟨.operator .multiply, "*", 1, 3, "2 * 3", 0⟩
    let three : Token := ⟨.number, "3", 1, 5, "2 * 3", 0⟩
    let line : Token := ⟨.newline, "", 1, 6, "2 * 3", 0⟩
    let ts : List Token := [⟨.number, "2", 1, 1, "2 * 3", 0⟩, star, three, line]
    (Parser.start ts).run Parser.react none ([.rule .expression] ++ [.rule .statementEnd]) ts =
        .ok (⟨.initial, none, some line⟩, []) ∧
      (∃ m mid, (Parser.start ts).run Parser.react none [.rule .expression] ts = .ok (m, mid) ∧
        mid.length < ts.length) ∧
      Parser.Calls none (.moreFactors, [star, three, line]) (.moreFactors, [line]) ∧
      [line].length < [star, three, line].length := by
  intro star three line ts
  obtain ⟨hprogress, -, hagain, -⟩ := parse_progress none
  have hrun : (Parser.start ts).run Parser.react none ([.rule .expression] ++ [.rule .statementEnd])
      ts = .ok (⟨.initial, none, some line⟩, []) := by decide +kernel
  obtain ⟨m, mid, hm, -, -, -, -, hlt⟩ :=
    (hprogress (.start ts) ts rfl).shorter [.rule .expression] _ _ _ hrun
  have hsigned : ((Parser.start [star, three, line]).advance star [three, line]).run Parser.react
      none [.rule .signed] [three, line] = .ok (.before .initial three [line], [line]) := by
    decide +kernel
  have hcalls : Parser.Calls none (.moreFactors, [star, three, line]) (.moreFactors, [line]) :=
    .owed (p := .start [star, three, line]) rfl rfl hsigned
  exact ⟨hrun, ⟨m, mid, hm, hlt (by decide)⟩, hcalls, hagain _ _ _ (.single hcalls)⟩

end RookLang
