import RookLang.Proofs.Lookahead
import RookLang.Proofs.Steps

/-! The parser and the recogniser. Goals that ask for exact terminals are worked off alike on tokens
and on their terminals, so the parser takes what the recogniser takes, and fails where it does. -/
namespace RookLang
open Terminal

/-- Only tokens with the terminal meet it. -/
def Terminal.isExact : Terminal → Bool
  | plain .keyword | plain .builtin => false
  | _ => true

/-- Does the goal ask for exact terminals only? -/
def Goal.isExact {R : Type} : Goal R → Bool
  | need t _ | allow t => t.isExact
  | _ => true

namespace Parser

variable {R : Type}

/-- The rules do with tokens what the table says of terminals, and take nothing at the end. -/
structure Follows (g : Rules R) (t : Grammar R) : Prop where
  react_eq {p : Parser} {next : Option Token} (h : p.InStep next) (r : R) :
    g p next r = (t (next.map Token.terminal) r).blamed p.toContext (next.map Token.terminal)
  isExact {p : Parser} {next : Option Token} {r : R} {body : List (Goal R)}
    (h : g p next r = .take body) : body.all Goal.isExact
  none_ne_take (r : R) (body : List (Goal R)) : t none r ≠ .take body

variable {g : Rules R} {t : Grammar R} {limit : Option ℕ} {p q : Parser} {next : Option Token}
  {goal : Goal R} {goals worked : List (Goal R)} {ts rest : List Token} {a b c : Config R}

theorem InStep.sees_iff (h : p.InStep next) {u : Terminal} (hu : u.isExact) :
    p.sees next u ↔ next.map Token.terminal = some u := by
  cases u with
  | word => exact checkKeyword_iff
  | builtin => exact checkBuiltin_iff
  | plain k =>
    refine h.check_iff ?_ ?_ <;>
    · rintro rfl
      cases hu

theorem closer_isExact (group : Group) : group.closer.isExact := by
  cases group <;> rfl

/-- What becomes of a goal, for a parser that knows more than the recogniser. -/
def Worked.of (p : Parser) : Recogniser.Worked R → Worked R
  | .took owed x => .took owed { p with toContext := x }
  | .left x => .left { p with toContext := x }

theorem work_eq (hg : Follows g t) (h : p.InStep next) (hgoal : goal.isExact) :
    p.work g limit next goal =
      (Recogniser.work t limit (next.map Token.terminal) p.toContext goal).map (.of p) := by
  cases goal with
  | need u | allow u =>
    simp only [work, Recogniser.work, h.sees_iff hgoal]
    split <;> rfl
  | rule r =>
    simp only [work, Recogniser.work, hg.react_eq h r]
    cases t (next.map Token.terminal) r <;> rfl
  | openGroup | enterBlock =>
    simp only [work, Recogniser.work]
    cases p.enter limit <;> rfl
  | closeGroup =>
    simp only [work, Recogniser.work, h.sees_iff (closer_isExact _)]
    split <;> rfl
  | leaveBlock | tally => rfl

/-- What the recogniser makes of a goal. -/
def Worked.image : Worked R → Recogniser.Worked R
  | .took owed p => .took owed p.toContext
  | .left p => .left p.toContext

theorem map_image_work (limit : Option ℕ) (hg : Follows g t) (h : p.InStep next)
    (hgoal : goal.isExact) :
    Recogniser.work t limit (next.map Token.terminal) p.toContext goal =
      (p.work g limit next goal).map Worked.image := by
  rw [work_eq hg h hgoal]
  rcases Recogniser.work t limit (next.map Token.terminal) p.toContext goal with _ | _ | _ <;> rfl

theorem Follows.idle (hg : Follows g t) : g.Idle := by
  intro p r body h hr
  have ht := hg.react_eq h r
  rw [hr, Option.map_none] at ht
  cases hb : t none r with
  | take => exact hg.none_ne_take r _ hb
  | pass | refuse =>
    rw [hb] at ht
    cases ht

theorem exact_of_took (hg : Follows g t) {owed : List (Goal R)}
    (h : p.work g limit next goal = .ok (.took owed q)) : owed.all Goal.isExact := by
  cases goal with
  | need | closeGroup =>
    simp only [work] at h
    split at h <;> cases h
    rfl
  | allow =>
    simp only [work, Except.ok.injEq] at h
    split at h <;> cases h
    rfl
  | rule r =>
    simp only [work] at h
    split at h <;> cases h
    exact hg.isExact ‹_›
  | openGroup | enterBlock =>
    simp only [work] at h
    cases hx : p.enter limit <;> rw [hx] at h <;> cases h
  | leaveBlock | tally => cases h

namespace Config

def IsExact (c : Config R) : Prop := c.goals.all Goal.isExact

/-- What the recogniser sees of it. -/
def image (c : Config R) : Recogniser.Config R :=
  ⟨c.goals, c.parser.toContext, c.rest.map Token.terminal⟩

end Config

theorem Config.IsExact.cons (h : a.IsExact) (hgoals : a.goals = goal :: goals) :
    goal.isExact ∧ goals.all Goal.isExact := by
  rw [IsExact, hgoals, List.all_cons, Bool.and_eq_true] at h
  exact h

/-- A step on tokens is one on their terminals. -/
theorem Step.image (hg : Follows g t) (h : Step g limit a goal b) (hs : a.InStep)
    (ha : a.IsExact) : Recogniser.Step t limit a.image goal b.image ∧ b.IsExact := by
  cases h with
  | @took goal goals p u rest owed q h =>
    obtain ⟨hgoal, hgoals⟩ := ha.cons rfl
    refine ⟨.took ?_, ?_⟩
    · have hw := map_image_work limit hg (show p.InStep (some u) from hs) hgoal
      rwa [h] at hw
    · rw [Config.IsExact, List.all_append, exact_of_took hg h, hgoals, Bool.and_self]
  | @left goal goals p rest q h =>
    obtain ⟨hgoal, hgoals⟩ := ha.cons rfl
    refine ⟨.left ?_, hgoals⟩
    have hw := map_image_work limit hg hs hgoal
    rwa [h, ← List.head?_map] at hw

theorem Runs.image (hg : Follows g t) (h : Runs g limit a worked c) (hs : a.InStep)
    (ha : a.IsExact) : Recogniser.Runs t limit a.image worked c.image ∧ c.IsExact := by
  induction h with
  | refl => exact ⟨.refl, ha⟩
  | step h _ ih =>
    obtain ⟨hstep, hb⟩ := h.image hg hs ha
    obtain ⟨hr, hc⟩ := ih (h.inStep hs) hb
    exact ⟨.step hstep hr, hc⟩

/-- A step on terminals is one on the tokens that have them. -/
theorem exists_step_of_image (hg : Follows g t) (hs : a.InStep) (ha : a.IsExact)
    {d : Recogniser.Config R} (h : Recogniser.Step t limit a.image goal d) :
    ∃ b, Step g limit a goal b ∧ b.image = d := by
  obtain ⟨goals, p, ts⟩ := a
  generalize hi : (Config.mk goals p ts).image = i at h
  cases h with
  | @took goal goals x u rest owed y h =>
    obtain ⟨rfl, rfl, hrest⟩ := Recogniser.Config.mk.inj hi
    obtain ⟨u, us, rfl, rfl, rfl⟩ := List.map_eq_cons_iff.mp hrest
    have hw : p.work g limit (some u) goal = _ := work_eq hg hs (ha.cons rfl).1
    have h : Recogniser.work t limit (some u.terminal) p.toContext goal = _ := h
    rw [Option.map_some, h] at hw
    exact ⟨_, .took hw, rfl⟩
  | @left goal goals x rest y h =>
    obtain ⟨rfl, rfl, rfl⟩ := Recogniser.Config.mk.inj hi
    have hw : p.work g limit ts.head? goal = _ := work_eq hg hs (ha.cons rfl).1
    have h : Recogniser.work t limit (ts.map Token.terminal).head? p.toContext goal = _ := h
    rw [← List.head?_map, h] at hw
    exact ⟨_, .left hw, rfl⟩

theorem exists_runs_of_image (hg : Follows g t) (hs : a.InStep) (ha : a.IsExact)
    {d : Recogniser.Config R} (h : Recogniser.Runs t limit a.image worked d) :
    ∃ c, Runs g limit a worked c ∧ c.image = d := by
  generalize hi : a.image = i at h
  induction h generalizing a with
  | refl => exact ⟨a, .refl, hi⟩
  | step h _ ih =>
    subst hi
    obtain ⟨b, hstep, hb⟩ := exists_step_of_image hg hs ha h
    obtain ⟨c, hr, hc⟩ := ih (hstep.inStep hs) (hstep.image hg hs ha).2 hb
    exact ⟨c, .step hstep hr, hc⟩

/-- A state before the tokens `ts`. -/
def before (x : Context) (previous : Option Token) (ts : List Token) : Parser :=
  { toContext := x, current := ts.head?.map (·.kind), previous := previous }

/-- The state after the tokens `us`, before the tokens `rest`. -/
def past (p : Parser) (us rest : List Token) (x : Context) : Parser :=
  before x (us.getLast?.or p.previous) rest

/-- What was taken is all that a run knows besides. -/
theorem Runs.past (h : Runs g limit a worked c) (hs : a.InStep) : ∃ us, a.rest = us ++ c.rest ∧
    c.parser = a.parser.past us c.rest c.parser.toContext := by
  obtain ⟨us, hu, hp⟩ := h.previous_eq
  have hc : c.parser.current = _ := h.inStep hs
  refine ⟨us, hu, ?_⟩
  rw [Parser.past, before, ← hc, ← hp]

/-- The parser and the recogniser come to an end after the same tokens. -/
inductive Alike (p : Parser) (ts : List Token) : Except Failure (Parser × List Token) →
    Except Recogniser.Fault (Context × List Terminal) → Prop
  | done {us rest : List Token} (x : Context) (h : ts = us ++ rest) :
    Alike p ts (.ok (p.past us rest x, rest)) (.ok (x, rest.map Token.terminal))
  | failed {us rest : List Token} (missing : Expectation) (h : ts = us ++ rest) :
    Alike p ts (.error ⟨(p.past us rest p.toContext).error rest.head? missing, rest⟩)
      (.error ⟨missing, us.length⟩)

/-- The parser answers what the recogniser answers. -/
theorem alike_run (limit : Option ℕ) (hg : Follows g t) (hs : p.InStep ts.head?)
    (goals : List (Goal R)) (hgoals : goals.all Goal.isExact) :
    Alike p ts (p.run g limit goals ts)
      (Recogniser.run t limit 0 goals p.toContext (ts.map Token.terminal)) := by
  obtain ⟨worked, ⟨goals', q, rest⟩, hr, hc⟩ := exists_runs limit hg.idle goals hs
  obtain ⟨himage, hexact⟩ := hr.image hg hs hgoals
  obtain ⟨us, hts, hq⟩ := hr.past hs
  obtain ⟨vs, hv, hrun⟩ := himage.run_eq 0
  obtain rfl : ts = us ++ rest := hts
  have hpast : q = p.past us rest q.toContext := hq
  have hall : p.run g limit goals (us ++ rest) = q.run g limit goals' rest := hr.run_eq
  have hlen : 0 + vs.length = us.length := by
    have hv : (us ++ rest).map Token.terminal = vs ++ rest.map Token.terminal := hv
    simpa using (congrArg List.length hv).symm
  have hrun : Recogniser.run t limit 0 goals p.toContext ((us ++ rest).map Token.terminal) =
      Recogniser.run t limit us.length goals' q.toContext (rest.map Token.terminal) := hlen ▸ hrun
  rw [hall, hrun]
  cases hc with
  | done =>
    have hend : Recogniser.run t limit us.length [] q.toContext (rest.map Token.terminal) =
        .ok (q.toContext, rest.map Token.terminal) := by cases rest <;> rfl
    rw [run_nil, hend, hpast]
    exact .done q.toContext rfl
  | @failed goal goals' _ _ missing hw =>
    have hmiss := map_image_work limit hg (hr.inStep hs) (hexact.cons rfl).1
    have hmiss : Recogniser.work t limit (rest.map Token.terminal).head? q.toContext goal =
        .error missing := by
      rw [List.head?_map]
      exact hmiss.trans (by rw [hw, Except.map])
    rw [run_of_error hw, Recogniser.run_of_work hmiss, hpast]
    exact .failed missing rfl

/-- What the parser answers depends on nothing but what the recogniser answers. -/
theorem Alike.eq {e e' : Except Failure (Parser × List Token)}
    {f : Except Recogniser.Fault (Context × List Terminal)} (h : Alike p ts e f)
    (h' : Alike p ts e' f) : e = e' := by
  cases h with
  | @done us rest x h =>
    generalize hf : Except.ok (x, _) = f at h'
    cases h' with
    | @done us' rest' x' h' =>
      obtain ⟨rfl, hrest⟩ := Prod.mk.inj (Except.ok.inj hf)
      have hlen : rest.length = rest'.length := by simpa using congrArg List.length hrest
      obtain ⟨rfl, rfl⟩ := List.append_inj' (h.symm.trans h') hlen
      rfl
    | failed => cases hf
  | failed missing h =>
    generalize hf : Except.error (Recogniser.Fault.mk missing _) = f at h'
    cases h' with
    | done => cases hf
    | @failed us' rest' missing' h' =>
      obtain ⟨rfl, hlen⟩ := Recogniser.Fault.mk.inj (Except.error.inj hf)
      obtain ⟨rfl, rfl⟩ := List.append_inj (h.symm.trans h') hlen
      rfl

end Parser

end RookLang
