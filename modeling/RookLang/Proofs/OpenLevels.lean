import RookLang.Proofs.Rules.Levels
import RookLang.Proofs.Steps

/-! The levels that are open while the recogniser runs. It counts those that the terminals leave
open, and finds no room for one more only if one was just opened. -/
namespace RookLang
open Recogniser Terminal

namespace Nesting

/-- The last terminal opened a level. -/
def JustOpened (s : Nesting) : Prop :=
  ∃ t read e u, s = ⟨t :: read, e :: u⟩ ∧ t.opens? read = some e ∧ e.deepens

variable {s s' : Nesting} {t : Terminal} {ts : List Terminal}

theorem read_of_step (h : s.step t = some s') : s'.read = t :: s.read := by
  unfold step at h
  split at h
  · cases h
    rfl
  · split at h
    · split at h
      · split at h <;> cases h
        rfl
      · cases h
    · cases h
      rfl

theorem read_of_foldlM (h : ts.foldlM step s = some s') : s'.read = ts.reverse ++ s.read := by
  induction ts generalizing s with
  | nil =>
    cases h
    rfl
  | cons t ts ih =>
    obtain ⟨m, hm, h⟩ := Option.bind_eq_some_iff.mp h
    simp [ih h, read_of_step hm]

theorem read_of_after (h : after ts = some s) : s.read = ts.reverse := by
  rw [read_of_foldlM h]
  exact List.append_nil _

/-- What the last terminal opened was not there before it. -/
theorem JustOpened.exists_before (h : s.JustOpened) (hs : after ts = some s) :
    ∃ us t s' e, ts = us ++ [t] ∧ after us = some s' ∧ t.opens? s'.read = some e ∧ e.deepens ∧
      s.unclosed = e :: s'.unclosed := by
  obtain ⟨t, read, e, u, rfl, ho, he⟩ := h
  have hread := read_of_after hs
  obtain rfl : ts = read.reverse ++ [t] := by simpa using (congrArg List.reverse hread).symm
  unfold after at hs
  rw [List.foldlM_append] at hs
  obtain ⟨s', hs', hstep⟩ := Option.bind_eq_some_iff.mp hs
  have hr : s'.read = read := by rw [read_of_after hs', List.reverse_reverse]
  have hstep : s'.step t = some ⟨t :: read, e :: u⟩ := by simpa using hstep
  rw [← hr] at ho
  simp only [step, ho] at hstep
  cases hstep
  exact ⟨_, t, s', e, rfl, hs', ho, he, rfl⟩

theorem exists_after_opens {us : List Terminal} {e : Enclosure} (hs : after us = some s)
    (ho : t.opens? s.read = some e) (he : e.deepens) :
    ∃ s', after (us ++ [t]) = some s' ∧ s'.depth = s.depth + 1 := by
  refine ⟨⟨t :: s.read, e :: s.unclosed⟩, ?_, by simp [depth, he]⟩
  unfold after at hs ⊢
  rw [List.foldlM_append, hs]
  simp [step, ho]

end Nesting

namespace Levels

/-- The levels that the recogniser counts. -/
def counted : Levels → List Enclosure
  | ⟨_, u, .settled⟩ => u
  | ⟨_, u, .opened⟩ => u.tail
  | ⟨_, u, .closed⟩ => .block :: u

/-- The levels are those that the terminals leave open, and the recogniser counts them. -/
structure Reflects (p : Levels) (s : Nesting) (x : Context) : Prop where
  heading_eq : p.heading = Heading.ofRead s.read
  unclosed_eq : p.unclosed = s.unclosed
  groups_eq : x.groups = p.counted.filterMap Enclosure.group?
  depth_eq : x.depth = p.counted.countP (·.deepens)
  opened : p.phase = .opened → s.JustOpened

variable {p q r : Levels} {s : Nesting} {x x' : Context} {t : Terminal} {us : List Terminal}
  {goals goals' : List (Goal Rule)} {limit : Option ℕ} {next : Option Terminal}
  {missing : Expectation}

/-- All levels that are open are counted, but for one that was just opened. -/
theorem Reflects.depth_cases (h : p.Reflects s x) :
    p.phase = .opened ∧ s.depth = x.depth + 1 ∨ p.phase ≠ .opened ∧ s.depth ≤ x.depth := by
  obtain ⟨heading, u, phase⟩ := p
  obtain ⟨-, rfl, -, hd, ho⟩ := h
  cases phase with
  | settled => exact .inr ⟨by simp, hd.ge⟩
  | closed => exact .inr ⟨by simp, by simp [hd, counted, Nesting.depth, List.countP_cons]⟩
  | opened =>
    obtain ⟨t, read, e, u, rfl, -, he⟩ := ho rfl
    exact .inl ⟨rfl, by simp [hd, counted, Nesting.depth, he]⟩

/-- What moves the levels moves the nesting of the terminals. The recogniser counts as before. -/
theorem Reflects.take (h : p.Reflects s x) (ht : Moves p t q) :
    ∃ s', s.step t = some s' ∧ q.Reflects s' x := by
  obtain ⟨read, v⟩ := s
  obtain ⟨hh, hu, hg, hd, -⟩ := h
  have hnext : p.heading.next t = Heading.ofRead (t :: read) := by
    rw [hh]
    exact (Heading.ofRead_cons t read).symm
  have hopens : t.opens? read = p.heading.opens? t := by
    rw [hh]
    exact Heading.opens?_ofRead t read
  subst hu
  cases ht with
  | @opened heading u t e ho he =>
    have ho := hopens.trans ho
    exact ⟨⟨t :: read, e :: u⟩, by simp [Nesting.step, ho],
      hnext, rfl, hg, hd, fun _ => ⟨t, read, e, u, rfl, ho, he⟩⟩
  | @clauses heading u t e ho he =>
    have ho := hopens.trans ho
    cases e with
    | group | block => cases he
    | clauses =>
      exact ⟨⟨t :: read, .clauses :: u⟩, by simp [Nesting.step, ho], hnext, rfl, hg, hd, by simp⟩
  | @closed heading u =>
    exact ⟨⟨plain .dedent :: read, u⟩, rfl, rfl, rfl, hg, hd, by simp⟩
  | @clausesClosed heading u =>
    exact ⟨⟨plain .dedent :: read, u⟩, rfl, rfl, rfl, hg, hd, by simp⟩
  | @other heading u t ho hc =>
    have ho := hopens.trans ho
    exact ⟨⟨t :: read, u⟩, by simp [Nesting.step, ho, hc], hnext, rfl, hg, hd, by simp⟩

theorem exists_moves_of_balances {v : List Enclosure} {body : List (Goal Rule)}
    (h : Rule.Balances v t body) (u : List Enclosure) : ∃ q, Moves (settled (v ++ u)) t q ∧
      ∀ goals, q.afterAll (body ++ goals) = (settled u).afterAll goals := by
  obtain ⟨q, hq, hb⟩ := Option.bind_eq_some_iff.mp (h u)
  refine ⟨q, moves_of_take hq, fun goals => ?_⟩
  rw [afterAll_append, hb]
  rfl

section
variable {u : List Enclosure} {g : Group}

theorem Reflects.openGroup (h : Reflects ⟨.other, .group g :: u, .opened⟩ s x) :
    (settled (.group g :: u)).Reflects s ⟨g :: x.groups, x.depth + 1, x.statements⟩ :=
  ⟨h.heading_eq, h.unclosed_eq, congrArg (g :: ·) h.groups_eq,
    by simp [h.depth_eq, counted, Enclosure.deepens], nofun⟩

theorem Reflects.enterBlock (h : Reflects ⟨.other, .block :: u, .opened⟩ s x) :
    (settled (.block :: u)).Reflects s { x with depth := x.depth + 1 } :=
  ⟨h.heading_eq, h.unclosed_eq, h.groups_eq, by simp [h.depth_eq, counted, Enclosure.deepens],
    nofun⟩

theorem Reflects.leaveBlock (h : Reflects ⟨.other, u, .closed⟩ s x) :
    (settled u).Reflects s x.leave :=
  ⟨h.heading_eq, h.unclosed_eq, h.groups_eq,
    by simp [h.depth_eq, counted, Enclosure.deepens, Context.leave], nofun⟩

theorem Reflects.closeGroup (h : (settled (.group g :: u)).Reflects s x) :
    ∃ s', s.step g.closer = some s' ∧
      (settled u).Reflects s' { x.leave with groups := x.groups.tail } := by
  obtain ⟨read, v⟩ := s
  obtain ⟨-, rfl, hg, hd, -⟩ := h
  refine ⟨⟨g.closer :: read, u⟩, by cases g <;> rfl, ?_, rfl, ?_, ?_, by simp⟩
  · cases g <;> rfl
  · exact congrArg List.tail hg
  · simp [hd, counted, Enclosure.deepens, Context.leave]

end

/-- The recogniser counts what it should once the goal is worked off, before goals that find the
levels `m`. -/
def Counts (m : Levels) (s : Nesting) (next : Option Terminal) : Worked Rule → Prop
  | .left y => m.Reflects s y
  | .took owed y => ∀ t ∈ next, ∃ (s' : Nesting) (q : Levels), s.step t = some s' ∧
      q.Reflects s' y ∧ ∀ goals, q.afterAll (owed ++ goals) = m.afterAll goals

theorem Reflects.counts_took (h : p.Reflects s x) (hm : ∀ t ∈ next, Moves p t q) :
    Counts q s next (.took [] x) := by
  intro t ht
  obtain ⟨s', hs, hr⟩ := h.take (hm t ht)
  exact ⟨s', q, hs, hr, fun _ => rfl⟩

theorem Reflects.work {goal : Goal Rule} {w : Worked Rule} (h : p.Reflects s x)
    (hm : Meets p goal q) (hw : Recogniser.work Rule.react limit next x goal = .ok w) :
    Counts q s next w := by
  have hw := works_of_work hw
  cases hm with
  | need hm ht =>
    cases hw with
    | need hn =>
      subst next
      refine h.counts_took ?_
      rintro _ ⟨⟩
      exact moves_of_take ht
  | @allow u t ht =>
    cases hw with
    | allow hn =>
      subst next
      refine h.counts_took ?_
      rintro _ ⟨⟩
      exact moves_of_take (take_of_isNeutral ht u)
    | skip => exact h
  | @rule u r =>
    have hb := Rule.balanced_react next r
    cases hw with
    | take hr =>
      rw [hr] at hb
      intro t ht
      obtain ⟨q, hq, he⟩ := exists_moves_of_balances (hb t ht) u
      obtain ⟨s', hs, hr⟩ := h.take hq
      exact ⟨s', q, hs, hr, he⟩
    | pass hr =>
      rw [hr] at hb
      have hi : r.inside = [] := hb
      rw [hi] at h
      exact h
  | openGroup =>
    cases hw with
    | openGroup hy =>
      rw [enter_eq_ok hy]
      exact h.openGroup
  | @closeGroup u g =>
    have hhead : x.groups.headD .paren = g := by rw [h.groups_eq]; rfl
    cases hw with
    | closeGroup hn =>
      rw [hhead] at hn
      subst next
      rintro _ ⟨⟩
      obtain ⟨s', hs, hr⟩ := h.closeGroup
      exact ⟨s', settled u, hs, hr, fun _ => rfl⟩
  | enterBlock =>
    cases hw with
    | enterBlock hy =>
      rw [enter_eq_ok hy]
      exact h.enterBlock
  | leaveBlock =>
    cases hw
    exact h.leaveBlock
  | tally =>
    cases hw
    exact ⟨h.heading_eq, h.unclosed_eq, h.groups_eq, h.depth_eq, by simp⟩

/-- A terminal that is taken moves the nesting of the terminals, and the recogniser still counts
it. -/
theorem Reflects.took (h : p.Reflects s x) (hp : p.afterAll goals = some r)
    (ha : advance Rule.react limit (some t) goals x = .ok (.took goals' x')) :
    ∃ (s' : Nesting) (q : Levels), s.step t = some s' ∧ q.Reflects s' x' ∧
      q.afterAll goals' = some r := by
  -- A goal that leaves the terminal to the next one only settles what is counted.
  induction goals generalizing p x with
  | nil => cases ha
  | cons goal goals ih =>
    obtain ⟨m, hm, hg⟩ := exists_meets hp
    obtain ⟨owed, hw, rfl⟩ | ⟨y, hw, ha⟩ := took_or_left ha
    · obtain ⟨s', q, hs, hr, he⟩ := h.work hm hw t rfl
      exact ⟨s', q, hs, hr, (he goals).trans hg⟩
    · exact ih (h.work hm hw) hg ha

theorem exists_reflects_of_takes (h : p.Reflects s x) (hp : p.afterAll goals = some r)
    (ht : Takes Rule.react limit goals x us goals' x') :
    ∃ (s' : Nesting) (q : Levels), us.foldlM Nesting.step s = some s' ∧ q.Reflects s' x' ∧
      q.afterAll goals' = some r := by
  induction ht generalizing p s with
  | nil => exact ⟨s, p, rfl, h, hp⟩
  | cons ha _ ih =>
    obtain ⟨m, q, hs, hr, hg⟩ := h.took hp ha
    obtain ⟨s', q', hm, hr', hg'⟩ := ih hr hg
    exact ⟨s', q', by rw [List.foldlM_cons, hs]; exact hm, hr', hg'⟩

theorem reflects_initial : (settled []).Reflects .initial .initial := ⟨rfl, rfl, rfl, rfl, nofun⟩

theorem isTooDeep_of_work {goal : Goal Rule} (hm : Meets p goal q) (ho : p.phase ≠ .opened)
    (hw : Recogniser.work Rule.react limit next x goal = .error missing) :
    missing.isTooDeep = false := by
  cases misses_of_work hw with
  | need =>
    cases hm with
    | need hd => exact hd
  | @refuse r missing hr =>
    have hb := Rule.balanced_react next r
    rw [hr] at hb
    unfold Context.blame
    split
    · split <;> rfl
    · exact hb
  | closeGroup => rfl
  | openGroup | enterBlock =>
    cases hm
    exact (ho rfl).elim

/-- A goal that leaves the lookahead to the next one opens nothing. -/
theorem phase_ne_opened_of_left {goal : Goal Rule} (hm : Meets p goal q)
    (hw : Recogniser.work Rule.react limit next x goal = .ok (.left x')) : q.phase ≠ .opened := by
  cases works_of_work hw <;> cases hm <;> nofun

/-- No error is about the limit, unless a level was just opened. -/
theorem isTooDeep_of_not_opened (hp : p.afterAll goals = some q) (ho : p.phase ≠ .opened)
    (ha : advance Rule.react limit next goals x = .error missing) : missing.isTooDeep = false := by
  induction goals generalizing p x with
  | nil => cases ha
  | cons goal goals ih =>
    obtain ⟨m, hm, hg⟩ := exists_meets hp
    obtain hw | ⟨y, hw, ha⟩ := failed_or_left ha
    · exact isTooDeep_of_work hm ho hw
    · exact ih hg (phase_ne_opened_of_left hm hw) ha

/-- The first goal counts the level that was just opened. -/
theorem advance_of_opened (hp : p.afterAll goals = some (settled [])) (ho : p.phase = .opened) :
    ∃ (goals' : List (Goal Rule)) (y : Context) (q : Levels), q.phase ≠ .opened ∧
      q.afterAll goals' = some (settled []) ∧ ∀ limit next,
        advance Rule.react limit next goals x = (x.enter limit).bind fun _ =>
          advance Rule.react limit next goals' y := by
  cases goals with
  | nil =>
    cases hp
    cases ho
  | cons goal goals =>
    obtain ⟨m, hm, hg⟩ := exists_meets hp
    cases hm with
    | need hm ht => cases moves_of_take ht <;> cases ho
    | @openGroup u g =>
      refine ⟨goals, ⟨g :: x.groups, x.depth + 1, x.statements⟩, settled (.group g :: u),
        by simp, hg, fun limit next => ?_⟩
      simp only [advance]
      cases hx : x.enter limit with
      | ok y =>
        rw [enter_eq_ok hx]
        rfl
      | error missing => rfl
    | @enterBlock u =>
      refine ⟨goals, { x with depth := x.depth + 1 }, settled (.block :: u), by simp, hg,
        fun limit next => ?_⟩
      simp only [advance]
      cases hx : x.enter limit with
      | ok y =>
        rw [enter_eq_ok hx]
        rfl
      | error missing => rfl
    | allow | rule | closeGroup | leaveBlock | tally => cases ho

/-- The limit is passed exactly if a level was just opened and no more are allowed. -/
theorem isTooDeep_iff {l : ℕ} (next : Option Terminal)
    (hp : p.afterAll goals = some (settled [])) :
    (∃ missing, advance Rule.react (some l) next goals x = .error missing ∧ missing.isTooDeep) ↔
      p.phase = .opened ∧ l ≤ x.depth := by
  by_cases ho : p.phase = .opened
  · obtain ⟨goals', y, q, hq, hg, ha⟩ := advance_of_opened (x := x) hp ho
    rw [ha, Context.enter]
    split
    · rename_i hl
      exact iff_of_true ⟨_, rfl, rfl⟩ ⟨ho, hl⟩
    · rename_i hl
      refine iff_of_false ?_ fun h => hl h.2
      rintro ⟨missing, hm, hd⟩
      simp [isTooDeep_of_not_opened hg hq hm] at hd
  · refine iff_of_false ?_ fun h => ho h.1
    rintro ⟨missing, hm, hd⟩
    simp [isTooDeep_of_not_opened hp ho hm] at hd

end Levels

end RookLang
