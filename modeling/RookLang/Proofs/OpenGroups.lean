import RookLang.Proofs.OpenLevels
import RookLang.Proofs.Rules.Closers

/-! The open groups and the depth while the recogniser works off its goals. Only the ends of groups
and of blocks change them, a group is open where one is closed, and every part of the grammar leaves
them as it found them. -/
namespace RookLang
open Recogniser Terminal

/-- What a goal makes of the open groups and the depth. -/
inductive Changes : List Group × ℕ → Goal Rule → List Group × ℕ → Prop
  | openGroup {gs d g} : Changes (gs, d) (.openGroup g) (g :: gs, d + 1)
  | closeGroup {gs d g} : Changes (g :: gs, d + 1) .closeGroup (gs, d)
  | enterBlock {gs d} : Changes (gs, d) .enterBlock (gs, d + 1)
  | leaveBlock {gs d} : Changes (gs, d + 1) .leaveBlock (gs, d)
  | need {c t missing} : Changes c (.need t missing) c
  | allow {c t} : Changes c (.allow t) c
  | rule {c r} : Changes c (.rule r) c
  | tally {c} : Changes c .tally c

/-- The depth counts the open groups, and the blocks that were entered and not left. -/
theorem Changes.balance {c c' : List Group × ℕ} {goal : Goal Rule} (h : Changes c goal c') :
    c'.2 + [goal].count .leaveBlock + c.1.length =
      c.2 + [goal].count .enterBlock + c'.1.length := by
  cases h <;> simp <;> omega

namespace Levels

/-- The groups and the depth that the recogniser counts. -/
def counts (p : Levels) : List Group × ℕ :=
  (p.counted.filterMap Enclosure.group?, p.counted.countP (·.deepens))

variable {p q m : Levels} {s : Nesting} {x : Context} {t : Terminal} {goal : Goal Rule}
  {goals gs : List (Goal Rule)} {w : Worked Rule} {limit : Option ℕ} {next : Option Terminal}

theorem Reflects.counts_eq (h : p.Reflects s x) : (x.groups, x.depth) = p.counts :=
  Prod.ext h.groups_eq h.depth_eq

/-- A terminal changes what is open, but what is counted only once a goal counts it. -/
theorem counts_of_moves (h : Moves p t q) : q.counts = p.counts := by
  cases h with
  | opened | closed | clausesClosed | other => rfl
  | @clauses h u t e ho hd =>
    cases e with
    | group | block => cases hd
    | clauses => rfl

/-- An enclosure on top of others counts for itself. -/
theorem counts_cons (e : Enclosure) (u : List Enclosure) : (settled (e :: u)).counts =
    (e.group?.toList ++ (settled u).counts.1, (settled u).counts.2 + e.deepens.toNat) := by
  cases e <;> simp [counts, counted, List.filterMap_cons, Enclosure.group?, Enclosure.deepens]

theorem changes_of_meets (h : Meets p goal q) : Changes p.counts goal q.counts := by
  cases h with
  | need hm ht =>
    rw [counts_of_moves (moves_of_take ht)]
    exact .need
  | allow => exact .allow
  | @rule u r =>
    have hc : (settled (r.inside ++ u)).counts = (settled u).counts := by cases r <;> rfl
    rw [hc]
    exact .rule
  | @openGroup u g =>
    have hc := counts_cons (.group g) u
    rw [hc]
    exact .openGroup
  | @closeGroup u g =>
    have hc := counts_cons (.group g) u
    rw [hc]
    exact .closeGroup
  | @enterBlock u =>
    have hc := counts_cons .block u
    rw [hc]
    exact .enterBlock
  | @leaveBlock u =>
    have hc : counts ⟨.other, u, .closed⟩ = _ := counts_cons .block u
    rw [hc]
    exact .leaveBlock
  | tally => exact .tally

/-- The goals change the counts one after the other. -/
theorem exists_changes (h : p.afterAll (goal :: gs) = some q) :
    ∃ m : Levels, Changes p.counts goal m.counts ∧ m.afterAll gs = some q := by
  obtain ⟨m, hm, hg⟩ := exists_meets h
  exact ⟨m, changes_of_meets hm, hg⟩

/-- What is remembered changes as the goal says. -/
theorem counts_of_work {c : List Group × ℕ} (hc : Changes (x.groups, x.depth) goal c)
    (hw : work Rule.react limit next x goal = .ok w) :
    (w.context.groups, w.context.depth) = c := by
  obtain ⟨groups, depth, statements⟩ := x
  cases works_of_work hw with
  | openGroup hy | enterBlock hy =>
    rw [enter_eq_ok hy]
    cases hc
    rfl
  | _ =>
    cases hc
    rfl

/-- The levels reflect what the terminals before it leave open, and the goals bring them to `q`. -/
structure Tracks (p q : Levels) (s : Nesting) (a : Config Rule) : Prop where
  reflects : p.Reflects s a.context
  after : p.afterAll a.goals = some q

namespace Tracks

variable {a b : Config Rule} {worked : List (Goal Rule)}

theorem counts_worked {goal : Goal Rule} {rest : List Terminal}
    (h : Tracks p q s ⟨goal :: goals, x, rest⟩) (hw : work Rule.react limit next x goal = .ok w) :
    ∃ m, m.afterAll goals = some q ∧ Counts m s next w ∧
      Changes (x.groups, x.depth) goal (w.context.groups, w.context.depth) := by
  obtain ⟨m, hm, hg⟩ := exists_meets h.after
  have hc := changes_of_meets hm
  rw [← h.reflects.counts_eq] at hc
  have hy := counts_of_work hc hw
  exact ⟨m, hg, h.reflects.work hm hw, hy ▸ hc⟩

/-- A step keeps track, and changes what is remembered as its goal says. -/
theorem step (h : Tracks p q s a) (hs : Step Rule.react limit a goal b) : ∃ us s' p',
    a.rest = us ++ b.rest ∧ us.foldlM Nesting.step s = some s' ∧ Tracks p' q s' b ∧
      Changes (a.context.groups, a.context.depth) goal (b.context.groups, b.context.depth) := by
  cases hs with
  | @took goal goals x t rest owed y hw =>
    obtain ⟨m, hg, hcounts, hc⟩ := h.counts_worked hw
    obtain ⟨s', p', hs, hr, he⟩ := hcounts t rfl
    exact ⟨[t], s', p', rfl, by simpa using hs, ⟨hr, (he goals).trans hg⟩, hc⟩
  | @left goal goals x rest y hw =>
    obtain ⟨m, hg, hr, hc⟩ := h.counts_worked hw
    exact ⟨[], s, m, rfl, rfl, ⟨hr, hg⟩, hc⟩

/-- So does a run: the depth changes with the open groups and with the blocks that are entered and
left. -/
theorem run (h : Tracks p q s a) (hr : Runs Rule.react limit a worked b) : ∃ us s' p',
    a.rest = us ++ b.rest ∧ us.foldlM Nesting.step s = some s' ∧ Tracks p' q s' b ∧
      b.context.depth + worked.count .leaveBlock + a.context.groups.length =
        a.context.depth + worked.count .enterBlock + b.context.groups.length := by
  induction hr generalizing p s with
  | refl => exact ⟨[], s, p, rfl, rfl, h, rfl⟩
  | @step a goal b worked c hs _ ih =>
    obtain ⟨us, m, p', hu, hm, ht, hc⟩ := h.step hs
    obtain ⟨vs, s', q', hv, hs', ht', hb⟩ := ih ht
    refine ⟨us ++ vs, s', q', by rw [hu, hv, List.append_assoc], ?_, ht', ?_⟩
    · rw [List.foldlM_append, hm]
      exact hs'
    · have hbalance := hc.balance
      simp only [List.count_cons, List.count_nil] at hbalance ⊢
      omega

/-- A group is open where one is closed, the one that the terminals leave open last. -/
theorem exists_group (h : Tracks p q s a) (hg : a.goals = .closeGroup :: goals) : ∃ g gs,
    a.context.groups = g :: gs ∧ s.unclosed.filterMap Enclosure.group? = g :: gs ∧
      0 < a.context.depth := by
  obtain ⟨hr, ha⟩ := h
  rw [hg] at ha
  obtain ⟨m, hm, -⟩ := exists_meets ha
  cases hm with
  | @closeGroup u g =>
    refine ⟨g, u.filterMap Enclosure.group?, hr.groups_eq, ?_, ?_⟩
    · rw [← hr.unclosed_eq]
      rfl
    · rw [hr.depth_eq]
      simp [counted, Enclosure.deepens]

theorem depth_pos (h : Tracks p q s a) (hg : a.goals = .leaveBlock :: goals) :
    0 < a.context.depth := by
  obtain ⟨hr, ha⟩ := h
  rw [hg] at ha
  obtain ⟨m, hm, -⟩ := exists_meets ha
  cases hm with
  | leaveBlock =>
    rw [hr.depth_eq]
    simp [counted, Enclosure.deepens]

end Tracks

end Levels

namespace Rule

/-- Goals that close the groups and leave the blocks that they open and enter, and no others. -/
inductive Part : List (Goal Rule) → Prop
  | nil : Part []
  | append {gs gs'} (h : Part gs) (h' : Part gs') : Part (gs ++ gs')
  | need (t missing) : Part [.need t missing]
  | allow (t) : Part [.allow t]
  | rule (r) : Part [.rule r]
  | grouped (g) {inside} (h : Part inside) : Part (grouped g inside)
  | entered {inside} (h : Part inside) : Part (.enterBlock :: inside ++ [.leaveBlock])

theorem part_callArguments : Part callArguments := .grouped .paren (.rule .arguments)

theorem part_arrayElements : Part arrayElements := .grouped .bracket (.rule .elements)

theorem part_builtinCall (b : Builtin) : Part (builtinCall b) := by
  cases b with
  | print => exact .append (.need _ _) (.grouped .paren (.rule .printArguments))
  | input => exact .append (.need _ _) (.grouped .paren (.allow _))

theorem part_clauseBlock : Part clauseBlock :=
  .append (.need _ _) (.append (.need _ _) (.rule .clauses))

theorem part_block : Part block :=
  .append (.need _ _) (.append (.need _ _)
    (.entered (.append (.rule .statements) (.need (.plain .dedent) .blockEnd))))

end Rule

namespace Levels

variable {p q : Levels} {gs inside : List (Goal Rule)}

theorem changes_of_single {goal : Goal Rule} (h : p.afterAll [goal] = some q) :
    Changes p.counts goal q.counts := by
  obtain ⟨m, hc, hm⟩ := exists_changes h
  obtain rfl := Option.some.inj hm
  exact hc

/-- What is opened at the start and closed at the end. -/
theorem exists_changes_around {first last : Goal Rule}
    (h : p.afterAll (first :: inside ++ [last]) = some q) : ∃ m m' : Levels,
      Changes p.counts first m.counts ∧ m.afterAll inside = some m' ∧
        Changes m'.counts last q.counts := by
  rw [List.cons_append] at h
  obtain ⟨m, hf, h⟩ := exists_changes h
  rw [afterAll_append] at h
  obtain ⟨m', hi, h⟩ := Option.bind_eq_some_iff.mp h
  exact ⟨m, m', hf, hi, changes_of_single h⟩

/-- Parts of the grammar leave the groups and the depth as they are before them. -/
theorem counts_of_part (hp : Rule.Part gs) (h : p.afterAll gs = some q) :
    q.counts = p.counts := by
  induction hp generalizing p q with
  | nil => rw [Option.some.inj h]
  | append _ _ ih ih' =>
    rw [afterAll_append] at h
    obtain ⟨m, hm, h⟩ := Option.bind_eq_some_iff.mp h
    exact (ih' h).trans (ih hm)
  | need | allow | rule =>
    have hc := changes_of_single h
    generalize p.counts = c, q.counts = d at *
    cases hc
    rfl
  | grouped g _ ih | entered _ ih =>
    obtain ⟨m, m', hf, hi, hl⟩ := exists_changes_around h
    rw [ih hi] at hl
    generalize p.counts = c, m.counts = c', q.counts = d at *
    cases hf
    cases hl
    rfl

/-- A part of the grammar that is worked off leaves what is remembered as it found it. -/
theorem Tracks.restores {a b : Config Rule} {s : Nesting} {limit : Option ℕ}
    {goals worked : List (Goal Rule)} (h : Tracks p q s { a with goals := a.goals ++ goals })
    (hp : Rule.Part a.goals) (hr : Runs Rule.react limit a worked b) (hb : b.goals = []) :
    b.context.groups = a.context.groups ∧ b.context.depth = a.context.depth := by
  have ha := h.after
  rw [afterAll_append] at ha
  obtain ⟨m, hm, -⟩ := Option.bind_eq_some_iff.mp ha
  have hstart : Tracks p m s a := ⟨h.reflects, hm⟩
  obtain ⟨us, s', m', -, -, ht, -⟩ := hstart.run hr
  obtain rfl : m' = m := by
    have hend := ht.after
    rw [hb] at hend
    exact Option.some.inj hend
  have hc := ht.reflects.counts_eq.trans ((counts_of_part hp hm).trans h.reflects.counts_eq.symm)
  exact Prod.mk.inj hc

theorem tracks_initial (ts : List Terminal) :
    Tracks (settled []) (settled []) .initial ⟨[.rule .program], .initial, ts⟩ :=
  ⟨reflects_initial, rfl⟩

end Levels

end RookLang
