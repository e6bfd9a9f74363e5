import RookLang.Proofs.Rules.Levels

/-! Brackets, apart from all else that terminals open and close: which of them are not matched. -/
namespace RookLang

def Group.opener : Group → Terminal
  | paren => .sign .leftParen
  | bracket => .sign .leftBracket

namespace Brackets

/-- The groups that are open after one more terminal, innermost first; none if it closes another
group than the innermost one. -/
def step (gs : List Group) : Terminal → Option (List Group)
  | .plain (.punctuation .leftParen) => some (.paren :: gs)
  | .plain (.punctuation .leftBracket) => some (.bracket :: gs)
  | .plain (.punctuation .rightParen) =>
    match gs with
    | .paren :: rest => some rest
    | _ => none
  | .plain (.punctuation .rightBracket) =>
    match gs with
    | .bracket :: rest => some rest
    | _ => none
  | _ => some gs

/-- The groups whose openers have no closers, innermost first. -/
def unmatched (ts : List Terminal) : Option (List Group) := ts.foldlM step []

/-- What a terminal may do to the open groups. -/
inductive Moves : List Group → Terminal → List Group → Prop
  | opened {gs} (g : Group) : Moves gs g.opener (g :: gs)
  | closed {gs} (g : Group) : Moves (g :: gs) g.closer gs
  | other {gs t} (h : ∀ gs, step gs t = some gs) : Moves gs t gs

variable {gs gs' : List Group} {g : Group} {t : Terminal} {ts us : List Terminal} {s s' : Nesting}

theorem moves_of_step (h : step gs t = some gs') : Moves gs t gs' := by
  unfold step at h
  split at h
  · cases h
    exact .opened .paren
  · cases h
    exact .opened .bracket
  · split at h <;> cases h
    exact .closed .paren
  · split at h <;> cases h
    exact .closed .bracket
  · cases h
    exact .other fun gs => by simp_all [step]

theorem step_opener (gs : List Group) (g : Group) : step gs g.opener = some (g :: gs) := by
  cases g <;> rfl

theorem step_closer (gs : List Group) (g : Group) : step (g :: gs) g.closer = some gs := by
  cases g <;> rfl

/-- Groups around others do not matter. -/
theorem step_append (h : step gs t = some gs') (base : List Group) :
    step (gs ++ base) t = some (gs' ++ base) := by
  cases moves_of_step h with
  | opened g => exact step_opener _ g
  | closed g => exact step_closer _ g
  | other ht => exact ht _

theorem foldlM_append (h : ts.foldlM step gs = some gs') (base : List Group) :
    ts.foldlM step (gs ++ base) = some (gs' ++ base) := by
  induction ts generalizing gs with
  | nil =>
    cases h
    rfl
  | cons t ts ih =>
    obtain ⟨m, hm, h⟩ := Option.bind_eq_some_iff.mp h
    rw [List.foldlM_cons, step_append hm base]
    exact ih h

theorem unmatched_concat : unmatched (ts ++ [t]) = (unmatched ts).bind (step · t) := by
  rw [unmatched, List.foldlM_append]
  simp [unmatched]

theorem unmatched_append_matched (hu : unmatched us = some gs) (h : unmatched ts = some []) :
    unmatched (us ++ ts) = some gs := by
  unfold unmatched at hu h ⊢
  rw [List.foldlM_append, hu]
  exact foldlM_append h gs

/-- The last opener that is not matched, and terminals after it that leave nothing open. -/
theorem exists_opener (h : unmatched ts = some (g :: gs)) : ∃ before inside,
    ts = before ++ g.opener :: inside ∧ unmatched before = some gs ∧
      unmatched inside = some [] := by
  -- A closer takes back what its opener did, so that the groups are those before it.
  induction hn : ts.length using Nat.strong_induction_on generalizing ts g gs with
  | _ n ih =>
    rcases List.eq_nil_or_concat' ts with rfl | ⟨us, t, rfl⟩
    · cases h
    rw [unmatched_concat] at h
    obtain ⟨gs', hu, hs⟩ := Option.bind_eq_some_iff.mp h
    have hlen : us.length < n := by simp [← hn]
    generalize he : g :: gs = all at hs
    cases moves_of_step hs with
    | opened g' =>
      obtain ⟨rfl, rfl⟩ := List.cons.inj he
      exact ⟨us, [], rfl, hu, rfl⟩
    | closed g' =>
      subst he
      obtain ⟨before, inside, rfl, hb, hi⟩ := ih _ hlen hu rfl
      have hlen' : before.length < n := by
        simp at hlen
        omega
      obtain ⟨before, outside, rfl, hb, ho⟩ := ih _ hlen' hb rfl
      refine ⟨before, outside ++ (g'.opener :: inside ++ [g'.closer]), by simp, hb,
        unmatched_append_matched ho ?_⟩
      have hinside : inside.foldlM step [g'] = some [g'] := foldlM_append hi [g']
      have hopened : (inside ++ [g'.closer]).foldlM step [g'] = some [] := by
        rw [List.foldlM_append, hinside]
        simpa using step_closer [] g'
      rw [List.cons_append, unmatched, List.foldlM_cons, step_opener]
      exact hopened
    | other ht =>
      subst he
      obtain ⟨before, inside, rfl, hb, hi⟩ := ih _ hlen hu rfl
      refine ⟨before, inside ++ [t], by simp, hb, ?_⟩
      rw [unmatched_concat, hi]
      exact ht []

/-- The groups among what terminals leave open are those that brackets leave open. -/
theorem step_of_nesting (h : s.step t = some s') :
    step (s.unclosed.filterMap Enclosure.group?) t =
      some (s'.unclosed.filterMap Enclosure.group?) := by
  unfold Nesting.step at h
  split at h
  · rename_i e ho
    cases h
    unfold Terminal.opens? at ho
    split at ho
    · cases ho
      rfl
    · cases ho
      rfl
    · split at ho <;> cases ho <;> rfl
    · cases ho
  · rename_i ho
    split at h
    · split at h
      · rename_i e rest hu
        split at h <;> cases h
        subst t
        rw [hu]
        cases e with
        | group g => cases g <;> rfl
        | block | clauses => rfl
      · cases h
    · rename_i hc
      cases h
      unfold step
      split <;> simp_all [Terminal.opens?, Terminal.closes]

theorem foldlM_of_nesting (h : ts.foldlM Nesting.step s = some s') :
    ts.foldlM step (s.unclosed.filterMap Enclosure.group?) =
      some (s'.unclosed.filterMap Enclosure.group?) := by
  induction ts generalizing s with
  | nil =>
    cases h
    rfl
  | cons t ts ih =>
    obtain ⟨m, hm, h⟩ := Option.bind_eq_some_iff.mp h
    rw [List.foldlM_cons, step_of_nesting hm]
    exact ih h

theorem unmatched_of_after (h : Nesting.after ts = some s) :
    unmatched ts = some (s.unclosed.filterMap Enclosure.group?) :=
  foldlM_of_nesting h

end Brackets

end RookLang
