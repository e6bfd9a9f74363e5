import RookLang.Proofs.Grammar.Words
import RookLang.Proofs.Recogniser

/-! How goals read words. Goals read a language if the recogniser can only work them off by taking
a word of it, and if it does take each word of it before most lookaheads. -/
namespace RookLang.Recogniser
open Words Computability

section Run
variable {R : Type} {g : Grammar R} {limit : Option ℕ} {k : ℕ} {goals : List (Goal R)}
  {x : Context} {t : Terminal} {ts : List Terminal} {res : Context × List Terminal}

theorem run_congr {goals' : List (Goal R)} {x' : Context}
    (h : advance g limit ts.head? goals x = advance g limit ts.head? goals' x') :
    run g limit k goals x ts = run g limit k goals' x' ts := by
  cases ts <;> simp only [List.head?_nil, List.head?_cons] at h <;> simp only [run, h]

theorem run_took (goals' : List (Goal R)) (x' : Context)
    (h : advance g limit (some t) goals x = .ok (.took goals' x')) :
    run g limit k goals x (t :: ts) = run g limit (k + 1) goals' x' ts := by
  simp only [run, h]

theorem not_run_of_error {missing : Expectation}
    (h : advance g limit ts.head? goals x = .error missing) :
    run g limit k goals x ts ≠ .ok res := by
  cases ts <;> simp only [List.head?_nil, List.head?_cons] at h <;> simp [run, h]

end Run

/-- The lookaheads of `ts`. -/
def among (ts : List Terminal) : Set (Option Terminal) := {next | ∃ t ∈ ts, next = some t}

@[simp] theorem some_mem_among {t : Terminal} {ts : List Terminal} :
    some t ∈ among ts ↔ t ∈ ts := by
  simp [among]

@[simp] theorem none_notMem_among {ts : List Terminal} : none ∉ among ts := by
  simp [among]

theorem among_mono {ts us : List Terminal} (h : ts ⊆ us) : among ts ⊆ among us :=
  fun _ ⟨t, ht, hn⟩ => ⟨t, h ht, hn⟩

theorem among_subset_compl {t : Terminal} {ts : List Terminal} (h : t ∉ ts) :
    among ts ⊆ {some t}ᶜ := by
  rintro _ ⟨s, hs, rfl⟩ ht
  obtain rfl : s = t := by simpa using ht
  exact h hs

/-- The goals `gs` read `L` while fewer than `n` terminals are left. Before the lookaheads in
`eager` they may go on after a complete word. -/
structure Reads {R : Type} (g : Grammar R) (limit : Option ℕ) (n : ℕ) (gs : List (Goal R))
    (L : Words) (eager : Set (Option Terminal)) : Prop where
  sound {goals k x ts res} (hn : ts.length < n) (h : run g limit k (gs ++ goals) x ts = .ok res) :
    ∃ w rest, w ++ rest = ts ∧ w ∈ L x.depth ∧
      run g limit (k + w.length) goals x rest = .ok res
  complete {goals k x w rest} (hn : (w ++ rest).length < n) (hw : w ∈ L x.depth)
    (he : rest.head? ∉ eager) :
    run g limit k (gs ++ goals) x (w ++ rest) = run g limit (k + w.length) goals x rest

/-- The goals `gs` read `L` if `next` is the lookahead. -/
structure ReadsAt {R : Type} (g : Grammar R) (limit : Option ℕ) (n : ℕ) (next : Option Terminal)
    (gs : List (Goal R)) (L : Words) (eager : Set (Option Terminal)) : Prop where
  sound {goals k x ts res} (hn : ts.length < n) (ht : ts.head? = next)
    (h : run g limit k (gs ++ goals) x ts = .ok res) :
    ∃ w rest, w ++ rest = ts ∧ w ∈ L x.depth ∧
      run g limit (k + w.length) goals x rest = .ok res
  complete {goals k x w rest} (hn : (w ++ rest).length < n) (ht : (w ++ rest).head? = next)
    (hw : w ∈ L x.depth) (he : rest.head? ∉ eager) :
    run g limit k (gs ++ goals) x (w ++ rest) = run g limit (k + w.length) goals x rest

section
variable {R : Type} {g : Grammar R} {limit : Option ℕ} {m n : ℕ} {gs gs' : List (Goal R)}
  {L M : Words} {eager eager' : Set (Option Terminal)} {next : Option Terminal} {t : Terminal}
  {r : R}

theorem Reads.at (h : Reads g limit n gs L eager) (next : Option Terminal) :
    ReadsAt g limit n next gs L eager :=
  ⟨fun hn _ => h.sound hn, fun hn _ => h.complete hn⟩

theorem Reads.of_at (h : ∀ next, ReadsAt g limit n next gs L eager) : Reads g limit n gs L eager :=
  ⟨fun hn => (h _).sound hn rfl, fun hn => (h _).complete hn rfl⟩

theorem Reads.zero : Reads g limit 0 gs L eager :=
  ⟨fun hn => absurd hn (Nat.not_lt_zero _), fun hn => absurd hn (Nat.not_lt_zero _)⟩

theorem Reads.mono (h : Reads g limit n gs L eager) (hmn : m ≤ n) : Reads g limit m gs L eager :=
  ⟨fun hn => h.sound (by omega), fun hn => h.complete (by omega)⟩

theorem Reads.widen (h : Reads g limit n gs L eager) (he : eager ⊆ eager') :
    Reads g limit n gs L eager' :=
  ⟨h.sound, fun hn hw hr => h.complete hn hw fun hm => hr (he hm)⟩

theorem Reads.append (h : Reads g limit n gs L eager) (h' : Reads g limit n gs' M eager')
    (hc : ∀ t, some t ∈ eager → after t M = 0)
    (he : eager ⊆ eager' ∨ ∀ d, [] ∉ M d) : Reads g limit n (gs ++ gs') (L * M) eager' := by
  constructor
  · intro goals k x ts res hn hrun
    rw [List.append_assoc] at hrun
    obtain ⟨u, ts', rfl, hu, hrun⟩ := h.sound hn hrun
    obtain ⟨v, rest, rfl, hv, hrun⟩ := h'.sound (by simp at hn ⊢; omega) hrun
    refine ⟨u ++ v, rest, by simp, mem_mul.mpr ⟨u, hu, v, hv, rfl⟩, ?_⟩
    rwa [List.length_append, ← Nat.add_assoc]
  · intro goals k x w rest hn hw hrest
    obtain ⟨u, hu, v, hv, rfl⟩ := mem_mul.mp hw
    have hend : (v ++ rest).head? ∉ eager := by
      cases v with
      | nil =>
        rcases he with he | he
        · exact fun hm => hrest (he hm)
        · exact (he _ hv).elim
      | cons t v =>
        exact fun hm => cons_notMem (hc t hm) hv
    have hlen : (v ++ rest).length < n := by simp at hn ⊢; omega
    rw [List.append_assoc, List.append_assoc, h.complete (by simpa using hn) hu hend,
      h'.complete hlen hv hrest, List.length_append, Nat.add_assoc]

theorem Reads.append_among {ts : List Terminal} (h : Reads g limit n gs L (among ts))
    (h' : Reads g limit n gs' M eager') (hc : ∀ t ∈ ts, after t M = 0)
    (he : among ts ⊆ eager' ∨ ∀ d, [] ∉ M d) : Reads g limit n (gs ++ gs') (L * M) eager' :=
  h.append h' (fun t ht => hc t (some_mem_among.mp ht)) he

theorem Reads.cons {a : Goal R} (h : Reads g limit n [a] L eager)
    (h' : Reads g limit n gs M eager') (hc : ∀ t, some t ∈ eager → after t M = 0)
    (he : eager ⊆ eager' ∨ ∀ d, [] ∉ M d) : Reads g limit n (a :: gs) (L * M) eager' :=
  h.append h' hc he

theorem Reads.cons_among {a : Goal R} {ts : List Terminal} (h : Reads g limit n [a] L (among ts))
    (h' : Reads g limit n gs M eager') (hc : ∀ t ∈ ts, after t M = 0)
    (he : among ts ⊆ eager' ∨ ∀ d, [] ∉ M d) : Reads g limit n (a :: gs) (L * M) eager' :=
  h.append_among h' hc he

theorem Reads.nil : Reads g limit n [] 1 eager := by
  constructor
  · intro goals k x ts res hn hrun
    exact ⟨[], ts, rfl, rfl, hrun⟩
  · rintro goals k x _ rest hn rfl _
    rfl

theorem Reads.need {missing : Expectation} :
    Reads g limit n [.need t missing] (letters [t]) ∅ := by
  constructor
  · intro goals k x ts res hn hrun
    by_cases ht : ts.head? = some t
    · obtain ⟨ts, rfl⟩ := List.head?_eq_some_iff.mp ht
      rw [run_took goals x (by simp [advance])] at hrun
      exact ⟨[t], ts, rfl, by simp, hrun⟩
    · exact (not_run_of_error (by simp [advance, ht]; rfl) hrun).elim
  · intro goals k x w rest hn hw _
    obtain rfl : w = [t] := by simpa using hw
    exact run_took goals x (by simp [advance])

theorem Reads.allow : Reads g limit n [.allow t] (letters [t] + 1) (among [t]) := by
  constructor
  · intro goals k x ts res hn hrun
    by_cases ht : ts.head? = some t
    · obtain ⟨ts, rfl⟩ := List.head?_eq_some_iff.mp ht
      rw [run_took goals x (by simp [advance])] at hrun
      exact ⟨[t], ts, rfl, mem_add.mpr (Or.inl (by simp)), hrun⟩
    · have hpass : advance g limit ts.head? (.allow t :: goals) x =
          advance g limit ts.head? goals x := by simp [advance, ht]
      rw [List.singleton_append, run_congr hpass] at hrun
      exact ⟨[], ts, rfl, mem_add.mpr (Or.inr rfl), hrun⟩
  · intro goals k x w rest hn hw he
    rcases mem_add.mp hw with hw | rfl
    · obtain rfl : w = [t] := by simpa using hw
      exact run_took goals x (by simp [advance])
    · exact run_congr (by simp [advance, show rest.head? ≠ some t by simpa [among] using he])

/-- Goals that leave the lookahead to later ones. -/
theorem ReadsAt.skip
    (hs : ∀ goals x, advance g limit next (gs ++ goals) x = advance g limit next goals x)
    (hL : ∀ d, [] ∈ L d) (hno : next.elim True (after · L = 0)) :
    ReadsAt g limit n next gs L eager := by
  constructor
  · intro goals k x ts res hn ht hrun
    rw [run_congr (ht ▸ hs goals x)] at hrun
    exact ⟨[], ts, rfl, hL _, hrun⟩
  · intro goals k x w rest hn ht hw _
    cases w with
    | nil => exact run_congr ((show rest.head? = next from ht) ▸ hs goals x)
    | cons t w =>
      subst ht
      exact (cons_notMem hno hw).elim

theorem ReadsAt.pass (hr : g next r = .pass) (hL : ∀ d, [] ∈ L d)
    (hno : next.elim True (after · L = 0)) : ReadsAt g limit n next [.rule r] L eager :=
  .skip (fun goals x => by simp [advance, hr]) hL hno

/-- Goals that fail before the lookahead. -/
theorem ReadsAt.fail
    (hf : ∀ goals x, ∃ missing, advance g limit next (gs ++ goals) x = .error missing)
    (hno : next.elim True (after · L = 0)) (he : next ∈ eager ∨ ∀ d, [] ∉ L d) :
    ReadsAt g limit n next gs L eager := by
  constructor
  · intro goals k x ts res hn ht hrun
    obtain ⟨missing, hf⟩ := hf goals x
    exact (not_run_of_error (ht ▸ hf) hrun).elim
  · intro goals k x w rest hn ht hw hrest
    cases w with
    | nil =>
      rcases he with he | he
      · exact (hrest (ht ▸ he)).elim
      · exact (he _ hw).elim
    | cons t w =>
      subst ht
      exact (cons_notMem hno hw).elim

theorem ReadsAt.refuse {missing : Expectation} (hr : g next r = .refuse missing)
    (hno : next.elim True (after · L = 0)) (he : next ∈ eager ∨ ∀ d, [] ∉ L d) :
    ReadsAt g limit n next [.rule r] L eager :=
  .fail (fun _ x => ⟨x.blame next missing, by simp [advance, hr]⟩) hno he

/-- Goals that take the lookahead `t` read what the goals that they then owe read after it. -/
theorem ReadsAt.took (gs' : List (Goal R))
    (ht : ∀ goals x, advance g limit (some t) (gs ++ goals) x = .ok (.took (gs' ++ goals) x))
    (h : Reads g limit n gs' (after t L) eager) (he : some t ∈ eager ∨ ∀ d, [] ∉ L d) :
    ReadsAt g limit (n + 1) (some t) gs L eager := by
  constructor
  · intro goals k x ts res hn hts hrun
    obtain ⟨ts, rfl⟩ := List.head?_eq_some_iff.mp hts
    rw [run_took (gs' ++ goals) x (ht goals x)] at hrun
    obtain ⟨w, rest, rfl, hw, hrun⟩ := h.sound (by simpa using hn) hrun
    refine ⟨t :: w, rest, rfl, hw, ?_⟩
    rwa [List.length_cons, Nat.add_comm w.length, ← Nat.add_assoc]
  · intro goals k x w rest hn hts hw hrest
    cases w with
    | nil =>
      rcases he with he | he
      · exact (hrest (by rwa [show rest.head? = some t from hts])).elim
      · exact (he _ hw).elim
    | cons s w =>
      obtain rfl : s = t := by simpa using hts
      rw [List.cons_append, run_took (gs' ++ goals) x (ht goals x),
        h.complete (by simpa using hn) hw hrest, List.length_cons, Nat.add_comm w.length,
        ← Nat.add_assoc]

theorem ReadsAt.take (hr : g (some t) r = .take gs) (h : Reads g limit n gs (after t L) eager)
    (he : some t ∈ eager ∨ ∀ d, [] ∉ L d) :
    ReadsAt g limit (n + 1) (some t) [.rule r] L eager :=
  .took gs (fun goals x => by simp [advance, hr]) h he

/-- A rule that takes or refuses every lookahead. -/
theorem Reads.of_take (hnil : ∀ d, [] ∉ L d) (hnone : ∃ missing, g none r = .refuse missing)
    (h : ∀ t, (∃ gs, g (some t) r = .take gs ∧ Reads g limit n gs (after t L) eager) ∨
      (∃ missing, g (some t) r = .refuse missing) ∧ after t L = 0) :
    Reads g limit (n + 1) [.rule r] L eager := by
  refine .of_at fun next => ?_
  cases next with
  | none =>
    obtain ⟨missing, hr⟩ := hnone
    exact .refuse hr trivial (.inr hnil)
  | some t =>
    obtain ⟨gs, hr, h⟩ | ⟨⟨missing, hr⟩, h⟩ := h t
    · exact .take hr h (.inr hnil)
    · exact .refuse hr h (.inr hnil)

/-- Goals that the recogniser works off alike before the lookahead `next`. -/
def Alike (g : Grammar R) (limit : Option ℕ) (next : Option Terminal) (gs gs' : List (Goal R)) :
    Prop :=
  ∀ goals x, advance g limit next (gs ++ goals) x = advance g limit next (gs' ++ goals) x

theorem Alike.append {hs : List (Goal R)} (h : Alike g limit next gs gs') :
    Alike g limit next (gs ++ hs) (gs' ++ hs) := by
  intro goals x
  rw [List.append_assoc, List.append_assoc, h]

theorem Alike.trans {gs'' : List (Goal R)} (h : Alike g limit next gs gs')
    (h' : Alike g limit next gs' gs'') : Alike g limit next gs gs'' :=
  fun goals x => (h goals x).trans (h' goals x)

theorem ReadsAt.alike (h : ReadsAt g limit n next gs' L eager) (ha : Alike g limit next gs gs') :
    ReadsAt g limit n next gs L eager := by
  constructor
  · intro goals k x ts res hn ht hrun
    rw [run_congr (ht ▸ ha goals x)] at hrun
    exact h.sound hn ht hrun
  · intro goals k x w rest hn ht hw hrest
    rw [run_congr (ht ▸ ha goals x)]
    exact h.complete hn ht hw hrest

theorem Reads.alike (h : Reads g limit n gs' L eager) (ha : ∀ next, Alike g limit next gs gs') :
    Reads g limit n gs L eager :=
  .of_at fun next => (h.at next).alike (ha next)

/-- Before a lookahead that is eager, the empty word need not be read. -/
theorem ReadsAt.add_one (h : ReadsAt g limit n next gs L eager) (he : next ∈ eager) :
    ReadsAt g limit n next gs (L + 1) eager := by
  constructor
  · intro goals k x ts res hn ht hrun
    obtain ⟨w, rest, hts, hw, hrun⟩ := h.sound hn ht hrun
    exact ⟨w, rest, hts, mem_add.mpr (Or.inl hw), hrun⟩
  · intro goals k x w rest hn ht hw hrest
    rcases mem_add.mp hw with hw | rfl
    · exact h.complete hn ht hw hrest
    · exact (hrest (by rwa [show rest.head? = next from ht])).elim

/-- Words that do not start with the lookahead need not be read. -/
theorem ReadsAt.add_left (h : ReadsAt g limit n next gs M eager)
    (hno : next.elim True (after · L = 0)) (hnil : ∀ d, [] ∉ L d) :
    ReadsAt g limit n next gs (L + M) eager := by
  constructor
  · intro goals k x ts res hn ht hrun
    obtain ⟨w, rest, hts, hw, hrun⟩ := h.sound hn ht hrun
    exact ⟨w, rest, hts, mem_add.mpr (Or.inr hw), hrun⟩
  · intro goals k x w rest hn ht hw hrest
    rcases mem_add.mp hw with hw | hw
    · cases w with
      | nil => exact (hnil _ hw).elim
      | cons t w =>
        subst ht
        exact (cons_notMem hno hw).elim
    · exact h.complete hn ht hw hrest

theorem enter_ok {x : Context} (h : ∀ l ∈ limit, x.depth < l) :
    x.enter limit = .ok { x with depth := x.depth + 1 } := by
  cases limit with
  | none => rfl
  | some l => simp [Context.enter, Nat.not_le.mpr (h l rfl)]

theorem enter_error {x : Context} (h : ¬ ∀ l ∈ limit, x.depth < l) :
    ∃ missing, x.enter limit = .error missing := by
  cases limit with
  | none => simp at h
  | some l => exact ⟨.shallowNesting l, by simpa [Context.enter] using h⟩

/-- Goals read one level deeper between a goal that enters the level and the goals `post` that take
its end `c`. -/
theorem Reads.nested {pre : Goal R} {post : List (Goal R)} {c : Terminal}
    (inner : Context → Context) (hd : ∀ x, (inner x).depth = x.depth + 1)
    (hpre : ∀ next goals x, (∀ l ∈ limit, x.depth < l) →
      advance g limit next (pre :: goals) x = advance g limit next goals (inner x))
    (hdeep : ∀ next goals x, (¬ ∀ l ∈ limit, x.depth < l) →
      ∃ missing, advance g limit next (pre :: goals) x = .error missing)
    (hpost : ∀ k goals x ts,
      run g limit k (post ++ goals) (inner x) (c :: ts) = run g limit (k + 1) goals x ts)
    (hend : ∀ next goals x, next ≠ some c →
      ∃ missing, advance g limit next (post ++ goals) (inner x) = .error missing)
    (h : Reads g limit n gs L eager) (hc : some c ∉ eager) :
    Reads g limit n (pre :: gs ++ post) (deeper limit L * letters [c]) ∅ := by
  constructor
  · intro goals k x ts res hn hrun
    rw [List.cons_append, List.cons_append, List.append_assoc] at hrun
    by_cases hx : ∀ l ∈ limit, x.depth < l
    · rw [run_congr (hpre _ _ x hx)] at hrun
      obtain ⟨w, ts, rfl, hw, hrun⟩ := h.sound hn hrun
      by_cases ht : ts.head? = some c
      · obtain ⟨rest, rfl⟩ := List.head?_eq_some_iff.mp ht
        rw [hpost] at hrun
        refine ⟨w ++ [c], rest, by simp, ?_, ?_⟩
        · exact mem_mul.mpr ⟨w, ⟨hx, hd x ▸ hw⟩, [c], by simp, rfl⟩
        · rwa [List.length_append, ← Nat.add_assoc]
      · obtain ⟨missing, he⟩ := hend _ goals x ht
        exact (not_run_of_error he hrun).elim
    · obtain ⟨missing, he⟩ := hdeep ts.head? (gs ++ (post ++ goals)) x hx
      exact (not_run_of_error he hrun).elim
  · intro goals k x w rest hn hw _
    obtain ⟨u, ⟨hx, hu⟩, _, ⟨_, ht, rfl⟩, rfl⟩ := mem_mul.mp hw
    obtain rfl := List.mem_singleton.mp ht
    have hu : u ∈ L (inner x).depth := (hd x).symm ▸ hu
    rw [List.cons_append, List.cons_append, List.append_assoc, run_congr (hpre _ _ x hx),
      List.append_assoc, h.complete (by simpa using hn) hu (by simpa), List.singleton_append, hpost,
      List.length_append, ← Nat.add_assoc]
    rfl

theorem Reads.grouped {group : Group} (h : Reads g limit n gs L eager)
    (hc : some group.closer ∉ eager) :
    Reads g limit n (.openGroup group :: gs ++ [Goal.closeGroup])
      (deeper limit L * letters [group.closer]) ∅ := by
  refine h.nested (fun x => ⟨group :: x.groups, x.depth + 1, x.statements⟩)
    (fun _ => rfl) ?_ ?_ ?_ ?_ hc
  · intro next goals x hx
    simp [advance, enter_ok hx]
  · intro next goals x hx
    obtain ⟨missing, he⟩ := enter_error hx
    exact ⟨missing, by simp [advance, he]⟩
  · intro k goals x ts
    exact run_took goals x (by simp [advance, Context.leave])
  · intro next goals x hne
    exact ⟨.closing group, by simp [advance, hne]⟩

theorem Reads.block {missing : Expectation} (h : Reads g limit n gs L eager)
    (hc : some t ∉ eager) :
    Reads g limit n (.enterBlock :: gs ++ [Goal.need t missing, .leaveBlock])
      (deeper limit L * letters [t]) ∅ := by
  refine h.nested (fun x => { x with depth := x.depth + 1 }) (fun _ => rfl)
    ?_ ?_ ?_ ?_ hc
  · intro next goals x hx
    simp [advance, enter_ok hx]
  · intro next goals x hx
    obtain ⟨missing, he⟩ := enter_error hx
    exact ⟨missing, by simp [advance, he]⟩
  · intro k goals x ts
    rw [run_took (.leaveBlock :: goals) { x with depth := x.depth + 1 }
      (by simp [advance])]
    exact run_congr (by simp [advance, Context.leave])
  · intro next goals x hne
    exact ⟨missing, by simp [advance, hne]⟩

end

end RookLang.Recogniser
