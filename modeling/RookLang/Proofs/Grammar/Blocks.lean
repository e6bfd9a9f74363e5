import RookLang.Proofs.Grammar.Form

/-! What blocks do to words: levels that open also close, and they open after a colon at the end of
a line and nowhere else. -/
namespace RookLang
open Terminal

namespace Form

/-- Whether a word may end in a colon that a number has to follow, as in the step of a range; none
if other words have colons, or levels, outside of blocks. -/
def endsOpen : Form → Option Bool
  | oneOf ts =>
    if ts = [sign .colon] then some true
    else if ts.all fun t => t ∉ [sign .colon, plain .indent, plain .dedent] then some false
    else none
  | empty | phrase _ => some false
  | seq f g =>
    match f.endsOpen with
    | some false => g.endsOpen
    | some true => if g = oneOf [plain .number] then some false else none
    | none => none
  | alt f g =>
    match f.endsOpen, g.endsOpen with
    | some a, some b => some (a || b)
    | _, _ => none
  | many f | enclosed _ f => f.endsOpen.filter (!·)

theorem endsOpen_append (f g : Form) : (f ++ g).endsOpen =
    match f.endsOpen with
    | some false => g.endsOpen
    | some true => if g = oneOf [plain .number] then some false else none
    | none => none := rfl

theorem endsOpen_oneOf {ts : List Terminal} {b : Bool} (h : (oneOf ts).endsOpen = some b) :
    (ts = [sign .colon] ∧ b = true) ∨
      (∀ t ∈ ts, t ∉ [sign .colon, plain .indent, plain .dedent]) ∧ b = false := by
  unfold endsOpen at h
  split at h
  · rename_i hts
    exact .inl ⟨hts, (Option.some.inj h).symm⟩
  · split at h
    · rename_i hts
      exact .inr ⟨by simpa using hts, (Option.some.inj h).symm⟩
    · cases h

theorem endsOpen_seq {f g : Form} {b : Bool} (h : (f ++ g).endsOpen = some b) :
    (f.endsOpen = some false ∧ g.endsOpen = some b) ∨
      (f.endsOpen = some true ∧ g = oneOf [plain .number]) := by
  rw [endsOpen_append] at h
  split at h
  · exact .inl ⟨‹_›, h⟩
  · split at h
    · exact .inr ⟨‹_›, ‹_›⟩
    · cases h
  · cases h

theorem endsOpen_or {f g : Form} {b : Bool} (h : (f ||| g).endsOpen = some b) :
    ∃ a a', f.endsOpen = some a ∧ g.endsOpen = some a' ∧ (a || a') = b := by
  change (alt f g).endsOpen = some b at h
  unfold endsOpen at h
  split at h
  · rename_i a a' ha ha'
    exact ⟨a, a', ha, ha', Option.some.inj h⟩
  · cases h

theorem endsOpen_filter {f : Form} {b : Bool} (h : f.endsOpen.filter (!·) = some b) :
    f.endsOpen = some false ∧ b = false := by
  obtain ⟨h, hb⟩ := Option.filter_eq_some_iff.mp h
  obtain rfl : b = false := by simpa using hb
  exact ⟨h, rfl⟩

theorem endsOpen_form (p : Phrase) : p.form.endsOpen = some false := by
  cases p <;> decide

theorem endsOpen_program (n : Nat) : (Phrase.program n).endsOpen = some false := by
  cases n with
  | zero => decide
  | succ n =>
    have h : (times Phrase.line n).endsOpen = some false := by
      induction n with
      | zero => rfl
      | succ n ih =>
        have hl : Phrase.line.endsOpen = some false := by decide
        rw [times, endsOpen_append, hl, ih]
    rw [Phrase.program, endsOpen_append, endsOpen_append, h]
    decide

end Form

/-- A property of words that the parts of the grammar keep. -/
structure Kept (P : List Terminal → Prop) : Prop where
  nil : P []
  append {u v} (hu : P u) (hv : P v) : P (u ++ v)
  letter {t} (h : t ∉ [sign .colon, plain .indent, plain .dedent]) : P [t]
  step : P [sign .colon, plain .number]
  level {w} (h : P w) : P ([sign .colon, newline, plain .indent] ++ w ++ [plain .dedent])

/-- Words with a property, which those that end in a colon have without it if `ends` holds. -/
def UpToColon (P : List Terminal → Prop) (ends : Bool) (w : List Terminal) : Prop :=
  P w ∨ ends ∧ ∃ u, w = u ++ [sign .colon] ∧ P u

variable {P : List Terminal → Prop} {u v w : List Terminal} {a b : Bool}

theorem UpToColon.whole (h : UpToColon P false w) : P w := h.resolve_right (by simp)

theorem UpToColon.mono (h : UpToColon P a w) (hab : a → b) : UpToColon P b w :=
  h.imp_right (And.imp_left hab)

namespace Kept

theorem append_upToColon (hP : Kept P) (hu : P u) (hv : UpToColon P b v) :
    UpToColon P b (u ++ v) := by
  obtain hv | ⟨hb, v, rfl, hv⟩ := hv
  · exact .inl (hP.append hu hv)
  · exact .inr ⟨hb, u ++ v, by rw [List.append_assoc], hP.append hu hv⟩

theorem append_number (hP : Kept P) (hu : UpToColon P a u) : P (u ++ [plain .number]) := by
  obtain hu | ⟨-, u, rfl, hu⟩ := hu
  · exact hP.append hu (hP.letter (by simp))
  · rw [List.append_assoc]
    exact hP.append hu hP.step

theorem enclosed (hP : Kept P) (e : Enclosure) (h : P w) :
    P (e.opening ++ w ++ [e.closing]) := by
  cases e with
  | group g =>
    cases g <;> exact hP.append (hP.append (hP.letter (by decide)) h) (hP.letter (by decide))
  | block => exact hP.level h
  | clauses => exact hP.level h

end Kept

namespace Derives

variable {limit : Option Nat} {d : Nat} {f : Form}

/-- Words have each property that is kept, up to a colon that a number has to follow. -/
theorem upToColon (hP : Kept P) (h : Derives limit d f w) (hf : f.endsOpen = some b) :
    UpToColon P b w := by
  induction h generalizing b with
  | @oneOf d ts t ht =>
    obtain ⟨rfl, rfl⟩ | ⟨hts, rfl⟩ := Form.endsOpen_oneOf hf
    · obtain rfl := List.mem_singleton.mp ht
      exact .inr ⟨rfl, [], rfl, hP.nil⟩
    · exact .inl (hP.letter (hts t ht))
  | empty => exact .inl hP.nil
  | seq _ hg ihu ihv =>
    obtain ⟨hcf, hcg⟩ | ⟨hcf, rfl⟩ := Form.endsOpen_seq hf
    · exact hP.append_upToColon (ihu hcf).whole (ihv hcg)
    · obtain ⟨ht⟩ := hg
      obtain rfl := List.mem_singleton.mp ht
      exact .inl (hP.append_number (ihu hcf))
  | left _ ih =>
    obtain ⟨a, b', ha, -, rfl⟩ := Form.endsOpen_or hf
    exact (ih ha).mono (by simp +contextual)
  | right _ ih =>
    obtain ⟨a, b', -, hb, rfl⟩ := Form.endsOpen_or hf
    exact (ih hb).mono (by simp +contextual)
  | none => exact .inl hP.nil
  | more _ _ ihu ihv =>
    obtain ⟨hc, rfl⟩ := Form.endsOpen_filter hf
    exact .inl (hP.append (ihu hc).whole (ihv hf).whole)
  | phrase _ ih => exact .inl (ih (Form.endsOpen_form _)).whole
  | enclosed _ _ ih => exact .inl (hP.enclosed _ (ih (Form.endsOpen_filter hf).1).whole)

/-- Words of programs have each property that is kept. -/
theorem kept_program (hP : Kept P) {n : Nat} (h : Derives limit d (Phrase.program n) w) : P w :=
  (h.upToColon hP (Form.endsOpen_program n)).whole

end Derives

/-- As many levels close as open. -/
theorem kept_count : Kept fun w => w.count (plain .indent) = w.count (plain .dedent) where
  nil := rfl
  append hu hv := by rw [List.count_append, List.count_append, hu, hv]
  letter h := by
    simp only [List.mem_cons, List.not_mem_nil, or_false, not_or] at h
    rw [List.count_singleton, List.count_singleton]
    simp [h.2.1, h.2.2]
  step := by decide
  level h := by simp [List.count_append, h]

section

variable {t : Terminal} {Q : List Terminal → Prop} {u w : List Terminal}

theorem suffix_of_not_mem (h : t ∉ w) (v : List Terminal) (hv : t :: v <:+ w) : Q v :=
  absurd (hv.subset (List.mem_cons_self ..)) h

/-- What holds of all that follows a letter keeps with words that are put together. -/
theorem suffix_append (hQ : ∀ v v', Q v → Q (v ++ v')) (hu : ∀ v, t :: v <:+ u → Q v)
    (hw : ∀ v, t :: v <:+ w → Q v) (v : List Terminal) (h : t :: v <:+ u ++ w) : Q v := by
  rcases List.suffix_or_suffix_of_suffix h (List.suffix_append u w) with h | ⟨p, hp⟩
  · exact hw v h
  · cases p with
    | nil => exact hw v ⟨[], hp.symm⟩
    | cons t' p =>
      obtain ⟨rfl, rfl⟩ := List.cons_eq_cons.mp hp
      exact hQ p w (hu p (List.suffix_append_self_iff.mp h))

theorem prefix_of_not_mem (h : t ∉ w) (v : List Terminal) (hv : v ++ [t] <+: w) : Q v :=
  absurd (hv.subset (List.mem_append_right _ (List.mem_cons_self ..))) h

/-- What holds of all that comes before a letter keeps with words that are put together. -/
theorem prefix_append (hQ : ∀ v v', Q v → Q (v' ++ v)) (hu : ∀ v, v ++ [t] <+: u → Q v)
    (hw : ∀ v, v ++ [t] <+: w → Q v) (v : List Terminal) (h : v ++ [t] <+: u ++ w) : Q v := by
  rcases List.prefix_or_prefix_of_prefix h (List.prefix_append u w) with hp | hp
  · exact hu v hp
  · rcases List.prefix_concat_iff.mp hp with rfl | ⟨p, rfl⟩
    · exact hu v List.prefix_rfl
    · rw [List.append_assoc, List.prefix_append_right_inj] at h
      exact hQ p u (hw p h)

end

/-- After a colon a level opens, or a number follows. -/
theorem kept_after_colon : Kept fun w => ∀ v, sign .colon :: v <:+ w →
    [newline, plain .indent] <+: v ∨ [plain .number] <+: v := by
  have append {u w} := suffix_append (t := sign .colon) (u := u) (w := w)
    (Q := fun v => [newline, plain .indent] <+: v ∨ [plain .number] <+: v)
    fun _ _ => Or.imp List.prefix_append_of_prefix List.prefix_append_of_prefix
  refine ⟨by simp, append, fun h => ?_, by simp [List.suffix_cons_iff], fun h => ?_⟩
  · exact suffix_of_not_mem (by simp_all [eq_comm])
  · exact append (append (by simp [List.suffix_cons_iff]) h) (suffix_of_not_mem (by decide))

/-- A level opens after a colon at the end of a line. -/
theorem kept_before_indent : Kept fun w => ∀ v, v ++ [plain .indent] <+: w →
    [sign .colon, newline] <:+ v := by
  have append {u w} := prefix_append (t := plain .indent) (u := u) (w := w)
    (Q := fun v => [sign .colon, newline] <:+ v) fun _ _ => List.suffix_append_of_suffix
  refine ⟨by simp, append, fun h => ?_, prefix_of_not_mem (by decide), fun h => ?_⟩
  · exact prefix_of_not_mem (by simp_all [eq_comm])
  · refine append (append (fun v hv => ?_) h) (prefix_of_not_mem (by decide))
    have hv : v ++ [plain .indent] <+: [sign .colon, newline] ++ [plain .indent] := hv
    rcases List.prefix_concat_iff.mp hv with hv | hv
    · exact List.append_cancel_right hv ▸ List.suffix_rfl
    · exact prefix_of_not_mem (by decide) v hv

end RookLang
