import RookLang.Proofs.Grammar.Blocks

/-! Lines outside all levels: each statement of a program starts one of them, and the others start
the branches of an `if`. -/
namespace RookLang
open Terminal

namespace Terminal

def isLayout : Terminal → Bool
  | .plain k => k.isLayout
  | _ => false

/-- Does the terminal start another branch of an `if`? -/
def isBranch : Terminal → Bool
  | .word .elif | .word .else_ => true
  | _ => false

/-- The number of levels that are open after the terminal. -/
def levelAfter (level : Nat) : Terminal → Nat
  | .plain .indent => level + 1
  | .plain .dedent => level - 1
  | _ => level

end Terminal

/-- How many lines start outside all levels, those of branches left out, in terminals that come
while `level` levels are open. The first terminal starts a line if `fresh` holds. -/
def topLines (fresh : Bool) (level : Nat) : List Terminal → Nat
  | [] => 0
  | t :: w =>
    if t.isLayout then topLines true (t.levelAfter level) w
    else (fresh && level == 0 && !t.isBranch).toNat + topLines false level w

section
variable {fresh : Bool} {level : Nat} {t : Terminal} {w : List Terminal}

theorem topLines_layout (h : t.isLayout) :
    topLines fresh level (t :: w) = topLines true (t.levelAfter level) w := if_pos h

theorem topLines_ink (h : t.isLayout = false) : topLines fresh level (t :: w) =
    (fresh && level == 0 && !t.isBranch).toNat + topLines false level w := by
  simp [topLines, h]

theorem topLines_eq_zero (h : ∀ t ∈ w, t.isLayout) : topLines fresh level w = 0 := by
  induction w generalizing fresh level with
  | nil => rfl
  | cons t w ih =>
    obtain ⟨ht, h⟩ := List.forall_mem_cons.mp h
    rw [topLines_layout ht, ih h]

end

/-- Inside a level no line counts, and words leave the level as it was. -/
theorem kept_deep : Kept fun w => ∀ fresh level v, ∃ fresh',
    topLines fresh (level + 1) (w ++ v) = topLines fresh' (level + 1) v where
  nil fresh level v := ⟨fresh, rfl⟩
  append {u w} hu hw fresh level v := by
    obtain ⟨fresh', hu⟩ := hu fresh level (w ++ v)
    obtain ⟨fresh'', hw⟩ := hw fresh' level v
    exact ⟨fresh'', by rw [List.append_assoc, hu, hw]⟩
  letter {t} h fresh level v := by
    simp only [List.mem_cons, List.not_mem_nil, or_false, not_or] at h
    by_cases ht : t.isLayout
    · refine ⟨true, (topLines_layout ht).trans ?_⟩
      unfold levelAfter
      split <;> simp_all
    · refine ⟨false, (topLines_ink (by simpa using ht)).trans ?_⟩
      simp
  step fresh level v := ⟨false, by simp [topLines, isLayout, Kind.isLayout]⟩
  level {w} hw fresh level v := by
    obtain ⟨fresh', hw⟩ := hw true (level + 1) (plain .dedent :: v)
    refine ⟨true, ?_⟩
    simp [topLines, isLayout, Kind.isLayout, levelAfter, hw]

/-- What the words of a phrase do outside all levels. -/
def Phrase.topEffect : Phrase → Bool → Option (Nat × Bool)
  | statements, _ => none
  | compound, fresh => if fresh then some (1, true) else none
  | simple, true | printCall, true | inputCall, true => some (1, false)
  | _, true => none
  | _, false => some (0, false)

namespace Form

/-- What the words of a form do outside all levels: how many lines start with them, and whether a
line ends with them. None if the words differ in that. -/
def topEffect : Form → Bool → Option (Nat × Bool)
  | oneOf ts, fresh =>
    if ts = [newline] then some (0, true)
    else if ts.any (·.isLayout) then none
    else if ts.all (·.isBranch) then some (0, false)
    else if ts.all fun t => !t.isBranch then some (fresh.toNat, false)
    else none
  | empty, fresh => some (0, fresh)
  | seq f g, fresh =>
    match f.topEffect fresh with
    | some (m, fresh') => (g.topEffect fresh').map fun (n, fresh'') => (m + n, fresh'')
    | none => none
  | alt f g, fresh => if f.topEffect fresh = g.topEffect fresh then f.topEffect fresh else none
  | many f, fresh => (f.topEffect fresh).filter (· == (0, fresh))
  | phrase p, fresh => p.topEffect fresh
  | enclosed (.group _) f, fresh =>
    (f.topEffect false).filter (· == (0, false)) |>.map fun _ => (fresh.toNat, false)
  | enclosed _ f, fresh => if fresh || f.endsOpen ≠ some false then none else some (0, true)

theorem topEffect_form (p : Phrase) (fresh : Bool) (e : Nat × Bool)
    (h : p.topEffect fresh = some e) : p.form.topEffect fresh = some e := by
  revert h
  cases p <;> cases fresh <;> decide +revert

variable {f g : Form} {ts : List Terminal} {fresh fresh' : Bool} {n : Nat} {e : Nat × Bool}

theorem topEffect_append (f g : Form) (fresh : Bool) : (f ++ g).topEffect fresh =
    match f.topEffect fresh with
    | some (m, fresh') => (g.topEffect fresh').map fun (n, fresh'') => (m + n, fresh'')
    | none => none := rfl

theorem topEffect_oneOf (h : (oneOf ts).topEffect fresh = some (n, fresh')) :
    (ts = [newline] ∧ n = 0 ∧ fresh' = true) ∨
      (∀ t ∈ ts, t.isLayout = false ∧ n = (fresh && !t.isBranch).toNat) ∧ fresh' = false := by
  unfold topEffect at h
  split at h
  · simp_all
  · split at h
    · cases h
    · refine .inr ?_
      split at h
      · simp_all
      · split at h
        · cases fresh <;> simp_all
        · cases h

theorem topEffect_seq (h : (f ++ g).topEffect fresh = some (n, fresh')) :
    ∃ k m next, f.topEffect fresh = some (k, next) ∧ g.topEffect next = some (m, fresh') ∧
      k + m = n := by
  rw [topEffect_append] at h
  split at h
  · rename_i k next hf
    obtain ⟨⟨m, _⟩, hg, he⟩ := Option.map_eq_some_iff.mp h
    obtain ⟨rfl, rfl⟩ := Prod.mk.inj he
    exact ⟨k, m, next, hf, hg, rfl⟩
  · cases h

theorem topEffect_or (h : (f ||| g).topEffect fresh = some e) :
    f.topEffect fresh = some e ∧ g.topEffect fresh = some e := by
  change (alt f g).topEffect fresh = some e at h
  unfold topEffect at h
  split at h
  · rename_i he
    exact ⟨h, he ▸ h⟩
  · cases h

theorem topEffect_many (h : (many f).topEffect fresh = some e) :
    f.topEffect fresh = some (0, fresh) ∧ e = (0, fresh) := by
  obtain ⟨h, he⟩ := Option.filter_eq_some_iff.mp h
  obtain rfl : e = (0, fresh) := by simpa using he
  exact ⟨h, rfl⟩

theorem topEffect_group {b : Group} (h : (enclosed (.group b) f).topEffect fresh = some e) :
    f.topEffect false = some (0, false) ∧ e = (fresh.toNat, false) := by
  obtain ⟨e', hf, rfl⟩ := Option.map_eq_some_iff.mp h
  obtain ⟨hf, he⟩ := Option.filter_eq_some_iff.mp hf
  obtain rfl : e' = (0, false) := by simpa using he
  exact ⟨hf, rfl⟩

theorem topEffect_level (h : (if fresh || f.endsOpen ≠ some false then none else some (0, true)) =
    some e) : fresh = false ∧ f.endsOpen = some false ∧ e = (0, true) := by
  split at h
  · cases h
  · simp_all

end Form

namespace Derives

variable {limit : Option Nat} {d n : Nat} {f : Form} {u w : List Terminal} {fresh fresh' : Bool}

theorem topLines_group {b : Group} (h : ∀ v, topLines false 0 (w ++ v) = topLines false 0 v)
    (v : List Terminal) :
    topLines fresh 0 ((Enclosure.group b).opening ++ w ++ [(Enclosure.group b).closing] ++ v) =
      fresh.toNat + topLines false 0 v := by
  cases b <;>
    simp [Enclosure.opening, Enclosure.closing, Group.closer, topLines, isLayout, Kind.isLayout,
      isBranch, h]

/-- A block of statements ends its line and holds no line outside all levels. -/
theorem topLines_level (h : Derives limit d f w) (hf : f.endsOpen = some false)
    (v : List Terminal) :
    topLines false 0 ([sign .colon, newline, plain .indent] ++ w ++ [plain .dedent] ++ v) =
      topLines true 0 v := by
  obtain ⟨fresh', hw⟩ := (h.upToColon kept_deep hf).whole true 0 (plain .dedent :: v)
  simp [topLines, isLayout, Kind.isLayout, levelAfter] at hw ⊢
  exact hw

/-- The words of a form do what the form tells. -/
theorem topLines_append (h : Derives limit d f w) (hf : f.topEffect fresh = some (n, fresh'))
    (v : List Terminal) : topLines fresh 0 (w ++ v) = n + topLines fresh' 0 v := by
  induction h generalizing fresh fresh' n v with
  | @oneOf d ts t ht =>
    obtain ⟨rfl, rfl, rfl⟩ | ⟨hts, rfl⟩ := Form.topEffect_oneOf hf
    · obtain rfl := List.mem_singleton.mp ht
      rw [List.singleton_append, topLines_layout rfl, Nat.zero_add]
      rfl
    · obtain ⟨hl, rfl⟩ := hts t ht
      rw [List.singleton_append, topLines_ink hl]
      simp
  | empty =>
    obtain ⟨rfl, rfl⟩ := Prod.mk.inj (Option.some.inj hf)
    exact (Nat.zero_add _).symm
  | seq _ _ ihu ihw =>
    obtain ⟨k, m, next, hf', hg, rfl⟩ := Form.topEffect_seq hf
    rw [List.append_assoc, ihu hf', ihw hg, Nat.add_assoc]
  | left _ ih => exact ih (Form.topEffect_or hf).1 v
  | right _ ih => exact ih (Form.topEffect_or hf).2 v
  | none =>
    obtain ⟨rfl, rfl⟩ := Prod.mk.inj (Form.topEffect_many hf).2
    exact (Nat.zero_add _).symm
  | more _ _ ihu ihw =>
    obtain ⟨hc, he⟩ := Form.topEffect_many hf
    rw [List.append_assoc, ihu hc, ihw hf, Nat.zero_add]
  | phrase _ ih => exact ih (Form.topEffect_form _ _ _ hf) v
  | @enclosed d e f w _ h ih =>
    cases e with
    | group b =>
      obtain ⟨hg, he⟩ := Form.topEffect_group hf
      obtain ⟨rfl, rfl⟩ := Prod.mk.inj he
      exact topLines_group (fun v => (ih hg v).trans (Nat.zero_add _)) v
    | block | clauses =>
      obtain ⟨rfl, hc, he⟩ := Form.topEffect_level hf
      obtain ⟨rfl, rfl⟩ := Prod.mk.inj he
      rw [Nat.zero_add]
      exact topLines_level h hc v

end Derives

namespace Phrase
open Form

theorem topEffect_line : line.topEffect true = some (1, true) := by decide

theorem topEffect_simple : (phrase simple).topEffect true = some (1, false) := rfl

theorem topEffect_times (n : Nat) : (times line n).topEffect true = some (n, true) := by
  induction n with
  | zero => rfl
  | succ n ih =>
    rw [times, topEffect_append, topEffect_line]
    simp [ih, Nat.add_comm]

end Phrase

/-- What may follow the last statement of a program is no line. -/
theorem Derives.topLines_end {limit : Option Nat} {d : Nat} {fresh : Bool} {w : List Terminal}
    (h : Derives limit d (Form.optional (plain .endOfInput)) w) : topLines fresh 0 w = 0 := by
  cases h with
  | left h =>
    obtain ⟨ht⟩ := h
    obtain rfl := List.mem_singleton.mp ht
    rfl
  | right h =>
    cases h
    rfl

/-- Each statement of a program starts a line outside all levels. -/
theorem Derives.topLines_program {limit : Option Nat} {d n : Nat} {w : List Terminal}
    (h : Derives limit d (Phrase.program n) w) : topLines true 0 w = n := by
  cases n with
  | zero => exact topLines_end h
  | succ n =>
    cases h with
    | seq h hend =>
      cases h with
      | seq hn hlast =>
        rw [List.append_assoc, hn.topLines_append (Phrase.topEffect_times n)]
        cases hlast with
        | left h => rw [h.topLines_append Phrase.topEffect_line, hend.topLines_end]
        | right h => rw [h.topLines_append Phrase.topEffect_simple, hend.topLines_end]

end RookLang
