import RookLang.Proofs.Grammar.Statements
import RookLang.Proofs.Grammar.TopLines

/-! The terminals that words are made of, as far as the forms of the grammar tell. -/
namespace RookLang
open Terminal

/-- Are the words of the form made of terminals in `p`, if those of the phrases in `ps` are? -/
def Form.madeOf (p : Terminal → Bool) (ps : Phrase → Bool) : Form → Bool
  | oneOf ts => ts.all p
  | empty => true
  | seq f g | alt f g => f.madeOf p ps && g.madeOf p ps
  | many f => f.madeOf p ps
  | phrase q => ps q
  | enclosed e f => e.opening.all p && f.madeOf p ps && p e.closing

namespace Form

variable {f g : Form} {p : Terminal → Bool} {ps : Phrase → Bool}

theorem madeOf_append : (f ++ g).madeOf p ps = (f.madeOf p ps && g.madeOf p ps) := rfl

theorem madeOf_or : (f ||| g).madeOf p ps = (f.madeOf p ps && g.madeOf p ps) := rfl

theorem madeOf_times (h : f.madeOf p ps) (n : Nat) : (f.times n).madeOf p ps := by
  induction n with
  | zero => rfl
  | succ n ih => simp [times, madeOf_append, h, ih]

end Form

variable {limit : Option Nat} {d n : Nat} {f : Form} {w : List Terminal}

theorem Derives.forall_mem {p : Terminal → Bool} {ps : Phrase → Bool}
    (hp : ∀ q, ps q → q.form.madeOf p ps) (h : Derives limit d f w) (hf : f.madeOf p ps) :
    ∀ t ∈ w, p t := by
  induction h with
  | oneOf ht => simpa using List.all_eq_true.mp hf _ ht
  | empty | none => simp
  | seq _ _ ihu ihv =>
    rw [Form.madeOf_append, Bool.and_eq_true] at hf
    exact List.forall_mem_append.mpr ⟨ihu hf.1, ihv hf.2⟩
  | left _ ih =>
    rw [Form.madeOf_or, Bool.and_eq_true] at hf
    exact ih hf.1
  | right _ ih =>
    rw [Form.madeOf_or, Bool.and_eq_true] at hf
    exact ih hf.2
  | more _ _ ihu ihv => exact List.forall_mem_append.mpr ⟨ihu hf, ihv hf⟩
  | phrase _ ih => exact ih (hp _ hf)
  | enclosed _ _ ih =>
    rw [Form.madeOf, Bool.and_eq_true, Bool.and_eq_true, List.all_eq_true] at hf
    obtain ⟨⟨ho, hf⟩, hc⟩ := hf
    rw [List.forall_mem_append, List.forall_mem_append, List.forall_mem_singleton]
    exact ⟨⟨ho, ih hf⟩, hc⟩

namespace Phrase
open Form

/-- Phrases that stand in one line. -/
def isInline (p : Phrase) : Bool := p != statements && p != compound

end Phrase

/-- A form whose words stand in one line has no layout in them. -/
def Form.isInline (f : Form) : Bool := f.madeOf (!·.isLayout) Phrase.isInline

theorem Derives.isLayout_eq_false (h : Derives limit d f w) (hf : f.isInline) :
    ∀ t ∈ w, t.isLayout = false := by
  have hp (q : Phrase) : q.isInline → q.form.isInline := by cases q <;> decide
  simpa using h.forall_mem hp hf

/-- The end of the input comes after all statements. -/
theorem Derives.endOfInput_notMem (h : Derives limit d f w)
    (hf : f.madeOf (· != plain .endOfInput) fun _ => true) : plain .endOfInput ∉ w := by
  have hp (q : Phrase) (_ : true) : q.form.madeOf (· != plain .endOfInput) fun _ => true := by
    cases q <;> decide
  intro hm
  simpa using h.forall_mem hp hf _ hm

namespace Phrase
open Form Words

variable {m : ℕ}

theorem isLayout_simple (h : w ∈ simple.words limit d) : ∀ t ∈ w, t.isLayout = false :=
  Derives.isLayout_eq_false h (by decide)

theorem madeOf_statements (m : ℕ) :
    (times line m ++ (line ||| simple)).madeOf (· != plain .endOfInput) fun _ => true := by
  rw [madeOf_append, madeOf_times (by decide)]
  decide

/-- The end of the input comes last, if it comes. -/
theorem endOfInput_notMem_dropLast (h : Derives limit d (program m) w) :
    plain .endOfInput ∉ w.dropLast := by
  cases m with
  | zero =>
    rcases mem_add.mp (programs_zero ▸ show w ∈ programs limit 0 d from h) with ⟨t, -, rfl⟩ | rfl
    · simp
    · simp
  | succ m =>
    have hd : Derives limit d (times line m ++ (line ||| simple) ++
        optional (plain .endOfInput)) w := h
    cases hd with
    | seq hl hend =>
      have hl := hl.endOfInput_notMem (madeOf_statements m)
      cases hend with
      | left hend =>
        cases hend
        simpa using hl
      | right hend =>
        cases hend
        exact fun hw => hl (by simpa using List.dropLast_subset _ hw)

/-- A program that ends with the end of the input, before which a line or a block ends, is made of
complete lines. -/
theorem lines_of_program (h : w ++ [plain .endOfInput] ∈ programs limit m d)
    (hw : ∀ t ∈ w.getLast?, t.isLayout) : w ∈ (line.words limit ^ m) d := by
  cases m with
  | zero =>
    rw [programs_zero] at h
    have hnil : w = [] := by
      rcases mem_add.mp h with ⟨t, -, h⟩ | h
      · simpa using congrArg List.length h
      · simp at h
    rw [hnil, pow_zero]
    rfl
  | succ m =>
    have hd : Derives limit d (times line m ++ (line ||| simple) ++
        optional (plain .endOfInput)) (w ++ [plain .endOfInput]) := h
    generalize he : w ++ [plain .endOfInput] = w' at hd
    cases hd with
    | seq hl hend =>
      cases hend with
      | right hend =>
        cases hend
        rw [List.append_nil] at he
        exact (hl.endOfInput_notMem (madeOf_statements m) (by simp [← he])).elim
      | left hend =>
        obtain ⟨ht⟩ := hend
        obtain ⟨rfl, -⟩ := List.append_inj' he rfl
        have hl : w ∈ (line.words limit ^ m * (line.words limit + simple.words limit)) d := by
          rwa [← words_times, ← words_phrase, ← words_alt, ← words_seq]
        obtain ⟨u, hu, v, hv, rfl⟩ := mem_mul.mp hl
        rcases mem_add.mp hv with hv | hv
        · rw [pow_succ]
          exact mem_mul.mpr ⟨u, hu, v, hv, rfl⟩
        · have hne : v ≠ [] := fun h => startsIn_simple.nil_notMem d (h ▸ hv)
          have ht := hw (v.getLast hne) (by
            rw [List.getLast?_append_of_ne_nil _ hne, List.getLast?_eq_some_getLast hne]; rfl)
          simp [isLayout_simple hv _ (List.getLast_mem hne)] at ht

end Phrase

end RookLang
