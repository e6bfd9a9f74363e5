import RookLang.Proofs.Grammar.Form

/-! The words of forms as languages, one for each depth of nesting. They make a Kleene algebra. -/
namespace RookLang
open Computability

/-- A language for each depth of nesting. -/
abbrev Words := ℕ → Language Terminal

namespace Words

variable {limit : Option ℕ} {L M N : Words} {d : ℕ} {t : Terminal} {ts : List Terminal}
  {w : List Terminal}

def letters (ts : List Terminal) : Words := fun _ => {w | ∃ t ∈ ts, w = [t]}

/-- The words that may stand one level deeper. -/
def deeper (limit : Option ℕ) (L : Words) : Words :=
  fun d => {w | (∀ l ∈ limit, d < l) ∧ w ∈ L (d + 1)}

/-- What may follow `t` at the start of a word. -/
def after (t : Terminal) (L : Words) : Words := fun d => {w | t :: w ∈ L d}

@[simp] theorem mem_letters : w ∈ letters ts d ↔ ∃ t ∈ ts, w = [t] := Iff.rfl

@[simp] theorem mem_deeper : w ∈ deeper limit L d ↔ (∀ l ∈ limit, d < l) ∧ w ∈ L (d + 1) := Iff.rfl

@[simp] theorem mem_after : w ∈ after t L d ↔ t :: w ∈ L d := Iff.rfl

theorem mem_mul : w ∈ (L * M) d ↔ ∃ u ∈ L d, ∃ v ∈ M d, u ++ v = w := Language.mem_mul

@[simp] theorem mem_add : w ∈ (L + M) d ↔ w ∈ L d ∨ w ∈ M d := Iff.rfl

@[simp] theorem mem_one : w ∈ (1 : Words) d ↔ w = [] := Iff.rfl

@[simp] theorem notMem_zero : w ∉ (0 : Words) d := Language.notMem_zero w

theorem cons_notMem (h : after t L = 0) : t :: w ∉ L d := by
  rw [← mem_after, h]
  exact notMem_zero

@[ext] theorem ext {L M : Words} (h : ∀ d w, w ∈ L d ↔ w ∈ M d) : L = M :=
  funext fun d => Language.ext (h d)

@[simp] theorem after_zero : after t 0 = 0 := rfl

@[simp] theorem after_one : after t 1 = 0 := by
  ext d w
  simp

@[simp] theorem after_add : after t (L + M) = after t L + after t M := rfl

theorem after_letters : after t (letters ts) = if t ∈ ts then 1 else 0 := by
  ext d w
  split <;> simp_all

theorem after_letters_mul : after t (letters ts * M) = if t ∈ ts then M else 0 := by
  ext d w
  split <;> simp_all [Language.mem_mul]

theorem after_option : after t (letters ts * M + 1) = if t ∈ ts then M else 0 := by
  rw [after_add, after_letters_mul, after_one, add_zero]

theorem after_mul (h : ∀ d, [] ∉ L d) : after t (L * M) = after t L * M := by
  ext d w
  simp only [mem_after, mem_mul]
  constructor
  · rintro ⟨u, hu, v, hv, huv⟩
    cases u with
    | nil => exact (h d hu).elim
    | cons s u =>
      obtain ⟨rfl, rfl⟩ := List.cons.inj huv
      exact ⟨u, hu, v, hv, rfl⟩
  · rintro ⟨u, hu, v, hv, rfl⟩
    exact ⟨t :: u, hu, v, hv, rfl⟩

theorem after_kstar : after t L∗ = after t L * L∗ := by
  ext d w
  simp only [mem_after, mem_mul, Pi.kstar_apply]
  constructor
  · intro h
    obtain ⟨S, hS, hL⟩ := Language.mem_kstar_iff_exists_nonempty.mp h
    cases S with
    | nil => simp at hS
    | cons u S =>
      obtain ⟨hu, hne⟩ := hL u (by simp)
      cases u with
      | nil => exact (hne rfl).elim
      | cons s u =>
        obtain ⟨rfl, rfl⟩ := List.cons.inj hS
        exact ⟨u, hu, _, Language.join_mem_kstar fun y hy => (hL y (by simp [hy])).1, rfl⟩
  · rintro ⟨u, hu, v, hv, rfl⟩
    rw [← Language.one_add_self_mul_kstar_eq_kstar]
    exact Or.inr (Language.append_mem_mul hu hv)

theorem after_loop : after t (letters ts * M)∗ = if t ∈ ts then M * (letters ts * M)∗ else 0 := by
  rw [after_kstar, after_letters_mul, ite_mul, zero_mul]

theorem after_loop_mul : after t ((letters ts * L)∗ * M) =
    (if t ∈ ts then L * ((letters ts * L)∗ * M) else 0) + after t M := by
  have h : (letters ts * L)∗ * M = letters ts * (L * ((letters ts * L)∗ * M)) + M := by
    conv_lhs => rw [← one_add_mul_kstar, add_mul, one_mul, add_comm]
    simp only [mul_assoc]
  conv_lhs => rw [h, after_add, after_letters_mul]

@[simp] theorem nil_mem_letters : [] ∈ letters ts d ↔ False := by simp

@[simp] theorem nil_mem_mul : [] ∈ (L * M) d ↔ [] ∈ L d ∧ [] ∈ M d := by
  simp [Language.mem_mul]

@[simp] theorem nil_mem_kstar : [] ∈ (L∗) d := Language.nil_mem_kstar _

/-- The words are not empty and start with terminals of `ts`. -/
structure StartsIn (L : Words) (ts : List Terminal) : Prop where
  nil_notMem (d : ℕ) : [] ∉ L d
  after_eq_zero (t : Terminal) (h : t ∉ ts) : after t L = 0

theorem startsIn_letters : StartsIn (letters ts) ts :=
  ⟨by simp, fun t h => by simp [after_letters, h]⟩

theorem StartsIn.mul (h : StartsIn L ts) : StartsIn (L * M) ts :=
  ⟨fun d hd => h.nil_notMem d (nil_mem_mul.mp hd).1, fun t ht => by
    rw [after_mul h.nil_notMem, h.after_eq_zero t ht, zero_mul]⟩

theorem StartsIn.after_add_one (h : StartsIn L ts) (ht : t ∉ ts) : after t (L + 1) = 0 := by
  rw [after_add, h.after_eq_zero t ht, after_one, add_zero]

theorem StartsIn.add {us : List Terminal} (h : StartsIn L ts) (h' : StartsIn M us) :
    StartsIn (L + M) (ts ++ us) := by
  constructor
  · exact fun d hd => (mem_add.mp hd).elim (h.nil_notMem d) (h'.nil_notMem d)
  · intro t ht
    rw [List.mem_append, not_or] at ht
    rw [after_add, h.after_eq_zero t ht.1, h'.after_eq_zero t ht.2, zero_add]

end Words

namespace Form

def words (limit : Option ℕ) (f : Form) : Words := fun d => {w | Derives limit d f w}

end Form

def Phrase.words (limit : Option ℕ) (p : Phrase) : Words := (Form.phrase p).words limit

namespace Form
open Words

variable {limit : Option ℕ} {f g : Form} {d : ℕ} {w : List Terminal}

@[simp] theorem mem_words : w ∈ f.words limit d ↔ Derives limit d f w := Iff.rfl

@[simp] theorem words_oneOf (ts : List Terminal) : (oneOf ts).words limit = letters ts := by
  ext d w
  constructor
  · rintro (h | _)
    exact ⟨_, h, rfl⟩
  · rintro ⟨t, h, rfl⟩
    exact .oneOf h

@[simp] theorem words_empty : empty.words limit = 1 := by
  ext d w
  constructor
  · rintro ⟨⟩
    rfl
  · rintro rfl
    exact .empty

@[simp] theorem words_seq : (f ++ g).words limit = f.words limit * g.words limit := by
  ext d w
  constructor
  · intro h
    cases h with
    | seq hf hg => exact mem_mul.mpr ⟨_, hf, _, hg, rfl⟩
  · intro h
    obtain ⟨u, hf, v, hg, rfl⟩ := mem_mul.mp h
    exact .seq hf hg

@[simp] theorem words_alt : (f ||| g).words limit = f.words limit + g.words limit := by
  ext d w
  constructor
  · intro h
    cases h with
    | left h => exact mem_add.mpr (.inl h)
    | right h => exact mem_add.mpr (.inr h)
  · intro h
    exact (mem_add.mp h).elim .left .right

@[simp] theorem words_many : (many f).words limit = (f.words limit)∗ := by
  ext d w
  constructor
  · intro h
    generalize hm : many f = m at h
    induction h with
    | none => exact nil_mem_kstar
    | more hf _ _ ih =>
      obtain rfl : f = _ := by simpa using hm
      rw [Pi.kstar_apply, ← Language.one_add_self_mul_kstar_eq_kstar]
      exact Or.inr (Language.append_mem_mul hf (ih rfl))
    | _ => cases hm
  · intro h
    obtain ⟨S, rfl, hS⟩ := Language.mem_kstar.mp h
    clear h
    induction S with
    | nil => exact .none
    | cons u S ih =>
      have hS := List.forall_mem_cons.mp hS
      exact .more hS.1 (ih hS.2)

@[simp] theorem words_phrase {p : Phrase} : (phrase p).words limit = p.words limit := rfl

@[simp] theorem words_optional : (optional f).words limit = f.words limit + 1 := by
  rw [optional, words_alt, words_empty]

theorem words_times (n : ℕ) : (f.times n).words limit = f.words limit ^ n := by
  induction n with
  | zero => rw [times, words_empty, pow_zero]
  | succ n ih => rw [times, words_seq, ih, pow_succ']

@[simp] theorem words_list :
    (list f).words limit = f.words limit * (letters [Terminal.comma] * f.words limit)∗ := by
  rw [list, words_seq, words_many, words_seq, words_oneOf]

theorem derives_enclosed {e : Enclosure} : Derives limit d (enclosed e f) w ↔
    ∃ u, w = e.opening ++ u ++ [e.closing] ∧ (e.deepens → ∀ l ∈ limit, d < l) ∧
      Derives limit (d + e.deepens.toNat) f u := by
  constructor
  · intro h
    cases h with
    | enclosed hl h => exact ⟨_, rfl, hl, h⟩
  · rintro ⟨u, rfl, hl, h⟩
    exact .enclosed hl h

theorem mem_letters_mul {t : Terminal} {L : Words} :
    w ∈ (letters [t] * L) d ↔ ∃ u ∈ L d, w = t :: u := by
  simp [Language.mem_mul, eq_comm]

theorem mem_mul_letters {t : Terminal} {L : Words} :
    w ∈ (L * letters [t]) d ↔ ∃ u ∈ L d, w = u ++ [t] := by
  simp [Language.mem_mul, eq_comm]

theorem words_group {b : Group} : (enclosed (.group b) f).words limit =
    letters (Enclosure.group b).opening *
      (deeper limit (f.words limit) * letters [b.closer]) := by
  obtain ⟨t, ht⟩ : ∃ t, (Enclosure.group b).opening = [t] := by cases b <;> exact ⟨_, rfl⟩
  ext d w
  simp only [mem_words, derives_enclosed, ht, mem_letters_mul, mem_mul_letters, mem_deeper]
  constructor
  · rintro ⟨u, rfl, hl, h⟩
    exact ⟨_, ⟨u, ⟨hl rfl, h⟩, rfl⟩, rfl⟩
  · rintro ⟨_, ⟨u, ⟨hl, h⟩, rfl⟩, rfl⟩
    exact ⟨u, rfl, fun _ => hl, h⟩

@[simp] theorem words_parens : (parens f).words limit =
    letters [.sign .leftParen] * (deeper limit (f.words limit) * letters [.sign .rightParen]) :=
  words_group

@[simp] theorem words_brackets : (brackets f).words limit = letters [.sign .leftBracket] *
    (deeper limit (f.words limit) * letters [.sign .rightBracket]) :=
  words_group

@[simp] theorem words_block : block.words limit =
    letters [.sign .colon] * (letters [.newline] * (letters [.plain .indent] *
      (deeper limit (Phrase.statements.words limit) * letters [.plain .dedent]))) := by
  ext d w
  simp only [block, mem_words, derives_enclosed, mem_letters_mul, mem_mul_letters, mem_deeper]
  constructor
  · rintro ⟨u, rfl, hl, h⟩
    exact ⟨_, ⟨_, ⟨_, ⟨u, ⟨hl rfl, h⟩, rfl⟩, rfl⟩, rfl⟩, rfl⟩
  · rintro ⟨_, ⟨_, ⟨_, ⟨u, ⟨hl, h⟩, rfl⟩, rfl⟩, rfl⟩, rfl⟩
    exact ⟨u, rfl, fun _ => hl, h⟩

@[simp] theorem words_clauses : (enclosed .clauses f).words limit =
    letters [.sign .colon] * (letters [.newline] * (letters [.plain .indent] *
      (f.words limit * letters [.plain .dedent]))) := by
  ext d w
  simp only [mem_words, derives_enclosed, mem_letters_mul, mem_mul_letters]
  constructor
  · rintro ⟨u, rfl, -, h⟩
    exact ⟨_, ⟨_, ⟨_, ⟨u, h, rfl⟩, rfl⟩, rfl⟩, rfl⟩
  · rintro ⟨_, ⟨_, ⟨_, ⟨u, h, rfl⟩, rfl⟩, rfl⟩, rfl⟩
    exact ⟨u, rfl, nofun, h⟩

end Form

theorem Phrase.words_eq {limit : Option ℕ} (p : Phrase) : p.words limit = p.form.words limit := by
  ext d w
  constructor
  · rintro ⟨⟩
    assumption
  · exact .phrase

end RookLang
