import RookLang.Lexeme

/-! The loop that scans a line. A step may hand its character back, so that not every step moves on;
but no character is handed back twice. -/
namespace RookLang.Lexeme.Scanner

/-- Step on the characters of a text, on each until it is taken. The number is that of the steps. -/
inductive Loops : Scanner → List Char → Nat → Except Fault Scanner → Prop
  | done {s} : Loops s [] 0 (.ok s)
  | taken {s t c text n answer} (h : s.step c = .ok (.taken t)) (hr : Loops t text n answer) :
    Loops s (c :: text) (n + 1) answer
  | handedBack {s t c text n answer} (h : s.step c = .ok (.handedBack t))
    (hr : Loops t (c :: text) n answer) : Loops s (c :: text) (n + 1) answer
  | failed {s c text f} (h : s.step c = .error f) : Loops s (c :: text) 1 (.error f)

variable {s t : Scanner} {c : Char} {text : List Char} {m n : Nat}
  {answer answer' : Except Fault Scanner}

theorem step_eq_start (h : s.pending = none) : s.step c = (s.start c).map .taken := by
  rw [step, h]

/-- Without an open lexeme the character is taken, or is at fault. -/
theorem step_ne_handedBack (h : s.pending = none) : s.step c ≠ .ok (.handedBack t) := by
  rw [step_eq_start h]
  cases s.start c <;> nofun

section
variable (ht : ∀ s, ∃ n, Loops s text n (text.foldlM feed s) ∧ n ≤ 2 * text.length)
include ht

theorem exists_loops_start (h : s.pending = none) :
    ∃ n, Loops s (c :: text) n (s.start c >>= text.foldlM feed) ∧ n ≤ 2 * text.length + 1 := by
  have hs := step_eq_start (c := c) h
  cases hc : s.start c with
  | error f =>
    rw [hc] at hs
    exact ⟨1, .failed hs, Nat.le_add_left ..⟩
  | ok t =>
    rw [hc] at hs
    obtain ⟨n, hn, hle⟩ := ht t
    exact ⟨n + 1, .taken hs hn, Nat.succ_le_succ hle⟩

theorem exists_loops_cons :
    ∃ n, Loops s (c :: text) n (s.feed c >>= text.foldlM feed) ∧ n ≤ 2 * text.length + 2 := by
  cases hs : s.step c with
  | error f =>
    refine ⟨1, ?_, Nat.le_add_left ..⟩
    rw [feed, hs]
    exact .failed hs
  | ok step =>
    cases step with
    | taken t =>
      obtain ⟨n, hn, hle⟩ := ht t
      refine ⟨n + 1, ?_, by omega⟩
      rw [feed, hs]
      exact .taken hs hn
    | handedBack t =>
      obtain ⟨n, hn, hle⟩ := exists_loops_start ht (pending_of_handedBack hs)
      refine ⟨n + 1, ?_, by omega⟩
      rw [feed, hs]
      exact .handedBack hs hn

end

/-- The loop ends within two steps for each character, and reads what the scanner reads. -/
theorem exists_loops (s : Scanner) (text : List Char) :
    ∃ n, Loops s text n (text.foldlM feed s) ∧ n ≤ 2 * text.length := by
  induction text generalizing s with
  | nil => exact ⟨0, .done, Nat.le_refl _⟩
  | cons c text ih =>
    rw [List.foldlM_cons]
    exact exists_loops_cons ih

/-- There is one way for the loop to go. -/
theorem Loops.unique (h : Loops s text m answer) (h' : Loops s text n answer') :
    m = n ∧ answer = answer' := by
  induction h generalizing n answer' with
  | done =>
    cases h'
    exact ⟨rfl, rfl⟩
  | taken h _ ih =>
    cases h' with
    | taken h' hr' =>
      cases h.symm.trans h'
      obtain ⟨rfl, rfl⟩ := ih hr'
      exact ⟨rfl, rfl⟩
    | handedBack h' | failed h' => cases h.symm.trans h'
  | handedBack h _ ih =>
    cases h' with
    | handedBack h' hr' =>
      cases h.symm.trans h'
      obtain ⟨rfl, rfl⟩ := ih hr'
      exact ⟨rfl, rfl⟩
    | taken h' | failed h' => cases h.symm.trans h'
  | failed h =>
    cases h' with
    | failed h' =>
      cases h.symm.trans h'
      exact ⟨rfl, rfl⟩
    | taken h' | handedBack h' => cases h.symm.trans h'

theorem Loops.le (h : Loops s text n answer) :
    n ≤ 2 * text.length ∧ answer = text.foldlM feed s := by
  obtain ⟨m, hm, hle⟩ := exists_loops s text
  obtain ⟨rfl, rfl⟩ := h.unique hm
  exact ⟨hle, rfl⟩

end RookLang.Lexeme.Scanner
