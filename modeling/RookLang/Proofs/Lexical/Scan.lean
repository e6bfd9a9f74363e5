import RookLang.Proofs.Lexical.Runs

/-! The scanner finds the one way in which lexemes cut a text. -/
namespace RookLang.Lexeme

variable {text cs : List Char} {c : Char} {column : Nat} {ls : List Lexeme}

/-- The lexemes of a text, after those that the scanner has. -/
def Scanner.complete (s : Scanner) (text : List Char) : Except Fault (List Lexeme) := do
  let s ← text.foldlM feed s
  let s ← s.finish
  return s.closed.reverse

theorem scan_eq_complete : scan column text = (Scanner.startingAt column).complete text := rfl

theorem complete_cons {s : Scanner} :
    s.complete (c :: cs) = s.feed c >>= fun s => s.complete cs := by
  simp only [Scanner.complete, List.foldlM_cons, bind_assoc]

namespace Scanner

/-- What is open agrees with the lexical grammar and with the columns. -/
def Sound (s : Scanner) : Prop :=
  ∀ o ∈ s.pending, Open.Holds o.run o.text ∧ s.column = o.column + o.text.length

/-- The lexemes that the text adds, by the lexical grammar. -/
def Expects (s : Scanner) (text : List Char) (ls : List Lexeme) : Prop :=
  match s.pending with
  | none => Cuts s.column text ls
  | some o => CutsFrom o.text o.column text ls

/-- The scanner finds what the lexical grammar adds, and nothing else. -/
def Finds (s : Scanner) (text : List Char) : Prop :=
  ∀ ls, s.complete text = .ok ls ↔ ∃ ls', s.Expects text ls' ∧ ls = s.closed.reverse ++ ls'

variable {s : Scanner} {o : Open}

theorem finds_nil (hs : s.Sound) : s.Finds [] := by
  intro ls
  cases hp : s.pending with
  | none => simp [complete, finish, Expects, hp, cuts_nil_iff, eq_comm]
  | some o =>
    obtain ⟨k, h, he⟩ | ⟨⟨f, h⟩, he⟩ := finish_cases hp (hs o hp).1
    · simp [complete, h, Expects, hp, cutsFrom_nil_iff, he, emit, Open.close, eq_comm]
    · simp [complete, h, Expects, hp, cutsFrom_nil_iff, he]

/-- A lexeme that is closed comes before those that the rest of the text adds. -/
theorem exists_emit_iff {l : Lexeme} {P : List Lexeme → Prop} {closed : List Lexeme} :
    (∃ ls', P ls' ∧ ls = (l :: closed).reverse ++ ls') ↔
      ∃ ls', (∃ ls'', P ls'' ∧ ls' = l :: ls'') ∧ ls = closed.reverse ++ ls' := by
  constructor
  · rintro ⟨ls', h, rfl⟩
    exact ⟨l :: ls', ⟨ls', h, rfl⟩, by simp⟩
  · rintro ⟨_, ⟨ls', h, rfl⟩, rfl⟩
    exact ⟨ls', h, by simp⟩

theorem complete_start (hf : ∀ s : Scanner, s.Sound → s.Finds cs) (hp : s.pending = none) :
    (s.start c >>= fun s => s.complete cs) = .ok ls ↔
      ∃ ls', Cuts s.column (c :: cs) ls' ∧ ls = s.closed.reverse ++ ls' := by
  simp only [cuts_cons_iff]
  have h := starts_start s c
  generalize s.start c = r at h
  cases h with
  | gap hg hv =>
    refine (hf _ (by simp [Sound, skip, hp]) ls).trans ?_
    have hn ls' : ¬ CutsFrom [c] s.column cs ls' := fun h => hv h.viable
    simp [Expects, skip, hp, hg, hn]
  | @whole k hg he hv =>
    refine (hf _ (by simp [Sound, skip, emit]) ls).trans ?_
    simp only [hg, Bool.false_eq_true, cutsFrom_whole_iff he hv, false_and, false_or]
    exact exists_emit_iff
  | @opened run hg hr =>
    refine (hf _ (by simp [Sound, grow, Open.text, hr]) ls).trans ?_
    simp [Expects, grow, Open.text, hg]
  | @failed f hg hv =>
    have hn ls' : ¬ CutsFrom [c] s.column cs ls' := fun h => hv h.viable
    refine iff_of_false (by rintro ⟨⟩) ?_
    simp [hg, hn]

theorem complete_extend (hf : ∀ s : Scanner, s.Sound → s.Finds cs) (hs : s.Sound)
    (hp : s.pending = some o) :
    (s.feed c >>= fun s => s.complete cs) = .ok ls ↔
      ∃ ls', CutsFrom o.text o.column (c :: cs) ls' ∧ ls = s.closed.reverse ++ ls' := by
  obtain ⟨hh, hcol⟩ := hs o hp
  simp only [hp, cutsFrom_cons_iff, feed, step]
  have h := extends_extend (s := s) hh c
  generalize s.extend o c = r at h
  cases h with
  | @grown run hr he =>
    have ht : (o.add run c).text = o.text ++ [c] := by simp [Open.add, Open.text]
    refine (hf (s.grow (o.add run c)) ?_ ls).trans ?_
    · rintro _ ⟨⟩
      rw [ht]
      exact ⟨hr, by simp [grow, hcol, Open.add, Nat.add_assoc]⟩
    · simp only [Expects, grow, ht, he, false_and, exists_false, or_false]
      rfl
  | @closed k he hv =>
    have hn ls' : ¬ CutsFrom (o.text ++ [c]) o.column cs ls' := fun h => hv h.viable
    refine (complete_start hf rfl).trans ?_
    simp only [hn, he, false_or, exists_eq_left, ← hcol]
    exact exists_emit_iff
  | @whole run k he hw hv =>
    refine (hf (s.emit ((o.add run c).close k)).skip (by simp [Sound, skip, emit]) ls).trans ?_
    have hl : (o.add run c).close k = ⟨k, o.text ++ [c], o.column⟩ := by
      simp [Open.close, Open.add, Open.text]
    have hcol : s.column + 1 = o.column + (o.text ++ [c]).length := by
      simp [hcol, Nat.add_assoc]
    simp only [he, false_and, exists_false, or_false, cutsFrom_whole_iff hw hv, ← hcol]
    rw [hl]
    exact exists_emit_iff
  | @failed f he hv =>
    have hn ls' : ¬ CutsFrom (o.text ++ [c]) o.column cs ls' := fun h => hv h.viable
    refine iff_of_false (by rintro ⟨⟩) ?_
    simp [he, hn]

theorem finds (hs : s.Sound) : s.Finds text := by
  induction text generalizing s with
  | nil => exact finds_nil hs
  | cons c cs ih =>
    intro ls
    rw [complete_cons]
    cases hp : s.pending with
    | none =>
      have hfeed : s.feed c = s.start c := by
        simp only [feed, step, hp]
        cases s.start c <;> rfl
      rw [hfeed, complete_start (fun s hs => ih hs) hp]
      simp [Expects, hp]
    | some o =>
      rw [complete_extend (fun s hs => ih hs) hs hp]
      simp [Expects, hp]

end Scanner

/-- Scanning succeeds exactly if lexemes cut the text, and finds them. -/
theorem scan_eq_ok_iff : scan column text = .ok ls ↔ Cuts column text ls := by
  rw [scan_eq_complete, Scanner.finds (by simp [Scanner.Sound, Scanner.startingAt])]
  simp [Scanner.Expects, Scanner.startingAt]

/-- There is at most one way in which lexemes cut a text. -/
theorem Cuts.unique {ls' : List Lexeme} (h : Cuts column text ls) (h' : Cuts column text ls') :
    ls = ls' := by
  have hs := (scan_eq_ok_iff.mpr h).symm.trans (scan_eq_ok_iff.mpr h')
  exact Except.ok.inj hs

end RookLang.Lexeme
