import RookLang.Proofs.Lexical.Characters

/-! Where lexemes stand in a text, and where the scanner finds a fault: after lexemes that cut the
text before it. -/
namespace RookLang.Lexeme
open Character

variable {start column : ℕ} {text p u v x body : List Char} {kind : Kind} {barred : Char → Bool}
  {ls : List Lexeme} {f : Fault} {c : Char}

/-- Spaces come only after a quote that opens a string. -/
def Solid (text : List Char) : Prop :=
  ∀ y z, text = y ++ ' ' :: z → ∃ body, y = '"' :: body ∧ '"' ∉ body

theorem solid_of_notMem (h : ' ' ∉ text) : Solid text := by
  rintro y z rfl
  simp at h

theorem solid_string (h : '"' ∉ body) : Solid ('"' :: body) := by
  intro y z ht
  cases y with
  | nil => cases ht
  | cons d y =>
    obtain ⟨rfl, rfl⟩ := List.cons.inj ht
    exact ⟨y, rfl, fun hm => h (List.mem_append_left _ hm)⟩

theorem Solid.concat (h : Solid text) (hc : c ≠ ' ') : Solid (text ++ [c]) := by
  intro y z ht
  rcases List.eq_nil_or_concat' z with rfl | ⟨z, d, rfl⟩
  · obtain ⟨-, hd⟩ := List.append_inj' ht rfl
    exact (hc (List.singleton_inj.mp hd)).elim
  · rw [← List.cons_append, ← List.append_assoc] at ht
    obtain ⟨ht, -⟩ := List.append_inj' ht rfl
    exact h y z ht

theorem solid_singleton {run : Run} (h : opens c = some run) : Solid [c] := by
  refine solid_of_notMem fun hm => ?_
  obtain rfl := List.mem_singleton.mp hm
  cases h

theorem space_notMem_digits {u : List Char} (h : IsDigits u) : ' ' ∉ u :=
  notMem_of_forall h.digits (by decide)

theorem space_notMem_float {u v : List Char} (hu : IsDigits u) (hv : IsDigits v) :
    ' ' ∉ u ++ '.' :: v := by
  simp [space_notMem_digits hu, space_notMem_digits hv]

theorem Spells.solid (h : Spells kind text barred) : Solid text := by
  cases h with
  | word h => exact solid_of_notMem (notMem_of_forall h.joins (by decide))
  | number h => exact solid_of_notMem (space_notMem_digits h)
  | float hu hv => exact solid_of_notMem (space_notMem_float hu hv)
  | @sign o c ho h =>
    rw [← h]
    cases o <;> exact solid_of_notMem (by decide)
  | @compound o c d ho h =>
    rw [← h]
    cases o <;> exact solid_of_notMem (by decide)
  | punctuation p => cases p <;> exact solid_of_notMem (by decide)
  | string h => exact (solid_string h).concat (by decide)

theorem Open.Holds.ne_nil {run : Run} (h : Open.Holds run p) : p ≠ [] := by
  rintro rfl
  cases run with
  | word =>
    obtain ⟨c, hc, -⟩ := h.head
    cases hc
  | underscore => cases h.2
  | number =>
    rcases h with h | ⟨u, v, h, -⟩
    · exact h.ne_nil rfl
    · simp at h
  | _ => simp [Open.Holds] at h

theorem Open.Holds.solid {run : Run} (h : Open.Holds run p) : Solid p := by
  cases run with
  | word => exact solid_of_notMem (notMem_of_forall h.joins (by decide))
  | underscore => exact solid_of_notMem (notMem_of_forall h.1.joins (by decide))
  | number =>
    rcases h with h | ⟨u, v, rfl, hu, hv⟩
    · exact solid_of_notMem (space_notMem_digits h)
    · exact solid_of_notMem (space_notMem_float hu hv)
  | fraction =>
    obtain ⟨u, rfl, hu⟩ := h
    exact (solid_of_notMem (space_notMem_digits hu)).concat (by decide)
  | operator =>
    obtain ⟨c, rfl, hc⟩ := h
    exact solid_singleton hc
  | bang =>
    obtain rfl : p = ['!'] := h
    exact solid_of_notMem (by decide)
  | compound =>
    obtain ⟨c, rfl, hc⟩ := h
    exact (hc.elim solid_singleton solid_singleton).concat (by decide)
  | string =>
    obtain ⟨body, rfl, hb⟩ := h
    exact solid_string hb

/-- A text stands after lexemes that cut what comes before it, and is solid. -/
structure StandsAt (start : ℕ) (text x : List Char) (column : ℕ) : Prop where
  eq_append : ∃ u v ls, text = u ++ x ++ v ∧ Cuts start u ls ∧ column = start + u.length
  ne_nil : x ≠ []
  solid : Solid x

/-- Every lexeme stands where its column tells. -/
theorem Cuts.standsAt (h : Cuts column text ls) :
    ∀ l ∈ ls, StandsAt column text l.text l.column := by
  induction h with
  | nil => simp
  | @gap column d text ls hd h ih =>
    intro l hl
    obtain ⟨⟨u, v, us, rfl, hu, hc⟩, hne, hs⟩ := ih l hl
    refine ⟨⟨d :: u, v, us, rfl, .gap hd hu, ?_⟩, hne, hs⟩
    rw [hc, List.length_cons, Nat.add_assoc, Nat.add_comm 1]
  | @lexeme column kind text barred rest ls hs hb h ih =>
    intro l hl
    rcases List.mem_cons.mp hl with rfl | hl
    · exact ⟨⟨[], rest, [], rfl, .nil, rfl⟩, hs.ne_nil, hs.solid⟩
    · obtain ⟨⟨u, v, us, rfl, hu, hc⟩, hne, hsolid⟩ := ih l hl
      refine ⟨⟨text ++ u, v, _, by simp, .lexeme hs ?_ hu, ?_⟩, hne, hsolid⟩
      · intro c hc
        exact hb c (by simp [Option.mem_def.mp hc])
      · rw [hc, List.length_append, Nat.add_assoc]

/-- A run that fails has a place at which it does. -/
theorem exists_of_foldlM_error {α β ε : Type} {step : β → α → Except ε β} {xs : List α} {b : β}
    {e : ε} (h : xs.foldlM step b = .error e) : ∃ pre x post b', xs = pre ++ x :: post ∧
      pre.foldlM step b = .ok b' ∧ step b' x = .error e := by
  induction xs generalizing b with
  | nil => cases h
  | cons x xs ih =>
    rw [List.foldlM_cons] at h
    cases hs : step b x with
    | error e' =>
      obtain rfl : e' = e := by simpa [hs, bind, Except.bind] using h
      exact ⟨[], x, xs, b, rfl, rfl, hs⟩
    | ok b' =>
      rw [hs] at h
      obtain ⟨pre, y, post, c, rfl, hp, hy⟩ := ih h
      refine ⟨x :: pre, y, post, c, rfl, ?_, hy⟩
      rw [List.foldlM_cons, hs]
      exact hp

namespace Scanner

variable {s t : Scanner} {o : Open}

theorem feed_eq_ok_iff : s.feed c = .ok t ↔ s.step c = .ok (.taken t) ∨
    ∃ s', s.step c = .ok (.handedBack s') ∧ s'.start c = .ok t := by
  unfold feed
  cases s.step c with
  | error e => simp [bind, Except.bind]
  | ok r => cases r <;> simp [bind, Except.bind, pure, Except.pure]

theorem feed_eq_error_iff : s.feed c = .error f ↔ s.step c = .error f ∨
    ∃ s', s.step c = .ok (.handedBack s') ∧ s'.start c = .error f := by
  unfold feed
  cases s.step c with
  | error e => simp [bind, Except.bind]
  | ok r => cases r <;> simp [bind, Except.bind, pure, Except.pure]

/-- A lexeme that is closed before a character is closed at the end of a line, too. -/
theorem finish_of_handedBack (ho : s.pending = some o) (hh : Open.Holds o.run o.text)
    (h : s.extend o c = .ok (.handedBack t)) : s.finish = .ok t := by
  have hx := extends_extend (s := s) hh c
  rw [h] at hx
  obtain - | @⟨k, he, -⟩ := hx
  obtain ⟨barred, hs, -⟩ := (he k).mpr rfl
  have hk : Ends o.text none k := ⟨barred, hs, by simp⟩
  obtain ⟨k', hf, hk'⟩ | ⟨-, hn⟩ := finish_cases ho hh
  · obtain rfl := (hk' k).mp hk
    exact hf
  · exact (hn k hk).elim

theorem cuts_of_run (h : p.foldlM feed (startingAt start) = .ok s) (hf : s.finish = .ok t) :
    Cuts start p t.closed.reverse := by
  refine scan_eq_ok_iff.mp ?_
  rw [scan, h]
  simp [bind, Except.bind, hf, pure, Except.pure]

/-- What the scanner has read: lexemes that cut it up to the one that is open. -/
structure Reads (start : ℕ) (p : List Char) (s : Scanner) : Prop where
  run : p.foldlM feed (startingAt start) = .ok s
  column : s.column = start + p.length
  opened o (ho : o ∈ s.pending) : Open.Holds o.run o.text ∧ ∃ u, p = u ++ o.text ∧
    Cuts start u s.closed.reverse ∧ o.column = start + u.length

theorem reads_start : (startingAt start).Reads start [] :=
  ⟨rfl, rfl, nofun⟩

/-- After a text that may end here, the next character starts a lexeme at most. -/
theorem opened_start (hp : s.pending = none) (hcol : s.column = start + p.length)
    (hc : Cuts start p s.closed.reverse) (h : s.start c = .ok t) :
    t.column = s.column + 1 ∧ ∀ o ∈ t.pending, Open.Holds o.run o.text ∧ ∃ u,
      p ++ [c] = u ++ o.text ∧ Cuts start u t.closed.reverse ∧ o.column = start + u.length := by
  have hx := starts_start s c
  rw [h] at hx
  cases hx with
  | gap => simp [skip, hp]
  | whole => simp [skip, emit]
  | opened run _ hr =>
    refine ⟨rfl, ?_⟩
    rintro _ ⟨⟩
    exact ⟨hr, p, rfl, hc, hcol⟩

/-- A scanner that is not in a lexeme has read lexemes that cut the text. -/
theorem Reads.cuts (h : s.Reads start p) (hp : s.pending = none) :
    Cuts start p s.closed.reverse :=
  cuts_of_run h.run (by simp [finish, hp])

/-- A character that is handed back comes after a text that may end before it. -/
theorem Reads.handedBack (h : s.Reads start p) (ht : s.step c = .ok (.handedBack t)) :
    t.pending = none ∧ t.column = s.column ∧ Cuts start p t.closed.reverse := by
  have hp := pending_of_handedBack ht
  unfold step at ht
  cases ho : s.pending with
  | none =>
    rw [ho] at ht
    cases hs : s.start c <;> simp [hs, Except.map] at ht
  | some o =>
    rw [ho] at ht
    obtain ⟨hh, -⟩ := h.opened o ho
    have hx := extends_extend (s := s) hh c
    refine ⟨hp, ?_, cuts_of_run h.run (finish_of_handedBack ho hh ht)⟩
    simp only at ht
    rw [ht] at hx
    cases hx
    rfl

theorem Reads.feed (h : s.Reads start p) (hf : s.feed c = .ok t) : t.Reads start (p ++ [c]) := by
  have hrun : (p ++ [c]).foldlM Scanner.feed (startingAt start) = .ok t := by
    simp only [List.foldlM_append, List.foldlM_cons, List.foldlM_nil, bind_pure, h.run]
    exact hf
  suffices ht : t.column = s.column + 1 ∧ ∀ o ∈ t.pending, Open.Holds o.run o.text ∧ ∃ u,
      p ++ [c] = u ++ o.text ∧ Cuts start u t.closed.reverse ∧ o.column = start + u.length by
    refine ⟨hrun, ?_, ht.2⟩
    rw [ht.1, h.column, List.length_append, List.length_singleton, Nat.add_assoc]
  rcases feed_eq_ok_iff.mp hf with hs | ⟨s', hs, hstart⟩
  · unfold step at hs
    cases ho : s.pending with
    | none =>
      rw [ho] at hs
      refine opened_start ho h.column (h.cuts ho) ?_
      cases hstart : s.start c <;> simp_all [Except.map]
    | some o =>
      rw [ho] at hs
      simp only at hs
      obtain ⟨hh, u, rfl, hu, hcol⟩ := h.opened o ho
      have hx := extends_extend (s := s) hh c
      rw [hs] at hx
      cases hx with
      | grown run hr =>
        refine ⟨rfl, ?_⟩
        rintro _ ⟨⟩
        have ht : (o.add run c).text = o.text ++ [c] := by simp [Open.add, Open.text]
        exact ⟨ht ▸ hr, u, by rw [ht, List.append_assoc], hu, hcol⟩
      | whole => simp [skip, emit]
  · obtain ⟨hp, hcol, hc⟩ := h.handedBack hs
    rw [← hcol]
    exact opened_start hp (hcol.trans h.column) hc hstart

theorem reads_of_run (h : p.foldlM Scanner.feed (startingAt start) = .ok s) : s.Reads start p := by
  induction p using List.reverseRecOn generalizing s with
  | nil =>
    obtain rfl := Except.ok.inj h
    exact reads_start
  | append_singleton p c ih =>
    simp only [List.foldlM_append, List.foldlM_cons, List.foldlM_nil, bind_pure] at h
    cases hp : p.foldlM Scanner.feed (startingAt start) with
    | error e => simp [hp, bind, Except.bind] at h
    | ok s' =>
      rw [hp] at h
      exact (ih hp).feed h

/-! Faults. -/

theorem fault_of_start (h : s.start c = .error f) :
    f = ⟨.unexpectedCharacter c, [c], s.column, false⟩ ∧ isGap c = false := by
  unfold start at h
  simp only at h
  split at h
  · cases h
  · refine ⟨?_, by simpa using ‹¬ isGap c = true›⟩
    (repeat' split at h) <;> simp_all

/-- The fault is one of the open lexeme; the next character is at fault too if the lexeme cannot go
on with it. -/
def Faults (o : Open) (f : Fault) : Prop := ∃ cause withNext,
  f = o.fault cause withNext ∧ cause ≠ .unterminatedComment ∧
    (withNext → ∃ why, cause = .invalidLexeme why)

theorem faults_of_emitOperator (h : s.emitOperator o = .error f) : Faults o f := by
  unfold emitOperator at h
  split at h
  · cases h
  · obtain rfl := Except.error.inj h
    exact ⟨_, _, rfl, nofun, nofun⟩

theorem faults_of_extend (h : s.extend o c = .error f) : Faults o f := by
  have malformed {why} (h : .error (o.fault (.invalidLexeme why) true) =
      (.error f : Except Fault Step)) : Faults o f := by
    obtain rfl := Except.error.inj h
    exact ⟨.invalidLexeme why, true, rfl, nofun, fun _ => ⟨why, rfl⟩⟩
  have operator (h : (s.emitOperator o).map Step.handedBack = .error f) : Faults o f := by
    refine faults_of_emitOperator (s := s) ?_
    cases he : s.emitOperator o <;> simp_all [Except.map]
  unfold extend at h
  simp only at h
  split at h <;> (repeat' split at h) <;> first
    | exact malformed h
    | exact operator h
    | cases h

theorem faults_of_finish (h : s.finish = .error f) : ∃ o ∈ s.pending, Faults o f := by
  unfold finish at h
  split at h
  · cases h
  · rename_i o ho
    refine ⟨o, ho, ?_⟩
    split at h <;> first
      | exact faults_of_emitOperator h
      | (obtain rfl := Except.error.inj h; exact ⟨_, _, rfl, nofun, nofun⟩)
      | cases h

end Scanner

/-- The fault stands in the text, and the character after it is at fault only if a lexeme cannot go
on. -/
structure Fault.In (start : ℕ) (text : List Char) (f : Fault) : Prop where
  standsAt : StandsAt start text f.lexeme f.column
  cause_ne : f.cause ≠ .unterminatedComment
  of_withNext : f.withNext → ∃ why, f.cause = .invalidLexeme why

theorem fault_in_of_open {o : Open} (hf : Scanner.Faults o f) (hh : Open.Holds o.run o.text)
    (hu : Cuts start u ls) (hc : o.column = start + u.length) (v : List Char) :
    f.In start (u ++ o.text ++ v) := by
  obtain ⟨cause, withNext, rfl, hne, hn⟩ := hf
  exact ⟨⟨⟨u, v, ls, rfl, hu, hc⟩, hh.ne_nil, hh.solid⟩, hne, hn⟩

theorem fault_in_of_start {s : Scanner} (h : s.start c = .error f) (hu : Cuts start u ls)
    (hc : s.column = start + u.length) (v : List Char) : f.In start (u ++ c :: v) := by
  obtain ⟨rfl, hg⟩ := Scanner.fault_of_start h
  refine ⟨⟨⟨u, v, ls, by simp, hu, hc⟩, by simp, solid_of_notMem ?_⟩, nofun, nofun⟩
  intro hm
  obtain rfl := List.mem_singleton.mp hm
  cases hg

/-- Where the scanner stands when it fails: at the end of the text with a lexeme that is open, at a
character that the open lexeme is not to go on with, or at one that starts none. -/
inductive FaultAt (start : ℕ) : List Char → Fault → Prop
  | atEnd {s : Scanner} {o u ls f} (hu : Cuts start u ls) (ho : s.pending = some o)
    (hh : Open.Holds o.run o.text) (hc : o.column = start + u.length) (h : s.finish = .error f) :
    FaultAt start (u ++ o.text) f
  | within {s : Scanner} {o c u v ls f} (hu : Cuts start u ls) (hh : Open.Holds o.run o.text)
    (hc : o.column = start + u.length) (h : s.extend o c = .error f) :
    FaultAt start (u ++ o.text ++ c :: v) f
  | outside {s : Scanner} {c u v ls f} (hu : Cuts start u ls) (hc : s.column = start + u.length)
    (h : s.start c = .error f) : FaultAt start (u ++ c :: v) f

theorem faultAt_of_scan (h : scan start text = .error f) : FaultAt start text f := by
  unfold scan at h
  cases hrun : text.foldlM Scanner.feed (.startingAt start) with
  | ok s =>
    have hf : s.finish = .error f := by
      cases hf : s.finish <;> simp_all [bind, Except.bind, pure, Except.pure]
    obtain ⟨o, ho, -⟩ := Scanner.faults_of_finish hf
    obtain ⟨hh, u, rfl, hu, hc⟩ := (Scanner.reads_of_run hrun).opened o ho
    exact .atEnd hu ho hh hc hf
  | error e =>
    obtain rfl : e = f := by simpa [hrun, bind, Except.bind] using h
    obtain ⟨p, c, v, s, rfl, hp, hc⟩ := exists_of_foldlM_error hrun
    have hr := Scanner.reads_of_run hp
    rcases Scanner.feed_eq_error_iff.mp hc with hs | ⟨s', hs, hstart⟩
    · unfold Scanner.step at hs
      cases ho : s.pending with
      | none =>
        have hstart : s.start c = .error e := by
          cases hstart : s.start c <;> simp_all [Except.map]
        exact .outside (hr.cuts ho) hr.column hstart
      | some o =>
        rw [ho] at hs
        obtain ⟨hh, u, rfl, hu, hcol⟩ := hr.opened o ho
        exact .within hu hh hcol hs
    · obtain ⟨-, hcol, hu⟩ := hr.handedBack hs
      exact .outside hu (hcol.trans hr.column) hstart

/-- What the scanner finds at fault stands in the text. -/
theorem fault_in_of_scan (h : scan start text = .error f) : f.In start text := by
  cases faultAt_of_scan h with
  | @atEnd s o u _ _ hu ho hh hc h =>
    obtain ⟨o', ho', hfault⟩ := Scanner.faults_of_finish h
    obtain rfl : o = o' := Option.some.inj (ho.symm.trans ho')
    simpa using fault_in_of_open hfault hh hu hc []
  | within hu hh hc h => exact fault_in_of_open (Scanner.faults_of_extend h) hh hu hc _
  | outside hu hc h => exact fault_in_of_start h hu hc _

end RookLang.Lexeme
