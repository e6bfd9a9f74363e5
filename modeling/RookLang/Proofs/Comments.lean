import RookLang.Comment
import RookLang.Proofs.TextLines

/-! Removal of comments from texts that are put together: what a line leaves to the next one, and
which texts hold no comment. -/
namespace RookLang

namespace Comment

variable {a b text kept u v : List Char} {s : State} {c : Char} {n : ℕ} {P Q R : Mode → Prop}

/-- The place `n` lines further down. -/
def Position.down (n : ℕ) (p : Position) : Position := ⟨p.line + n, p.column⟩

theorem Position.after_down {p : Position} : (p.down n).after c = (p.after c).down n := by
  simp only [after, down]
  split <;> simp [Nat.add_right_comm]

def Mode.down (n : ℕ) : Mode → Mode
  | .slash p => .slash (p.down n)
  | .blockComment p star => .blockComment (p.down n) star
  | m => m

/-- Where the comment opens, or may open, that the next character belongs to. -/
def Mode.place? : Mode → Option Position
  | .slash p | .blockComment p _ => some p
  | _ => none

namespace State

/-- The state, with `n` lines more before it from which `kept` is kept. -/
def below (n : ℕ) (kept : List Char) (s : State) : State :=
  ⟨s.mode.down n, s.position.down n, s.hasCode, s.kept ++ kept⟩

theorem keep_below : (s.below n kept).keep c = (s.keep c).below n kept := rfl

theorem blank_below : (s.below n kept).blank = s.blank.below n kept := by
  cases h : s.hasCode <;> simp [blank, below, h]

theorem enter_below {m : Mode} : (s.below n kept).enter (m.down n) = (s.enter m).below n kept := rfl

theorem code_below : (s.below n kept).code c = (s.code c).below n kept := by
  simp only [code, keep_below, ← enter_below, apply_ite (Mode.down n)]
  rfl

theorem string_below : (s.below n kept).string c = (s.string c).below n kept := by
  simp only [string, keep_below, ← enter_below, apply_ite (Mode.down n)]
  rfl

theorem afterSlash_below {p : Position} :
    (s.below n kept).afterSlash (p.down n) c = (s.afterSlash p c).below n kept := by
  simp only [afterSlash, keep_below, blank_below, code_below, apply_ite (State.below n kept),
    ← enter_below]
  rfl

theorem lineComment_below : (s.below n kept).lineComment c = (s.lineComment c).below n kept := by
  simp only [lineComment, keep_below, apply_ite (State.below n kept), ← enter_below]
  rfl

theorem blockComment_below {p : Position} {star : Bool} :
    (s.below n kept).blockComment (p.down n) star c =
      (s.blockComment p star c).below n kept := by
  simp only [blockComment, keep_below, blank_below, apply_ite (State.below n kept),
    ← enter_below]
  rfl

/-- A place further down, on both sides. -/
theorem below_at {t t' : State} {p p' : Position} (ht : t' = t.below n kept) (hp : p' = p.down n) :
    { t' with position := p' } = { t with position := p }.below n kept := by
  rw [ht, hp]
  rfl

theorem feed_below : (s.below n kept).feed c = (s.feed c).below n kept := by
  obtain ⟨mode, position, hasCode, k⟩ := s
  cases mode with
  | code =>
    refine below_at ?_ Position.after_down
    rw [apply_ite (State.below n kept), ← code_below]
    rfl
  | slash p => exact below_at afterSlash_below Position.after_down
  | string => exact below_at string_below Position.after_down
  | lineComment => exact below_at lineComment_below Position.after_down
  | blockComment p star => exact below_at blockComment_below Position.after_down

theorem foldl_below : b.foldl feed (s.below n kept) = (b.foldl feed s).below n kept := by
  induction b generalizing s with
  | nil => rfl
  | cons c b ih => rw [List.foldl_cons, List.foldl_cons, feed_below, ih]

theorem finish_below : (s.below n kept).finish =
    (s.finish.mapError (Position.down n)).map (kept.reverse ++ ·) := by
  obtain ⟨mode, position, hasCode, k⟩ := s
  cases mode <;> simp [below, Mode.down, finish, keep, Except.map, Except.mapError]

/-! A line feed ends what is no block comment, and starts a line without code. -/

theorem feed_newline (s : State) : (s.feed '\n').hasCode = false ∧
    (s.feed '\n').position = ⟨s.position.line + 1, 1⟩ ∧
    (s.feed '\n').kept.head? = some '\n' ∧
    ((s.feed '\n').mode = .code ∨ ∃ p star, (s.feed '\n').mode = .blockComment p star) := by
  obtain ⟨mode, position, hasCode, k⟩ := s
  cases mode <;> simp [feed, code, string, afterSlash, lineComment, blockComment, keep, enter,
    Position.after]

theorem line_foldl (s : State) (text : List Char) :
    (text.foldl feed s).position.line = s.position.line + text.count '\n' := by
  induction text generalizing s with
  | nil => rfl
  | cons c text ih =>
    rw [List.foldl_cons, ih, List.count_cons]
    by_cases h : c = '\n' <;> simp [feed, Position.after, h]
    omega

theorem count_blank : s.blank.kept.count '\n' = s.kept.count '\n' := by
  cases h : s.hasCode <;> simp [blank, h]

/-- Every line feed is kept, and no other comes in. -/
theorem count_feed (s : State) (c : Char) :
    (s.feed c).kept.count '\n' = (c :: s.kept).count '\n' := by
  have hb (s : State) (m : Mode) : (s.blank.enter m).kept.count '\n' = s.kept.count '\n' :=
    count_blank
  obtain ⟨mode, position, hasCode, k⟩ := s
  by_cases h : c = '\n'
  · subst h
    cases mode <;> simp [feed, code, string, afterSlash, lineComment, blockComment, keep, enter]
  · rw [List.count_cons_of_ne h]
    cases mode with
    | code => by_cases hc : c = '/' <;> simp [feed, code, keep, enter, h, hc]
    | slash p =>
      by_cases hc : c = '/'
      · simp [feed, afterSlash, enter, hc]
      by_cases hs : c = '*'
      · simp [feed, afterSlash, hs, hb, count_blank]
      · simp [feed, afterSlash, code, keep, enter, h, hc, hs]
    | string => simp [feed, string, keep, enter, h]
    | lineComment => simp [feed, lineComment, h]
    | blockComment p star =>
      by_cases hc : star ∧ c = '/' <;> simp [feed, blockComment, h, hc, hb]

theorem count_foldl (s : State) (text : List Char) :
    (text.foldl feed s).kept.count '\n' = s.kept.count '\n' + text.count '\n' := by
  induction text generalizing s with
  | nil => rfl
  | cons c text ih =>
    rw [List.foldl_cons, ih, count_feed, List.count_cons, List.count_cons]
    omega

/-- A place at which a comment opens is one that was read. -/
theorem place?_feed (s : State) (c : Char) :
    ∀ p ∈ (s.feed c).mode.place?, p = s.position ∨ p ∈ s.mode.place? := by
  have he (s : State) (m : Mode) : (s.enter m).mode = m := rfl
  obtain ⟨mode, position, hasCode, k⟩ := s
  cases mode with
  | code => by_cases hc : c = '/' <;> by_cases hq : c = '"' <;>
      simp [feed, code, he, hc, hq, Mode.place?]
  | slash o =>
    by_cases hc : c = '/'
    · simp [feed, afterSlash, he, hc, Mode.place?]
    by_cases hs : c = '*'
    · simp [feed, afterSlash, he, hs, Mode.place?]
    · by_cases hq : c = '"' <;> simp [feed, afterSlash, code, he, hc, hs, hq, Mode.place?]
  | string => by_cases hq : c = '"' ∨ c = '\n' <;> simp [feed, string, he, hq, Mode.place?]
  | lineComment => by_cases hn : c = '\n' <;> simp [feed, lineComment, he, hn, Mode.place?]
  | blockComment o star =>
    by_cases hn : c = '\n'
    · simp [feed, blockComment, he, hn, Mode.place?]
    by_cases hs : star ∧ c = '/' <;> simp [feed, blockComment, he, hn, hs, Mode.place?]

theorem one_le_line_foldl (hs : 1 ≤ s.position.line) (hp : ∀ p ∈ s.mode.place?, 1 ≤ p.line) :
    ∀ p ∈ (text.foldl feed s).mode.place?, 1 ≤ p.line := by
  induction text generalizing s with
  | nil => exact hp
  | cons c text ih =>
    have hc := line_foldl s [c]
    refine ih (by simp at hc; omega) fun p h => ?_
    rcases place?_feed s c p h with rfl | h
    · exact hs
    · exact hp p h

end State

/-- Lines are counted from one. -/
theorem one_le_line_of_strip {p : Position} (h : strip text = .error p) : 1 ≤ p.line := by
  have hp : ∀ p ∈ (text.foldl State.feed .initial).mode.place?, 1 ≤ p.line :=
    State.one_le_line_foldl (Nat.le_refl 1) nofun
  rw [strip] at h
  generalize text.foldl State.feed .initial = s at h hp
  obtain ⟨mode, position, hasCode, k⟩ := s
  cases mode <;> simp_all [State.finish, Mode.place?]

/-- Nothing but the text that is kept passes from a complete line to the next one. -/
theorem foldl_of_strip (ha : Text.EndsLine a) (h : strip a = .ok text) :
    a.foldl State.feed .initial = State.below (a.count '\n') text.reverse .initial := by
  obtain rfl | ha := ha
  · obtain rfl := Except.ok.inj h
    rfl
  obtain ⟨a, rfl⟩ := List.getLast?_eq_some_iff.mp ha
  have hline := State.line_foldl .initial (a ++ ['\n'])
  rw [strip] at h
  rw [List.foldl_append] at h hline ⊢
  obtain ⟨hcode, hp, -, hm⟩ := State.feed_newline (a.foldl State.feed .initial)
  rw [List.foldl_cons, List.foldl_nil] at h hline ⊢
  generalize (a.foldl State.feed .initial).feed '\n' = s at *
  obtain ⟨mode, position, hasCode, kept⟩ := s
  obtain rfl | ⟨p, star, rfl⟩ := hm
  · obtain rfl : kept.reverse = text := Except.ok.inj h
    simp_all [State.below, State.initial, Mode.down, Position.down]
  · cases h

theorem strip_append (ha : Text.EndsLine a) (h : strip a = .ok text) : strip (a ++ b) =
    ((strip b).mapError (Position.down (a.count '\n'))).map (text ++ ·) := by
  rw [strip, List.foldl_append, foldl_of_strip ha h, State.foldl_below, State.finish_below,
    List.reverse_reverse]
  rfl

theorem count_of_strip (ha : Text.EndsLine a) (h : strip a = .ok text) :
    text.count '\n' = a.count '\n' := by
  have hc := State.count_foldl .initial a
  rw [foldl_of_strip ha h] at hc
  simpa [State.below, State.initial] using hc

theorem endsLine_of_strip (ha : Text.EndsLine a) (h : strip a = .ok text) :
    Text.EndsLine text := by
  have hf := foldl_of_strip ha h
  obtain rfl | ha := ha
  · exact .inl (Except.ok.inj h).symm
  obtain ⟨a, rfl⟩ := List.getLast?_eq_some_iff.mp ha
  obtain ⟨-, -, hk, -⟩ := State.feed_newline (a.foldl State.feed .initial)
  rw [List.foldl_append, List.foldl_cons, List.foldl_nil] at hf
  rw [hf] at hk
  exact .inr (by simpa [State.below, State.initial] using hk)

/-! Texts without comments. -/

/-- All that was read, latest character first, if the slash that may be held back is code. -/
def State.read (s : State) : List Char :=
  match s.mode with
  | .slash _ => '/' :: s.kept
  | _ => s.kept

/-- The next character belongs to the code, unless it makes a comment of a slash. -/
def Mode.InCode : Mode → Prop
  | .code | .slash _ => True
  | _ => False

/-- From the modes `P` on the text is kept as it is, and leads to the modes `Q`. -/
def Keeps (P Q : Mode → Prop) (text : List Char) : Prop :=
  ∀ s : State, P s.mode → Q (text.foldl State.feed s).mode ∧
    (text.foldl State.feed s).read = text.reverse ++ s.read

theorem Keeps.nil : Keeps P P [] := fun _ h => ⟨h, rfl⟩

theorem Keeps.append (hu : Keeps P Q u) (hv : Keeps Q R v) : Keeps P R (u ++ v) := by
  intro s hs
  obtain ⟨hm, hr⟩ := hu s hs
  obtain ⟨hm', hr'⟩ := hv _ hm
  rw [List.foldl_append]
  exact ⟨hm', by rw [hr', hr, List.reverse_append, List.append_assoc]⟩

/-- A slash that is held back stays code before such a character. -/
def FreesSlash (text : List Char) : Prop := ∀ c ∈ text.head?, c ≠ '/' ∧ c ≠ '*'

namespace State

/-- The state with a slash that is held back kept as code. -/
def release (s : State) : State :=
  match s.mode with
  | .slash _ => (s.keep '/').enter .code
  | _ => s

theorem read_eq : s.read = s.release.kept := by
  unfold read release
  split <;> rfl

theorem read_release : s.release.read = s.read := by
  obtain ⟨mode, position, hasCode, k⟩ := s
  cases mode <;> rfl

theorem mode_release (h : s.mode.InCode) : s.release.mode = .code := by
  obtain ⟨mode, position, hasCode, k⟩ := s
  cases mode <;> first | rfl | exact h.elim

theorem finish_release : s.release.finish = s.finish := by
  obtain ⟨mode, position, hasCode, k⟩ := s
  cases mode <;> rfl

theorem foldl_release (h : FreesSlash (c :: text)) :
    (c :: text).foldl feed s.release = (c :: text).foldl feed s := by
  obtain ⟨hs, ha⟩ := h c rfl
  obtain ⟨mode, position, hasCode, k⟩ := s
  have hf : State.feed (State.release ⟨mode, position, hasCode, k⟩) c =
      State.feed ⟨mode, position, hasCode, k⟩ c := by
    cases mode with
    | slash p => simp [release, feed, afterSlash, code, keep, enter, hs, ha]
    | _ => rfl
  rw [List.foldl_cons, List.foldl_cons, hf]

end State

theorem Keeps.of_code (h : Keeps (· = .code) Mode.InCode text) (hf : FreesSlash text) :
    Keeps Mode.InCode Mode.InCode text := by
  intro s hs
  cases text with
  | nil => exact ⟨hs, rfl⟩
  | cons c text =>
    have hk := h s.release (State.mode_release hs)
    rwa [State.foldl_release hf, State.read_release] at hk

theorem Keeps.inCode (h : Keeps P (· = .code) u) : Keeps P Mode.InCode u :=
  fun s hs => ⟨(h s hs).1 ▸ trivial, (h s hs).2⟩

theorem keeps_flatMap {α : Type} {xs : List α} {f : α → List Char}
    (h : ∀ x ∈ xs, Keeps P P (f x)) : Keeps P P (xs.flatMap f) := by
  induction xs with
  | nil => exact .nil
  | cons x xs ih =>
    obtain ⟨hx, h⟩ := List.forall_mem_cons.mp h
    exact hx.append (ih h)

theorem keeps_plain (hs : '/' ∉ text) (hq : '"' ∉ text) :
    Keeps (· = .code) (· = .code) text := by
  rw [← List.flatMap_singleton' text]
  refine keeps_flatMap fun c hc s hm => ?_
  have hs : c ≠ '/' := fun h => hs (h ▸ hc)
  have hq : c ≠ '"' := fun h => hq (h ▸ hc)
  simp [State.feed, State.code, State.keep, State.enter, State.read, hm, hs, hq]

theorem keeps_slash : Keeps (· = .code) Mode.InCode ['/'] := by
  intro s hm
  simp [State.feed, State.enter, State.read, hm, Mode.InCode]

/-- What separates lexemes leaves a slash before it in the code. -/
theorem keeps_separator (hs : c ≠ '/') (ha : c ≠ '*') (hq : c ≠ '"') :
    Keeps Mode.InCode (· = .code) [c] := by
  intro s hm
  obtain ⟨mode, position, hasCode, k⟩ := s
  cases mode with
  | code | slash =>
    simp [State.feed, State.code, State.afterSlash, State.keep, State.enter, State.read, hs, ha, hq]
  | _ => exact hm.elim

theorem keeps_openQuote : Keeps Mode.InCode (· = .string) ['"'] := by
  intro s hm
  obtain ⟨mode, position, hasCode, k⟩ := s
  cases mode with
  | code | slash => exact ⟨rfl, rfl⟩
  | _ => exact hm.elim

theorem keeps_inString (hq : c ≠ '"') (hn : c ≠ '\n') : Keeps (· = .string) (· = .string) [c] := by
  intro s hm
  simp [State.feed, State.string, State.keep, State.enter, State.read, hm, hq, hn]

theorem keeps_closeQuote : Keeps (· = .string) (· = .code) ['"'] := by
  intro s hm
  simp [State.feed, State.string, State.keep, State.enter, State.read, hm]

theorem Keeps.from_code (h : Keeps Mode.InCode Q text) : Keeps (· = .code) Q text :=
  fun s hs => h s (hs ▸ trivial)

theorem keeps_openString (hq : '"' ∉ text) (hn : '\n' ∉ text) :
    Keeps Mode.InCode (· = .string) ('"' :: text) := by
  have hbody : Keeps (· = .string) (· = .string) text := by
    rw [← List.flatMap_singleton' text]
    exact keeps_flatMap fun c hc =>
      keeps_inString (fun h => hq (h ▸ hc)) (fun h => hn (h ▸ hc))
  exact keeps_openQuote.append hbody

theorem keeps_quoted (hq : '"' ∉ text) (hn : '\n' ∉ text) :
    Keeps (· = .code) (· = .code) ('"' :: text ++ ['"']) :=
  (keeps_openString hq hn).from_code.append keeps_closeQuote

theorem strip_of_keeps (h : Keeps (· = .code) Mode.InCode text) : strip text = .ok text := by
  obtain ⟨hm, hr⟩ := h .initial rfl
  rw [strip]
  generalize text.foldl State.feed .initial = s at hm hr ⊢
  obtain ⟨mode, position, hasCode, k⟩ := s
  cases mode with
  | code | slash =>
    simpa [State.read, State.finish, State.keep, State.initial] using congrArg List.reverse hr
  | _ => exact hm.elim

end Comment
end RookLang
