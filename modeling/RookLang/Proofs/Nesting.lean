import RookLang.Proofs.Grammar.Letters
import RookLang.Proofs.StatementCount

/-! How brackets and levels nest. In the tokens of a program every one of them is closed by its own
closer, lines end outside of brackets only, and no more are open than the limit of nesting
allows, if the bodies of `which` are left out. With these, they are at most twice as many and
one. -/
namespace RookLang
open Terminal

namespace Terminal

/-- What the terminal opens after the terminals `read`, latest first. The level after the subject of
`which` is the one of its clauses. -/
def opens? (read : List Terminal) : Terminal → Option Enclosure
  | .plain (.punctuation .leftParen) => some (.group .paren)
  | .plain (.punctuation .leftBracket) => some (.group .bracket)
  | .plain .indent =>
    match read with
    | .plain .newline :: .plain (.punctuation .colon) :: .plain .identifier :: .word .which :: _ =>
      some .clauses
    | _ => some .block
  | _ => none

def closes (t : Terminal) : Bool := t ∈ [sign .rightParen, sign .rightBracket, plain .dedent]

end Terminal

/-- What has been read, and what was opened and not yet closed. -/
structure Nesting where
  /-- Latest first. -/
  read : List Terminal
  /-- Innermost first. -/
  unclosed : List Enclosure
  deriving DecidableEq, Repr

namespace Nesting

def initial : Nesting := ⟨[], []⟩

/-- Read one terminal; none if it closes something else than what was opened last. -/
def step (s : Nesting) (t : Terminal) : Option Nesting :=
  match t.opens? s.read with
  | some e => some ⟨t :: s.read, e :: s.unclosed⟩
  | none =>
    if t.closes then
      match s.unclosed with
      | e :: rest => if e.closing = t then some ⟨t :: s.read, rest⟩ else none
      | [] => none
    else some ⟨t :: s.read, s.unclosed⟩

/-- The nesting after some terminals. -/
def after (ts : List Terminal) : Option Nesting := ts.foldlM step initial

/-- How deep the nesting is, the clauses of `which` left out. -/
def depth (s : Nesting) : ℕ := s.unclosed.countP (·.deepens)

/-- The nesting after words that close what they open. -/
def reading (s : Nesting) (w : List Terminal) : Nesting := ⟨w.reverse ++ s.read, s.unclosed⟩

theorem reading_append (s : Nesting) (u w : List Terminal) :
    s.reading (u ++ w) = (s.reading u).reading w := by
  simp [reading]

end Nesting

/-- How far the start of a `which` has been read. -/
inductive Lead where
  | which | subject | other
  deriving DecidableEq, Repr

namespace Lead

def next : Lead → Terminal → Lead
  | _, .word .which => which
  | which, .plain .identifier => subject
  | _, _ => other

/-- How the terminals end, latest first. -/
def ofRead : List Terminal → Lead
  | .word .which :: _ => which
  | .plain .identifier :: .word .which :: _ => subject
  | _ => other

theorem ofRead_cons (t : Terminal) (read : List Terminal) :
    ofRead (t :: read) = (ofRead read).next t := by
  unfold ofRead next
  grind

theorem ofRead_opening (e : Enclosure) (read : List Terminal) :
    ofRead (e.opening.reverse ++ read) = other := by
  cases e with
  | group g => cases g <;> rfl
  | block | clauses => rfl

theorem ofRead_closing (e : Enclosure) (read : List Terminal) :
    ofRead (e.closing :: read) = other := by
  cases e with
  | group g => cases g <;> rfl
  | block | clauses => rfl

end Lead

namespace Form

/-- Brackets and levels are only part of what they enclose. -/
def isPlain (t : Terminal) : Bool :=
  t ∉ [sign .leftParen, sign .leftBracket, plain .indent] && !t.closes

/-- How words of the form end, if they come after such an end. None if words differ in that, have
layout inside of brackets, or are clauses apart from their `which` or directly inside of others. -/
def lead (inside : Bool) : Form → Lead → Option Lead
  | oneOf ts, q =>
    match ts with
    | t :: us =>
      if ts.all isPlain && us.all (q.next · == q.next t) then some (q.next t) else none
    | [] => none
  | empty, q => some q
  | seq f g, q =>
    match f.lead inside q with
    | some q => g.lead inside q
    | none => none
  | alt f g, q => if f.lead inside q = g.lead inside q then f.lead inside q else none
  | many f, q => (f.lead inside q).filter (· == q)
  | phrase _, q => if q = .other && !inside then some .other else none
  | enclosed (.group _) f, _ =>
    if f.isInline && (f.lead false .other).isSome then some .other else none
  | enclosed .block f, q =>
    if q ≠ .subject && (f.lead false .other).isSome then some .other else none
  | enclosed .clauses f, q =>
    if q = .subject && !inside && (f.lead true .other).isSome then some .other else none

theorem lead_form (p : Phrase) : p.form.lead false .other = some .other := by
  cases p <;> decide

variable {f g : Form} {ts : List Terminal} {inside : Bool} {q q' : Lead}

theorem lead_append (f g : Form) : (f ++ g).lead inside q =
    match f.lead inside q with
    | some q => g.lead inside q
    | none => none := rfl

theorem lead_oneOf (h : (oneOf ts).lead inside q = some q') :
    ∀ t ∈ ts, isPlain t ∧ q.next t = q' := by
  cases ts with
  | nil => simp
  | cons t us =>
    simp only [lead] at h
    split at h
    · simp_all
    · cases h

theorem lead_seq (h : (f ++ g).lead inside q = some q') :
    ∃ next, f.lead inside q = some next ∧ g.lead inside next = some q' := by
  rw [lead_append] at h
  split at h
  · exact ⟨_, ‹_›, h⟩
  · cases h

theorem lead_or (h : (f ||| g).lead inside q = some q') :
    f.lead inside q = some q' ∧ g.lead inside q = some q' := by
  change (alt f g).lead inside q = some q' at h
  unfold lead at h
  split at h
  · rename_i he
    exact ⟨h, he ▸ h⟩
  · cases h

theorem lead_many (h : (many f).lead inside q = some q') :
    f.lead inside q = some q ∧ q' = q := by
  obtain ⟨h, he⟩ := Option.filter_eq_some_iff.mp h
  obtain rfl : q' = q := by simpa using he
  exact ⟨h, rfl⟩

theorem lead_phrase {p : Phrase} (h : (phrase p).lead inside q = some q') :
    q = .other ∧ inside = false ∧ q' = .other := by
  simp only [lead] at h
  split at h
  · simp_all
  · cases h

theorem lead_times (h : f.lead inside q = some q) (n : ℕ) : (f.times n).lead inside q = some q := by
  induction n with
  | zero => rfl
  | succ n ih =>
    rw [times, lead_append, h]
    exact ih

theorem lead_program (n : ℕ) : (Phrase.program n).lead false .other = some .other := by
  cases n with
  | zero => decide
  | succ n =>
    have h : (times Phrase.line n).lead false .other = some .other := lead_times (by decide) n
    rw [Phrase.program, lead_append, lead_append, h]
    decide

end Form

/-- What is open is within the limit. -/
structure Nesting.Fits (limit : Option ℕ) (s : Nesting) : Prop where
  depth_le : ∀ l ∈ limit, s.depth ≤ l
  length_le : s.unclosed.length ≤ 2 * s.depth + 1

/-- The words lead from one nesting to another one, always within the limit, and without layout
inside of brackets. -/
inductive Nests (limit : Option ℕ) : Nesting → List Terminal → Nesting → Prop
  | nil {s} (h : s.Fits limit) : Nests limit s [] s
  | cons {s t m ts s'} (h : s.Fits limit) (ht : t.isLayout → ∀ g, .group g ∉ s.unclosed)
    (hs : s.step t = some m) (hn : Nests limit m ts s') : Nests limit s (t :: ts) s'

namespace Nests

variable {limit : Option ℕ} {s m s' : Nesting} {u w : List Terminal} {t : Terminal}

theorem append (h : Nests limit s u m) (h' : Nests limit m w s') : Nests limit s (u ++ w) s' := by
  induction h with
  | nil => exact h'
  | cons h ht hs _ ih => exact .cons h ht hs (ih h')

theorem exists_of_append (h : Nests limit s (u ++ w) s') :
    ∃ m, u.foldlM Nesting.step s = some m ∧ Nests limit m w s' := by
  induction u generalizing s with
  | nil => exact ⟨s, rfl, h⟩
  | cons t u ih =>
    obtain - | ⟨-, -, hs, hn⟩ := h
    obtain ⟨m, hm, h⟩ := ih hn
    exact ⟨m, by rw [List.foldlM_cons, hs]; exact hm, h⟩

theorem fits (h : Nests limit s w s') : s.Fits limit := by
  cases h <;> assumption

end Nests

/-- Words may be read here at the depth `d`, directly inside of clauses if `inside` holds. -/
structure Nesting.At (limit : Option ℕ) (d : ℕ) (inside : Bool) (q : Lead) (s : Nesting) :
    Prop where
  lead_eq : Lead.ofRead s.read = q
  depth_eq : s.depth = d
  le_limit : ∀ l ∈ limit, d ≤ l
  length_le : s.unclosed.length ≤ 2 * d + inside.toNat

namespace Nesting.At

variable {limit : Option ℕ} {d : ℕ} {inside : Bool} {q q' : Lead} {s : Nesting}
  {t : Terminal} {w : List Terminal} {e : Enclosure}

theorem fits (h : s.At limit d inside q) : s.Fits limit := by
  have := h.length_le
  have := inside.toNat_le
  exact ⟨h.depth_eq ▸ h.le_limit, by rw [h.depth_eq]; omega⟩

theorem reading (h : s.At limit d inside q) (hq : Lead.ofRead (w.reverse ++ s.read) = q') :
    (s.reading w).At limit d inside q' :=
  ⟨hq, h.depth_eq, h.le_limit, h.length_le⟩

theorem letter (h : s.At limit d inside q) (ht : Form.isPlain t)
    (hg : t.isLayout → ∀ g, .group g ∉ s.unclosed) :
    Nests limit s [t] (s.reading [t]) ∧ (s.reading [t]).At limit d inside (q.next t) := by
  have hat : (s.reading [t]).At limit d inside (q.next t) :=
    h.reading (by rw [← h.lead_eq]; exact Lead.ofRead_cons ..)
  have ho : t.opens? s.read = none := by
    unfold opens?
    split <;> simp_all [Form.isPlain]
  have hc : t.closes = false := by simp_all [Form.isPlain]
  exact ⟨.cons h.fits hg (by simp [step, ho, hc, Nesting.reading]) (.nil hat.fits), hat⟩

/-- Something may be opened if that is within the limit, and clauses outside of clauses only. -/
theorem opened (h : s.At limit d inside q) (hl : e.deepens → ∀ l ∈ limit, d < l)
    (hi : e.deepens = false → inside = false) {read : List Terminal}
    (hr : Lead.ofRead read = .other) :
    (⟨read, e :: s.unclosed⟩ : Nesting).At limit (d + e.deepens.toNat) (!e.deepens) .other := by
  have hlen := h.length_le
  have hd : s.unclosed.countP (·.deepens) = d := h.depth_eq
  refine ⟨hr, ?_, ?_, ?_⟩
  · cases he : e.deepens <;> simp [depth, hd, he]
  · intro l hm
    cases he : e.deepens with
    | false => exact h.le_limit l hm
    | true => exact hl he l hm
  · cases he : e.deepens with
    | false =>
      rw [hi he] at hlen
      simpa using hlen
    | true =>
      have := inside.toNat_le
      simp
      omega

end Nesting.At

/-- May the enclosure come after such an end? -/
def Enclosure.MayFollow (inside : Bool) (q : Lead) : Enclosure → Prop
  | group _ => True
  | block => q ≠ .subject
  | clauses => q = .subject ∧ inside = false

namespace Terminal

theorem opens?_indent (read : List Terminal) :
    (plain .indent).opens? (newline :: sign .colon :: read) =
      some (if Lead.ofRead read = .subject then .clauses else .block) := by
  unfold opens? Lead.ofRead
  grind

end Terminal

namespace Nesting.At

variable {limit : Option ℕ} {d : ℕ} {inside : Bool} {q : Lead} {s : Nesting} {e : Enclosure}

theorem nests_opening (h : s.At limit d inside q) (he : e.MayFollow inside q)
    (hg : (∀ g, e ≠ .group g) → ∀ g, .group g ∉ s.unclosed)
    (hf : (⟨e.opening.reverse ++ s.read, e :: s.unclosed⟩ : Nesting).Fits limit) :
    Nests limit s e.opening ⟨e.opening.reverse ++ s.read, e :: s.unclosed⟩ := by
  have level (he : e.opening = [sign .colon, newline, plain .indent])
      (ho : (plain .indent).opens? (newline :: sign .colon :: s.read) = some e)
      (hg : ∀ g, .group g ∉ s.unclosed) :
      Nests limit s e.opening ⟨e.opening.reverse ++ s.read, e :: s.unclosed⟩ := by
    rw [he] at hf ⊢
    obtain ⟨hc, hat⟩ := h.letter (t := sign .colon) (by decide) (fun _ => hg)
    obtain ⟨hn, hat⟩ := hat.letter (t := newline) (by decide) (fun _ => hg)
    refine (hc.append hn).append (.cons hat.fits (fun _ => hg) ?_ (.nil hf))
    simp [step, Nesting.reading, ho]
  cases e with
  | group g =>
    cases g <;> exact .cons h.fits (by nofun) rfl (.nil hf)
  | block =>
    refine level rfl ?_ (hg nofun)
    rw [opens?_indent, h.lead_eq, if_neg he]
  | clauses =>
    refine level rfl ?_ (hg nofun)
    rw [opens?_indent, h.lead_eq, if_pos he.1]

theorem nests_closing {read : List Terminal} (h : s.At limit d inside q)
    (hf : (⟨read, e :: s.unclosed⟩ : Nesting).Fits limit)
    (hg : (∀ g, e ≠ .group g) → ∀ g, .group g ∉ s.unclosed) :
    Nests limit ⟨read, e :: s.unclosed⟩ [e.closing] ⟨e.closing :: read, s.unclosed⟩ := by
  refine .cons hf ?_ ?_ (.nil ⟨h.fits.depth_le, h.fits.length_le⟩)
  · cases e with
    | group g => cases g <;> nofun
    | block | clauses =>
      intro _
      simpa using hg nofun
  · cases e with
    | group g => cases g <;> rfl
    | block | clauses => rfl

end Nesting.At

namespace Form

variable {f : Form} {e : Enclosure} {inside : Bool} {q q' : Lead}

theorem lead_enclosed (h : (enclosed e f).lead inside q = some q') :
    e.MayFollow inside q ∧ q' = .other ∧ (∃ r, f.lead (!e.deepens) .other = some r) ∧
      ((∃ g, e = .group g) → f.isInline) := by
  cases e with
  | group g =>
    simp only [lead] at h
    split at h
    · rename_i hf
      rw [Bool.and_eq_true, Option.isSome_iff_exists] at hf
      exact ⟨trivial, (Option.some.inj h).symm, hf.2, fun _ => hf.1⟩
    · cases h
  | block | clauses =>
    simp only [lead] at h
    split at h
    · rename_i hf
      rw [Bool.and_eq_true, Option.isSome_iff_exists] at hf
      exact ⟨by simpa [Enclosure.MayFollow] using hf.1, (Option.some.inj h).symm, hf.2, by simp⟩
    · cases h

end Form

namespace Derives

variable {limit : Option ℕ} {d n : ℕ} {f : Form} {w : List Terminal} {inside : Bool}
  {q q' : Lead} {s : Nesting}

/-- Words close all that they open. -/
theorem nests (h : Derives limit d f w) (hf : f.lead inside q = some q')
    (hs : s.At limit d inside q)
    (hg : (∀ g, .group g ∉ s.unclosed) ∨ ∀ t ∈ w, t.isLayout = false) :
    Nests limit s w (s.reading w) ∧ (s.reading w).At limit d inside q' := by
  induction h generalizing inside q q' s with
  | @oneOf d ts t ht =>
    obtain ⟨hp, rfl⟩ := Form.lead_oneOf hf t ht
    refine hs.letter hp fun hl => ?_
    rcases hg with hg | hg
    · exact hg
    · simp [hg t (by simp)] at hl
  | empty =>
    obtain rfl := Option.some.inj hf
    exact ⟨.nil hs.fits, hs⟩
  | seq _ _ ihu ihv =>
    obtain ⟨next, hfu, hfv⟩ := Form.lead_seq hf
    rw [List.forall_mem_append] at hg
    obtain ⟨hu, hat⟩ := ihu hfu hs (hg.imp_right And.left)
    obtain ⟨hv, hat⟩ := ihv hfv hat (hg.imp_right And.right)
    rw [Nesting.reading_append]
    exact ⟨hu.append hv, hat⟩
  | left _ ih => exact ih (Form.lead_or hf).1 hs hg
  | right _ ih => exact ih (Form.lead_or hf).2 hs hg
  | none =>
    obtain ⟨-, rfl⟩ := Form.lead_many hf
    exact ⟨.nil hs.fits, hs⟩
  | more _ _ ihu ihv =>
    obtain ⟨hfu, rfl⟩ := Form.lead_many hf
    rw [List.forall_mem_append] at hg
    obtain ⟨hu, hat⟩ := ihu hfu hs (hg.imp_right And.left)
    obtain ⟨hv, hat⟩ := ihv hf hat (hg.imp_right And.right)
    rw [Nesting.reading_append]
    exact ⟨hu.append hv, hat⟩
  | phrase _ ih =>
    obtain ⟨rfl, rfl, rfl⟩ := Form.lead_phrase hf
    exact ih (Form.lead_form _) hs hg
  | @enclosed d e f w hl h ih =>
    obtain ⟨he, rfl, ⟨r, hr⟩, hinline⟩ := Form.lead_enclosed hf
    have hout (hne : ∀ g, e ≠ .group g) : ∀ g, .group g ∉ s.unclosed := by
      refine hg.resolve_right fun hw => ?_
      have hc := hw e.closing (by simp)
      cases e with
      | group g => exact hne g rfl
      | block | clauses => cases hc
    have hin : (∀ g, .group g ∉ e :: s.unclosed) ∨ ∀ t ∈ w, t.isLayout = false := by
      cases e with
      | group g => exact .inr (h.isLayout_eq_false (hinline ⟨g, rfl⟩))
      | block | clauses =>
        left
        simpa using hout nofun
    have hopened := hs.opened hl (by cases e <;> simp_all [Enclosure.deepens, Enclosure.MayFollow])
      (Lead.ofRead_opening e s.read)
    have hopen := hs.nests_opening he hout hopened.fits
    obtain ⟨hw, hat⟩ := ih hr hopened hin
    have hclose := hs.nests_closing hat.fits hout
    refine ⟨(hopen.append hw).append ?_, hs.reading ?_⟩
    · rw [Nesting.reading_append, Nesting.reading_append]
      exact hclose
    · simpa using Lead.ofRead_closing e _

theorem nests_program (h : Derives limit 0 (Phrase.program n) w) :
    Nests limit .initial w ⟨w.reverse, []⟩ := by
  have hat : Nesting.initial.At limit 0 false .other :=
    ⟨rfl, rfl, by simp, by simp [Nesting.initial]⟩
  have hn := (h.nests (Form.lead_program n) hat (.inl (by simp [Nesting.initial]))).1
  simpa [Nesting.reading, Nesting.initial] using hn

end Derives

/-- In the tokens of a program, what was opened last is closed first, by its own closer, and nothing
stays open. No line ends or starts inside of brackets, and a level opens after a colon at the end
of a line only. At every place no more brackets and levels are open than the limit of nesting, the
bodies of `which` left out, and no more than twice as many and one together with these. -/
theorem parse_nested {ts : TokenStream} {n : ℕ} (h : parse ts = .ok n) {us vs : List Token}
    (huv : us ++ vs = ts.toList) : ∃ s, Nesting.after (us.map Token.terminal) = some s ∧
      s.unclosed.countP (·.deepens) ≤ 64 ∧ s.unclosed.length ≤ 129 ∧
      (vs = [] → s.unclosed = []) ∧
      ∀ t ∈ vs.head?, (t.kind.isLayout → ∀ g, .group g ∉ s.unclosed) ∧
        (t.kind = .indent → [.punctuation .colon, .newline] <:+ us.map Token.kind) := by
  have hd := parseWithin_eq_ok_iff.mp h
  have hn := hd.nests_program
  rw [← huv, List.map_append] at hn
  obtain ⟨s, hs, hn⟩ := hn.exists_of_append
  have hdepth := hn.fits.depth_le _ rfl
  have hlength := hn.fits.length_le
  refine ⟨s, hs, hdepth, ?_, ?_, ?_⟩
  · unfold nestingLimit at hdepth
    omega
  · rintro rfl
    cases hn
    rfl
  · intro t ht
    obtain ⟨vs, rfl⟩ := List.head?_eq_some_iff.mp ht
    refine ⟨fun hl => ?_, (leveled_of_parse h).before_indent us t ⟨vs, by simpa using huv⟩⟩
    obtain - | ⟨-, hg, -, -⟩ := hn
    exact hg (t.isLayout_terminal.trans hl)

/-- The limit leaves out the clauses of a `which`, the lines of which may open more. -/
theorem parse_nested_clauses : ∃ ts us vs,
    lex "which g:\n\tinstance 1:\n\t\tf([g])\n".toList = .ok ts ∧ parse ts = .ok 1 ∧
    us ++ vs = ts.toList ∧ ∃ s, Nesting.after (us.map Token.terminal) = some s ∧
      s.unclosed = [.group .bracket, .group .paren, .block, .clauses] ∧
      s.unclosed.countP (·.deepens) ≤ 64 ∧ s.unclosed.length ≤ 129 ∧ vs ≠ [] ∧
      ∀ t ∈ vs.head?, (t.kind.isLayout → ∀ g, .group g ∉ s.unclosed) ∧
        (t.kind = .indent → [.punctuation .colon, .newline] <:+ us.map Token.kind) := by
  obtain ⟨ts, hlex, hp, ho, hne⟩ : ∃ ts,
      lex "which g:\n\tinstance 1:\n\t\tf([g])\n".toList = .ok ts ∧ parse ts = .ok 1 ∧
      (Nesting.after ((ts.toList.take 13).map Token.terminal)).map Nesting.unclosed =
        some [.group .bracket, .group .paren, .block, .clauses] ∧
      ts.toList.drop 13 ≠ [] := ⟨_, rfl, by decide +kernel⟩
  obtain ⟨s, hs, hdepth, hlength, -, hnext⟩ := parse_nested hp (ts.toList.take_append_drop 13)
  rw [hs] at ho
  exact ⟨ts, _, _, hlex, hp, ts.toList.take_append_drop 13, s, hs, Option.some.inj ho, hdepth,
    hlength, hne, hnext⟩

end RookLang
