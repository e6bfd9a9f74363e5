import Mathlib.Logic.Relation
import Mathlib.Order.RelClasses
import RookLang.Proofs.Layout
import RookLang.Proofs.ScanningLoop

/-! The indentation that is recorded while lines become tokens. It is lowered unit by unit, and set
to that of the line at the end; since it never holds a part of a unit, this last step changes
nothing. -/
namespace RookLang

namespace Layout

/-- What is to be done for a line, or at the end. -/
inductive Task where
  /-- Record a greater width, with one token for it. -/
  | raise (width : ℕ) (mark : Token)
  /-- Lower what is recorded to a width, with one token for each unit. -/
  | lower (width : ℕ) (mark : Token)
  /-- Read the lexemes of a line. -/
  | scan (line : Text.Line)
  | emit (ts : List Token)

/-- The state of the way from lines to tokens. -/
structure Machine where
  unread : List Text.Line
  /-- The last line that was begun. -/
  last : Option Text.Line
  tasks : List Task
  /-- The width that is recorded. -/
  indentation : ℕ
  emitted : List Token
  /-- Whether the end of the input was reached. -/
  closed : Bool

/-- A token without text on a line whose lexemes have not been read. -/
def layoutToken (line : Text.Line) (kind : Kind) (column : ℕ) : Token :=
  ⟨kind, "", line.number, column, String.ofList line.text, width (leading line.text)⟩

/-- What is to be done for a line, given the width that is recorded. -/
def lineTasks (indentation : ℕ) (line : Text.Line) : List Task :=
  let w := width (leading line.text)
  let start := (leading line.text).length + 1
  (if indentation < w then [.raise w (layoutToken line .indent start)]
    else if w < indentation then [.lower w (layoutToken line .dedent start)]
    else []) ++ [.scan line]

/-- What is to be done after the last line. -/
def closingTasks : Option Text.Line → List Task
  | some line =>
    let finish := inkLength line.text + 1
    [.lower 0 (layoutToken line .dedent finish), .emit [layoutToken line .endOfInput finish]]
  | none => [.lower 0 ⟨.dedent, "", 1, 1, "", 0⟩, .emit [⟨.endOfInput, "", 1, 1, "", 0⟩]]

namespace Machine

def initial (lines : List Text.Line) : Machine := ⟨lines, none, [], 0, [], false⟩

/-- Begin a line or close the input when nothing is to be done, or do a part of the first task. A
line that is badly indented is not begun, and one with a lexeme at fault is not scanned. -/
inductive Step : Machine → Machine → Prop
  | measure {line unread last indentation emitted}
    (h : Character.isAligned (width (leading line.text))) :
    Step ⟨line :: unread, last, [], indentation, emitted, false⟩
      ⟨unread, some line, lineTasks indentation line, indentation, emitted, false⟩
  | close {last indentation emitted} :
    Step ⟨[], last, [], indentation, emitted, false⟩
      ⟨[], last, closingTasks last, indentation, emitted, true⟩
  | raise {unread last width mark tasks indentation emitted closed} :
    Step ⟨unread, last, .raise width mark :: tasks, indentation, emitted, closed⟩
      ⟨unread, last, tasks, width, emitted ++ [mark], closed⟩
  | lower {unread last width mark tasks indentation emitted closed} (h : width < indentation) :
    Step ⟨unread, last, .lower width mark :: tasks, indentation, emitted, closed⟩
      ⟨unread, last, .lower width mark :: tasks, indentation - Character.indentUnit,
        emitted ++ [mark], closed⟩
  /-- Record the width itself, so that no part of a unit is left. -/
  | record {unread last width mark tasks indentation emitted closed} (h : indentation ≤ width) :
    Step ⟨unread, last, .lower width mark :: tasks, indentation, emitted, closed⟩
      ⟨unread, last, tasks, width, emitted, closed⟩
  | scan {unread last line l tasks indentation emitted closed} (h : readLine line = .ok l) :
    Step ⟨unread, last, .scan line :: tasks, indentation, emitted, closed⟩
      ⟨unread, last, tasks, indentation, emitted ++ (l.body ++ l.ending), closed⟩
  | emit {unread last ts tasks indentation emitted closed} :
    Step ⟨unread, last, .emit ts :: tasks, indentation, emitted, closed⟩
      ⟨unread, last, tasks, indentation, emitted ++ ts, closed⟩

abbrev Steps : Machine → Machine → Prop := Relation.ReflTransGen Step

/-- Nothing is left to do. -/
structure Done (m : Machine) : Prop where
  closed : m.closed
  tasks : m.tasks = []

variable {m m' n : Machine} {unread lines : List Text.Line} {last : Option Text.Line}
  {line : Text.Line} {l : CodeLine} {tasks : List Task} {mark : Token} {indentation width : ℕ}
  {emitted : List Token} {closed : Bool}

theorem Step.unique (h : Step m n) (h' : Step m n') : n = n' := by
  cases h with
  | scan h =>
    cases h' with
    | scan h' =>
      cases h.symm.trans h'
      rfl
  | measure | close | raise | emit =>
    cases h'
    rfl
  | lower h =>
    cases h' with
    | lower => rfl
    | record h' => omega
  | record h =>
    cases h' with
    | lower h' => omega
    | record => rfl

/-- Each step begins a line or closes the input, completes a task, or lowers the indentation. -/
theorem wellFounded_step : WellFounded fun n m => Step m n := by
  let size (m : Machine) : ℕ × ℕ × ℕ :=
    (m.unread.length + (!m.closed).toNat, m.tasks.length, m.indentation)
  have hlex : WellFounded (Prod.Lex (· < · : ℕ → ℕ → Prop)
      (Prod.Lex (· < · : ℕ → ℕ → Prop) (· < · : ℕ → ℕ → Prop))) :=
    wellFounded_lt.prod_lex (wellFounded_lt.prod_lex wellFounded_lt)
  refine Subrelation.wf ?_ (InvImage.wf size hlex)
  intro n m h
  cases h with
  | measure | close => exact .left _ _ (by simp)
  | raise | record | scan | emit => exact .right _ (.left _ _ (Nat.lt_succ_self _))
  | lower h => exact .right _ (.right _ (Nat.sub_lt (Nat.zero_lt_of_lt h) (by decide)))

theorem steps_lower : Steps ⟨unread, last, .lower width mark :: tasks, indentation, emitted, closed⟩
    ⟨unread, last, tasks, width, emitted ++ List.replicate (dedentCount indentation width) mark,
      closed⟩ := by
  induction indentation using Nat.strongRecOn generalizing emitted with
  | ind indentation ih =>
    rw [dedentCount]
    split
    · rename_i h
      have hlt : indentation - Character.indentUnit < indentation :=
        Nat.sub_lt (Nat.zero_lt_of_lt h) (by decide)
      have hs := @ih _ hlt (emitted ++ [mark])
      rw [List.append_assoc, List.singleton_append, ← List.replicate_succ] at hs
      exact .head (.lower h) hs
    · rw [List.replicate_zero, List.append_nil]
      exact .single (.record (Nat.le_of_not_lt ‹_›))

theorem token_of_readLine (h : readLine line = .ok l) (kind : Kind) (column : ℕ) :
    l.token kind "" column = layoutToken line kind column := by
  rw [(readLine_eq_ok_iff.mp h).2]
  rfl

theorem steps_lineTasks (h : readLine line = .ok l) :
    Steps ⟨unread, last, lineTasks indentation line, indentation, emitted, closed⟩
      ⟨unread, last, [], l.width, emitted ++ l.tokens indentation, closed⟩ := by
  have hscan es : Steps ⟨unread, last, [.scan line], l.width, es, closed⟩
      ⟨unread, last, [], l.width, es ++ l.body ++ l.ending, closed⟩ :=
    .single (List.append_assoc es _ _ ▸ .scan h)
  have hwidth : Layout.width (leading line.text) = l.width := by
    rw [(readLine_eq_ok_iff.mp h).2]
  have hstart : (leading line.text).length + 1 = l.start := by
    rw [(readLine_eq_ok_iff.mp h).2]
  rw [CodeLine.tokens, CodeLine.opening, lineTasks, ← List.append_assoc, ← List.append_assoc,
    hwidth, hstart, ← token_of_readLine h, ← token_of_readLine h]
  split
  · exact .head .raise (hscan _)
  · split
    · exact steps_lower.trans (hscan _)
    · obtain rfl : indentation = l.width := by omega
      have hd : dedentCount l.width l.width = 0 := by simp [dedentCount_eq]
      rw [hd, List.replicate_zero, List.append_nil]
      exact hscan _

theorem steps_line (h : readLine line = .ok l) :
    Steps ⟨line :: unread, last, [], indentation, emitted, false⟩
      ⟨unread, some line, [], l.width, emitted ++ l.tokens indentation, false⟩ :=
  .head (.measure (cutsLine_iff.mp (readLine_eq_ok_iff.mp h).1).1) (steps_lineTasks h)

theorem steps_close (h : readLine line = .ok l) :
    Steps ⟨[], some line, [], l.width, emitted, false⟩
      ⟨[], some line, [], 0, emitted ++ l.closing, true⟩ := by
  have hfinish : inkLength line.text + 1 = l.finish := by
    rw [(readLine_eq_ok_iff.mp h).2]
  have hclose : Steps _ _ := .single
    (.close : Step ⟨[], some line, [], l.width, emitted, false⟩ _)
  rw [closingTasks, hfinish, ← token_of_readLine h, ← token_of_readLine h] at hclose
  rw [CodeLine.closing, ← List.append_assoc]
  exact hclose.trans (steps_lower.trans (.single .emit))

theorem steps_tokensAfter {ls : List CodeLine} (hl : readLine line = .ok l)
    (h : List.Forall₂ (fun line l => readLine line = .ok l) lines ls) :
    ∃ last, Steps ⟨lines, some line, [], l.width, emitted, false⟩
      ⟨[], last, [], 0, emitted ++ tokensAfter l ls, true⟩ := by
  induction h generalizing line l emitted with
  | nil => exact ⟨some line, steps_close hl⟩
  | cons hr _ ih =>
    obtain ⟨last, hs⟩ := ih hr
    rw [List.append_assoc] at hs
    exact ⟨last, (steps_line hr).trans hs⟩

/-- Lines that can be read become their tokens. -/
theorem steps_tokens {ls : List CodeLine}
    (h : List.Forall₂ (fun line l => readLine line = .ok l) lines ls) :
    ∃ last, Steps (initial lines) ⟨[], last, [], 0, tokens ls, true⟩ := by
  cases h with
  | nil => exact ⟨none, .head .close (.head (.record (Nat.le_refl 0)) (.single .emit))⟩
  | cons hr h =>
    obtain ⟨last, hs⟩ := steps_tokensAfter hr h
    rw [tokens_cons]
    exact ⟨last, (steps_line hr).trans hs⟩

/-- The lines that have been begun can be read or are still to be scanned, and at the end all of
them have been begun. -/
structure Reads (lines : List Text.Line) (m : Machine) : Prop where
  read : ∃ pre, lines = pre ++ m.unread ∧
    ∀ line ∈ pre, (∃ l, readLine line = .ok l) ∨ .scan line ∈ m.tasks
  closed : m.closed → m.unread = []

theorem reads_initial : Reads lines (initial lines) := ⟨⟨[], rfl, by simp⟩, nofun⟩

theorem Reads.step (h : Reads lines m) (hs : Step m n) : Reads lines n := by
  obtain ⟨⟨pre, rfl, hpre⟩, hc⟩ := h
  cases hs with
  | @measure line unread last indentation emitted hw =>
    refine ⟨⟨pre ++ [line], by simp, fun line' hl => ?_⟩, nofun⟩
    rcases List.mem_append.mp hl with hl | hl
    · exact .inl ((hpre line' hl).resolve_right nofun)
    · obtain rfl := List.mem_singleton.mp hl
      exact .inr (List.mem_append_right _ List.mem_cons_self)
  | close =>
    exact ⟨⟨pre, rfl, fun line hl => .inl ((hpre line hl).resolve_right nofun)⟩, fun _ => rfl⟩
  | scan hr =>
    refine ⟨⟨pre, rfl, fun line hl => ?_⟩, hc⟩
    rcases hpre line hl with hl | hl
    · exact .inl hl
    · rcases List.mem_cons.mp hl with ht | hl
      · cases ht
        exact .inl ⟨_, hr⟩
      · exact .inr hl
  | lower => exact ⟨⟨pre, rfl, hpre⟩, hc⟩
  | raise | record | emit =>
    refine ⟨⟨pre, rfl, fun line hl => (hpre line hl).imp_right fun hl => ?_⟩, hc⟩
    exact (List.mem_cons.mp hl).resolve_left nofun

theorem Reads.steps (h : Reads lines m) (hs : Steps m n) : Reads lines n := by
  induction hs with
  | refl => exact h
  | tail _ hs ih => exact ih.step hs

theorem Done.not_step (h : m.Done) : ¬ Step m n := by
  intro hs
  obtain ⟨hc, ht⟩ := h
  cases hs with
  | measure | close => cases hc
  | _ => cases ht

theorem Done.unique (h : m.Done) (h' : n.Done) {m₀ : Machine} (hm : Steps m₀ m)
    (hn : Steps m₀ n) : m = n := by
  have hu : Relator.RightUnique Step := fun _ _ _ => Step.unique
  obtain hs | hs := Relation.ReflTransGen.total_of_right_unique hu hm hn
  · obtain rfl | ⟨k, hk, -⟩ := hs.cases_head
    · rfl
    · exact (h.not_step hk).elim
  · obtain rfl | ⟨k, hk, -⟩ := hs.cases_head
    · rfl
    · exact (h'.not_step hk).elim

/-- The way from lines to tokens leads to the tokens of the text, if there are any. -/
theorem lexStripped_eq_ok_iff {text : List Char} {ts : TokenStream} : lexStripped text = .ok ts ↔
    ∃ m, Steps (initial ((Text.lines text).filter isCode)) m ∧ m.Done ∧ m.emitted = ts.toList := by
  have hfinal {ls : List CodeLine} (hl : codeLines text = .ok ls) :
      ∃ m, Steps (initial ((Text.lines text).filter isCode)) m ∧ m.Done ∧
        m.emitted = tokens ls := by
    obtain ⟨last, hs⟩ := steps_tokens (codeLines_eq_ok_iff.mp hl)
    exact ⟨_, hs, ⟨rfl, rfl⟩, rfl⟩
  constructor
  · intro h
    cases hl : codeLines text with
    | error e => simp [lexStripped, hl, Except.map] at h
    | ok ls =>
      obtain rfl : ⟨tokens ls⟩ = ts := by simpa [lexStripped, hl, Except.map] using h
      exact hfinal hl
  · rintro ⟨m, hs, hd, he⟩
    obtain ⟨⟨pre, hpre, hr⟩, hc⟩ := reads_initial.steps hs
    rw [hc hd.closed, List.append_nil] at hpre
    have hr line (hl : line ∈ pre) : ∃ l, readLine line = .ok l :=
      (hr line hl).resolve_right (by simp [hd.tasks])
    obtain ⟨ls, hl⟩ : ∃ ls, codeLines text = .ok ls := exists_mapM_eq_ok_iff.mpr (hpre ▸ hr)
    obtain ⟨m', hs', hd', he'⟩ := hfinal hl
    obtain rfl := hd.unique hd' hs hs'
    have ht : (⟨tokens ls⟩ : TokenStream) = ts := congrArg TokenStream.mk (he'.symm.trans he)
    rw [lexStripped, hl, ← ht]
    rfl

/-- What is done from a width with no part of a unit leaves none. -/
def Fits (indentation : ℕ) : Task → Prop
  | .raise width _ => 4 ∣ width
  | .lower width _ => 4 ∣ width ∧ width ≤ indentation
  | .scan _ | .emit _ => True

/-- Nothing is done about the recorded width. -/
def Settled : Task → Prop
  | .raise .. | .lower .. => False
  | .scan _ | .emit _ => True

/-- The recorded width has no part of a unit, and will have none; it is settled before all else. -/
structure Aligned (m : Machine) : Prop where
  indentation : 4 ∣ m.indentation
  head : ∀ task ∈ m.tasks.head?, Fits m.indentation task
  tail : ∀ task ∈ m.tasks.tail, Settled task

theorem aligned_initial : Aligned (initial lines) := ⟨Nat.dvd_zero 4, nofun, nofun⟩

theorem aligned_of_settled (hi : 4 ∣ indentation) (ht : ∀ task ∈ tasks, Settled task) :
    Aligned ⟨unread, last, tasks, indentation, emitted, closed⟩ := by
  refine ⟨hi, fun task hm => ?_, fun task hm => ht task (List.mem_of_mem_tail hm)⟩
  have hs := ht task (List.mem_of_mem_head? hm)
  cases task with
  | raise | lower => exact hs.elim
  | scan | emit => trivial

theorem aligned_lineTasks (hi : 4 ∣ indentation) (hw : 4 ∣ Layout.width (leading line.text)) :
    Aligned ⟨unread, last, lineTasks indentation line, indentation, emitted, closed⟩ := by
  unfold lineTasks
  dsimp only
  split
  · exact ⟨hi, by simpa [Fits] using hw, by simp [Settled]⟩
  · split
    · rename_i hlt
      exact ⟨hi, by simpa [Fits] using ⟨hw, hlt.le⟩, by simp [Settled]⟩
    · exact aligned_of_settled hi (by simp [Settled])

theorem aligned_closingTasks (hi : 4 ∣ indentation) :
    Aligned ⟨unread, last, closingTasks last, indentation, emitted, closed⟩ := by
  cases last <;> exact ⟨hi, by simp [closingTasks, Fits], by simp [closingTasks, Settled]⟩

theorem Aligned.step (h : m.Aligned) (hs : Step m n) : n.Aligned := by
  obtain ⟨hi, hh, ht⟩ := h
  cases hs with
  | measure hw =>
    refine aligned_lineTasks hi (Nat.dvd_of_mod_eq_zero ?_)
    simpa [Character.isAligned, Character.indentUnit] using hw
  | close => exact aligned_closingTasks hi
  | raise => exact aligned_of_settled (hh _ rfl) ht
  | @lower _ _ width _ _ indentation _ _ h =>
    -- More than a unit is recorded beyond the width, since neither has a part of one.
    obtain ⟨hw, hle⟩ := hh _ rfl
    dsimp only at hi hle
    have hd : 4 ∣ indentation - Character.indentUnit := Nat.dvd_sub hi (Nat.dvd_refl 4)
    refine ⟨hd, ?_, ht⟩
    rintro _ ⟨⟩
    have hunit : width ≤ indentation - Character.indentUnit := by
      rw [Character.indentUnit]
      omega
    exact ⟨hw, hunit⟩
  | record => exact aligned_of_settled (hh _ rfl).1 ht
  | scan | emit => exact aligned_of_settled hi ht

theorem Aligned.steps (h : m.Aligned) (hs : Steps m n) : n.Aligned := by
  induction hs with
  | refl => exact h
  | tail _ hs ih => exact ih.step hs

end Machine

end Layout

open Layout Lexeme

/-- The loops from lines to tokens end. A step that hands its character back leaves no lexeme open,
and the next one takes it, so that a text is scanned in two steps for each character at most. From
every width that is recorded levels are closed down to every other width, one for each unit that is
begun; but in no state is a part of a unit recorded, whatever the lines are, so that the levels
that are closed always leave the width itself. -/
theorem lexer_loops :
    (∀ (s t : Scanner) c, s.step c = .ok (.handedBack t) →
      t.pending = none ∧ ∀ u, t.step c ≠ .ok (.handedBack u)) ∧
    (∀ (s : Scanner) text, ∃ n answer, s.Loops text n answer) ∧
    (∀ (s : Scanner) text n answer, s.Loops text n answer →
      n ≤ 2 * text.length ∧ answer = text.foldlM Scanner.feed s) ∧
    (∀ old new, dedentCount old new = (old - new + 3) / 4) ∧
    (∀ unread last width mark tasks indentation emitted closed,
      Machine.Steps ⟨unread, last, .lower width mark :: tasks, indentation, emitted, closed⟩
        ⟨unread, last, tasks, width,
          emitted ++ List.replicate (dedentCount indentation width) mark, closed⟩) ∧
    (∀ m n n', Machine.Step m n → Machine.Step m n' → n = n') ∧
    (WellFounded fun n m => Machine.Step m n) ∧
    (∀ lines m, Machine.Steps (.initial lines) m → 4 ∣ m.indentation ∧
      ∀ width mark tasks, m.tasks = .lower width mark :: tasks →
        m.indentation ≤ width → m.indentation = width) ∧
    ∀ text ts, lexStripped text = .ok ts ↔
      ∃ m, Machine.Steps (.initial ((Text.lines text).filter isCode)) m ∧ m.Done ∧
        m.emitted = ts.toList := by
  refine ⟨fun s t c h => ?_, fun s text => ?_, fun _ _ _ _ h => h.le, dedentCount_eq,
    fun _ _ _ _ _ _ _ _ => Machine.steps_lower, fun _ _ _ h h' => h.unique h',
    Machine.wellFounded_step, fun lines m h => ?_, fun _ _ => Machine.lexStripped_eq_ok_iff⟩
  · have hp := Scanner.pending_of_handedBack h
    exact ⟨hp, fun _ => Scanner.step_ne_handedBack hp⟩
  · obtain ⟨n, hn, -⟩ := Scanner.exists_loops s text
    exact ⟨n, _, hn⟩
  · have ha := Machine.aligned_initial.steps h
    refine ⟨ha.indentation, fun width mark tasks ht hle => ?_⟩
    obtain ⟨-, hge⟩ : Machine.Fits m.indentation (.lower width mark) :=
      ha.head _ (by rw [ht]; rfl)
    exact Nat.le_antisymm hle hge

/-- The sign after a word closes it and is handed back. -/
theorem lexer_loops_word :
    let answer : Scanner := ⟨3, some ⟨.operator, ['+'], 2⟩, [⟨.identifier, ['a'], 1⟩]⟩
    (Scanner.startingAt 1).Loops ['a', '+'] 3 (.ok answer) ∧ 3 ≤ 2 * ['a', '+'].length := by
  intro answer
  have h : (Scanner.startingAt 1).Loops ['a', '+'] 3 (.ok answer) :=
    .taken rfl (.handedBack rfl (.taken rfl .done))
  exact ⟨h, (lexer_loops.2.2.1 _ _ _ _ h).1⟩

end RookLang
