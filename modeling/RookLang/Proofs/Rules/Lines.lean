import RookLang.Proofs.Grammar.TopLines
import RookLang.Proofs.Rules.Words

/-! Goals within lines and between them. Within a line no layout is taken; what is owed there ends
with the end of a statement or with the block after a colon. So it makes no difference whether the
last line ends before its block does or with it. -/
namespace RookLang.Rule
open Recogniser Terminal Phrase

/-- Does the rule stand for a part of one line? -/
def inLine : Rule → Bool
  | program | statements | statement | statementEnd | branches | clauses => false
  | _ => true

/-- Is the goal met within a line? -/
def goalInLine : Goal Rule → Bool
  | .need t _ | .allow t => !t.isLayout
  | .rule r => r.inLine
  | .openGroup _ | .closeGroup => true
  | .enterBlock | .leaveBlock | .tally => false

/-- Is the goal met where a line starts? -/
def goalBetween : Goal Rule → Bool
  | .need t _ => t = .plain .indent ∨ t = .plain .dedent
  | .rule .program | .rule .statements | .rule .branches | .rule .clauses => true
  | .enterBlock | .leaveBlock | .tally => true
  | _ => false

/-- What is taken within a line owes no layout. -/
def Start.InLine (s : Start) : Prop := ∀ next gs, s next = .ok gs → gs.all goalInLine

def reactsInLine : Reaction Rule → Bool
  | .take body => body.all goalInLine
  | .pass | .refuse _ => true

variable {goals goals' body : List (Goal Rule)} {x x' : Context} {t : Terminal}
  {ts us : List Terminal} {next : Option Terminal} {r : Rule} {s : Start} {n : ℕ}
  {limit : Option ℕ} {res : Context × List Terminal}

theorem Start.InLine.followedBy (h : s.InLine) (hb : body.all goalInLine) :
    (s.followedBy body).InLine := by
  intro next gs hs
  obtain ⟨owed, hst, rfl⟩ := Start.exists_of_followedBy hs
  rw [List.all_append, h next owed hst, hb, Bool.and_self]

theorem Start.InLine.react (h : s.InLine) (next : Option Terminal) :
    reactsInLine (s.react next) := by
  cases hr : s.react next with
  | take body => exact h next body (Start.react_eq_take hr)
  | pass | refuse => rfl

theorem inLine_takeIf {p : Terminal → Bool} (h : body.all goalInLine) :
    reactsInLine (takeIf next p body) := by
  unfold takeIf
  split
  · exact h
  · rfl

theorem inLine_startValue : startValue.InLine := by
  intro next gs h
  unfold startValue at h
  split at h
  · cases h
    rfl
  · cases h
    rfl
  · cases h
    rfl
  · split at h <;> cases h
    rfl

theorem inLine_startSigned : startSigned.InLine := by
  intro next gs h
  unfold startSigned at h
  split at h
  · cases h
    rfl
  · exact inLine_startValue next gs h

theorem inLine_startProduct : startProduct.InLine := inLine_startSigned.followedBy rfl

theorem inLine_startSum : startSum.InLine := inLine_startProduct.followedBy rfl

theorem inLine_startComparison : startComparison.InLine := inLine_startSum.followedBy rfl

theorem inLine_startNegation : startNegation.InLine := by
  intro next gs h
  unfold startNegation at h
  split at h
  · cases h
    rfl
  · exact inLine_startComparison next gs h

theorem inLine_startConjunction : startConjunction.InLine := inLine_startNegation.followedBy rfl

theorem inLine_startExpression : startExpression.InLine := inLine_startConjunction.followedBy rfl

theorem inLine_startAssignedValue : startAssignedValue.InLine := by
  intro next gs h
  unfold startAssignedValue at h
  split at h
  · cases h
    rfl
  · exact inLine_startExpression next gs h

theorem inLine_startPrintArgument : startPrintArgument.InLine := by
  intro next gs h
  unfold startPrintArgument at h
  split at h
  · cases h
    rfl
  · exact inLine_startExpression.followedBy rfl next gs h

theorem inLine_startInstancePattern : startInstancePattern.InLine := by
  intro next gs h
  unfold startInstancePattern at h
  split at h <;> cases h
  rfl

theorem inLine_startIdentifierUse : startIdentifierUse.InLine := by
  intro next gs h
  unfold startIdentifierUse at h
  split at h
  · cases h
    rfl
  · cases h
    rfl
  · cases h
    rfl
  · split at h <;> cases h
    rfl

theorem inLine_startMoreTargets : startMoreTargets.InLine := by
  intro next gs h
  unfold startMoreTargets at h
  split at h <;> cases h <;> rfl

theorem inLine_startIterable : startIterable.InLine := by
  intro next gs h
  unfold startIterable at h
  split at h <;> cases h <;> rfl

theorem inLine_react (hr : r.inLine) (next : Option Terminal) : reactsInLine (react next r) := by
  cases r with
  | program | statements | statement | statementEnd | branches | clauses => cases hr
  | identifierUse => exact inLine_startIdentifierUse.react next
  | moreTargets => exact inLine_startMoreTargets.react next
  | assignedValue => exact inLine_startAssignedValue.react next
  | printArgument => exact inLine_startPrintArgument.react next
  | instancePattern => exact inLine_startInstancePattern.react next
  | iterable => exact inLine_startIterable.react next
  | expression => exact inLine_startExpression.react next
  | conjunction => exact inLine_startConjunction.react next
  | negation => exact inLine_startNegation.react next
  | comparison => exact inLine_startComparison.react next
  | sum => exact inLine_startSum.react next
  | product => exact inLine_startProduct.react next
  | signed => exact inLine_startSigned.react next
  | value => exact inLine_startValue.react next
  | returnedValue =>
    simp only [react]
    split
    · rfl
    · exact inLine_startExpression.react next
  | printArguments =>
    simp only [react]
    split
    · rfl
    · exact inLine_startPrintArgument.react next
  | arguments =>
    simp only [react]
    split
    · rfl
    · exact (inLine_startExpression.followedBy rfl).react next
  | instanceGuard =>
    simp only [react]
    split
    · rfl
    · exact inLine_startInstancePattern.react next
  | elements | laterElement =>
    simp only [react]
    split
    · rfl
    · rfl
    · exact (inLine_startExpression.followedBy rfl).react _
  | moreElements =>
    simp only [react]
    split <;> rfl
  | moreComparisons =>
    simp only [react]
    split
    · rfl
    · exact inLine_takeIf rfl
  | _ => exact inLine_takeIf rfl

/-- Within a line, whatever ends it is left or refused as the end of the terminals is. -/
theorem react_of_endsLine (hr : r.inLine) (h : next.all (·.endsLine)) :
    react next r = react none r := by
  have hn : next = none ∨ next = some newline ∨ next = some (plain .endOfInput) ∨
      next = some (plain .dedent) := by
    cases next with
    | none => exact .inl rfl
    | some t =>
      have ht : t.endsLine := h
      unfold endsLine at ht
      split at ht <;> simp at ht ⊢
  rcases hn with rfl | rfl | rfl | rfl <;> cases r <;> first | rfl | cases hr

/-- Goals within a line, then the end of a statement or the start of a block, and the goals between
lines after it. -/
inductive MidLine : List (Goal Rule) → Prop
  | goal {g : Goal Rule} {gs : List (Goal Rule)} (h : goalInLine g) (hg : MidLine gs) :
    MidLine (g :: gs)
  | statementEnd {gs : List (Goal Rule)} (hg : gs.all goalBetween) :
    MidLine (.rule .statementEnd :: gs)
  | header {missing missing' : Expectation} {gs : List (Goal Rule)} (hg : gs.all goalBetween) :
    MidLine (.need newline missing :: .need (plain .indent) missing' :: gs)

namespace MidLine

theorem append (h : MidLine goals) (hb : body.all goalInLine) : MidLine (body ++ goals) := by
  induction body with
  | nil => exact h
  | cons g body ih =>
    rw [List.all_cons, Bool.and_eq_true] at hb
    exact .goal hb.1 (ih hb.2)

theorem colonBlock (h : goals.all goalBetween) (missing : Expectation) :
    MidLine (Rule.colonBlock missing ++ goals) :=
  .goal rfl (.header h)

theorem simpleTail {L : Words} (h : goals.all goalBetween) (ht : SimpleTail limit body L) :
    MidLine (body ++ .rule .statementEnd :: goals) := by
  refine append (.statementEnd h) ?_
  cases ht <;> rfl

theorem compoundTail {L : Words} (h : goals.all goalBetween) (ht : CompoundTail limit body L) :
    MidLine (body ++ goals) := by
  cases ht with
  | if_ =>
    rw [List.append_assoc]
    exact .goal rfl (colonBlock (by exact h) _)
  | while_ => exact .goal rfl (colonBlock h _)
  | for_ =>
    rw [List.append_assoc]
    exact append (colonBlock h _) rfl
  | define =>
    rw [List.append_assoc, List.append_assoc, ← List.append_assoc [_, _]]
    exact append (colonBlock h _) rfl
  | which => exact .goal rfl (.goal rfl (.header h))

/-- After its first terminal, a statement goes on in the same line. -/
theorem startStatement (h : goals.all goalBetween) (hs : Rule.startStatement next = .ok body) :
    MidLine (body ++ goals) := by
  cases next with
  | none => cases hs
  | some t =>
    obtain ⟨owed, rfl, ht⟩ | ht := tail_of_startStatement none hs
    · rw [List.append_assoc]
      exact simpleTail h ht
    · exact compoundTail h ht

theorem followedBy {rest : List (Goal Rule)} (hr : (rest ++ goals).all goalBetween)
    (h : (Rule.startStatement.followedBy rest).react next = .take body) :
    MidLine (body ++ goals) := by
  obtain ⟨owed, hs, rfl⟩ := Start.exists_of_followedBy (Start.react_eq_take h)
  rw [List.append_assoc]
  exact startStatement hr hs

end MidLine

/-- What a rule takes where a line starts is layout, or the line goes on after it. -/
theorem midLine_of_react (hg : goals.all goalBetween) (hr : goalBetween (.rule r))
    (h : react (some t) r = .take body) :
    MidLine (body ++ goals) ∨ (body ++ goals).all goalBetween ∧ t.isLayout := by
  cases r with
  | program =>
    simp only [react] at h
    split at h
    · cases h
    · rename_i ht
      obtain rfl := Option.some.inj ht
      cases h
      exact .inr ⟨hg, rfl⟩
    · exact .inl (.followedBy (by exact hg) h)
  | statements =>
    simp only [react] at h
    split at h
    · cases h
    · exact .inl (.followedBy (by exact hg) h)
  | branches =>
    simp only [react] at h
    split at h <;> cases h
    · rw [List.append_assoc]
      exact .inl (.goal rfl (.colonBlock (by exact hg) _))
    · exact .inl (.colonBlock hg _)
  | clauses =>
    have h := Start.react_eq_take h
    unfold startClauses at h
    split at h
    · cases h
      rw [List.append_assoc]
      exact .inl (.goal rfl (.colonBlock (by exact hg) _))
    · cases h
      rw [List.append_assoc]
      exact .inl (.colonBlock (by exact hg) _)
    · rename_i ht
      obtain rfl := Option.some.inj ht
      cases h
      exact .inr ⟨hg, rfl⟩
    · cases h
  | _ => cases hr

theorem midLine_of_work {g : Goal Rule} {owed : List (Goal Rule)} (hg : goals.all goalBetween)
    (hb : goalBetween g) (h : work react limit (some t) x g = .ok (.took owed x')) :
    MidLine (owed ++ goals) ∨ (owed ++ goals).all goalBetween ∧ t.isLayout := by
  cases works_of_work h with
  | need hn =>
    obtain rfl := Option.some.inj hn
    have ht : t = plain .indent ∨ t = plain .dedent := by simpa [goalBetween] using hb
    refine .inr ⟨hg, ?_⟩
    rcases ht with rfl | rfl <;> rfl
  | take hr => exact midLine_of_react hg hb hr
  | allow | closeGroup => cases hb

theorem midLine_of_between (hg : goals.all goalBetween)
    (h : advance react limit (some t) goals x = .ok (.took goals' x')) :
    MidLine goals' ∨ goals'.all goalBetween ∧ t.isLayout := by
  induction goals generalizing x with
  | nil => cases h
  | cons g goals ih =>
    rw [List.all_cons, Bool.and_eq_true] at hg
    obtain ⟨owed, hw, rfl⟩ | ⟨y, -, h⟩ := took_or_left h
    · exact midLine_of_work hg.2 hg.1 hw
    · exact ih hg.2 h

theorem inLine_of_work {g : Goal Rule} {owed : List (Goal Rule)} (hl : goalInLine g)
    (h : work react limit next x g = .ok (.took owed x')) : owed.all goalInLine := by
  cases works_of_work h with
  | need | allow | closeGroup => rfl
  | take hb =>
    have hr := inLine_react hl next
    rw [hb] at hr
    exact hr

theorem MidLine.took (hg : MidLine goals)
    (h : advance react limit (some t) goals x = .ok (.took goals' x')) :
    MidLine goals' ∨ goals'.all goalBetween ∧ t.isLayout := by
  induction hg generalizing x with
  | goal hl hg ih =>
    obtain ⟨owed, hw, rfl⟩ | ⟨y, -, h⟩ := took_or_left h
    · exact .inl (hg.append (inLine_of_work hl hw))
    · exact ih h
  | statementEnd hg =>
    obtain ⟨owed, hw, rfl⟩ | ⟨y, -, h⟩ := took_or_left h
    · cases works_of_work hw with
      | take hr =>
        simp only [react] at hr
        split at hr
        · rename_i ht
          obtain rfl := Option.some.inj ht
          cases hr
          exact .inr ⟨hg, rfl⟩
        · split at hr <;> cases hr
    · exact midLine_of_between hg h
  | header hg =>
    obtain ⟨owed, hw, rfl⟩ | ⟨y, hw, -⟩ := took_or_left h
    · cases works_of_work hw with
      | need hn =>
        obtain rfl := Option.some.inj hn
        exact .inr ⟨hg, rfl⟩
    · cases works_of_work hw

theorem midLine_of_takes (h : Takes react limit goals x us goals' x')
    (hg : MidLine goals ∨ goals.all goalBetween) : (MidLine goals' ∨ goals'.all goalBetween) ∧
      ∀ t ∈ us.getLast?, t.isLayout = false → MidLine goals' := by
  induction h with
  | nil => exact ⟨hg, nofun⟩
  | @cons goals x t gs y us goals' x' ha ht ih =>
    have hgs : MidLine gs ∨ gs.all goalBetween ∧ t.isLayout := by
      rcases hg with hg | hg
      · exact hg.took ha
      · exact midLine_of_between hg ha
    obtain ⟨hg', hlast⟩ := ih (hgs.imp_right And.left)
    refine ⟨hg', ?_⟩
    cases us with
    | nil =>
      cases ht
      intro u hu hl
      obtain rfl : t = u := by simpa using hu
      exact hgs.resolve_right fun h => by simp [hl] at h
    | cons u us => simpa using hlast

/-- The number of terminals that were taken comes into errors only. -/
theorem run_eq_ok_congr {R : Type} {g : Grammar R} {goals : List (Goal R)} (k k' : ℕ) :
    run g limit k goals x ts = .ok res ↔ run g limit k' goals x ts = .ok res := by
  induction ts generalizing k k' goals x with
  | nil =>
    simp only [run]
    split <;> simp
  | cons t ts ih =>
    simp only [run]
    split
    · exact ih (k + 1) (k' + 1)
    · rfl
    · simp

theorem isLayout_of_endsLine (h : t.endsLine) : t.isLayout := by
  unfold endsLine at h
  split at h
  · rfl
  · rfl
  · rfl
  · cases h

/-- Before the end of a line, a goal within it is skipped or fails, whatever ends the line. -/
theorem advance_of_endsLine {g : Goal Rule} (hl : goalInLine g) (goals : List (Goal Rule))
    (x : Context) :
    (∃ y, ∀ next : Option Terminal, next.all (·.endsLine) →
      advance react limit next (g :: goals) x = advance react limit next goals y) ∨
    ∀ next : Option Terminal, next.all (·.endsLine) →
      ∃ missing, advance react limit next (g :: goals) x = .error missing := by
  have hne {next : Option Terminal} {u : Terminal} (hn : next.all (·.endsLine))
      (hu : u.isLayout = false) : next ≠ some u := by
    rintro rfl
    rw [isLayout_of_endsLine hn] at hu
    cases hu
  cases g with
  | need u missing =>
    have hu : u.isLayout = false := by simpa [goalInLine] using hl
    exact .inr fun next hn => ⟨missing, by simp [advance, hne hn hu]⟩
  | allow u =>
    have hu : u.isLayout = false := by simpa [goalInLine] using hl
    exact .inl ⟨x, fun next hn => by simp [advance, hne hn hu]⟩
  | rule r =>
    cases hr : react none r with
    | take body => exact (react_none_ne_take r body hr).elim
    | pass =>
      refine .inl ⟨x, fun next hn => ?_⟩
      simp [advance, react_of_endsLine hl hn, hr]
    | refuse missing =>
      refine .inr fun next hn => ⟨x.blame next missing, ?_⟩
      simp [advance, react_of_endsLine hl hn, hr]
  | openGroup group =>
    cases hx : x.enter limit with
    | ok y =>
      exact .inl ⟨{ y with groups := group :: y.groups }, fun next _ => by simp [advance, hx]⟩
    | error missing => exact .inr fun next _ => ⟨missing, by simp [advance, hx]⟩
  | closeGroup =>
    have hc (group : Group) : group.closer.isLayout = false := by cases group <;> rfl
    exact .inr fun next hn => ⟨_, by simp only [advance, hne hn (hc _), if_false]; rfl⟩
  | enterBlock | leaveBlock | tally => cases hl

/-- A line that ends in a line feed ends as one that ends with its block does. -/
theorem MidLine.run_newline (hg : MidLine goals) (hts : ts.head?.all (·.endsBlock)) :
    run react limit k goals x (newline :: ts) = .ok res ↔
      run react limit k goals x ts = .ok res := by
  have hends : ts.head?.all (·.endsLine) := by
    cases ts with
    | nil => rfl
    | cons t ts => exact endsLine_iff.mpr (.inr hts)
  induction hg generalizing x k with
  | @goal g goals hl hg ih =>
    rcases advance_of_endsLine hl goals x with ⟨y, hy⟩ | he
    · have hr : run react limit k (g :: goals) x (newline :: ts) =
          run react limit k goals y (newline :: ts) := run_congr (hy _ rfl)
      rw [hr, run_congr (hy _ hends)]
      exact ih
    · obtain ⟨missing, hn⟩ := he (some newline) rfl
      obtain ⟨missing', he⟩ := he _ hends
      exact iff_of_false (not_run_of_error hn) (not_run_of_error he)
  | @statementEnd goals hg =>
    have hn : ts.head? ≠ some newline := fun h => by
      rw [h] at hts
      cases hts
    have hr : advance react limit ts.head? (.rule .statementEnd :: goals) x =
        advance react limit ts.head? goals x := by simp [advance, react, hn, hends]
    rw [run_took goals x rfl, run_congr hr]
    exact run_eq_ok_congr (k + 1) k
  | @header missing missing' goals hg =>
    have hn : ts.head? ≠ some newline := fun h => by
      rw [h] at hts
      cases hts
    have hi : ts.head? ≠ some (plain .indent) := fun h => by
      rw [h] at hts
      cases hts
    rw [run_took (.need (plain .indent) missing' :: goals) x rfl]
    have hr : advance react limit ts.head? (.need (plain .indent) missing' :: goals) x =
        .error missing' := by simp [advance, hi]
    have hr' : advance react limit ts.head?
        (.need newline missing :: .need (plain .indent) missing' :: goals) x =
          .error missing := by simp [advance, hn]
    exact iff_of_false (not_run_of_error hr) (not_run_of_error hr')

/-- A line feed after the last line of a block or of the input makes no difference. -/
theorem recognise_newline (hs : ∀ t ∈ us.getLast?, t.isLayout = false) (hne : us ≠ [])
    (hts : ts.head?.all (·.endsBlock)) :
    recognise react limit .program (us ++ newline :: ts) = .ok n ↔
      recognise react limit .program (us ++ ts) = .ok n := by
  obtain ⟨vs, rest, goals, x, rfl, ht, hstop⟩ :=
    exists_takes react limit [.rule .program] .initial us
  cases rest with
  | cons t rest =>
    have hn ts : recognise react limit .program (vs ++ t :: rest ++ ts) ≠ .ok n := by
      rw [List.append_assoc]
      exact not_recognise ht (hstop t rfl)
    exact iff_of_false (hn _) (hn _)
  | nil =>
    rw [List.append_nil] at hs hne ⊢
    obtain ⟨t, hlast⟩ := Option.isSome_iff_exists.mp (List.getLast?_isSome.mpr hne)
    obtain ⟨-, hm⟩ := midLine_of_takes ht (.inr rfl)
    have hg := hm t hlast (hs t hlast)
    have hok ts : recognise react limit .program (vs ++ ts) = .ok n ↔
        ∃ y, run react limit vs.length goals x ts = .ok (y, []) ∧ y.statements = n := by
      rw [recognise, ht.run_append, Nat.zero_add]
      split <;> simp_all
    rw [hok, hok]
    simp only [hg.run_newline hts]

end RookLang.Rule
