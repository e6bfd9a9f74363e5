import Mathlib.Tactic.SplitIfs
import RookLang.Proofs.ParserSteps
import RookLang.Proofs.Table

/-! The parser and the predictive table. What the rules do before a token is what the table says of
its terminal, so the parser takes tokens as the recogniser takes their terminals. -/
namespace RookLang
open Terminal

variable {p : Parser} {next : Option Token} {r r' : Rule} {goals : List (Goal Rule)}
  {missing : Expectation}

/-! What is asked of a token, in its terminal. -/

namespace Token

theorem keyword?_eq_some_iff {t : Token} {k : Keyword} :
    t.keyword? = some k ↔ t.terminal = .word k := by
  have hb := @kind_of_builtin? t
  unfold terminal
  split <;> simp_all

theorem builtin?_eq_some_iff {t : Token} {b : Builtin} :
    t.builtin? = some b ↔ t.terminal = .builtin b := by
  have hk := @kind_of_keyword? t
  have hb := @kind_of_builtin? t
  unfold terminal
  split <;> simp_all

theorem kind_eq_iff {t : Token} {k : Kind} (hk : k ≠ .keyword) (hb : k ≠ .builtin) :
    t.kind = k ↔ t.terminal = .plain k := by
  refine ⟨?_, kind_of_terminal⟩
  rintro rfl
  exact terminal_eq_plain hk hb

end Token

namespace Parser

theorem checkKeyword_iff {k : Keyword} :
    checkKeyword next k ↔ next.map Token.terminal = some (.word k) := by
  cases next <;> simp [checkKeyword, Token.keyword?_eq_some_iff]

theorem checkBuiltin_iff {b : Builtin} :
    checkBuiltin next b ↔ next.map Token.terminal = some (.builtin b) := by
  cases next <;> simp [checkBuiltin, Token.builtin?_eq_some_iff]

namespace InStep

theorem check_iff (h : p.InStep next) {k : Kind} (hk : k ≠ .keyword) (hb : k ≠ .builtin) :
    p.check k ↔ next.map Token.terminal = some (.plain k) := by
  rw [check, h]
  cases next <;> simp [Token.kind_eq_iff hk hb]

theorem check_sign (h : p.InStep next) (c : Punctuation) :
    p.check (.punctuation c) ↔ next.map Token.terminal = some (sign c) :=
  h.check_iff nofun nofun

theorem check_op (h : p.InStep next) (o : Operator) :
    p.check (.operator o) ↔ next.map Token.terminal = some (op o) :=
  h.check_iff nofun nofun

theorem check_identifier (h : p.InStep next) :
    p.check .identifier ↔ next.map Token.terminal = some (.plain .identifier) :=
  h.check_iff nofun nofun

theorem checkAny_eq (h : p.InStep next) {f : Kind → Bool} (wanted : Terminal → Bool)
    (hf : ∀ t : Terminal, wanted t = f t.kind) :
    p.checkAny f = (next.map Token.terminal).any wanted := by
  rw [checkAny, h]
  cases next <;> simp [hf, Token.kind_terminal]

theorem current_eq (h : p.InStep next) :
    p.current = (next.map Token.terminal).map Terminal.kind := by
  rw [h, Option.map_map]
  exact Option.map_congr fun t _ => t.kind_terminal.symm

theorem atLineEnd_eq (h : p.InStep next) :
    p.atLineEnd = (next.map Token.terminal).all (·.endsLine) := by
  rw [atLineEnd, h.current_eq]
  cases next.map Token.terminal with
  | none => rfl
  | some t =>
    cases t with
    | word | builtin => rfl
    | plain k => cases k <;> rfl

end InStep

end Parser

/-! The table, rule by rule, in the order in which the parser asks. -/

namespace Rule

theorem startValue_eq (u : Option Terminal) : startValue u =
    if u = some identifier then .ok [.rule .call]
    else if u.any (·.isLiteral) then .ok []
    else if u = some (sign .leftBracket) then .ok arrayElements
    else if u = some (sign .leftParen) then .ok (grouped .paren [.rule .expression])
    else .error .expression := by
  have hb : (sign .leftBracket).isLiteral = false := rfl
  have hp : (sign .leftParen).isLiteral = false := rfl
  unfold startValue
  split <;> simp_all

theorem startIdentifierUse_eq (u : Option Terminal) : startIdentifierUse u =
    if u = some (op .assign) then .ok [.rule .assignedValue, .rule .moreAssignedValues]
    else if u = some (sign .comma) then
      .ok [.need identifier .targetAfterComma, .rule .moreTargets]
    else if u.any (·.isCompoundAssignment) then .ok [.rule .expression]
    else if u = some (sign .leftParen) then .ok callArguments
    else .error .assignmentOrCall := by
  have hp : (sign .leftParen).isCompoundAssignment = false := rfl
  unfold startIdentifierUse
  split <;> simp_all

theorem startMoreTargets_eq (u : Option Terminal) : startMoreTargets u =
    if u = some (sign .comma) then .ok [.need identifier .targetAfterComma, .rule .moreTargets]
    else if u = some (op .assign) then .ok [.rule .assignedValue, .rule .moreAssignedValues]
    else .error .declarationAssign := by
  unfold startMoreTargets
  split <;> simp_all

theorem startClauses_eq (u : Option Terminal) : startClauses u =
    if u = some (.word .instance_) then
      .ok (.rule .instanceGuard :: colonBlock .instanceColon ++ [.rule .clauses])
    else if u = some (.word .default) then
      .ok (colonBlock (.wordColon .default) ++ [.need (.plain .dedent) .clausesEnd])
    else if u = some (.plain .dedent) then .ok []
    else .error .clausesEnd := by
  unfold startClauses
  split <;> simp_all

theorem startIterable_eq (u : Option Terminal) : startIterable u =
    if u = some (sign .leftBracket) then .ok arrayElements
    else if u = some identifier then .ok []
    else .error .iterable := by
  unfold startIterable
  split <;> simp_all

theorem startAssignedValue_eq (u : Option Terminal) : startAssignedValue u =
    if u = some (.builtin .input) then .ok (builtinCall .input) else startExpression u := by
  unfold startAssignedValue
  split <;> simp_all

theorem startPrintArgument_eq (u : Option Terminal) : startPrintArgument u =
    if u = some (.word .separator) then
      .ok [.need (.op .assign) .separatorAssign, .need (.plain .string) .separatorText]
    else startExpression.followedBy [.rule .morePrintArguments] u := by
  unfold startPrintArgument
  split <;> simp_all

theorem react_branches (u : Option Terminal) : react u .branches =
    if u = some (.word .elif) then
      .take (.rule .expression :: colonBlock (.conditionColon .elif) ++ [.rule .branches])
    else if u = some (.word .else_) then .take (colonBlock (.wordColon .else_))
    else .pass := by
  simp only [react]
  split <;> simp_all

theorem react_elements (u : Option Terminal) : react u .elements =
    if u = some (sign .rightBracket) then .pass
    else if u = some (.word .to_) then .refuse .rangeStart
    else (startExpression.followedBy [.rule .moreElements]).react u := by
  simp only [react]
  split <;> simp_all

theorem react_laterElement (u : Option Terminal) : react u .laterElement =
    if u = some (sign .rightBracket) then .pass
    else if u = some (.word .to_) then .refuse .elementAfterComma
    else (startExpression.followedBy [.rule .moreElements]).react u := by
  simp only [react]
  split <;> simp_all

theorem react_moreElements (u : Option Terminal) : react u .moreElements =
    if u = some (sign .comma) then .take [.rule .laterElement]
    else if u = some (.word .to_) then
      .take [.need (.plain .number) (.rangeNumber .to_), .rule .rangeStep]
    else .pass := by
  simp only [react]
  split <;> simp_all

theorem react_moreComparisons (u : Option Terminal) : react u .moreComparisons =
    if u.any (·.isRelational) ∨ u = some (.word .in_) then
      .take [.rule .sum, .rule .moreComparisons]
    else if u = some (op .not) then
      .take [.need (.word .in_) .inAfterNot, .rule .sum, .rule .moreComparisons]
    else .pass := by
  have hn : (op .not).isRelational = false := rfl
  have hc : u.any (·.isComparison) ↔ u.any (·.isRelational) ∨ u = some (.word .in_) := by
    cases u with
    | none => simp
    | some t =>
      simp only [Option.any_some, Option.some_inj]
      unfold isComparison
      split <;> simp_all
  simp only [react, takeIf, hc]
  split_ifs <;> simp_all

theorem startStatement_ne (u : Option Terminal) : startStatement u ≠ .error .expression := by
  cases u with
  | none => nofun
  | some t =>
    cases t with
    | builtin => nofun
    | word k => cases k <;> nofun
    | plain k => cases k <;> nofun

theorem Start.react_congr {s s' : Start} {u : Option Terminal} (h : s u = s' u) :
    s.react u = s'.react u := by
  rw [Start.react, Start.react, h]

end Rule

/-- The table says of the terminal `u` what the rule does. An operand that is missing is put down to
the group that is open. -/
def Action.Fits (x : Context) (u : Option Terminal) (r : Rule) : Action → Prop
  | take goals => Rule.react u r = .take goals
  | call r' goals => Rule.react u r = (Rule.react u r').followedBy goals
  | pass => Rule.react u r = .pass
  | refuse missing => ∃ m, Rule.react u r = .refuse m ∧ x.blame u m = missing

namespace Parser

section
variable {x : Context} {u : Option Terminal} {wanted : Terminal → Bool} {b : Bool}

theorem fits_ite {c : Prop} [Decidable c] {a a' : Action} (h : c → a.Fits x u r)
    (h' : ¬ c → a'.Fits x u r) : (if c then a else a').Fits x u r := by
  split
  · exact h ‹_›
  · exact h' ‹_›

theorem fits_takeIf (hb : b = u.any wanted) (hr : Rule.react u r = Rule.takeIf u wanted goals) :
    (takeIf b goals).Fits x u r := by
  rw [takeIf, hb]
  refine fits_ite (fun h => ?_) fun h => ?_
  · exact hr.trans (if_pos h)
  · exact hr.trans (if_neg h)

theorem fits_takeIf_iff {t : Terminal} (hb : b ↔ u = some t)
    (hr : Rule.react u r = Rule.takeIf u (· == t) goals) : (takeIf b goals).Fits x u r := by
  refine fits_takeIf ?_ hr
  rw [Bool.eq_iff_iff, hb]
  cases u <;> simp

theorem fits_call {s : Rule.Start} (hr : Rule.react u r = (s.followedBy goals).react u)
    (hs : Rule.react u r' = s.react u) : (Action.call r' goals).Fits x u r := by
  show Rule.react u r = (Rule.react u r').followedBy goals
  rw [hr, hs, Rule.Start.react, Rule.Start.react, Rule.Start.followedBy]
  cases s u <;> rfl

theorem fits_call_nil {s : Rule.Start} (hr : Rule.react u r = s.react u)
    (hs : Rule.react u r' = s.react u) : (Action.call r' []).Fits x u r := by
  show Rule.react u r = (Rule.react u r').followedBy []
  rw [hr, hs, Rule.Start.react]
  cases s u <;> simp [Reaction.followedBy]

theorem fits_take {s : Rule.Start} (hr : Rule.react u r = s.react u) (hs : s u = .ok goals) :
    (Action.take goals).Fits x u r :=
  hr.trans (by rw [Rule.Start.react, hs])

theorem fits_refuse (hr : Rule.react u r = .refuse missing) (hm : missing ≠ .expression) :
    (Action.refuse missing).Fits x u r := by
  refine ⟨missing, hr, ?_⟩
  unfold Context.blame
  split
  · exact (hm rfl).elim
  · rfl

/-- A rule that starts something, and is not about an operand. -/
theorem fits_ofStart {s : Rule.Start} (hr : Rule.react u r = s.react u)
    (he : s u ≠ .error .expression) : (Action.ofStart (s u)).Fits x u r := by
  cases hs : s u with
  | ok goals => exact fits_take hr hs
  | error missing =>
    refine fits_refuse (hr.trans (by rw [Rule.Start.react, hs])) ?_
    rintro rfl
    exact he hs

end

/-! Rule by rule. -/

section
variable (h : p.InStep next)
include h

theorem missingOperand_eq : p.missingOperand =
    p.toContext.blame (next.map Token.terminal) .expression := by
  rw [missingOperand, h.atLineEnd_eq]
  unfold Context.blame
  cases p.groups <;> rfl

theorem fits_value : p.value.Fits p.toContext (next.map Token.terminal) .value := by
  have hl : p.checkAny (·.isLiteral) = (next.map Token.terminal).any (·.isLiteral) :=
    h.checkAny_eq _ fun t => by cases t <;> rfl
  have hv := Rule.startValue_eq (next.map Token.terminal)
  rw [value, hl, missingOperand_eq h]
  simp only [h.check_identifier, h.check_sign]
  refine fits_ite (fun hi => fits_take rfl (by rw [hv, if_pos hi])) fun hi => ?_
  rw [if_neg hi] at hv
  refine fits_ite (fun hl => fits_take rfl (by rw [hv, if_pos hl])) fun hl => ?_
  rw [if_neg hl] at hv
  refine fits_ite (fun hb => fits_take rfl (by rw [hv, if_pos hb])) fun hb => ?_
  rw [if_neg hb] at hv
  refine fits_ite (fun hp => fits_take rfl (by rw [hv, if_pos hp])) fun hp => ?_
  rw [if_neg hp] at hv
  exact ⟨.expression, by rw [Rule.react, Rule.Start.react, hv], rfl⟩

theorem statement_eq :
    p.statement next = .ofStart (Rule.startStatement (next.map Token.terminal)) := by
  cases next with
  | none => rfl
  | some t =>
    have hk := t.kind_terminal
    have hb (c : Builtin) : checkBuiltin (some t) c ↔ t.terminal = .builtin c := by
      rw [checkBuiltin_iff, Option.map_some, Option.some_inj]
    simp only [statement, simpleStatement, hb, h.check_identifier, Option.map_some, Option.some_inj]
    cases ht : t.terminal with
    | word k =>
      rw [ht] at hk
      rw [← hk, Token.keyword?_eq_some_iff.mpr ht]
      rfl
    | builtin b =>
      rw [ht] at hk
      rw [← hk]
      cases b <;> rfl
    | plain k =>
      have hw : t.keyword? = none := by
        refine Option.eq_none_iff_forall_ne_some.mpr fun k hk => ?_
        rw [Token.keyword?_eq_some_iff, ht] at hk
        cases hk
      rw [ht] at hk
      rw [← hk, hw, kind]
      cases k <;> rfl

theorem moreComparisons_fits :
    (p.moreComparisons next).Fits p.toContext (next.map Token.terminal) .moreComparisons := by
  have hr := Rule.react_moreComparisons (next.map Token.terminal)
  have hc : p.checkAny (·.isRelational) = (next.map Token.terminal).any (·.isRelational) :=
    h.checkAny_eq _ fun t => by cases t <;> rfl
  simp only [moreComparisons, takeIf, Bool.or_eq_true, checkKeyword_iff, h.check_op, hc]
  refine fits_ite (fun hc => hr.trans (if_pos hc)) fun hc => ?_
  rw [if_neg hc] at hr
  exact fits_ite (fun hn => hr.trans (if_pos hn)) fun hn => hr.trans (if_neg hn)

/-- An element, and the rule for it. -/
theorem fits_element (hr : Rule.react (next.map Token.terminal) r =
      if next.map Token.terminal = some (sign .rightBracket) then .pass
      else if next.map Token.terminal = some (.word .to_) then .refuse missing
      else (Rule.startExpression.followedBy [.rule .moreElements]).react (next.map Token.terminal))
    (hm : missing ≠ .expression) :
    (p.element next missing).Fits p.toContext (next.map Token.terminal) r := by
  simp only [element, h.check_sign, checkKeyword_iff]
  refine fits_ite (fun hb => hr.trans (if_pos hb)) fun hb => ?_
  rw [if_neg hb] at hr
  refine fits_ite (fun ht => fits_refuse (hr.trans (if_pos ht)) hm) fun ht => ?_
  exact fits_call (hr.trans (if_neg ht)) rfl

theorem identifierUse_eq :
    p.identifierUse = .ofStart (Rule.startIdentifierUse (next.map Token.terminal)) := by
  have hc : p.checkAny (·.isCompoundAssignment) =
      (next.map Token.terminal).any (·.isCompoundAssignment) :=
    h.checkAny_eq _ fun t => by cases t <;> rfl
  simp only [identifierUse, Rule.startIdentifierUse_eq, hc, h.check_op, h.check_sign]
  split_ifs <;> rfl

theorem moreTargets_eq :
    p.moreTargets = .ofStart (Rule.startMoreTargets (next.map Token.terminal)) := by
  simp only [moreTargets, Rule.startMoreTargets_eq, h.check_op, h.check_sign]
  split_ifs <;> rfl

theorem clauses_eq :
    p.clauses next = .ofStart (Rule.startClauses (next.map Token.terminal)) := by
  simp only [clauses, Rule.startClauses_eq, checkKeyword_iff,
    h.check_iff (k := .dedent) (by decide) (by decide)]
  split_ifs <;> rfl

theorem iterable_eq :
    p.iterable = .ofStart (Rule.startIterable (next.map Token.terminal)) := by
  simp only [iterable, Rule.startIterable_eq, h.check_sign, h.check_identifier]
  split_ifs <;> rfl

end

theorem action_fits (h : p.InStep next) (r : Rule) :
    (p.action next r).Fits p.toContext (next.map Token.terminal) r := by
  cases r with
  | program =>
    rw [action, h.current_eq]
    cases next.map Token.terminal with
    | none => rfl
    | some t =>
      cases t with
      | word | builtin => exact fits_call (s := Rule.startStatement) rfl rfl
      | plain k =>
        cases k with
        | endOfInput => rfl
        | _ => exact fits_call (s := Rule.startStatement) rfl rfl
  | statements =>
    rw [action, h.current_eq]
    cases next.map Token.terminal with
    | none => rfl
    | some t =>
      cases t with
      | word | builtin => exact fits_call (s := Rule.startStatement) rfl rfl
      | plain k =>
        cases k with
        | endOfInput | dedent => rfl
        | _ => exact fits_call (s := Rule.startStatement) rfl rfl
  | statement =>
    rw [action, statement_eq h]
    exact fits_ofStart rfl (Rule.startStatement_ne _)
  | statementEnd =>
    have hcheck := h.check_iff (k := .newline) (by decide) (by decide)
    simp only [action, statementEnd, h.atLineEnd_eq, hcheck]
    refine fits_ite (fun hn => if_pos hn) fun hn => fits_ite (fun he => ?_) fun he => ?_
    · exact (if_neg hn).trans (if_pos he)
    · exact ⟨_, (if_neg hn).trans (if_neg he), rfl⟩
  | returnedValue =>
    rw [action, h.atLineEnd_eq]
    exact fits_ite (fun he => if_pos he) fun he => fits_call_nil (if_neg he) rfl
  | identifierUse =>
    rw [action, identifierUse_eq h]
    refine fits_ofStart rfl ?_
    rw [Rule.startIdentifierUse_eq]
    split_ifs <;> simp
  | moreTargets =>
    rw [action, moreTargets_eq h]
    refine fits_ofStart rfl ?_
    rw [Rule.startMoreTargets_eq]
    split_ifs <;> simp
  | clauses =>
    rw [action, clauses_eq h]
    refine fits_ofStart rfl ?_
    rw [Rule.startClauses_eq]
    split_ifs <;> simp
  | iterable =>
    rw [action, iterable_eq h]
    refine fits_ofStart rfl ?_
    rw [Rule.startIterable_eq]
    split_ifs <;> simp
  | assignedValue =>
    have hs := Rule.startAssignedValue_eq (next.map Token.terminal)
    simp only [action, checkBuiltin_iff]
    refine fits_ite (fun hi => fits_take rfl (hs.trans (if_pos hi))) fun hi => ?_
    exact fits_call_nil (Rule.Start.react_congr (hs.trans (if_neg hi))) rfl
  | printArguments =>
    simp only [action, h.check_sign]
    exact fits_ite (fun hp => if_pos hp) fun hp => fits_call_nil (if_neg hp) rfl
  | printArgument =>
    have hs := Rule.startPrintArgument_eq (next.map Token.terminal)
    simp only [action, printArgument, checkKeyword_iff]
    refine fits_ite (fun hi => fits_take rfl (hs.trans (if_pos hi))) fun hi => ?_
    exact fits_call (Rule.Start.react_congr (hs.trans (if_neg hi))) rfl
  | arguments =>
    simp only [action, h.check_sign]
    exact fits_ite (fun hp => if_pos hp) fun hp => fits_call (if_neg hp) rfl
  | branches =>
    have hr := Rule.react_branches (next.map Token.terminal)
    simp only [action, branches, takeIf, checkKeyword_iff]
    refine fits_ite (fun hi => hr.trans (if_pos hi)) fun hi => ?_
    rw [if_neg hi] at hr
    exact fits_ite (fun he => hr.trans (if_pos he)) fun he => hr.trans (if_neg he)
  | instanceGuard =>
    rw [action, h.checkAny_eq (·.isRelational) fun t => by cases t <;> rfl]
    exact fits_ite (fun hr => if_pos hr) fun hr => fits_call_nil (if_neg hr) rfl
  | instancePattern =>
    have hs (u : Option Terminal) : Rule.startInstancePattern u =
        if u.any (·.isInstancePattern) then .ok [] else .error .instancePattern := rfl
    rw [action, h.checkAny_eq (·.isInstancePattern) fun t => by cases t <;> rfl]
    refine fits_ite (fun hp => fits_take rfl (if_pos hp)) fun hp => ?_
    exact ⟨_, by rw [Rule.react, Rule.Start.react, hs, if_neg hp], rfl⟩
  | negation =>
    simp only [action, h.check_op]
    refine fits_ite (fun hn => fits_take rfl (if_pos hn)) fun hn => ?_
    exact fits_call_nil (Rule.Start.react_congr (if_neg hn)) rfl
  | moreComparisons => exact moreComparisons_fits h
  | signed =>
    rw [action, h.checkAny_eq (·.isSum) fun t => by cases t <;> rfl]
    refine fits_ite (fun hn => fits_take rfl (if_pos hn)) fun hn => ?_
    exact fits_call_nil (Rule.Start.react_congr (if_neg hn)) rfl
  | elements => exact fits_element h (Rule.react_elements _) (by decide)
  | laterElement => exact fits_element h (Rule.react_laterElement _) (by decide)
  | moreElements =>
    have hr := Rule.react_moreElements (next.map Token.terminal)
    simp only [action, moreElements, takeIf, h.check_sign, checkKeyword_iff]
    refine fits_ite (fun hc => hr.trans (if_pos hc)) fun hc => ?_
    rw [if_neg hc] at hr
    exact fits_ite (fun ht => hr.trans (if_pos ht)) fun ht => hr.trans (if_neg ht)
  | moreAssignedValues | morePrintArguments | moreArguments | secondLoopVariable | call =>
    exact fits_takeIf_iff (h.check_sign _) rfl
  | parameterDefault | secondNegation => exact fits_takeIf_iff (h.check_op _) rfl
  | parameters => exact fits_takeIf_iff h.check_identifier rfl
  | rangeStep => exact fits_takeIf_iff checkKeyword_iff rfl
  | moreConjunctions | moreProducts | moreFactors =>
    exact fits_takeIf (h.checkAny_eq _ fun t => by cases t <;> rfl) rfl
  | expression | conjunction | comparison | sum | product => exact fits_call rfl rfl
  | value => exact fits_value h

/-! The reactions of all rules. -/

end Parser

/-- The reaction, with what it misses put down to the group that is open. -/
def Reaction.blamed {R : Type} (x : Context) (u : Option Terminal) : Reaction R → Reaction R
  | take goals => take goals
  | pass => pass
  | refuse missing => refuse (x.blame u missing)

theorem Reaction.blamed_followedBy {R : Type} (more : List (Goal R)) (x : Context)
    (u : Option Terminal) (s : Reaction R) :
    (s.followedBy more).blamed x u = (s.blamed x u).followedBy more := by
  cases s <;> rfl

namespace Parser

/-- A rule does before a token what the table says of its terminal. -/
theorem react_eq (h : p.InStep next) (r : Rule) : p.react next r =
    (Rule.react (next.map Token.terminal) r).blamed p.toContext (next.map Token.terminal) := by
  fun_induction p.react next r with
  | case1 r goals ha | case3 r ha =>
    have hf := action_fits h r
    rw [ha] at hf
    rw [hf]
    rfl
  | case2 r r' goals ha ih =>
    have hf := action_fits h r
    rw [ha] at hf
    rw [hf, Reaction.blamed_followedBy, ih]
  | case4 r missing ha =>
    have hf := action_fits h r
    rw [ha] at hf
    obtain ⟨m, hr, rfl⟩ := hf
    rw [hr]
    rfl

end Parser

end RookLang
