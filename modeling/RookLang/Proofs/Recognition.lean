import RookLang.Proofs.TerminalRuns

/-! Parsing and recognition. Programs are parsed as their terminals are recognised, and a syntax
error is the fault of the recogniser at the token where it stands. -/
namespace RookLang
open Recogniser

/-- The goals that a rule owes ask for exact terminals. -/
def Action.IsExact : Action → Prop
  | .take goals | .call _ goals => goals.all Goal.isExact
  | .pass | .refuse _ => True

namespace Parser

variable {p : Parser} {next : Option Token} {r : Rule} {goals : List (Goal Rule)}
  {limit : Option ℕ}

theorem isExact_startKeyword (k : Keyword) : (Action.ofStart (Rule.startKeyword k)).IsExact := by
  cases k <;> first | rfl | trivial

theorem isExact_action (p : Parser) (next : Option Token) (r : Rule) :
    Action.IsExact (p.action next r) := by
  cases r <;> simp only [action, statement, simpleStatement, statementEnd, identifierUse,
    moreTargets, printArgument, branches, clauses, iterable, moreComparisons, value, element,
    moreElements, takeIf] <;> (repeat' split) <;>
    first | rfl | trivial | exact isExact_startKeyword _

theorem isExact_react (h : p.react next r = .take goals) : goals.all Goal.isExact := by
  fun_induction p.react next r generalizing goals with
  | case1 r owed ha =>
    cases h
    have hr := isExact_action p next r
    rwa [ha] at hr
  | case2 r r' more ha ih =>
    have hr := isExact_action p next r
    rw [ha] at hr
    cases hs : p.react next r' with
    | take owed =>
      rw [hs] at h
      cases h
      rw [List.all_append, ih hs, hr, Bool.and_self]
    | pass | refuse =>
      rw [hs] at h
      cases h
  | case3 | case4 => cases h

theorem follows_react : Follows react Rule.react :=
  ⟨react_eq, isExact_react, Rule.react_none_ne_take⟩

/-- The rules of a table, for tokens. -/
def reading {R : Type} (t : Grammar R) : Rules R := fun p next r =>
  (t (next.map Token.terminal) r).blamed p.toContext (next.map Token.terminal)

theorem follows_reading {R : Type} {t : Grammar R}
    (hexact : ∀ u r body, t u r = .take body → body.all Goal.isExact)
    (hnone : ∀ r body, t none r ≠ .take body) : Follows (reading t) t where
  react_eq _ _ := rfl
  isExact {p next r body} h := by
    refine hexact (next.map Token.terminal) r body ?_
    unfold reading Reaction.blamed at h
    split at h <;> cases h
    assumption
  none_ne_take := hnone

end Parser

/-- The error of a fault in `tokens`: it stands at the first token that was not taken, or after
the last token. -/
def SyntaxError.ofFault (tokens : List Token) (fault : Fault) : SyntaxError :=
  match tokens[fault.taken]? with
  | some t => ⟨fault.missing, t.describe, t.location⟩
  | none =>
    let after := match tokens.getLast? with
      | some t => t.locationAfter
      | none => ⟨1, 1, "", 1⟩
    ⟨fault.missing, "end of input", after⟩

namespace Parser

/-- An error of the parser, by what it took. -/
theorem error_past (us rest : List Token) (x : Context) (missing : Expectation) :
    ((start (us ++ rest)).past us rest x).error rest.head? missing =
      .ofFault (us ++ rest) ⟨missing, us.length⟩ := by
  cases rest with
  | nil =>
    cases hu : us.getLast? <;>
      simp [error, locationAfter, past, before, start, SyntaxError.ofFault, hu]
  | cons t rest => simp [error, SyntaxError.ofFault]

/-- A program is parsed as its terminals are recognised. -/
theorem parse_eq (limit : Option ℕ) (ts : List Token) : parse limit ts =
    (recognise Rule.react limit .program (ts.map Token.terminal)).mapError
      fun fault => ⟨.ofFault ts fault, ts.drop fault.taken⟩ := by
  have ha := alike_run limit follows_react (inStep_start ts) [.rule .program] rfl
  unfold parse recognise
  generalize (start ts).run react limit [.rule .program] ts = e at ha
  generalize hf : Recogniser.run Rule.react limit 0 [.rule .program] (start ts).toContext
    (ts.map Token.terminal) = f at ha
  have hf : Recogniser.run Rule.react limit 0 [.rule .program] .initial (ts.map Token.terminal) =
      f := hf
  rw [hf]
  cases ha with
  | @done us rest x h =>
    subst h
    cases rest with
    | nil => rfl
    | cons t rest =>
      have herror := error_past us (t :: rest) x .endOfInput
      have hlen : ((us ++ t :: rest).map Token.terminal).length -
          ((t :: rest).map Token.terminal).length = us.length := by simp
      simp only [List.map_cons, Except.mapError] at hlen ⊢
      rw [hlen, ← herror, List.drop_left, List.head?_cons]
  | failed missing h =>
    subst h
    simp [Except.mapError, error_past]

end Parser

theorem parseWithin_eq (limit : Option ℕ) (ts : TokenStream) : parseWithin limit ts =
    (recognise Rule.react limit .program (ts.toList.map Token.terminal)).mapError
      (.ofFault ts.toList) := by
  rw [parseWithin, Parser.parse_eq]
  cases recognise Rule.react limit .program (ts.toList.map Token.terminal) <;> rfl

end RookLang
