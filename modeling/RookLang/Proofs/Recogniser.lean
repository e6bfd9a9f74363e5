import RookLang.Parse
import RookLang.Proofs.Terminals

/-! A recogniser of programs that sees only the terminals of tokens. The grammar is written in
terminals; the parser, which sees whole tokens, does the same as this recogniser. -/
namespace RookLang

/-- The reactions of all rules; `none` is the end of the terminals. -/
abbrev Grammar (R : Type) := Option Terminal → R → Reaction R

/-- At the end of a line inside a group it is the group that is unfinished, not an expression. -/
def Context.blame (x : Context) (next : Option Terminal) (missing : Expectation) : Expectation :=
  match missing, x.groups with
  | .expression, g :: _ => if next.all (·.endsLine) then .closing g else .expression
  | _, _ => missing

namespace Recogniser

variable {R : Type}

/-- The goals met the lookahead, or ran out before it. -/
inductive Outcome (R : Type) where
  | took (goals : List (Goal R)) (x : Context)
  | done (x : Context)
  deriving DecidableEq, Repr

/-- Work off goals up to the one that takes the lookahead. -/
def advance (g : Grammar R) (limit : Option Nat) (next : Option Terminal) :
    List (Goal R) → Context → Except Expectation (Outcome R)
  | [], x => .ok (.done x)
  | goal :: goals, x =>
    match goal with
    | .need t missing =>
      if next = some t then .ok (.took goals x) else .error missing
    | .allow t => if next = some t then .ok (.took goals x) else advance g limit next goals x
    | .rule r =>
      match g next r with
      | .take body => .ok (.took (body ++ goals) x)
      | .pass => advance g limit next goals x
      | .refuse missing => .error (x.blame next missing)
    | .openGroup group =>
      match x.enter limit with
      | .ok x => advance g limit next goals { x with groups := group :: x.groups }
      | .error missing => .error missing
    | .closeGroup =>
      let group := x.groups.headD .paren
      if next = some group.closer then .ok (.took goals { x.leave with groups := x.groups.tail })
      else .error (.closing group)
    | .enterBlock =>
      match x.enter limit with
      | .ok x => advance g limit next goals x
      | .error missing => .error missing
    | .leaveBlock => advance g limit next goals x.leave
    | .tally => advance g limit next goals { x with statements := x.statements + 1 }

/-- What was missed, and how many terminals had been taken by then. -/
structure Fault where
  missing : Expectation
  taken : Nat
  deriving DecidableEq, Repr

/-- Take terminals until the goals run out. The answer holds the terminals that are left. -/
def run (g : Grammar R) (limit : Option Nat) (taken : Nat) (goals : List (Goal R)) (x : Context) :
    List Terminal → Except Fault (Context × List Terminal)
  | [] =>
    match advance g limit none goals x with
    | .ok (.took _ x) | .ok (.done x) => .ok (x, [])
    | .error missing => .error ⟨missing, taken⟩
  | t :: ts =>
    match advance g limit (some t) goals x with
    | .ok (.took goals x) => run g limit (taken + 1) goals x ts
    | .ok (.done x) => .ok (x, t :: ts)
    | .error missing => .error ⟨missing, taken⟩

/-- The number of statements in the terminals, all of which `start` has to take. -/
def recognise (g : Grammar R) (limit : Option Nat) (start : R) (ts : List Terminal) :
    Except Fault Nat :=
  match run g limit 0 [.rule start] .initial ts with
  | .ok (x, []) => .ok x.statements
  | .ok (_, rest) => .error ⟨.endOfInput, ts.length - rest.length⟩
  | .error fault => .error fault

end Recogniser

end RookLang
