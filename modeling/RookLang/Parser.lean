import RookLang.Expectation

/-! The parser. It looks one token ahead, at the whole token, and keeps the list of goals that are
still owed. The next token either meets the first goal that wants it or is refused by a goal that
needs another one. Goals that want nothing are dropped on the way. -/
namespace RookLang

structure SyntaxError where
  missing : Expectation
  /-- How messages name what stands in its place. -/
  found : String
  location : Location
  deriving DecidableEq, Repr

namespace SyntaxError

/-- What was missed and what was found. -/
def summary (e : SyntaxError) : String := e.missing.message ++ ", found " ++ e.found

def message (e : SyntaxError) : String :=
  e.summary ++ " at line " ++ toString e.location.line ++ ", column " ++
    toString e.location.column

end SyntaxError

/-- Something that is owed. -/
inductive Goal (R : Type) where
  /-- Take this terminal. -/
  | need (t : Terminal) (missing : Expectation)
  /-- Take this terminal if it comes next. -/
  | allow (t : Terminal)
  | rule (r : R)
  /-- The opener of a group was taken. -/
  | openGroup (g : Group)
  /-- Take the closer of the innermost group. -/
  | closeGroup
  | enterBlock
  | leaveBlock
  /-- A statement outside all blocks is complete. -/
  | tally
  deriving DecidableEq, Repr

/-- What a rule does with the lookahead. -/
inductive Reaction (R : Type) where
  /-- Take it, and owe `next`. -/
  | take (next : List (Goal R))
  /-- Leave it to the next goal. -/
  | pass
  | refuse (missing : Expectation)
  deriving DecidableEq, Repr

/-- Owe more goals after a token that is taken. -/
def Reaction.followedBy {R : Type} (more : List (Goal R)) : Reaction R → Reaction R
  | take next => take (next ++ more)
  | pass => pass
  | refuse missing => refuse missing

/-- What is remembered of the brackets, blocks and statements so far. -/
structure Context where
  /-- The open groups, innermost first. -/
  groups : List Group
  /-- The open groups and the enclosing blocks. -/
  depth : Nat
  /-- The statements outside all blocks so far. -/
  statements : Nat
  deriving DecidableEq, Repr

namespace Context

def initial : Context := ⟨[], 0, 0⟩

/-- One level deeper, unless that passes the limit; without a limit every depth is fine. -/
def enter (x : Context) (limit : Option Nat) : Except Expectation Context :=
  match limit with
  | some l =>
    if l ≤ x.depth then .error (.shallowNesting l) else .ok { x with depth := x.depth + 1 }
  | none => .ok { x with depth := x.depth + 1 }

def leave (x : Context) : Context := { x with depth := x.depth - 1 }

end Context

/-- The state of the parser, but for the tokens that are left. -/
structure Parser extends Context where
  /-- The kind of the next token, noted when the one before it was taken. -/
  current : Option Kind
  /-- The token that was taken last. -/
  previous : Option Token
  deriving DecidableEq, Repr

namespace Parser

/-- Before the first of `tokens`. -/
def start (tokens : List Token) : Parser :=
  { Context.initial with current := tokens.head?.map (·.kind), previous := none }

/-! What is asked of the next token. -/

def check (p : Parser) (k : Kind) : Bool := p.current == some k

def checkAny (p : Parser) (wanted : Kind → Bool) : Bool := p.current.any wanted

def checkKeyword (next : Option Token) (k : Keyword) : Bool := next.any (·.keyword? == some k)

def checkBuiltin (next : Option Token) (b : Builtin) : Bool := next.any (·.builtin? == some b)

/-- Has the line ended, or the text? -/
def atLineEnd (p : Parser) : Bool :=
  match p.current with
  | none | some .newline | some .endOfInput | some .dedent => true
  | _ => false

def sees (p : Parser) (next : Option Token) : Terminal → Bool
  | .word k => checkKeyword next k
  | .builtin b => checkBuiltin next b
  | .plain k => p.check k

/-- Take a token, before the tokens `rest`. -/
def advance (p : Parser) (t : Token) (rest : List Token) : Parser :=
  { p with current := rest.head?.map (·.kind), previous := some t }

/-! Errors. -/

/-- After the last token that was taken. -/
def locationAfter (p : Parser) : Location :=
  match p.previous with
  | some t => t.locationAfter
  | none => ⟨1, 1, "", 1⟩

/-- The error at the next token. -/
def error (p : Parser) (next : Option Token) (missing : Expectation) : SyntaxError :=
  match next with
  | some t => ⟨missing, t.describe, t.location⟩
  | none => ⟨missing, "end of input", p.locationAfter⟩

/-- At the end of a line inside a group it is the group that is unfinished, not an expression. -/
def missingOperand (p : Parser) : Expectation :=
  match p.groups with
  | g :: _ => if p.atLineEnd then .closing g else .expression
  | [] => .expression

/-- What the rules do before the next token. -/
abbrev Rules (R : Type) := Parser → Option Token → R → Reaction R

variable {R : Type}

/-- What becomes of a goal. -/
inductive Worked (R : Type) where
  /-- It takes the next token, and `owed` comes in its place. -/
  | took (owed : List (Goal R)) (p : Parser)
  /-- It leaves the next token to the goals after it. -/
  | left (p : Parser)

/-- Work off one goal. -/
def work (g : Rules R) (limit : Option Nat) (p : Parser) (next : Option Token) :
    Goal R → Except Expectation (Worked R)
  | .need t missing => if p.sees next t then .ok (.took [] p) else .error missing
  | .allow t => .ok (if p.sees next t then .took [] p else .left p)
  | .rule r =>
    match g p next r with
    | .take owed => .ok (.took owed p)
    | .pass => .ok (.left p)
    | .refuse missing => .error missing
  | .openGroup group =>
    (p.enter limit).map fun x =>
      .left { p with toContext := { x with groups := group :: x.groups } }
  | .closeGroup =>
    let group := p.groups.headD .paren
    if p.sees next group.closer then
      .ok (.took [] { p with toContext := { p.leave with groups := p.groups.tail } })
    else .error (.closing group)
  | .enterBlock => (p.enter limit).map fun x => .left { p with toContext := x }
  | .leaveBlock => .ok (.left { p with toContext := p.leave })
  | .tally => .ok (.left { p with statements := p.statements + 1 })

/-- The goals met the next token, or ran out before it. -/
inductive Sought (R : Type) where
  | took (goals : List (Goal R)) (p : Parser)
  | done (p : Parser)

/-- Work off goals up to the one that takes the next token. -/
def seek (g : Rules R) (limit : Option Nat) (next : Option Token) :
    List (Goal R) → Parser → Except SyntaxError (Sought R)
  | [], p => .ok (.done p)
  | goal :: goals, p =>
    match p.work g limit next goal with
    | .ok (.took owed p) => .ok (.took (owed ++ goals) p)
    | .ok (.left p) => seek g limit next goals p
    | .error missing => .error (p.error next missing)

/-- A syntax error, and the tokens that were left then. -/
structure Failure where
  error : SyntaxError
  left : List Token
  deriving DecidableEq, Repr

/-- Take tokens until the goals run out. The answer holds the tokens that are left. Nothing is taken
after the last token. -/
def run (g : Rules R) (limit : Option Nat) (goals : List (Goal R)) (p : Parser) :
    List Token → Except Failure (Parser × List Token)
  | [] =>
    match p.seek g limit none goals with
    | .ok (.took _ p) | .ok (.done p) => .ok (p, [])
    | .error e => .error ⟨e, []⟩
  | t :: ts =>
    match p.seek g limit (some t) goals with
    | .ok (.took goals p) => (p.advance t ts).run g limit goals ts
    | .ok (.done p) => .ok (p, t :: ts)
    | .error e => .error ⟨e, t :: ts⟩

end Parser

end RookLang
