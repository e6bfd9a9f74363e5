import Mathlib.Computability.Language
import RookLang.Terminal

/-! The grammar of rook, apart from every recogniser. Each phrase is defined by an extended
context-free form. What has a start and an end of its own is one form, so that nesting counts. -/
namespace RookLang

/-- The parts of a program that have a start and an end of their own. -/
inductive Enclosure where
  | group (g : Group)
  | block
  /-- The clauses of `which`, which are no level of nesting. -/
  | clauses
  deriving DecidableEq, Repr

namespace Enclosure

def opening : Enclosure → List Terminal
  | group .paren => [.sign .leftParen]
  | group .bracket => [.sign .leftBracket]
  | block | clauses => [.sign .colon, .plain .newline, .plain .indent]

def closing : Enclosure → Terminal
  | group g => g.closer
  | block | clauses => .plain .dedent

def deepens : Enclosure → Bool
  | group _ | block => true
  | clauses => false

end Enclosure

inductive Phrase where
  | statements | simple | compound
  | assigned | printCall | separator | inputCall | arguments | array
  | expression | conjunction | negation | comparison | sum | product | signed | value
  deriving DecidableEq, Repr

inductive Form where
  | oneOf (ts : List Terminal)
  | empty
  | seq (f g : Form)
  | alt (f g : Form)
  | many (f : Form)
  | phrase (p : Phrase)
  | enclosed (e : Enclosure) (f : Form)
  deriving DecidableEq, Repr

namespace Form

instance : Append Form := ⟨seq⟩

instance : OrOp Form := ⟨alt⟩

instance : Coe Terminal Form := ⟨fun t => oneOf [t]⟩

instance : Coe Phrase Form := ⟨phrase⟩

def optional (f : Form) : Form := f ||| empty

def parens (f : Form) : Form := enclosed (.group .paren) f

def brackets (f : Form) : Form := enclosed (.group .bracket) f

/-- A colon and an indented block of statements. -/
def block : Form := enclosed .block Phrase.statements

/-- One or more, with commas between them. -/
def list (f : Form) : Form := f ++ many (Terminal.sign .comma ++ f)

def times (f : Form) : Nat → Form
  | 0 => empty
  | n + 1 => f ++ f.times n

end Form

namespace Terminal

abbrev identifier : Terminal := .plain .identifier

abbrev newline : Terminal := .plain .newline

abbrev comma : Terminal := .sign .comma

abbrev assign : Terminal := .op .assign

def compoundAssignments : List Terminal :=
  [.op .plusAssign, .op .minusAssign, .op .multiplyAssign, .op .divideAssign]

def junctions : List Terminal := [.op .and, .op .or]

def relations : List Terminal :=
  [.op .greater, .op .less, .op .greaterOrEqual, .op .lessOrEqual, .op .equal, .op .notEqual]

def sums : List Terminal := [.op .plus, .op .minus]

def products : List Terminal := [.op .multiply, .op .divide, .op .modulo]

/-- The literals that an `instance` clause may name. -/
def patterns : List Terminal := [.plain .number, .plain .float, .plain .string]

def literals : List Terminal := .plain .boolean :: patterns

end Terminal

namespace Phrase
open Form Terminal

/-- What each phrase stands for. -/
def form : Phrase → Form
  | statements => many (simple ++ newline ||| compound) ++ optional simple
  | simple =>
    word .pass ||| word .break_ ||| word .continue_ ||| word .return_ ++ optional expression |||
    printCall ||| inputCall ||| identifier ++ arguments |||
    identifier ++ oneOf compoundAssignments ++ expression |||
    list identifier ++ assign ++ list assigned
  | compound =>
    word .if_ ++ expression ++ block ++ many (word .elif ++ expression ++ block) ++
      optional (word .else_ ++ block) |||
    word .while_ ++ expression ++ block |||
    word .for_ ++ identifier ++ optional (comma ++ identifier) ++ word .in_ ++
      (array ||| identifier) ++ block |||
    word .define ++ identifier ++
      parens (many (identifier ++ optional (assign ++ expression) ++ optional comma)) ++ block |||
    word .which ++ identifier ++ enclosed .clauses
      (many (word .instance_ ++ optional (oneOf relations) ++ oneOf patterns ++ block) ++
        optional (word .default ++ block))
  | assigned => inputCall ||| expression
  | printCall =>
    builtin .print ++
      parens (optional (separator ||| list expression ++ optional (comma ++ separator)))
  | separator => word .separator ++ assign ++ plain .string
  | inputCall => builtin .input ++ parens (optional (plain .string))
  | arguments => parens (optional (list expression ++ optional comma))
  | array =>
    brackets (optional (list expression ++ (optional comma |||
      word .to_ ++ plain .number ++
        optional (word .step ++ optional (sign .colon) ++ plain .number))))
  | expression => conjunction ++ many (oneOf junctions ++ conjunction)
  | conjunction => negation ++ optional (op .and ++ negation)
  | negation => optional (op .not) ++ comparison
  | comparison => sum ++ many ((oneOf relations ||| word .in_ ||| op .not ++ word .in_) ++ sum)
  | sum => product ++ many (oneOf sums ++ product)
  | product => signed ++ many (oneOf products ++ signed)
  | signed => optional (oneOf sums) ++ value
  | value => identifier ++ optional arguments ||| oneOf literals ||| array ||| parens expression

end Phrase

/-- The words of a form that stands inside `depth` levels of nesting, all of which, with those of
the word itself, the limit allows. -/
inductive Derives (limit : Option Nat) : Nat → Form → List Terminal → Prop
  | oneOf {d ts t} (h : t ∈ ts) : Derives limit d (.oneOf ts) [t]
  | empty {d} : Derives limit d .empty []
  | seq {d f g u v} (hf : Derives limit d f u) (hg : Derives limit d g v) :
    Derives limit d (f ++ g) (u ++ v)
  | left {d f g w} (h : Derives limit d f w) : Derives limit d (f ||| g) w
  | right {d f g w} (h : Derives limit d g w) : Derives limit d (f ||| g) w
  | none {d f} : Derives limit d (.many f) []
  | more {d f u v} (hf : Derives limit d f u) (hm : Derives limit d (.many f) v) :
    Derives limit d (.many f) (u ++ v)
  | phrase {d p w} (h : Derives limit d p.form w) : Derives limit d (.phrase p) w
  | enclosed {d e f w} (hl : e.deepens → ∀ l ∈ limit, d < l)
    (h : Derives limit (d + e.deepens.toNat) f w) :
    Derives limit d (.enclosed e f) (e.opening ++ w ++ [e.closing])

namespace Phrase
open Form Terminal

/-- A statement that need not be the last one. -/
def line : Form := simple ++ newline ||| compound

/-- Programs of `n` statements, the last of which may lack the end of its line. -/
def program : Nat → Form
  | 0 => optional (plain .endOfInput)
  | n + 1 => line.times n ++ (line ||| simple) ++ optional (plain .endOfInput)

end Phrase

end RookLang
