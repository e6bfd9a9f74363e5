import RookLang.Grammar

/-! The terminal of a token: all that the grammar tells of it. -/
namespace RookLang

/-- A reserved word or builtin with a known spelling stands for itself, any other token for its
kind. -/
def Token.terminal (t : Token) : Terminal :=
  match t.keyword?, t.builtin? with
  | some k, _ => .word k
  | none, some b => .builtin b
  | none, none => .plain t.kind

namespace Terminal

/-- Does the terminal end a line, or follow its end? -/
def endsLine : Terminal → Bool
  | .plain .newline | .plain .endOfInput | .plain .dedent => true
  | _ => false

/-- Does the terminal end the statements of a block? -/
def endsBlock : Terminal → Bool
  | .plain .dedent | .plain .endOfInput => true
  | _ => false

def isSum : Terminal → Bool
  | .plain k => k.isSum
  | _ => false

def isProduct : Terminal → Bool
  | .plain k => k.isProduct
  | _ => false

def isRelational : Terminal → Bool
  | .plain k => k.isRelational
  | _ => false

/-- Relational operators and `in`. -/
def isComparison : Terminal → Bool
  | .word .in_ => true
  | t => t.isRelational

def isJunction : Terminal → Bool
  | .plain k => k.isJunction
  | _ => false

def isCompoundAssignment : Terminal → Bool
  | .plain k => k.isCompoundAssignment
  | _ => false

def isLiteral : Terminal → Bool
  | .plain k => k.isLiteral
  | _ => false

def isInstancePattern : Terminal → Bool
  | .plain k => k.isInstancePattern
  | _ => false

end Terminal

theorem Token.kind_of_keyword? {t : Token} {k : Keyword} (h : t.keyword? = some k) :
    t.kind = .keyword := by
  unfold keyword? at h
  split at h
  · assumption
  · cases h

theorem Token.kind_of_builtin? {t : Token} {b : Builtin} (h : t.builtin? = some b) :
    t.kind = .builtin := by
  unfold builtin? at h
  split at h
  · assumption
  · cases h

/-- The kind of the tokens of a terminal. -/
def Terminal.kind : Terminal → Kind
  | word _ => .keyword
  | builtin _ => .builtin
  | plain k => k

theorem Token.kind_terminal (t : Token) : t.terminal.kind = t.kind := by
  have hk := @kind_of_keyword? t
  have hb := @kind_of_builtin? t
  unfold terminal
  split <;> simp_all [Terminal.kind]

theorem Token.map_kind (ts : List Token) : (ts.map terminal).map Terminal.kind = ts.map kind := by
  simp [kind_terminal]

theorem Token.terminal_eq_plain {t : Token} (hk : t.kind ≠ .keyword) (hb : t.kind ≠ .builtin) :
    t.terminal = .plain t.kind := by
  have hk' := @kind_of_keyword? t
  have hb' := @kind_of_builtin? t
  unfold terminal
  split <;> simp_all

theorem Token.kind_of_terminal {t : Token} {k : Kind} (h : t.terminal = .plain k) : t.kind = k := by
  unfold terminal at h
  split at h <;> cases h
  rfl

end RookLang
