import RookLang.Character

/-! Removal of comments, in one pass over the characters of a source text.

A comment after code leaves one space for each of its characters, so that what follows keeps its
column; a comment before the first code of a line leaves nothing, so that it is no indentation.
The line feeds of a block comment stay. -/
namespace RookLang.Comment

/-- A place in a text; both numbers count characters from one. -/
structure Position where
  line : Nat
  column : Nat
  deriving DecidableEq, Repr

def Position.after (p : Position) (c : Char) : Position :=
  if c = '\n' then ⟨p.line + 1, 1⟩ else ⟨p.line, p.column + 1⟩

/-- What the next character belongs to. -/
inductive Mode where
  | code
  /-- After a slash of the code that is held back, since it may open a comment. -/
  | slash (opened : Position)
  | string
  | lineComment
  /-- `star` holds after a star of the comment's text, which a slash would make its end. -/
  | blockComment (opened : Position) (star : Bool)
  deriving DecidableEq, Repr

structure State where
  mode : Mode
  /-- Where the next character stands. -/
  position : Position
  /-- Whether the line of the text that is kept holds code already. -/
  hasCode : Bool
  /-- The text that is kept, latest character first. -/
  kept : List Char
  deriving DecidableEq, Repr

namespace State

def initial : State := ⟨.code, ⟨1, 1⟩, false, []⟩

def keep (s : State) (c : Char) : State :=
  { s with
    hasCode := if c = '\n' then false else s.hasCode || !Character.isBlank c
    kept := c :: s.kept }

/-- Stand in for one character of a block comment. -/
def blank (s : State) : State :=
  if s.hasCode then { s with kept := ' ' :: s.kept } else s

def enter (s : State) (m : Mode) : State := { s with mode := m }

/-- Read a character outside strings and comments that is no slash. -/
def code (s : State) (c : Char) : State :=
  (s.keep c).enter (if c = '"' then .string else .code)

def string (s : State) (c : Char) : State :=
  (s.keep c).enter (if c = '"' ∨ c = '\n' then .code else .string)

/-- Read the character after a slash that was held back. -/
def afterSlash (s : State) (opened : Position) (c : Char) : State :=
  if c = '/' then s.enter .lineComment
  else if c = '*' then s.blank.blank.enter (.blockComment opened false)
  else (s.keep '/').code c

def lineComment (s : State) (c : Char) : State :=
  if c = '\n' then (s.keep c).enter .code else s

def blockComment (s : State) (opened : Position) (star : Bool) (c : Char) : State :=
  if c = '\n' then (s.keep c).enter (.blockComment opened false)
  else if star && c = '/' then s.blank.enter .code
  else s.blank.enter (.blockComment opened (c = '*'))

/-- Read one character. -/
def feed (s : State) (c : Char) : State :=
  let next := match s.mode with
    | .code => if c = '/' then s.enter (.slash s.position) else s.code c
    | .slash opened => s.afterSlash opened c
    | .string => s.string c
    | .lineComment => s.lineComment c
    | .blockComment opened star => s.blockComment opened star c
  { next with position := s.position.after c }

/-- The text that is kept, or where the comment opens that the text does not close. -/
def finish (s : State) : Except Position (List Char) :=
  match s.mode with
  | .slash _ => .ok (s.keep '/').kept.reverse
  | .blockComment opened _ => .error opened
  | .code | .string | .lineComment => .ok s.kept.reverse

end State

/-- The text without its comments; fails with the place of a block comment that stays open. -/
def strip (text : List Char) : Except Position (List Char) :=
  (text.foldl State.feed .initial).finish

end RookLang.Comment
