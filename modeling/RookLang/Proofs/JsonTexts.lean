import Mathlib.Algebra.Group.Int.Defs
import Mathlib.Data.List.Basic
import Mathlib.Data.List.Forall2
import Mathlib.Data.List.TakeWhile
import RookLang.Table.Json

/-! JSON texts and the values that they are read as. A reader goes through a text character by
character and keeps the lists and records that are open; strings and numbers are collected up to
their end and then looked at as a whole. -/
namespace RookLang.Json

/-- The number `coefficient * 10 ^ exponent`. -/
structure Decimal where
  coefficient : ℤ
  exponent : ℤ
  deriving DecidableEq, Repr

inductive Value where
  | null
  | bool (b : Bool)
  | number (d : Decimal)
  | string (text : String)
  | list (elements : List Value)
  /-- Names with their values, in the order of the text. -/
  | record (members : List (String × Value))
  deriving Repr

/-! Numbers. -/

def digits? (text : List Char) : Option ℕ :=
  if text ≠ [] ∧ text.all Char.isDigit then some (Nat.ofDigitChars 10 text 0) else none

/-- The digits before the point, of which the first is no zero unless it is the only one. -/
def whole? (text : List Char) : Option ℕ :=
  if text.head? = some '0' ∧ text ≠ ['0'] then none else digits? text

/-- The digits after the point, and how many there are. -/
def places? : List Char → Option (ℕ × ℕ)
  | [] => some (0, 0)
  | _ :: text => (digits? text).map (·, text.length)

/-- The power of ten. -/
def power? : List Char → Option ℤ
  | [] => some 0
  | _ :: '+' :: text => (digits? text).map fun n => (n : ℤ)
  | _ :: '-' :: text => (digits? text).map fun n => -(n : ℤ)
  | _ :: text => (digits? text).map fun n => (n : ℤ)

def number? (text : List Char) : Option Decimal := do
  let negative := text.head? = some '-'
  let unsigned := if negative then text.tail else text
  let mantissa := unsigned.takeWhile fun c => c != 'e' && c != 'E'
  let n ← whole? (mantissa.takeWhile (· != '.'))
  let (m, scale) ← places? (mantissa.dropWhile (· != '.'))
  let e ← power? (unsigned.dropWhile fun c => c != 'e' && c != 'E')
  let coefficient : ℤ := n * 10 ^ scale + m
  return ⟨if negative then -coefficient else coefficient, e - scale⟩

/-- The value of a text that is neither quoted nor bracketed. -/
def bare? (text : List Char) : Option Value :=
  if text = "null".toList then some .null
  else if text = "true".toList then some (.bool true)
  else if text = "false".toList then some (.bool false)
  else (number? text).map .number

/-! Strings. -/

def hexDigit? (c : Char) : Option ℕ :=
  if '0' ≤ c ∧ c ≤ '9' then some (c.toNat - '0'.toNat)
  else if 'a' ≤ c ∧ c ≤ 'f' then some (c.toNat - 'a'.toNat + 10)
  else if 'A' ≤ c ∧ c ≤ 'F' then some (c.toNat - 'A'.toNat + 10)
  else none

/-- The UTF-16 unit with these hexadecimal digits. -/
def unit? (a b c d : Char) : Option ℕ := do
  return ((← hexDigit? a) * 16 + (← hexDigit? b)) * 256 + (← hexDigit? c) * 16 + (← hexDigit? d)

/-- Units of which two stand for one character. -/
def isLeading (unit : ℕ) : Bool := 0xD800 ≤ unit && unit < 0xDC00

def isTrailing (unit : ℕ) : Bool := 0xDC00 ≤ unit && unit < 0xE000

/-- The character that is meant by a letter or sign after a backslash. -/
def escaped? : Char → Option Char
  | '"' => some '"'
  | '\\' => some '\\'
  | '/' => some '/'
  | 'b' => some '\x08'
  | 'f' => some '\x0c'
  | 'n' => some '\n'
  | 'r' => some '\r'
  | 't' => some '\t'
  | _ => none

/-- The character of a unit, after the leading unit `lead` if there is one. -/
def character? (lead : Option ℕ) (unit : ℕ) : Option Char :=
  match lead with
  | none => if isTrailing unit then none else some (Char.ofNat unit)
  | some l =>
    if isTrailing unit then some (Char.ofNat (0x10000 + (l - 0xD800) * 0x400 + (unit - 0xDC00)))
    else none

/-- The characters that the text between two quotes stands for. The unit `lead` was read before it
and waits for the second unit of its character. -/
def unescape? (lead : Option ℕ) : List Char → Option (List Char)
  | [] => if lead.isSome then none else some []
  | '\\' :: 'u' :: a :: b :: c :: d :: text =>
    (unit? a b c d).bind fun unit =>
      if lead.isNone && isLeading unit then unescape? (some unit) text
      else (character? lead unit).bind fun x => (unescape? none text).map (x :: ·)
  | '\\' :: c :: text =>
    if lead.isSome then none
    else (escaped? c).bind fun x => (unescape? none text).map (x :: ·)
  | c :: text =>
    if lead.isSome || c = '"' || c = '\\' || c.toNat < 0x20 then none
    else (unescape? none text).map (c :: ·)

/-! Lists and records. -/

/-- A list or record that is open, with what comes before the value that is read next, latest
first. -/
inductive Frame where
  | list (before : List Value)
  /-- A name comes next. -/
  | record (before : List (String × Value))
  /-- The value of a member comes next. -/
  | member (before : List (String × Value)) (name : String)

def Frame.isRecord : Frame → Bool
  | record _ => true
  | _ => false

inductive Mode where
  /-- A value or a name comes next; `first` holds right after an opener, where the list or record
  may end as well. -/
  | start (first : Bool)
  /-- A colon comes next. -/
  | colon
  /-- A value is complete. -/
  | after (v : Value)
  /-- In a string, with the text after its opening quote, latest first. -/
  | quoted (read : List Char) (escaping : Bool)
  /-- In a word or number. -/
  | bare (read : List Char)

structure Reader where
  /-- Innermost first. -/
  frames : List Frame
  mode : Mode

namespace Reader

def initial : Reader := ⟨[], .start false⟩

def isBlank (c : Char) : Bool := c = ' ' || c = '\t' || c = '\n' || c = '\r'

/-- A value is complete. It is the name of a member if one is missing, which only strings can be. -/
def complete (frames : List Frame) (v : Value) : Option Reader :=
  match frames, v with
  | .record before :: frames, .string name => some ⟨.member before name :: frames, .colon⟩
  | .record _ :: _, _ => none
  | frames, v => some ⟨frames, .after v⟩

/-- Read a character where a value or a name comes next. -/
def start (frames : List Frame) (first : Bool) (c : Char) : Option Reader :=
  if isBlank c then some ⟨frames, .start first⟩
  else if c = '"' then some ⟨frames, .quoted [] false⟩
  else
    match c, frames with
    | ']', .list _ :: frames => if first then some ⟨frames, .after (.list [])⟩ else none
    | '\x7d', .record _ :: frames => if first then some ⟨frames, .after (.record [])⟩ else none
    | _, .record _ :: _ => none
    | '[', frames => some ⟨.list [] :: frames, .start true⟩
    | '\x7b', frames => some ⟨.record [] :: frames, .start true⟩
    | c, frames => some ⟨frames, .bare [c]⟩

/-- Read a character after a value. -/
def after (frames : List Frame) (v : Value) (c : Char) : Option Reader :=
  if isBlank c then some ⟨frames, .after v⟩
  else
    match c, frames with
    | ',', .list before :: frames => some ⟨.list (v :: before) :: frames, .start false⟩
    | ']', .list before :: frames => some ⟨frames, .after (.list (v :: before).reverse)⟩
    | ',', .member before name :: frames =>
      some ⟨.record ((name, v) :: before) :: frames, .start false⟩
    | '\x7d', .member before name :: frames =>
      some ⟨frames, .after (.record ((name, v) :: before).reverse)⟩
    | _, _ => none

/-- Words and numbers end before blanks and signs. -/
def endsBare (c : Char) : Bool := isBlank c || c = ',' || c = ']' || c = '\x7d'

/-- Read one character. -/
def feed (r : Reader) (c : Char) : Option Reader :=
  match r.mode with
  | .start first => start r.frames first c
  | .colon =>
    if isBlank c then some r else if c = ':' then some ⟨r.frames, .start false⟩ else none
  | .after v => after r.frames v c
  | .quoted read true => some ⟨r.frames, .quoted (c :: read) false⟩
  | .quoted read false =>
    if c = '"' then do
      complete r.frames (.string (String.ofList (← unescape? none read.reverse)))
    else some ⟨r.frames, .quoted (c :: read) (c = '\\')⟩
  | .bare read =>
    if endsBare c then do after r.frames (← bare? read.reverse) c
    else some ⟨r.frames, .bare (c :: read)⟩

/-- The value of a text that is read to its end. -/
def finish (r : Reader) : Option Value :=
  match r.frames, r.mode with
  | [], .after v => some v
  | [], .bare read => bare? read.reverse
  | _, _ => none

end Reader

/-- The value of a JSON text; none if the text is no JSON. -/
def decode (text : List Char) : Option Value := do (← text.foldlM Reader.feed .initial).finish

/-! Numbers are read as they are written. -/

theorem head?_toDigits_ne_zero {n : ℕ} (hn : n ≠ 0) : (Nat.toDigits 10 n).head? ≠ some '0' := by
  induction n using Nat.strongRecOn with
  | ind n ih =>
    rw [Nat.toDigits_eq_if (by decide)]
    split
    · have hd : ∀ m < 10, m ≠ 0 → m.digitChar ≠ '0' := by decide
      simpa using hd n ‹_› hn
    · rw [List.head?_append_of_ne_nil _ Nat.toDigits_ne_nil]
      exact ih (n / 10) (by omega) (by omega)

theorem isDigit_of_mem {n : ℕ} {c : Char} (h : c ∈ Nat.toDigits 10 n) : c.isDigit :=
  Nat.isDigit_of_mem_toDigits (by decide) (by decide) h

theorem ne_of_mem_toDigits {n : ℕ} {c d : Char} (h : c ∈ Nat.toDigits 10 n)
    (hd : d.isDigit = false) : c ≠ d := by
  rintro rfl
  simp [isDigit_of_mem h] at hd

theorem digits?_toDigits (n : ℕ) : digits? (Nat.toDigits 10 n) = some n := by
  have hd : (Nat.toDigits 10 n).all Char.isDigit := List.all_eq_true.mpr fun c => isDigit_of_mem
  rw [digits?, if_pos ⟨Nat.toDigits_ne_nil, hd⟩, Nat.ofDigitChars_ten_toDigits]

theorem whole?_toDigits (n : ℕ) : whole? (Nat.toDigits 10 n) = some n := by
  rw [whole?, if_neg, digits?_toDigits]
  rintro ⟨hh, hne⟩
  cases n with
  | zero => exact hne (Nat.toDigits_zero 10)
  | succ n => exact head?_toDigits_ne_zero (Nat.succ_ne_zero n) hh

theorem number?_toDigits (n : ℕ) : number? (Nat.toDigits 10 n) = some ⟨n, 0⟩ := by
  have hsign : (Nat.toDigits 10 n).head? ≠ some '-' := fun h =>
    ne_of_mem_toDigits (List.mem_of_mem_head? h) (by decide) rfl
  have hpower : ∀ c ∈ Nat.toDigits 10 n, (c != 'e' && c != 'E') = true := fun c h => by
    simp [ne_of_mem_toDigits h (show 'e'.isDigit = false by decide),
      ne_of_mem_toDigits h (show 'E'.isDigit = false by decide)]
  have hpoint : ∀ c ∈ Nat.toDigits 10 n, (c != '.') = true := fun c h => by
    simp [ne_of_mem_toDigits h (show '.'.isDigit = false by decide)]
  simp [number?, hsign, List.takeWhile_eq_self_iff.mpr hpower, List.dropWhile_eq_nil_iff.mpr hpower,
    List.takeWhile_eq_self_iff.mpr hpoint, List.dropWhile_eq_nil_iff.mpr hpoint, whole?_toDigits,
    places?, power?]

theorem bare?_toDigits (n : ℕ) : bare? (Nat.toDigits 10 n) = some (.number ⟨n, 0⟩) := by
  have hne {s : String} {c : Char} {cs : List Char} (hs : s.toList = c :: cs)
      (hc : c.isDigit = false) : Nat.toDigits 10 n ≠ s.toList :=
    fun h => ne_of_mem_toDigits (h ▸ hs ▸ List.mem_cons_self) hc rfl
  rw [bare?, if_neg (hne rfl rfl), if_neg (hne rfl rfl), if_neg (hne rfl rfl), number?_toDigits]
  rfl

/-! Strings are read as they are escaped. -/

open Table

theorem escape_cases (c : Char) :
    (∃ e, jsonEscape c = ['\\', e] ∧ escaped? e = some c ∧ e ≠ 'u') ∨
    (c.toNat < 0x20 ∧ jsonEscape c =
      ['\\', 'u', '0', '0', Nat.digitChar (c.toNat / 16), Nat.digitChar (c.toNat % 16)]) ∨
    (c ≠ '"' ∧ c ≠ '\\' ∧ 0x20 ≤ c.toNat ∧ jsonEscape c = [c]) := by
  unfold jsonEscape
  split
  case h_8 hq hb _ _ _ _ _ =>
    split
    · exact .inr (.inl ⟨‹_›, rfl⟩)
    · exact .inr (.inr ⟨hq, hb, by omega, rfl⟩)
  all_goals exact .inl ⟨_, rfl, rfl, by decide⟩

theorem unit?_digitChars {n : ℕ} (h : n < 0x20) :
    unit? '0' '0' (Nat.digitChar (n / 16)) (Nat.digitChar (n % 16)) = some n := by
  have hall : ∀ m < 0x20,
      unit? '0' '0' (Nat.digitChar (m / 16)) (Nat.digitChar (m % 16)) = some m := by decide
  exact hall n h

theorem unescape?_escape (c : Char) (text : List Char) :
    unescape? none (jsonEscape c ++ text) = (unescape? none text).map (c :: ·) := by
  obtain ⟨e, he, hc, hu⟩ | ⟨hc, he⟩ | ⟨hq, hb, hc, he⟩ := escape_cases c
  · rw [he, List.cons_append, List.singleton_append, unescape?]
    · simp [hc]
    · exact fun _ _ _ _ _ he _ => hu he
  · have hl : isLeading c.toNat = false := by simp [isLeading]; omega
    have ht : isTrailing c.toNat = false := by simp [isTrailing]; omega
    simp [he, unescape?, unit?_digitChars hc, hl, character?, ht]
  · rw [he, List.singleton_append, unescape?]
    · simp [hq, hb, Nat.not_lt.mpr hc]
    · simp [hb]
    · simp [hb]

theorem unescape?_flatMap (text : List Char) :
    unescape? none (text.flatMap jsonEscape) = some text := by
  induction text with
  | nil => rfl
  | cons c text ih => rw [List.flatMap_cons, unescape?_escape, ih, Option.map_some]

/-- The text takes a reader from `r` to `s`. -/
def Reads (r : Reader) (text : List Char) (s : Reader) : Prop :=
  text.foldlM Reader.feed r = some s

variable {r s t : Reader} {fs : List Frame} {first : Bool} {v : Value} {c : Char}
  {a b g : List Char}

theorem Reads.nil (r : Reader) : Reads r [] r := rfl

theorem Reads.cons (h : r.feed c = some s) (h' : Reads s a t) : Reads r (c :: a) t := by
  rw [Reads, List.foldlM_cons, h]
  exact h'

theorem Reads.append (h : Reads r a s) (h' : Reads s b t) : Reads r (a ++ b) t := by
  rw [Reads, List.foldlM_append, h]
  exact h'

/-- Characters that leave the reader as it is. -/
theorem Reads.of_stays (h : ∀ c ∈ a, r.feed c = some r) : Reads r a r := by
  induction a with
  | nil => exact .nil r
  | cons c a ih =>
    obtain ⟨hc, h⟩ := List.forall_mem_cons.mp h
    exact .cons hc (ih h)

open Reader

theorem reads_blanks_start (h : ∀ c ∈ a, isBlank c) :
    Reads ⟨fs, .start first⟩ a ⟨fs, .start first⟩ :=
  .of_stays fun c hc => by simp [feed, start, h c hc]

theorem reads_blanks_after (h : ∀ c ∈ a, isBlank c) :
    Reads ⟨fs, .after v⟩ a ⟨fs, .after v⟩ :=
  .of_stays fun c hc => by simp [feed, after, h c hc]

theorem reads_escape (read : List Char) (c : Char) : Reads ⟨fs, .quoted read false⟩ (jsonEscape c)
    ⟨fs, .quoted ((jsonEscape c).reverse ++ read) false⟩ := by
  have hdigit : ∀ n < 16, Nat.digitChar n ≠ '"' ∧ Nat.digitChar n ≠ '\\' := by decide
  obtain ⟨e, he, -, -⟩ | ⟨hc, he⟩ | ⟨hq, hb, -, he⟩ := escape_cases c
  · rw [he]
    rfl
  · obtain ⟨hq, hb⟩ := hdigit (c.toNat / 16) (by omega)
    obtain ⟨hq', hb'⟩ := hdigit (c.toNat % 16) (by omega)
    simp [he, Reads, feed, hq, hb, hq', hb']
  · simp [he, Reads, feed, hq, hb]

theorem reads_flatMap (read text : List Char) : Reads ⟨fs, .quoted read false⟩
    (text.flatMap jsonEscape) ⟨fs, .quoted ((text.flatMap jsonEscape).reverse ++ read) false⟩ := by
  induction text generalizing read with
  | nil => exact .nil _
  | cons c text ih =>
    rw [List.flatMap_cons, List.reverse_append, List.append_assoc]
    exact (reads_escape read c).append (ih _)

/-- A string is a value or a name, whichever comes next. -/
theorem reads_string {text : String} (h : complete fs (.string text) = some r) :
    Reads ⟨fs, .start first⟩ (jsonString text).toList r := by
  rw [jsonString, String.toList_ofList, List.cons_append]
  have hopen : Reads ⟨fs, .start first⟩ ['"'] ⟨fs, .quoted [] false⟩ := .cons rfl (.nil _)
  refine hopen.append ((reads_flatMap [] text.toList).append (.cons ?_ (.nil _)))
  simp [feed, unescape?_flatMap, h]

theorem reads_bare {read : List Char} (h : ∀ c ∈ a, endsBare c = false) :
    Reads ⟨fs, .bare read⟩ a ⟨fs, .bare (a.reverse ++ read)⟩ := by
  induction a generalizing read with
  | nil => exact .nil _
  | cons c a ih =>
    obtain ⟨hc, h⟩ := List.forall_mem_cons.mp h
    refine .cons (s := ⟨fs, .bare (c :: read)⟩) (by simp [feed, hc]) ?_
    simpa using ih h

/-- The reader has read a value, though it may not know that a number is complete. -/
structure Holds (r : Reader) (fs : List Frame) (v : Value) : Prop where
  feed c (hc : endsBare c) : r.feed c = after fs v c
  finish : r.finish = (⟨fs, .after v⟩ : Reader).finish

theorem holds_after (fs : List Frame) (v : Value) : Holds ⟨fs, .after v⟩ fs v :=
  ⟨fun _ _ => rfl, rfl⟩

/-- The text is read as the value wherever a value may stand. -/
def Writes (text : List Char) (v : Value) : Prop := ∀ fs first,
  fs.head?.all (!·.isRecord) → ∃ r, Reads ⟨fs, .start first⟩ text r ∧ Holds r fs v

theorem complete_of_not_isRecord (h : fs.head?.all (!·.isRecord)) :
    complete fs v = some ⟨fs, .after v⟩ := by
  unfold complete
  split
  · cases h
  · cases h
  · rfl

theorem writes_string (text : String) : Writes (jsonString text).toList (.string text) :=
  fun fs _ h => ⟨_, reads_string (complete_of_not_isRecord h), holds_after fs _⟩

theorem isBlank_of_isDigit (h : c.isDigit) : isBlank c = false ∧ endsBare c = false := by
  have hne {d : Char} (hd : d.isDigit = false) : c ≠ d := by
    rintro rfl
    simp [h] at hd
  have hb : isBlank c = false := by
    simp [isBlank, hne (d := ' ') (by decide), hne (d := '\t') (by decide),
      hne (d := '\n') (by decide), hne (d := '\r') (by decide)]
  exact ⟨hb, by simp [endsBare, hb, hne (d := ',') (by decide), hne (d := ']') (by decide),
    hne (d := '\x7d') (by decide)]⟩

theorem start_of_isDigit (hc : c.isDigit) (h : fs.head?.all (!·.isRecord)) :
    start fs first c = some ⟨fs, .bare [c]⟩ := by
  unfold start
  split
  · simp [(isBlank_of_isDigit hc).1] at *
  split
  · subst_vars
    cases hc
  split
  · cases hc
  · cases hc
  · cases h
  · cases hc
  · cases hc
  · rfl

theorem writes_nat (n : ℕ) : Writes (toString n).toList (.number ⟨n, 0⟩) := by
  intro fs first h
  rw [Nat.toString_eq_ofList_toDigits, String.toList_ofList]
  obtain ⟨c, cs, hcs⟩ := List.exists_cons_of_ne_nil (Nat.toDigits_ne_nil (n := n) (b := 10))
  have hdigit : ∀ d ∈ c :: cs, d.isDigit := fun d hd => isDigit_of_mem (hcs ▸ hd)
  obtain ⟨hc, hdigits⟩ := List.forall_mem_cons.mp hdigit
  have hread : (cs.reverse ++ [c]).reverse = Nat.toDigits 10 n := by simp [hcs]
  refine ⟨⟨fs, .bare (cs.reverse ++ [c])⟩, ?_, fun d hd => ?_, ?_⟩
  · rw [hcs]
    exact .cons (start_of_isDigit hc h)
      (reads_bare fun d hd => (isBlank_of_isDigit (hdigits d hd)).2)
  · simp [feed, hd, hread, bare?_toDigits]
  · cases fs <;> simp [finish, hread, bare?_toDigits]

/-! Lists and records are read item by item. -/

/-- What lists and records have in common. -/
structure Brackets (α : Type) where
  /-- The frame before an item, after those that are given latest first. -/
  before : List α → Frame
  /-- The frame after an item, and the value that it ends in. -/
  after : List α → α → Frame × Value
  whole : List α → Value
  opener : Char
  closer : Char

namespace Brackets

variable {α : Type} {k : Brackets α} {texts : List (List Char)} {xs : List α}

/-- Items come after the opener, set apart by commas, and the closer makes a value of them. -/
structure Lawful (k : Brackets α) : Prop where
  opens fs first (h : fs.head?.all (!·.isRecord)) :
    start fs first k.opener = some ⟨k.before [] :: fs, .start true⟩
  comma items x fs : Reader.after ((k.after items x).1 :: fs) (k.after items x).2 ',' =
    some ⟨k.before (x :: items) :: fs, .start false⟩
  closes items x fs : Reader.after ((k.after items x).1 :: fs) (k.after items x).2 k.closer =
    some ⟨fs, .after (k.whole (x :: items).reverse)⟩

def list : Brackets Value := ⟨.list, fun before v => (.list before, v), .list, '[', ']'⟩

def record : Brackets (String × Value) :=
  ⟨.record, fun before m => (.member before m.1, m.2), .record, '\x7b', '\x7d'⟩

theorem start_of_not_isRecord {frame : Frame}
    (hc : c = '[' ∧ frame = .list [] ∨ c = '\x7b' ∧ frame = .record [])
    (h : fs.head?.all (!·.isRecord)) : start fs first c = some ⟨frame :: fs, .start true⟩ := by
  match fs, h with
  | [], _ | .list _ :: _, _ | .member _ _ :: _, _ =>
    obtain ⟨rfl, rfl⟩ | ⟨rfl, rfl⟩ := hc <;> rfl

theorem lawful_list : list.Lawful :=
  ⟨fun _ _ => start_of_not_isRecord (.inl ⟨rfl, rfl⟩), fun _ _ _ => rfl, fun _ _ _ => rfl⟩

theorem lawful_record : record.Lawful :=
  ⟨fun _ _ => start_of_not_isRecord (.inr ⟨rfl, rfl⟩), fun _ _ _ => rfl, fun _ _ _ => rfl⟩

/-- The text is read as an item. -/
def Writes (k : Brackets α) (text : List Char) (x : α) : Prop := ∀ items fs first,
  ∃ r, Reads ⟨k.before items :: fs, .start first⟩ text r ∧
    Holds r ((k.after items x).1 :: fs) (k.after items x).2

/-- After a value and a line feed, its reader knows that it is complete. -/
theorem reads_newline (h : Holds r fs v) : Reads r ['\n'] ⟨fs, .after v⟩ :=
  .cons ((h.feed '\n' rfl).trans rfl) (.nil _)

/-- The rest of a list or record, from one of its items on. -/
theorem Lawful.reads_items (hk : k.Lawful) (hg : ∀ c ∈ g, isBlank c)
    (h : List.Forall₂ k.Writes texts xs) (hne : texts ≠ []) (items : List α) (first : Bool) :
    Reads ⟨k.before items :: fs, .start first⟩
      ([',', '\n'].intercalate texts ++ '\n' :: g ++ [k.closer])
      ⟨fs, .after (k.whole (items.reverse ++ xs))⟩ := by
  induction h generalizing items first with
  | nil => exact (hne rfl).elim
  | @cons text x texts xs hx h ih =>
    obtain ⟨r, hr, hv⟩ := hx items fs first
    cases h with
    | nil =>
      rw [List.intercalate_singleton, List.append_assoc]
      have hcloser : Reads ⟨(k.after items x).1 :: fs, .after (k.after items x).2⟩ [k.closer]
          ⟨fs, .after (k.whole (x :: items).reverse)⟩ := .cons (hk.closes items x fs) (.nil _)
      rw [List.reverse_cons] at hcloser
      exact hr.append ((reads_newline hv).append ((reads_blanks_after hg).append hcloser))
    | @cons text' y texts xs hy h =>
      have hcomma : Reads r [',', '\n'] ⟨k.before (x :: items) :: fs, .start false⟩ :=
        .cons ((hv.feed ',' rfl).trans (hk.comma items x fs)) (.cons rfl (.nil _))
      have hrest := ih (by simp) (x :: items) false
      simp only [List.reverse_cons, List.append_assoc, List.singleton_append] at hrest
      simp only [List.intercalate_cons_cons, List.append_assoc]
      exact hr.append (hcomma.append hrest)

/-- Lists and records that have a line for each item are read as such. -/
theorem Lawful.writes (hk : k.Lawful) (hg : ∀ c ∈ g, isBlank c)
    (h : List.Forall₂ k.Writes texts xs) (hne : texts ≠ []) : Json.Writes
      (k.opener :: '\n' :: ([',', '\n'].intercalate texts ++ '\n' :: g ++ [k.closer]))
      (k.whole xs) :=
  fun fs first hfs => ⟨_, .cons (hk.opens fs first hfs)
    (.cons rfl (hk.reads_items hg h hne [] true)), holds_after fs _⟩

end Brackets

/-- A value is an element wherever it stands. -/
theorem Writes.element (h : Writes a v) : Brackets.list.Writes a v :=
  fun items fs first => h (.list items :: fs) first rfl

/-- Blanks before a value do not matter. -/
theorem Writes.indent (h : Writes a v) (hg : ∀ c ∈ g, isBlank c) :
    Writes (g ++ a) v := by
  intro fs first hfs
  obtain ⟨r, hr, hv⟩ := h fs first hfs
  exact ⟨r, (reads_blanks_start hg).append hr, hv⟩

/-- With a name it is a member. -/
theorem Writes.member (h : Writes a v) (name : String)
    (hg : ∀ c ∈ g, isBlank c) :
    Brackets.record.Writes (g ++ (jsonString name).toList ++ [':', ' '] ++ a) (name, v) := by
  intro items fs first
  obtain ⟨r, hr, hv⟩ := h (.member items name :: fs) false rfl
  refine ⟨r, ?_, hv⟩
  have hname : Reads ⟨.record items :: fs, .start first⟩ (jsonString name).toList
      ⟨.member items name :: fs, .colon⟩ := reads_string rfl
  have hcolon : Reads ⟨.member items name :: fs, .colon⟩ [':', ' ']
      ⟨.member items name :: fs, .start false⟩ := .cons rfl (.cons rfl (.nil _))
  exact (((reads_blanks_start hg).append hname).append hcolon).append hr

theorem decode_of_writes (h : Writes a v) : decode a = some v := by
  obtain ⟨r, hr, hv⟩ := h [] false rfl
  have hr : a.foldlM feed initial = some r := hr
  rw [decode, hr]
  exact hv.finish

example : decode "[ -1.50e+2,\"\\ud83d\\ude00/\"]".toList =
    some (.list [.number ⟨-150, 0⟩, .string "😀/"]) := by rfl

example : decode "[1,]".toList = none := by rfl

end RookLang.Json
