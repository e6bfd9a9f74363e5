import RookLang.Proofs.AsciiTables
import RookLang.Proofs.JsonTexts

/-! Token tables for programs. Their text is JSON, and the fields of all tokens can be read back
from it. -/
namespace RookLang.Table
open Json

/-- A whole number as a JSON value. -/
def natValue (n : ℕ) : Value := .number ⟨n, 0⟩

/-- The members of the record of a token. -/
def members (t : Token) : List (String × Value) :=
  [("kind", .string t.kind.tag), ("lexeme", .string t.lexeme), ("line", natValue t.line),
    ("column", natValue t.column), ("indent_level", natValue t.indentLevel)]

variable {ts us : TokenStream}

theorem writes_fields (t : Token) :
    List.Forall₂ (fun field m => field.1 = m.1 ∧ Writes field.2.toList m.2) (jsonFields t)
      (members t) :=
  .cons ⟨rfl, writes_string _⟩ <| .cons ⟨rfl, writes_string _⟩ <| .cons ⟨rfl, writes_nat _⟩ <|
    .cons ⟨rfl, writes_nat _⟩ <| .cons ⟨rfl, writes_nat _⟩ .nil

theorem writes_jsonField {field : String × String} {m : String × Value} (hn : field.1 = m.1)
    (h : Writes field.2.toList m.2) : Brackets.record.Writes (jsonField field).toList m := by
  obtain ⟨name, v⟩ := m
  obtain rfl : field.1 = name := hn
  simpa [jsonField] using h.member field.1 (g := "    ".toList) (by simp [Reader.isBlank])

theorem writes_jsonRecord (t : Token) : Writes (jsonRecord t).toList (.record (members t)) := by
  have hitems : List.Forall₂ Brackets.record.Writes
      ((jsonFields t).map fun field => (jsonField field).toList) (members t) :=
    List.forall₂_map_left_iff.mpr ((writes_fields t).imp fun _ _ h => writes_jsonField h.1 h.2)
  have hrecord := Brackets.lawful_record.writes (g := "  ".toList) (by simp [Reader.isBlank]) hitems
    (by simp [jsonFields])
  have hindent := hrecord.indent (g := "  ".toList) (by simp [Reader.isBlank])
  simpa [jsonRecord, String.toList_intercalate, Function.comp_def, Brackets.record] using hindent

theorem decode_json (ts : TokenStream) :
    decode (json ts).toList = some (.list (ts.toList.map fun t => .record (members t))) := by
  unfold json
  split
  case h_1 h =>
    rw [h]
    rfl
  case h_2 hne =>
    have hitems : List.Forall₂ Brackets.list.Writes (ts.toList.map fun t => (jsonRecord t).toList)
        (ts.toList.map fun t => .record (members t)) := by
      rw [List.forall₂_map_left_iff, List.forall₂_map_right_iff, List.forall₂_same]
      exact fun t _ => (writes_jsonRecord t).element
    have hlist := Brackets.lawful_list.writes (g := []) (by simp) hitems (by simpa using hne)
    refine decode_of_writes ?_
    simpa [String.toList_intercalate, Function.comp_def, Brackets.list] using hlist

/-- What a table tells of a token. -/
def shown (t : Token) : Kind × String × ℕ × ℕ × ℕ :=
  (t.kind, t.lexeme, t.line, t.column, t.indentLevel)

theorem natValue_injective : Function.Injective natValue := by
  intro m n h
  obtain ⟨h, -⟩ := Decimal.mk.inj (Value.number.inj h)
  exact Int.ofNat.inj h

/-- The members of a record tell the fields of its token. -/
theorem shown_of_members_eq {t u : Token} (h : members t = members u) : shown t = shown u := by
  simp only [members, List.cons.injEq, Prod.mk.injEq, Value.string.injEq, true_and, and_true] at h
  obtain ⟨hkind, hlexeme, hline, hcolumn, hindent⟩ := h
  simp [shown, Kind.tag_injective hkind, hlexeme, natValue_injective hline,
    natValue_injective hcolumn, natValue_injective hindent]

theorem shown_of_json_eq (h : json ts = json us) : ts.toList.map shown = us.toList.map shown := by
  have hd := congrArg (fun text => decode text.toList) h
  simp only [decode_json, Option.some.injEq, Value.list.injEq] at hd
  rw [← List.forall₂_eq_eq_eq, List.forall₂_map_left_iff, List.forall₂_map_right_iff] at hd ⊢
  exact hd.imp fun t u ht => shown_of_members_eq (Value.record.inj ht)

theorem jsonRecord_eq_of_shown {t u : Token} (h : shown t = shown u) :
    jsonRecord t = jsonRecord u := by
  simp only [shown, Prod.mk.injEq] at h
  obtain ⟨hkind, hlexeme, hline, hcolumn, hindent⟩ := h
  simp only [jsonRecord, jsonFields, hkind, hlexeme, hline, hcolumn, hindent]

theorem json_eq_of_shown (h : ts.toList.map shown = us.toList.map shown) : json ts = json us := by
  obtain ⟨ts⟩ := ts
  obtain ⟨us⟩ := us
  have hrecords : ts.map jsonRecord = us.map jsonRecord := by
    rw [← List.forall₂_eq_eq_eq, List.forall₂_map_left_iff, List.forall₂_map_right_iff] at h ⊢
    exact h.imp fun t u => jsonRecord_eq_of_shown
  cases ts with
  | nil =>
    cases us with
    | nil => rfl
    | cons u us => cases h
  | cons t ts =>
    cases us with
    | nil => cases h
    | cons u us => simp only [json, hrecords]

/-- A table is a JSON text: a list with one record for each token in the order of the stream, which
holds the name of its kind in capital letters, its text, its place and its indentation. Two streams
have the same table exactly if their tokens agree in all of these. -/
theorem json_shows_tokens :
    (∀ ts : TokenStream,
      decode (json ts).toList = some (.list (ts.toList.map fun t => .record (members t)))) ∧
    (∀ k : Kind, k.tag.toList.all fun c => c.isUpper || c = '_') ∧
    ∀ ts us : TokenStream,
      json ts = json us ↔ ts.toList.map shown = us.toList.map shown := by
  refine ⟨decode_json, fun k => ?_, fun ts us => ⟨shown_of_json_eq, json_eq_of_shown⟩⟩
  simpa using k.tag_chars

end RookLang.Table
