import RookLang.Diagnostic
import RookLang.Proofs.Lex
import RookLang.Proofs.TwoRuns

/-! Two sources side by side. What holds of the lines of their texts one by one holds of their
tokens. If the parser cannot tell the tokens apart, it holds of what is wrong with the sources. -/
namespace RookLang

theorem forall₂_eq_map_iff {α β : Type} {f : α → β} {xs : List α} {ys : List β} :
    List.Forall₂ (fun a b => b = f a) xs ys ↔ ys = xs.map f := by
  constructor
  · intro h
    induction h with
    | nil => rfl
    | cons h _ ih => rw [h, ih, List.map_cons]
  · rintro rfl
    rw [List.forall₂_map_right_iff, List.forall₂_same]
    exact fun _ _ => rfl

theorem forall₂_replicate {α β : Type} {R : α → β → Prop} {a : α} {b : β} (h : R a b) (n : ℕ) :
    List.Forall₂ R (List.replicate n a) (List.replicate n b) := by
  induction n with
  | zero => exact .nil
  | succ n ih => exact .cons h ih

/-- The lines are the same but for what `R` relates in their tokens. -/
structure CodeLine.Related (R : Token → Token → Prop) (l m : CodeLine) : Prop where
  width : l.width = m.width
  start : l.start = m.start
  lexemes : l.lexemes = m.lexemes
  finish : l.finish = m.finish
  terminated : l.terminated = m.terminated
  token kind lexeme column : R (l.token kind lexeme column) (m.token kind lexeme column)

namespace Layout

variable {R : Token → Token → Prop} {l m : CodeLine} {xs ys : List CodeLine}

theorem forall₂_line (h : l.Related R m) (before : ℕ) :
    List.Forall₂ R (l.tokens before) (m.tokens before) := by
  have hopen : List.Forall₂ R (l.opening before) (m.opening before) := by
    unfold CodeLine.opening
    rw [h.width, h.start]
    split
    · exact .cons (h.token ..) .nil
    · exact forall₂_replicate (h.token ..) _
  have hbody : List.Forall₂ R l.body m.body := by
    rw [CodeLine.body, CodeLine.body, h.lexemes, List.forall₂_map_left_iff,
      List.forall₂_map_right_iff, List.forall₂_same]
    exact fun _ _ => h.token ..
  have hend : List.Forall₂ R l.ending m.ending := by
    unfold CodeLine.ending
    rw [h.terminated, h.finish]
    split
    · exact .cons (h.token ..) .nil
    · exact .nil
  exact List.rel_append (List.rel_append hopen hbody) hend

theorem forall₂_closing (h : l.Related R m) : List.Forall₂ R l.closing m.closing := by
  unfold CodeLine.closing
  rw [h.width, h.finish]
  exact List.rel_append (forall₂_replicate (h.token ..) _) (.cons (h.token ..) .nil)

theorem forall₂_tokensAfter (h : l.Related R m) (hs : List.Forall₂ (CodeLine.Related R) xs ys) :
    List.Forall₂ R (tokensAfter l xs) (tokensAfter m ys) := by
  induction hs generalizing l m with
  | nil => exact forall₂_closing h
  | cons h' _ ih =>
    rw [tokensAfter, tokensAfter, h.width]
    exact List.rel_append (forall₂_line h' _) (ih h')

/-- Lines that are related one by one have tokens that are. -/
theorem forall₂_tokens (hs : List.Forall₂ (CodeLine.Related R) xs ys)
    (hnil : xs = [] → List.Forall₂ R (tokens []) (tokens [])) :
    List.Forall₂ R (tokens xs) (tokens ys) := by
  cases hs with
  | nil => exact hnil rfl
  | cons h hs =>
    rw [tokens_cons, tokens_cons]
    exact List.rel_append (forall₂_line h 0) (forall₂_tokensAfter h hs)

end Layout

section Parse
variable {ts us : TokenStream} {R : Token → Token → Prop}

theorem toList_ne_nil_of_lex {source : List Char} (h : lex source = .ok ts) : ts.toList ≠ [] := by
  obtain ⟨text, lines, -, -, rfl⟩ := Layout.lex_eq_ok_iff.mp h
  refine List.append_ne_nil_of_right_ne_nil _ ?_
  unfold Layout.closing
  split <;> simp [CodeLine.closing]

/-- What holds of the tokens of two sources holds of what is wrong with them as programs. -/
theorem checkSource_agree {a b : List Char} {E : LexError → LexError → Prop}
    {P : Diagnostic → Diagnostic → Prop}
    (h : Agree E (fun ts us => List.Forall₂ R ts.toList us.toList) (lex a) (lex b))
    (hR : ∀ t u, R t u → t.Alike u)
    (hlex : ∀ e f, E e f → P (.lexical e) (.lexical f))
    (hat : ∀ missing t u, R t u → P (.syntactic ⟨missing, t.describe, t.location⟩)
      (.syntactic ⟨missing, u.describe, u.location⟩))
    (hafter : ∀ missing t u, R t u → P (.syntactic ⟨missing, "end of input", t.locationAfter⟩)
      (.syntactic ⟨missing, "end of input", u.locationAfter⟩)) :
    Agree P Eq (checkSource a) (checkSource b) := by
  unfold checkSource
  have hne ts (hts : lex a = .ok ts) := toList_ne_nil_of_lex hts
  generalize lex a = x, lex b = y at h hne
  cases h with
  | error h => exact .error (hlex _ _ h)
  | @ok ts us h =>
    have hp : Agree _ Eq (Parser.parse _ ts.toList) (Parser.parse _ us.toList) :=
      Parser.parse_related (some nestingLimit) hR h
    simp only [parse, parseWithin]
    generalize Parser.parse _ ts.toList = x, Parser.parse _ us.toList = y at hp
    cases hp with
    | ok h => exact .ok h
    | error h =>
      exact .error (h.errors (P := fun e e' => P (.syntactic e) (.syntactic e')) (hne ts rfl) hat
        hafter)

end Parse

end RookLang
