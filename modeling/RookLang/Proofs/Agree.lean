import Mathlib.Data.List.Forall2
import Mathlib.Control.Basic

/-! Answers that agree: both are values or both are errors. -/
namespace RookLang

/-- Both answers are values that `S` relates, or both are errors that `E` relates. -/
inductive Agree {α β ε δ : Type} (E : ε → δ → Prop) (S : α → β → Prop) :
    Except ε α → Except δ β → Prop
  | ok {a b} (h : S a b) : Agree E S (.ok a) (.ok b)
  | error {e f} (h : E e f) : Agree E S (.error e) (.error f)

namespace Agree

variable {α β α' β' ε δ ε' δ' : Type} {E : ε → δ → Prop} {S : α → β → Prop} {x : Except ε α}
  {y : Except δ β}

theorem imp {E' : ε → δ → Prop} {S' : α → β → Prop} (h : Agree E S x y)
    (hE : ∀ e f, E e f → E' e f) (hS : ∀ a b, S a b → S' a b) : Agree E' S' x y := by
  cases h with
  | ok h => exact .ok (hS _ _ h)
  | error h => exact .error (hE _ _ h)

theorem map {S' : α' → β' → Prop} {f : α → α'} {g : β → β'} (h : Agree E S x y)
    (hS : ∀ a b, S a b → S' (f a) (g b)) : Agree E S' (x.map f) (y.map g) := by
  cases h with
  | ok h => exact .ok (hS _ _ h)
  | error h => exact .error h

/-- A traversal of two lists stops in both at the same place, or in neither. -/
theorem mapM {R : α' → β' → Prop} {f : α' → Except ε α} {g : β' → Except δ β} {xs : List α'}
    {ys : List β'} (h : List.Forall₂ R xs ys) (hfg : ∀ a b, R a b → Agree E S (f a) (g b)) :
    Agree E (List.Forall₂ S) (xs.mapM f) (ys.mapM g) := by
  induction h with
  | nil => exact .ok .nil
  | @cons a b xs ys hab _ ih =>
    have hab := hfg a b hab
    rw [List.mapM_cons, List.mapM_cons]
    generalize f a = x at hab
    generalize g b = y at hab
    generalize xs.mapM f = us at ih
    generalize ys.mapM g = vs at ih
    cases hab with
    | error h => exact .error h
    | ok h =>
      cases ih with
      | error h => exact .error h
      | ok hs => exact .ok (.cons h hs)

/-- Two answers agree by functions exactly if one is the image of the other one. -/
theorem eq_iff {g : ε → δ} {f : α → β} :
    Agree (fun e e' => e' = g e) (fun a b => b = f a) x y ↔ y = (x.mapError g).map f := by
  constructor
  · rintro (rfl | rfl) <;> rfl
  · rintro rfl
    cases x with
    | ok => exact .ok rfl
    | error => exact .error rfl

theorem eq_mapError_iff {g : ε → δ} {y : Except δ α} :
    Agree (fun e e' => e' = g e) Eq x y ↔ y = x.mapError g := by
  constructor
  · rintro (rfl | rfl) <;> rfl
  · rintro rfl
    cases x with
    | ok => exact .ok rfl
    | error => exact .error rfl

end Agree

end RookLang
