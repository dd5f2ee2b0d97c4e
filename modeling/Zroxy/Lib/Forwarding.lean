import Mathlib.Data.List.Forall2

/-!
# Forwarding a stream in pieces

A forwarder takes over `input` as it arrives, and `waiting` is what it still has
of it. Now and then it hands on all that is waiting as one piece, in a form that
a relation `R` between a piece and its image allows. `Forwarded` says of the
pieces handed on so far that `output` is made of their images and that they and
`waiting` make up the input: each byte of it has been handed on once or is
waiting, and the order is kept.

A forwarder may hand on what is waiting and not know that it did. When images are
as long as their pieces, that is wrong exactly if something was waiting
(`Forwarded.again_iff`). Where the image is the piece itself, output and pieces
are the same (`forwarded_eq_iff`).
-/

namespace Forwarding

universe u v

section

variable {α : Type u} {β : Type v} {R : List α → List β → Prop}
variable {pieces : List (List α)} {input waiting : List α} {output : List β}

/-- `output` is made of the images of the pieces, and the pieces and what is
waiting make up `input`. -/
def Forwarded (R : List α → List β → Prop) (pieces : List (List α)) (input waiting : List α)
    (output : List β) : Prop :=
  input = pieces.flatten ++ waiting ∧
    ∃ images, List.Forall₂ R pieces images ∧ output = images.flatten

theorem forwarded_nil (R : List α → List β → Prop) (waiting : List α) :
    Forwarded R [] waiting waiting [] :=
  ⟨rfl, [], .nil, rfl⟩

theorem Forwarded.arrive (h : Forwarded R pieces input waiting output) (xs : List α) :
    Forwarded R pieces (input ++ xs) (waiting ++ xs) output := by
  obtain ⟨rfl, houtput⟩ := h
  exact ⟨List.append_assoc .., houtput⟩

theorem Forwarded.pass (h : Forwarded R pieces input waiting output) {image : List β}
    (himage : R waiting image) : Forwarded R (pieces ++ [waiting]) input [] (output ++ image) := by
  obtain ⟨rfl, images, hall, rfl⟩ := h
  refine ⟨by simp, images ++ [image], ?_, by simp⟩
  exact List.rel_append hall (.cons himage .nil)

end

variable {α : Type u} {R : List α → List α → Prop} {pieces : List (List α)}
  {input waiting output : List α}

/-- **Handed on and kept.** What was waiting has been handed on, and `left`, as
long as that, is still thought to be waiting: only if it was nothing is that no
mistake. -/
theorem Forwarded.again_iff (h : Forwarded R pieces input waiting output) {image left : List α}
    (himage : R waiting image) (hleft : left.length = waiting.length) :
    Forwarded R (pieces ++ [waiting]) input left (output ++ image) ↔ waiting = [] := by
  constructor
  · rintro ⟨hagain, -⟩
    have hlength := congrArg List.length (h.1.symm.trans hagain)
    simp only [List.length_append, List.flatten_append, List.flatten_singleton] at hlength
    exact List.length_eq_zero_iff.mp (by omega)
  · rintro rfl
    obtain rfl := List.length_eq_zero_iff.mp hleft
    exact h.pass himage

theorem forwarded_eq_iff :
    Forwarded Eq pieces input waiting output ↔
      output = pieces.flatten ∧ output ++ waiting = input := by
  constructor
  · rintro ⟨rfl, images, hall, rfl⟩
    rw [List.forall₂_eq_eq_eq] at hall
    subst hall
    exact ⟨rfl, rfl⟩
  · rintro ⟨rfl, rfl⟩
    exact ⟨rfl, pieces, List.forall₂_same.mpr fun _ _ => rfl, rfl⟩

end Forwarding
