import Mathlib.Data.List.Basic

/-!
# Singly linked lists and what walks along them

* `Spells`: forward pointers spell out a list.
* `Spells.at`, `Spells.rest`: what they do at a node.
* `Follows`: a relation of a node to what comes after it holds along a list.
* `Follows.at`: it holds at each node.
-/

namespace Chain

variable {α : Type} {next : α → Option α} {R : α → Option α → Prop} {o : Option α} {x : α} {l l' : List α}

/-- The forward pointers from `o` on spell out the list. -/
def Spells (next : α → Option α) : Option α → List α → Prop
  | o, [] => o = none
  | o, x :: l => o = some x ∧ Spells next (next x) l

/-- Each node of the list is related to the one after it, the last one to none. -/
def Follows (R : α → Option α → Prop) : List α → Prop
  | [] => True
  | x :: l => R x l.head? ∧ Follows R l

theorem Spells.head? (h : Spells next o l) : o = l.head? := by
  cases l with
  | nil => exact h
  | cons x l => exact h.1

/-- From inside a list the pointers spell out its rest. -/
theorem Spells.rest (h : Spells next o (l ++ x :: l')) : Spells next (next x) l' := by
  induction l generalizing o with
  | nil => exact h.2
  | cons y l ih => exact ih h.2

theorem Spells.at (h : Spells next o (l ++ x :: l')) : next x = l'.head? := h.rest.head?

/-- Each node is related to the one after it. -/
theorem Follows.at (h : Follows R (l ++ x :: l')) : R x l'.head? := by
  induction l with
  | nil => exact h.1
  | cons y l ih => exact ih h.2

end Chain
