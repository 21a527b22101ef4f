import Mathlib.Data.List.Basic

/-!
# Taking turns

A list of rows is gone through item by item, and again from its start.

* `Rounds`: what was taken, in that order.
* `place`: where the item of a row is in the whole list; `place_lt` and `getElem?_place` — it is there.
* `Rounds.snoc`, `succ_mod` and `succ_mod_last`: the next item is taken, and the place after it.
-/

namespace Ipfilter.Cyclic

open List

variable {α : Type*} {S u : List α} {rows : List (List α)} {x : α} {i k n m : ℕ}

/-- **In turn:** `u` goes round `S`. -/
def Rounds (S u : List α) : Prop := ∀ n < u.length, u[n]? = S[n % S.length]?

theorem rounds_nil : Rounds S [] := fun _ hn => by cases hn

theorem Rounds.snoc (h : Rounds S u) (hx : S[u.length % S.length]? = some x) : Rounds S (u ++ [x]) := by
  intro n hn
  rw [length_append, length_singleton] at hn
  by_cases hlt : n < u.length
  · rw [getElem?_append_left hlt]
    exact h n hlt
  · have heq : n = u.length := by omega
    rw [heq, getElem?_concat_length, hx]

/-- The place of item `k` of row `i`. -/
def place (rows : List (List α)) (i k : ℕ) : ℕ := (rows.take i).flatten.length + k

theorem place_zero (rows : List (List α)) : place rows 0 0 = 0 := by simp [place]

/-- A row ends where the next one starts. -/
theorem place_succ (hi : i < rows.length) : place rows (i + 1) 0 = place rows i rows[i].length := by
  unfold place
  rw [take_add_one, getElem?_eq_getElem hi, Option.toList_some, flatten_append, flatten_singleton,
    length_append, Nat.add_zero]

theorem place_length (rows : List (List α)) : place rows rows.length 0 = rows.flatten.length := by simp [place]

theorem flatten_eq (hi : i < rows.length) :
    rows.flatten = (rows.take i).flatten ++ (rows[i] ++ (rows.drop (i + 1)).flatten) := by
  rw [← flatten_cons, getElem_cons_drop, ← flatten_append, take_append_drop]

theorem place_lt (hi : i < rows.length) (hk : k < rows[i].length) : place rows i k < rows.flatten.length := by
  rw [flatten_eq hi]
  simp only [place, length_append]
  omega

theorem getElem?_place (hi : i < rows.length) (hk : k < rows[i].length) : rows.flatten[place rows i k]? = rows[i][k]? := by
  rw [flatten_eq hi]
  unfold place
  rw [getElem?_append_right (by omega), Nat.add_sub_cancel_left, getElem?_append_left hk]

theorem succ_mod (hk : k = n % m) (hlt : k + 1 < m) : k + 1 = (n + 1) % m := by
  rw [← Nat.mod_add_mod, ← hk, Nat.mod_eq_of_lt hlt]

theorem succ_mod_last (hk : k = n % m) (hlast : k + 1 = m) : 0 = (n + 1) % m := by
  rw [← Nat.mod_add_mod, ← hk, hlast, Nat.mod_self]

end Ipfilter.Cyclic
