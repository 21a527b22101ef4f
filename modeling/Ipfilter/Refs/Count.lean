import Mathlib.Data.Set.Card

/-!
# Reference counts

Objects that are shared are counted: `ref b` should be the number of places that hold a pointer to `b`, and `b` should
exist as long as there is one.

* `holders`: how many of a set of objects point to `b`, and what a new one, or one less, or another pointer, changes;
* `Counted`: the counts are right; `Counted.take`, `Counted.make` and `Counted.drop` are the three things that the
  users of a count do.
-/

namespace Ipfilter.Refs

variable {α β : Type*}

/-! ## Those who hold a pointer -/

/-- How many objects of `S` point to `b`. -/
noncomputable def holders (S : Set α) (p : α → Option β) (b : β) : ℕ := {a | a ∈ S ∧ p a = some b}.ncard

variable {S : Set α} {p q : α → Option β} {a : α} {b : β}

theorem holders_congr (h : ∀ x ∈ S, q x = p x) : holders S q = holders S p := by
  funext b
  unfold holders
  congr 1
  ext x
  simp only [Set.mem_ofPred_eq]
  exact and_congr_right fun hx => by rw [h x hx]

theorem holders_empty : holders (∅ : Set α) p b = 0 := by simp [holders]

/-- An object more. -/
theorem holders_insert [DecidableEq β] (hfin : S.Finite) (ha : a ∉ S) (h : ∀ x ∈ S, q x = p x) :
    holders (insert a S) q b = holders S p b + if q a = some b then 1 else 0 := by
  rw [← holders_congr h]
  have hsub : {x | x ∈ S ∧ q x = some b}.Finite := hfin.subset fun x hx => hx.1
  by_cases hb : q a = some b
  · rw [if_pos hb, holders, holders, ← Set.ncard_insert_of_notMem (fun hx => ha hx.1) hsub]
    congr 1
    ext x
    simp only [Set.mem_ofPred_eq, Set.mem_insert_iff]
    grind
  · rw [if_neg hb, holders, holders, add_zero]
    congr 1
    ext x
    simp only [Set.mem_ofPred_eq, Set.mem_insert_iff]
    grind

/-- An object less. -/
theorem holders_erase [DecidableEq β] (hfin : S.Finite) (ha : a ∈ S) (h : ∀ x ∈ S, x ≠ a → q x = p x) :
    holders (S \ {a}) q b + (if p a = some b then 1 else 0) = holders S p b := by
  have hins : insert a (S \ {a}) = S := Set.insert_sdiff_self_of_mem ha
  have hkeep : ∀ x ∈ S \ {a}, p x = q x := fun x hx => (h x hx.1 fun hxa => hx.2 hxa).symm
  have hout : a ∉ S \ {a} := fun hx => hx.2 rfl
  rw [← holders_insert (hfin.subset Set.sdiff_subset) hout hkeep, hins]

/-- The pointer of one of the objects changes. -/
theorem holders_set [DecidableEq β] (hfin : S.Finite) (ha : a ∈ S) (h : ∀ x ∈ S, x ≠ a → q x = p x) :
    holders S q b + (if p a = some b then 1 else 0) = holders S p b + if q a = some b then 1 else 0 := by
  have hbefore := holders_erase (b := b) hfin ha h
  have hafter := holders_erase (p := q) (b := b) hfin ha (fun _ _ _ => rfl)
  omega

theorem holders_pos (hfin : S.Finite) (ha : a ∈ S) (hb : p a = some b) : 0 < holders S p b :=
  (Set.ncard_pos (hfin.subset fun _ hx => hx.1)).2 ⟨a, ha, hb⟩

/-- The pointer of one object changes. -/
theorem holders_move [DecidableEq α] [DecidableEq β] (hfin : {x | p x ≠ none}.Finite) (a : α) (v : Option β) (b : β) :
    holders Set.univ (Function.update p a v) b + (if p a = some b then 1 else 0) =
      holders Set.univ p b + if v = some b then 1 else 0 := by
  have hsub : {x | x ≠ a ∧ p x = some b}.Finite := hfin.subset fun x hx => by simp [hx.2]
  have hcount : ∀ r : α → Option β, (∀ x, x ≠ a → r x = p x) →
      holders Set.univ r b = {x | x ≠ a ∧ p x = some b}.ncard + if r a = some b then 1 else 0 := by
    intro r hr
    by_cases hb : r a = some b
    · rw [if_pos hb, ← Set.ncard_insert_of_notMem (a := a) (by simp) hsub, holders]
      congr 1
      ext x
      simp only [Set.mem_ofPred_eq, Set.mem_univ, true_and, Set.mem_insert_iff]
      by_cases hx : x = a
      · simp [hx, hb]
      · simp [hx, hr x hx]
    · rw [if_neg hb, holders, add_zero]
      congr 1
      ext x
      simp only [Set.mem_ofPred_eq, Set.mem_univ, true_and]
      by_cases hx : x = a
      · simp [hx, hb]
      · simp [hx, hr x hx]
  rw [hcount _ fun x hx => Function.update_of_ne hx _ _, hcount p fun _ _ => rfl, Function.update_self]
  omega

/-! ## Counts -/

/-- **The counts are right:** every object that is `alive` has as many references as places hold it, and at least one;
no place holds another object. -/
structure Counted (alive : β → Prop) (ref : β → ℤ) (total : β → ℕ) : Prop where
  exact : ∀ b, alive b → ref b = total b
  pos : ∀ b, alive b ↔ 0 < total b

variable {alive alive' : β → Prop} {ref ref' : β → ℤ} {total total' : β → ℕ}

theorem Counted.congr (h : Counted alive ref total) (halive : ∀ x, alive' x ↔ alive x)
    (href : ∀ x, alive x → ref' x = ref x) (htotal : ∀ x, total' x = total x) : Counted alive' ref' total' where
  exact x hx := by rw [href x ((halive x).1 hx), htotal, h.exact x ((halive x).1 hx)]
  pos x := by rw [halive, htotal, h.pos]

variable [DecidableEq β]

/-- **One place more** holds an object that exists. -/
theorem Counted.take (h : Counted alive ref total) (hb : alive b) (halive : ∀ x, alive' x ↔ alive x)
    (href : ∀ x, alive x → ref' x = ref x + if x = b then 1 else 0)
    (htotal : ∀ x, total' x = total x + if x = b then 1 else 0) : Counted alive' ref' total' where
  exact x hx := by
    rw [href x ((halive x).1 hx), htotal, h.exact x ((halive x).1 hx)]
    split <;> simp
  pos x := by
    rw [halive, htotal, h.pos]
    by_cases hx : x = b
    · subst hx
      have := (h.pos x).1 hb
      simp [this]
    · simp [hx]

/-- **A new object**, with the place that holds it. -/
theorem Counted.make (h : Counted alive ref total) (hb : ¬alive b) (halive : ∀ x, alive' x ↔ alive x ∨ x = b)
    (hnew : ref' b = 1) (href : ∀ x, x ≠ b → alive x → ref' x = ref x)
    (htotal : ∀ x, total' x = total x + if x = b then 1 else 0) : Counted alive' ref' total' where
  exact x hx := by
    rw [htotal]
    by_cases hxb : x = b
    · subst hxb
      have hzero : total x = 0 := by
        have := (h.pos x).not.1 hb
        omega
      simp [hnew, hzero]
    · have hax := ((halive x).1 hx).resolve_right hxb
      simp [hxb, href x hxb hax, h.exact x hax]
  pos x := by
    rw [halive, htotal, h.pos]
    by_cases hxb : x = b <;> simp [hxb]

/-- **A place less:** the object goes with the last one. -/
theorem Counted.drop (h : Counted alive ref total) (htotal : ∀ x, total x = total' x + if x = b then 1 else 0)
    (href : ∀ x, alive' x → ref' x = ref x - if x = b then 1 else 0)
    (halive : ∀ x, alive' x ↔ alive x ∧ (x = b → ref b ≠ 1)) : Counted alive' ref' total' where
  exact x hx := by
    rw [href x hx, h.exact x ((halive x).1 hx).1, htotal]
    split <;> simp
  pos x := by
    rw [halive, h.pos, htotal]
    by_cases hxb : x = b
    · subst hxb
      have hx := h.exact x ((h.pos x).2 (by rw [htotal]; simp))
      rw [htotal, if_pos rfl] at hx
      simp only [if_true, hx, true_implies]
      omega
    · simp [hxb]

end Ipfilter.Refs
