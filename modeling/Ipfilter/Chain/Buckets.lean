import Ipfilter.Chain.Mem
import Mathlib.Algebra.BigOperators.Intervals
import Mathlib.Algebra.BigOperators.Ring.Finset
import Mathlib.Tactic.Ring

/-!
# Hash tables that count their chains

A table of chains with a counter for the length of each chain and one for the chains in use.

* `Counted`: the chains are `H`, and the counters count them.
* `Counted.push`, `Counted.pull`: a node joins the front of a chain, or leaves its chain.
* `Counted.shift`: a node goes from one chain to another while the chains in use are not counted again.
-/

namespace Chain

open List
open Function (update_of_ne)

variable {N : Type}

/-- The number of the first `n` buckets that are not empty. -/
def used (n : ℕ) (H : ℕ → List N) : ℤ := ∑ h ∈ Finset.range n, if (H h).isEmpty then 0 else 1

theorem used_update {n h : ℕ} (hh : h < n) (H : ℕ → List N) (l : List N) : used n (Function.update H h l) =
      used n H - (if H h = [] then 0 else 1) + if l = [] then 0 else 1 := by
  have hmem : h ∈ Finset.range n := Finset.mem_range.2 hh
  have hcomp : (fun x => if (Function.update H h l x).isEmpty then (0 : ℤ) else 1) =
      Function.update (fun x => if (H x).isEmpty then (0 : ℤ) else 1) h (if l.isEmpty then 0 else 1) := by
    funext x
    by_cases hx : x = h
    · rw [hx, Function.update_self, Function.update_self]
    · rw [update_of_ne hx, update_of_ne hx]
  unfold used
  rw [hcomp, Finset.sum_update_of_mem hmem, ← Finset.sum_erase_add _ _ hmem, Finset.erase_eq]
  simp only [List.isEmpty_iff]
  ring

theorem used_empty (n : ℕ) : used n (fun _ => ([] : List N)) = 0 := by simp [used]

/-- The number of buckets in use is a number of buckets. -/
theorem used_eq_card (n : ℕ) (H : ℕ → List N) :
    used n H = ((Finset.range n).filter fun b => (H b).isEmpty = false).card := by
  rw [used, Finset.card_filter, Nat.cast_sum]
  refine Finset.sum_congr rfl fun b _ => ?_
  cases H b <;> simp

/-! ## Tables -/

/-- The chains of a table and their counters. -/
@[ext] structure Buckets (N : Type) where
  table : Mem ℕ N
  bucketlen : ℕ → ℤ
  inuse : ℤ

/-- No chain has a node. -/
def Buckets.empty : Buckets N := ⟨Mem.empty, fun _ => 0, 0⟩

/-- **The chains of a table of `n` buckets are `H`, and its counters count them.** -/
structure Counted (t : Buckets N) (n : ℕ) (H : ℕ → List N) : Prop where
  rep : Rep t.table H
  lt : ∀ b, H b ≠ [] → b < n
  len : ∀ b, t.bucketlen b = (H b).length
  inuse : t.inuse = used n H

variable {t t' : Buckets N} {n b b' : ℕ} {H : ℕ → List N} {e : N}

theorem counted_empty (n : ℕ) : Counted (Buckets.empty : Buckets N) n fun _ => [] where
  rep _ := ⟨trivial, rfl⟩
  lt _ h := absurd rfl h
  len _ := rfl
  inuse := (used_empty n).symm

/-- Any edit that turns the chain at `b` into `l` and says so in the counters. -/
theorem Counted.update (h : Counted t n H) (hb : b < n) {l : List N} (hrep : Rep t'.table (Function.update H b l))
    (hlen : t'.bucketlen = Function.update t.bucketlen b l.length)
    (hin : t'.inuse = t.inuse - (if H b = [] then 0 else 1) + if l = [] then 0 else 1) :
    Counted t' n (Function.update H b l) where
  rep := hrep
  lt x hx := by
    by_cases hxb : x = b
    · rw [hxb]
      exact hb
    · rw [update_of_ne hxb] at hx
      exact h.lt x hx
  len x := by
    rw [hlen]
    by_cases hxb : x = b
    · rw [hxb, Function.update_self, Function.update_self]
    · rw [update_of_ne hxb, update_of_ne hxb, h.len x]
  inuse := by rw [hin, used_update hb, h.inuse]

/-- A chain is empty exactly when its head points nowhere. -/
theorem Counted.head (h : Counted t n H) (b : ℕ) : t.table.head b = none ↔ H b = [] := by
  have hhead : t.table.head b = (H b).head? := by
    rw [← head_get]
    exact (h.rep b).head?
  rw [hhead, List.head?_eq_none_iff]

variable [DecidableEq N] {k : Link ℕ N}

/-- **A node joins the front of a chain.** -/
theorem Counted.push (h : Counted t n H) (hb : b < n) (he : ∀ b, e ∉ H b) (htab : t'.table = t.table.link e (.head b))
    (hlen : t'.bucketlen = Function.update t.bucketlen b (t.bucketlen b + 1))
    (hin : t'.inuse = if t.table.head b = none then t.inuse + 1 else t.inuse) :
    Counted t' n (Function.update H b (e :: H b)) := by
  apply h.update hb
  · rw [htab]
    exact h.rep.push he b
  · rw [hlen, h.len b]
    simp
  · simp only [hin, h.head b]
    by_cases hH : H b = []
    · simp [hH]
    · simp [hH]

/-- The chains after `e` left its own. -/
theorem Counted.removed (h : Counted t n H) (he : e ∈ H b) (hk : t.table.pnext e = some k)
    {m : Mem ℕ N} (hm : Removed t.table m e k) : Rep m (Function.update H b ((H b).filter (· ≠ e))) := by
  obtain ⟨l₁, l₂, hl⟩ := append_of_mem he
  have hpl := (hl ▸ (h.rep b).1 : Path _ _ (l₁ ++ e :: l₂)).pnext_mem
  rw [hk, Option.some.injEq] at hpl
  have hrep := h.rep.remove hl hpl hm
  have hfilter := congrFun (h.rep.update_eq_filter hl) b
  rw [Function.update_self] at hfilter
  rwa [hfilter] at hrep

/-- A chain is one shorter without one of its nodes. -/
theorem Counted.length_filter (h : Counted t n H) (he : e ∈ H b) :
    (((H b).filter (· ≠ e)).length : ℤ) = t.bucketlen b - 1 := by
  obtain ⟨l₁, l₂, hl⟩ := append_of_mem he
  have hfilter := congrFun (h.rep.update_eq_filter hl) b
  rw [Function.update_self] at hfilter
  rw [h.len b, ← hfilter, hl]
  simp only [length_append, length_cons]
  omega

/-- **A node leaves its chain.** -/
theorem Counted.pull (h : Counted t n H) (he : e ∈ H b) (hk : t.table.pnext e = some k)
    (htab : Removed t.table t'.table e k) (hlen : t'.bucketlen = Function.update t.bucketlen b (t.bucketlen b - 1))
    (hin : t'.inuse = if t.bucketlen b - 1 = 0 then t.inuse - 1 else t.inuse) :
    Counted t' n (Function.update H b ((H b).filter (· ≠ e))) := by
  have hne : H b ≠ [] := ne_nil_of_mem he
  have hl := h.length_filter he
  apply h.update (h.lt b hne)
  · exact h.removed he hk htab
  · rw [hlen, hl]
  · rw [hin, if_neg hne, ← hl]
    by_cases hf : (H b).filter (· ≠ e) = []
    · rw [hf]
      simp
    · have hpos : ((H b).filter (· ≠ e)).length ≠ 0 := fun h0 => hf (eq_nil_of_length_eq_zero h0)
      rw [if_neg hf, if_neg (by exact_mod_cast hpos)]
      omega

/-- What is on a chain after a node left its own. -/
theorem Counted.mem_pulled (h : Counted t n H) (he : e ∈ H b) (x : ℕ) (y : N) :
    y ∈ Function.update H b ((H b).filter (· ≠ e)) x ↔ y ≠ e ∧ y ∈ H x := by
  by_cases hx : x = b
  · simp [hx, and_comm]
  · rw [update_of_ne hx]
    refine ⟨fun hy => ⟨fun hye => ?_, hy⟩, fun hy => hy.2⟩
    rw [hye] at hy
    exact h.rep.disjoint hx hy he

/-- **A node goes from its chain to the front of another.** The counter of the chains in use is left as it is,
which is right when the node was alone on its chain exactly if the other chain is empty. -/
theorem Counted.shift (h : Counted t n H) (he : e ∈ H b) (hb' : b' < n)
    (hk : t.table.pnext e = some k) {m : Mem ℕ N} (hm : Removed t.table m e k) (htab : t'.table = m.link e (.head b'))
    (hlen : t'.bucketlen = Function.update (Function.update t.bucketlen b (t.bucketlen b - 1)) b'
      (Function.update t.bucketlen b (t.bucketlen b - 1) b' + 1)) (hin : t'.inuse = t.inuse)
    (hcount : b' ≠ b → (t.bucketlen b = 1 ↔ t.bucketlen b' = 0)) :
    Counted t' n (Function.update (Function.update H b ((H b).filter (· ≠ e))) b'
      (e :: Function.update H b ((H b).filter (· ≠ e)) b')) := by
  let s : Buckets N := ⟨m, Function.update t.bucketlen b (t.bucketlen b - 1),
    if t.bucketlen b - 1 = 0 then t.inuse - 1 else t.inuse⟩
  have hs : Counted s n _ := h.pull he hk hm rfl rfl
  have hempty : s.table.head b' = none ↔ t.bucketlen b = 1 := by
    rw [hs.head b', ← length_eq_zero_iff, ← Int.natCast_inj, ← hs.len b']
    by_cases hbb : b' = b
    · simp only [s, hbb, Function.update_self]
      omega
    · simp only [s, update_of_ne hbb]
      exact (hcount hbb).symm
  refine hs.push hb' ?_ htab hlen ?_
  · intro x hx
    exact ((h.mem_pulled he x e).1 hx).1 rfl
  · -- the two corrections cancel
    rw [hin]
    by_cases h1 : t.bucketlen b = 1
    · rw [if_pos (hempty.2 h1)]
      simp [s, h1]
    · rw [if_neg (fun hh => h1 (hempty.1 hh))]
      simp only [s]
      rw [if_neg (by omega)]

end Chain
