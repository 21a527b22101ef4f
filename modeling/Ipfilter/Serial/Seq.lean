import Mathlib.Data.Nat.Notation

/-!
# Serial numbers

Numbers of `w` bits that are compared by the sign of their difference.

* `seqGe_add`, `seqGt_add` — comparisons do not depend on where the numbers start;
* `seqGe_of_neg` — **when a number that is behind another has the other ahead of it:** unless they are half the numbers apart.
-/

namespace Serial

open BitVec

variable {w : ℕ}

/-- `a` is not behind `b`. -/
def SeqGe (a b : BitVec w) : Prop := 0 ≤ (a - b).toInt

/-- `a` is ahead of `b`. -/
def SeqGt (a b : BitVec w) : Prop := 0 < (a - b).toInt

instance (a b : BitVec w) : Decidable (SeqGe a b) := inferInstanceAs (Decidable (0 ≤ (a - b).toInt))

instance (a b : BitVec w) : Decidable (SeqGt a b) := inferInstanceAs (Decidable (0 < (a - b).toInt))

variable {a b c d : BitVec w}

/-- Half the numbers: the difference that is its own negative. -/
def half (w : ℕ) : BitVec w := BitVec.intMin w

/-! ## Translation -/

theorem add_sub_add (a b c : BitVec w) : a + c - (b + c) = a - b := by
  rw [BitVec.sub_eq_add_neg, neg_add, BitVec.sub_eq_add_neg (-b)]
  rw [BitVec.sub_eq_add_neg]
  calc a + c + (-b + -c) = a + -b + (c + -c) := by ac_rfl
    _ = a + -b := by rw [BitVec.add_right_neg, BitVec.add_zero]

theorem add_sub_right_comm (a b c : BitVec w) : a + c - b = a - b + c := by
  rw [BitVec.sub_eq_add_neg, BitVec.sub_eq_add_neg]
  ac_rfl

theorem seqGe_add (c : BitVec w) : SeqGe (a + c) (b + c) ↔ SeqGe a b := by
  unfold SeqGe
  rw [add_sub_add]

theorem seqGt_add (c : BitVec w) : SeqGt (a + c) (b + c) ↔ SeqGt a b := by
  unfold SeqGt
  rw [add_sub_add]

theorem add_eq_add (c : BitVec w) : a + c = b + c ↔ a = b := by
  constructor
  · intro h
    have hsub := congrArg (· - c) h
    simpa only [add_sub_cancel] using hsub
  · intro h
    rw [h]

theorem sub_eq_zero : a - b = 0#w ↔ a = b := by
  constructor
  · intro h
    have hadd := congrArg (· + b) h
    simpa only [BitVec.sub_add_cancel, BitVec.zero_add] using hadd
  · intro h
    rw [h, BitVec.sub_self]

/-! ## Order -/

theorem seqGe_refl (a : BitVec w) : SeqGe a a := by
  have hzero : (a - a).toInt = 0 := by rw [BitVec.sub_self, BitVec.toInt_zero]
  exact Int.le_of_eq hzero.symm

theorem SeqGt.seqGe (h : SeqGt a b) : SeqGe a b := by
  unfold SeqGt at h
  unfold SeqGe
  omega

/-- The later one of two numbers is not behind the first. -/
theorem seqGe_ite (a b : BitVec w) : SeqGe (if SeqGt b a then b else a) a := by
  split
  · rename_i h
    exact h.seqGe
  · exact seqGe_refl a

theorem seqGe_ite' (a b : BitVec w) : SeqGe (if SeqGe b a then b else a) a := by
  split
  · rename_i h
    exact h
  · exact seqGe_refl a

/-- **A number that is behind:** the other one is ahead of it, unless they are half the numbers apart. -/
theorem seqGe_of_neg (h : (a - b).toInt < 0) : SeqGe b a ↔ a - b ≠ half w := by
  have hneg : b - a = -(a - b) := by rw [BitVec.neg_sub, BitVec.sub_eq_add_neg, BitVec.add_comm]
  unfold SeqGe half
  rw [hneg]
  constructor
  · intro hge hhalf
    rw [hhalf, neg_intMin, ← hhalf] at hge
    omega
  · intro hne
    rw [toInt_neg_of_ne_intMin hne]
    omega

end Serial
