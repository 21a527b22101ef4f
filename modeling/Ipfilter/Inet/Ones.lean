import Mathlib.Algebra.Ring.Int.Defs
import Mathlib.Algebra.Ring.Nat

/-!
# One's-complement sums

The arithmetic of the Internet checksum: 16-bit words are added with the carry added back in, which is
addition modulo `2 ^ 16 - 1` with two zeros.

* `fold`: the upper half of a word is added to the lower half.
* `ocAdd`, `ocSum`, `Valid`: the sum of a list of words, and what a receiver asks of it.
* `valid_iff`: a list is valid iff its plain sum is a multiple of `2 ^ 16 - 1` and not 0.
* `fold_fold`: two folds of a sum are its one's-complement value.
* `replaced_iff`, `kept_iff`, `restored_iff`, `unrestored_iff`: a sum that was adjusted for another word.
* `across_iff`: one that was adjusted for a word, but has its bytes in two words.
-/

namespace Inet

open BitVec

/-- The upper half is added to the lower half. -/
def fold (x : BitVec 32) : BitVec 32 := (x &&& 0xffff#32) + (x >>> 16)

/-- Addition with the carry added back in. -/
def ocAdd (a b : BitVec 16) : BitVec 16 :=
  (fold (a.setWidth 32 + b.setWidth 32)).setWidth 16

/-- The one's-complement sum of a list of words. -/
def ocSum : List (BitVec 16) → BitVec 16
  | [] => 0#16
  | w :: ws => ocAdd w (ocSum ws)

/-- **A checksum is right** when the sum of all words, its own among them, is all ones. -/
def Valid (ws : List (BitVec 16)) : Prop := ocSum ws = 0xffff#16

instance (ws : List (BitVec 16)) : Decidable (Valid ws) := inferInstanceAs (Decidable (_ = _))

/-- The plain sum. -/
def total (ws : List (BitVec 16)) : ℕ := (ws.map BitVec.toNat).sum

variable {x : BitVec 32} {a b : BitVec 16} {ws ws' : List (BitVec 16)}

@[simp] theorem total_nil : total [] = 0 := rfl

@[simp] theorem total_cons : total (a :: ws) = a.toNat + total ws := by simp [total]

@[simp] theorem total_append : total (ws ++ ws') = total ws + total ws' := by simp [total]

theorem fold_toNat : (fold x).toNat = x.toNat % 65536 + x.toNat / 65536 := by
  have hand : (x &&& 0xffff#32).toNat = x.toNat % 65536 := by
    rw [toNat_and]
    exact Nat.and_two_pow_sub_one_eq_mod _ 16
  have hshift : (x >>> 16).toNat = x.toNat / 65536 := by
    rw [toNat_ushiftRight, Nat.shiftRight_eq_div_pow]
  have hx := x.isLt
  unfold fold
  rw [toNat_add, hand, hshift]
  omega

theorem fold_of_lt (hx : x.toNat < 65536) : fold x = x := by
  apply eq_of_toNat_eq
  rw [fold_toNat]
  omega

/-- **Two folds.** A sum is brought below `2 ^ 16` without changing its value. -/
theorem fold_fold (x : BitVec 32) : (fold (fold x)).toNat ≤ 65535 ∧ (fold (fold x)).toNat % 65535 = x.toNat % 65535 ∧
      ((fold (fold x)).toNat = 0 ↔ x.toNat = 0) := by
  have hx := x.isLt
  rw [fold_toNat, fold_toNat]
  omega

theorem ocAdd_toNat : (ocAdd a b).toNat = (a.toNat + b.toNat) % 65536 + (a.toNat + b.toNat) / 65536 := by
  have ha := a.isLt
  have hb := b.isLt
  unfold ocAdd
  rw [toNat_setWidth, fold_toNat, toNat_add, toNat_setWidth, toNat_setWidth]
  omega

/-- The one's-complement sum is the plain sum, modulo `2 ^ 16 - 1`; it is the zero without any bit set only
if all words are. -/
theorem ocSum_toNat (ws : List (BitVec 16)) :
    (ocSum ws).toNat % 65535 = total ws % 65535 ∧ ((ocSum ws).toNat = 0 ↔ total ws = 0) := by
  induction ws with
  | nil => exact ⟨rfl, Iff.rfl⟩
  | cons w ws ih =>
    have hw := w.isLt
    have hs := (ocSum ws).isLt
    rw [ocSum, ocAdd_toNat, total_cons]
    omega

theorem valid_iff : Valid ws ↔ total ws % 65535 = 0 ∧ total ws ≠ 0 := by
  obtain ⟨hmod, hzero⟩ := ocSum_toNat ws
  have hlt := (ocSum ws).isLt
  have hval : Valid ws ↔ (ocSum ws).toNat = 65535 := by
    unfold Valid
    rw [← toNat_inj]
    exact Iff.rfl
  rw [hval]
  omega

/-! ## A word is replaced -/

variable {S S' I J n r : ℕ}

/-- What is taken from one word is added with another. -/
theorem replaced_mod (hs : (S' + n) % 65535 = S % 65535) (hn : (n + I) % 65535 = J % 65535) :
    (S' + (J + r)) % 65535 = (S + (I + r)) % 65535 := by
  omega

/-- `I` becomes `J`, and the sum is adjusted. -/
theorem replaced_iff (hs : (S' + n) % 65535 = S % 65535) (hn : (n + I) % 65535 = J % 65535) (hzero : n = 0 ↔ I = J)
    (hlt : n ≠ 0 → S' < 65535) (hI : I ≠ 0) (hv : (S + (I + r)) % 65535 = 0) :
    (S' + (J + r)) % 65535 = 0 ∧ S' + (J + r) ≠ 0 ↔ ¬(r = 0 ∧ I ≠ J ∧ J = 0) := by
  have hmod : (S' + (J + r)) % 65535 = 0 := (replaced_mod hs hn).trans hv
  constructor
  · rintro ⟨-, hne⟩ ⟨hr, hIJ, hJ⟩
    have hS := hlt fun h => hIJ (hzero.1 h)
    omega
  · intro hnot
    refine ⟨hmod, fun h => hnot ?_⟩
    have hJ : J = 0 := by omega
    exact ⟨by omega, fun h => hI (h.trans hJ), hJ⟩

/-- The sum is adjusted for `J`, but the word stays 0. -/
theorem kept_iff (hs : (S' + n) % 65535 = S % 65535) (hn : n % 65535 = J % 65535) (hzero : n = 0 ↔ 0 = J)
    (hsame : n = 0 → S' = S) (hlt : n ≠ 0 → S' < 65535) (hJ : J ≤ 65535) (hv : (S + r) % 65535 = 0 ∧ S + r ≠ 0) :
    (S' + r) % 65535 = 0 ∧ S' + r ≠ 0 ↔ (J = 0 ∨ J = 65535) ∧ ¬(r = 0 ∧ 0 ≠ J) := by
  by_cases hJ0 : 0 = J
  · rw [hsame (hzero.2 hJ0)]
    exact iff_of_true hv ⟨.inl hJ0.symm, fun h => h.2 hJ0⟩
  have hn0 : n ≠ 0 := fun h => hJ0 (hzero.1 h)
  have hS := hlt hn0
  by_cases hJ1 : J = 65535
  · have hmod : (S' + r) % 65535 = 0 := by omega
    constructor
    · rintro ⟨-, hne⟩
      refine ⟨.inr hJ1, fun h => ?_⟩
      omega
    · rintro ⟨-, hnot⟩
      exact ⟨hmod, fun h => hnot ⟨by omega, hJ0⟩⟩
  · apply iff_of_false
    · rintro ⟨hmod, -⟩
      omega
    · rintro ⟨hor, -⟩
      omega

/-- The word goes back from `J` to `I`. -/
theorem restored_iff (hs : S' % 65535 = (S + n) % 65535) (hn : (n + I) % 65535 = J % 65535) (hI : I ≠ 0)
    (hv : (S + (J + r)) % 65535 = 0) : (S' + (I + r)) % 65535 = 0 ∧ S' + (I + r) ≠ 0 := by
  omega

/-- The sum is adjusted back, but the word stays `J`. -/
theorem unrestored_iff (hs : S' % 65535 = (S + n) % 65535) (hn : n % 65535 = J % 65535) (hzero : n = 0 ↔ 0 = J)
    (hsame : n = 0 → S' = S) (hJ : J ≤ 65535) (hv : (S + (J + r)) % 65535 = 0 ∧ S + (J + r) ≠ 0) :
    (S' + (J + r)) % 65535 = 0 ∧ S' + (J + r) ≠ 0 ↔ J = 0 ∨ J = 65535 := by
  by_cases hJ0 : 0 = J
  · rw [hsame (hzero.2 hJ0)]
    exact iff_of_true hv (.inl hJ0.symm)
  have htwice : (S' + (J + r)) % 65535 = J % 65535 := by omega
  constructor
  · rintro ⟨hmod, -⟩
    omega
  · intro hor
    omega

variable {hi lo hi' lo' D : ℕ}

/-- A value that is less by `D` and has its bytes in two words: the sum is less by `256 * D`. -/
theorem across_mod (hs : (S' + n) % 65535 = S % 65535) (hn : (n + (hi * 256 + lo)) % 65535 = (hi' * 256 + lo') % 65535)
    (hD : hi' * 256 + lo' + D = hi * 256 + lo) :
    (S' + (hi' + lo' * 256 + r) + 255 * D) % 65535 = (S + (hi + lo * 256 + r)) % 65535 := by
  have hnD : (n + D) % 65535 = 0 := by omega
  have hS : S' % 65535 = (S + D) % 65535 := by omega
  have hswap : hi' + lo' * 256 + 256 * D + 65535 * hi' = hi + lo * 256 + 65535 * hi := by omega
  omega

/-- The sum is adjusted for a word, but the bytes are in two. -/
theorem across_iff (hs : (S' + n) % 65535 = S % 65535) (hn : (n + (hi * 256 + lo)) % 65535 = (hi' * 256 + lo') % 65535)
    (hD : hi' * 256 + lo' + D = hi * 256 + lo) (hv : (S + (hi + lo * 256 + r)) % 65535 = 0) :
    (S' + (hi' + lo' * 256 + r)) % 65535 = 0 ↔ 257 ∣ D := by
  have hmod := (across_mod hs hn hD).trans hv
  omega

end Inet
