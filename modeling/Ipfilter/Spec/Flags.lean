import Mathlib.Algebra.Ring.Int.Defs
import Mathlib.Algebra.Ring.Nat

/-!
# Flag words

The bits of `fr_flags`, `fin_flx` and the error numbers that the models use, as `ip_fil.h` has
them.
-/

namespace Ipfilter

abbrev Flags := BitVec 32

/-! ## `fr_flags` -/

def FR_BLOCK : Flags := 0x00001
def FR_PASS : Flags := 0x00002
def FR_AUTH : Flags := 0x00003
def FR_ACCOUNT : Flags := 0x00005
def FR_DECAPSULATE : Flags := 0x00008
def FR_CALL : Flags := 0x00009
def FR_CMDMASK : Flags := 0x0000f
def FR_LOG : Flags := 0x00010
def FR_LOGMASK : Flags := 0x0001f
def FR_CALLNOW : Flags := 0x00020
def FR_QUICK : Flags := 0x00100
def FR_KEEPSTATE : Flags := 0x00400
def FR_FASTROUTE : Flags := 0x00800
def FR_RETICMP : Flags := 0x02000
def FR_FAKEICMP : Flags := 0x03000
def FR_OUTQUE : Flags := 0x04000
def FR_INQUE : Flags := 0x08000
def FR_INOUT : Flags := 0x0c000
def FR_LOGORBLOCK : Flags := 0x40000
def FR_COPIED : Flags := 0x2000000

/-! ## `fin_flx` -/

def FI_STATE : Flags := 0x0100
def FI_BAD : Flags := 0x0400
def FI_OOW : Flags := 0x0800

/-- `x & f` as a condition. -/
def has (x f : Flags) : Bool := x &&& f ≠ 0

theorem has_or (x m m' : Flags) : has (x ||| m) m' = (has x m' || has m m') := by
  unfold has
  rw [BitVec.and_comm, BitVec.and_or_distrib_left, BitVec.and_comm m' x, BitVec.and_comm m' m]
  simp [BitVec.or_eq_zero_iff]

/-- Some of several flags. -/
theorem has_flags (x m m' : Flags) : has x (m ||| m') = (has x m || has x m') := by
  unfold has
  rw [BitVec.and_or_distrib_left]
  simp [BitVec.or_eq_zero_iff]

/-- Clearing a flag shows. -/
theorem and_not_ne {x f : Flags} (h : x &&& f ≠ 0) : x &&& ~~~f ≠ x := by
  intro heq
  apply h
  rw [← heq, BitVec.and_assoc, BitVec.and_comm (~~~f) f, BitVec.and_not_self]
  exact BitVec.and_zero

/-- Flags under a mask decide those under a part of it. -/
theorem and_part {w : ℕ} {f m v t : BitVec w} (h : f &&& m = v) (ht : m &&& t = t) : f &&& t = v &&& t := by
  rw [← h, BitVec.and_assoc, ht]

/-- `FR_ISAUTH` -/
def isAuth (x : Flags) : Bool := x &&& FR_CMDMASK = FR_AUTH

/-- `FR_ISACCOUNT` -/
def isAccount (x : Flags) : Bool := x &&& FR_CMDMASK = FR_ACCOUNT

/-- `FR_ISDECAPS` -/
def isDecaps (x : Flags) : Bool := x &&& FR_CMDMASK = FR_DECAPSULATE

/-- `(x & FR_LOGMASK) == FR_LOG` -/
def isLog (x : Flags) : Bool := x &&& FR_LOGMASK = FR_LOG

/-! ## Error numbers -/

def EPERM : ℕ := 1
def ESRCH : ℕ := 3
def EIO : ℕ := 5
def ENOMEM : ℕ := 12
def EFAULT : ℕ := 14
def EBUSY : ℕ := 16
def EEXIST : ℕ := 17
def EINVAL : ℕ := 22

end Ipfilter
