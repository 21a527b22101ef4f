import Mathlib.Algebra.Ring.Int.Defs
import Mathlib.Algebra.Ring.Nat

/-!
# Mask tables

`ipf_inet_mask_add`, `ipf_inet_mask_del` and their IPv6 counterparts (`fil.c`). A table counts, for
every mask length, the rules that use it, and keeps the masks in use in an array that lookups
scan from the longest mask on. Only the first and the last rule of a length touch the array.

Arrays are functions of the index; the loops below only touch the indices the source's loops do.
-/

namespace Ipfilter.Masks

abbrev Word := BitVec 32

/-- The four bytes of a word in the opposite order. -/
def bswap (x : Word) : Word :=
  x.extractLsb' 0 8 ++ x.extractLsb' 8 8 ++ x.extractLsb' 16 8 ++ x.extractLsb' 24 8

/-- What the C code takes from its machine: the byte order, and the word that
`0xffffffff << 32` leaves behind. The language does not define that shift: a machine that takes
the shift count modulo 32 gives `0xffffffff`, others give 0. -/
structure Machine where
  little : Bool
  wide : Word

namespace Machine

variable (M : Machine)

def ntohl (x : Word) : Word := if M.little then bswap x else x

def htonl (x : Word) : Word := if M.little then bswap x else x

/-- `0xffffffff << n` -/
def shl (n : ℕ) : Word := if n < 32 then 0xffffffff <<< n else M.wide

end Machine

/-! ## The loops over the array -/

section Loops

variable {W : Type*}

/-- `for (j = ..; j > i; j--) active[j] = active[j - 1]` -/
def openGap (i : ℕ) : ℕ → (ℕ → W) → ℕ → W
  | 0, a => a
  | j + 1, a => if i < j + 1 then openGap i j (Function.update a (j + 1) (a j)) else a

/-- `for (; ..; j++) active[j - 1] = active[j]`, `k` more times or up to a `stop`. -/
def closeGap (stop : W → Bool) : ℕ → ℕ → (ℕ → W) → ℕ → W
  | 0, _, a => a
  | k + 1, j, a =>
    let a' := Function.update a (j - 1) (a j)
    if stop (a' (j - 1)) then a' else closeGap stop k (j + 1) a'

/-- Put `m` at the first of `n` places that is `before` it. -/
def place (n : ℕ) (before : W → Bool) (m : W) (a : ℕ → W) : ℕ → W :=
  match (List.range n).find? fun i => before (a i) with
  | none => a
  | some i => Function.update (openGap i (n - 1) a) i m

/-- Take out the first of `n` places that is `here`. -/
def remove (n : ℕ) ( here stop : W → Bool) (a : ℕ → W) : ℕ → W :=
  match (List.range n).find? fun i => here (a i) with
  | none => a
  | some i => closeGap stop (n - (i + 1)) (i + 1) a

end Loops

/-! ## IPv4 -/

/-- `ipf_v4_masktab_t` -/
structure V4Masktab where
  active : ℕ → Word
  masks : ℕ → ℤ
  max : ℤ

/-- A table as it is allocated: all zero. -/
def V4Masktab.zero : V4Masktab := ⟨fun _ => 0, fun _ => 0, 0⟩

/-- `ipf_inet_mask_add` -/
def ipfInetMaskAdd (M : Machine) (bits : ℕ) (t : V4Masktab) : V4Masktab :=
  let masks := Function.update t.masks bits (t.masks bits + 1)
  if masks bits > 1 then { t with masks := masks }
  else
    let mask := if bits = 0 then 0 else M.shl (32 - bits)
    { active := place 33 (fun w => decide (M.ntohl w < mask)) (M.htonl mask) t.active
      masks := masks
      max := t.max + 1 }

/-- `ipf_inet_mask_del` -/
def ipfInetMaskDel (M : Machine) (bits : ℕ) (t : V4Masktab) : V4Masktab :=
  let masks := Function.update t.masks bits (t.masks bits - 1)
  if masks bits > 0 then { t with masks := masks }
  else
    -- unlike the function above, with no case for `bits == 0`
    let mask := M.htonl (M.shl (32 - bits))
    { active := remove 33 (fun w => decide (w = mask)) (fun _ => false) t.active
      masks := masks
      max := t.max - 1 }

/-! ## IPv6 -/

/-- `i6addr_t`, as its four words in network order. -/
structure I6addr where
  i60 : Word
  i61 : Word
  i62 : Word
  i63 : Word
deriving DecidableEq

def I6addr.zero : I6addr := ⟨0, 0, 0, 0⟩

/-- `IP6_EQ` -/
def ip6Eq (a b : I6addr) : Bool :=
  a.i63 = b.i63 ∧ a.i62 = b.i62 ∧ a.i61 = b.i61 ∧ a.i60 = b.i60

/-- `IP6_LT`. Its `HI60` to `HI63` already turn a word to host order, and the macro turns them
once more. -/
def ip6Lt (M : Machine) (a b : I6addr) : Bool :=
  M.ntohl (M.ntohl a.i60) < M.ntohl (M.ntohl b.i60) ∨
    (M.ntohl a.i60 = M.ntohl b.i60 ∧
      (M.ntohl (M.ntohl a.i61) < M.ntohl (M.ntohl b.i61) ∨
        (M.ntohl a.i61 = M.ntohl b.i61 ∧
          (M.ntohl (M.ntohl a.i62) < M.ntohl (M.ntohl b.i62) ∨
            (M.ntohl a.i62 = M.ntohl b.i62 ∧
              M.ntohl (M.ntohl a.i63) < M.ntohl (M.ntohl b.i63))))))

/-- `ipf_v6_masktab_t` -/
structure V6Masktab where
  active : ℕ → I6addr
  masks : ℕ → ℤ
  max : ℤ

def V6Masktab.zero : V6Masktab := ⟨fun _ => I6addr.zero, fun _ => 0, 0⟩

/-- `ipf_inet6_mask_add` -/
def ipfInet6MaskAdd (M : Machine) (bits : ℕ) (mask : I6addr) (t : V6Masktab) : V6Masktab :=
  let masks := Function.update t.masks bits (t.masks bits + 1)
  if masks bits > 1 then { t with masks := masks }
  else
    let mask := if bits = 0 then I6addr.zero else mask
    { active := place 129 (fun w => ip6Lt M w mask) mask t.active
      masks := masks
      max := t.max + 1 }

/-- `ipf_inet6_mask_del` -/
def ipfInet6MaskDel (bits : ℕ) (mask : I6addr) (t : V6Masktab) : V6Masktab :=
  let masks := Function.update t.masks bits (t.masks bits - 1)
  if masks bits > 0 then { t with masks := masks }
  else
    let mask := if bits = 0 then I6addr.zero else mask
    { active := remove 129 (fun w => ip6Eq w mask) (fun w => ip6Eq w I6addr.zero) t.active
      masks := masks
      max := t.max - 1 }

/-! ## Runs -/

/-- A call, with the table of each family it is for. -/
inductive Op
  | add4 (bits : ℕ)
  | del4 (bits : ℕ)
  | add6 (bits : ℕ) (mask : I6addr)
  | del6 (bits : ℕ) (mask : I6addr)

/-- One table of each family. -/
structure Tabs where
  v4 : V4Masktab
  v6 : V6Masktab

def Tabs.zero : Tabs := ⟨V4Masktab.zero, V6Masktab.zero⟩

def step (M : Machine) (t : Tabs) : Op → Tabs
  | .add4 bits => { t with v4 := ipfInetMaskAdd M bits t.v4 }
  | .del4 bits => { t with v4 := ipfInetMaskDel M bits t.v4 }
  | .add6 bits mask => { t with v6 := ipfInet6MaskAdd M bits mask t.v6 }
  | .del6 bits mask => { t with v6 := ipfInet6MaskDel bits mask t.v6 }

/-- The tables after the calls `ops` on empty ones. -/
def run (M : Machine) (ops : List Op) : Tabs := ops.foldl (step M) Tabs.zero

end Ipfilter.Masks
