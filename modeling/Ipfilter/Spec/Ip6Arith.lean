import Ipfilter.Spec.Bimap

/-!
# IPv6 addresses as numbers

`IP6_GT` and `IP6_ADD` of `ip_fil.h`. `IP6_LT` is `ip6Lt` and `IP6_INC` is `ip6Inc`; there is no `IP6_GE` or `IP6_LE`. `Arith`
says what the macros should compute, and `SameOrder` and `Carried` for which addresses they do.
-/

namespace Ipfilter.NatAdd

open Masks

/-- `IP6_GT`, which turns the words twice, as `IP6_LT` does. -/
def ip6Gt (M : Machine) (a b : I6addr) : Bool :=
  M.ntohl (M.ntohl a.i60) > M.ntohl (M.ntohl b.i60) ∨
    (M.ntohl a.i60 = M.ntohl b.i60 ∧
      (M.ntohl (M.ntohl a.i61) > M.ntohl (M.ntohl b.i61) ∨
        (M.ntohl a.i61 = M.ntohl b.i61 ∧
          (M.ntohl (M.ntohl a.i62) > M.ntohl (M.ntohl b.i62) ∨
            (M.ntohl a.i62 = M.ntohl b.i62 ∧
              M.ntohl (M.ntohl a.i63) > M.ntohl (M.ntohl b.i63))))))

/-- `NLADD` -/
def nladd (M : Machine) (n x : Word) : Word := M.htonl (M.ntohl n + x)

/-- `IP6_ADD(a, x, d)`, where `d` is another object than `a`. The first word is that of the sum; the others are those of `d`. -/
def ip6Add (M : Machine) (a : I6addr) (x : Word) (d : I6addr) : I6addr :=
  let i60 := nladd M a.i60 x
  let c0 : Bool := M.ntohl i60 < M.ntohl a.i60
  let i61 := if c0 then nladd M d.i61 1 else d.i61
  let c1 : Bool := c0 ∧ M.ntohl i61 < M.ntohl a.i61
  let i62 := if c1 then nladd M d.i62 1 else d.i62
  let c2 : Bool := c1 ∧ M.ntohl i62 < M.ntohl a.i62
  let i63 := if c2 then nladd M d.i63 1 else d.i63
  ⟨i60, i61, i62, i63⟩

/-! ## What they are for -/

/-- A word as a number. -/
def num (M : Machine) (w : Word) : ℕ := (M.ntohl w).toNat

/-- The address as a number of 128 bits, the first byte the highest. -/
def number (M : Machine) (a : I6addr) : ℕ := num M a.i60 * 2 ^ 96 + num M a.i61 * 2 ^ 64 + num M a.i62 * 2 ^ 32 + num M a.i63

/-- **The macros compute with numbers of 128 bits.** -/
structure Arith (M : Machine) (a b d : I6addr) (n : Word) : Prop where
  gt : ip6Gt M a b = true ↔ number M b < number M a
  lt : ip6Lt M a b = true ↔ number M a < number M b
  inc : number M (ip6Inc M a) = (number M a + 1) % 2 ^ 128
  add : number M (ip6Add M a n d) = (number M a + n.toNat) % 2 ^ 128

/-- The first words that differ, as they are in memory. -/
def firstDiff (a b : I6addr) : Option (Word × Word) :=
  if a.i60 ≠ b.i60 then some (a.i60, b.i60)
  else if a.i61 ≠ b.i61 then some (a.i61, b.i61)
  else if a.i62 ≠ b.i62 then some (a.i62, b.i62)
  else if a.i63 ≠ b.i63 then some (a.i63, b.i63)
  else none

/-- **The first words that differ are in one order in memory and as numbers.** -/
def SameOrder (M : Machine) (a b : I6addr) : Prop :=
  ∀ x y, firstDiff a b = some (x, y) → (x < y ↔ M.ntohl x < M.ntohl y)

/-- **What is added reaches the first word only:** nothing, to an address whose last words `d` has already; or 1, to an address
that ends in 96 ones, while `d` ends in 96 zeros (or in ones, if the first word overflows, too). -/
def Carried (a : I6addr) (n : Word) (d : I6addr) : Prop :=
  (n = 0 ∧ d.i61 = a.i61 ∧ d.i62 = a.i62 ∧ d.i63 = a.i63) ∨
    (n = 1 ∧ a.i61 = 0xffffffff ∧ a.i62 = 0xffffffff ∧ a.i63 = 0xffffffff ∧
      let last : Word := if a.i60 = 0xffffffff then 0xffffffff else 0
      d.i61 = last ∧ d.i62 = last ∧ d.i63 = last)

end Ipfilter.NatAdd
