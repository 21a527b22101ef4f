import Ipfilter.Spec.Ipnat

/-!
# Clamping the MSS of a TCP header

`ipf_nat_mssclamp` (`ip_nat.c`) with its pointers: `cp` and `ep` are counted from the first option, and a read or a write that
is not in the options of the header is `none`. `CALC_SUMD` changes its operands, the clamp among them.
-/

namespace Ipfilter.Mssclamp

open Masks NatTab

abbrev Byte := BitVec 8

def TCPOPT_EOL : Byte := 0
def TCPOPT_NOP : Byte := 1
def TCPOPT_MAXSEG : Byte := 2

/-- `cp[i] = b` -/
def put (opts : List Byte) (i : ℕ) (b : Byte) : Option (List Byte) := if i < opts.length then some (opts.set i b) else none

section

variable (M : Machine)

/-- The loop of `ipf_nat_mssclamp`; the first argument bounds the number of its turns. -/
def mssclampSteps (ep : ℕ) : ℕ → ℕ → Word → L4 → Option L4
  | n, cp, maxmss, tcp =>
    if ¬cp < ep then some tcp
    else match n with
      | 0 => none
      | n + 1 => do
        let opt ← tcp.thOpts[cp]?
        if opt = TCPOPT_EOL then some tcp
        else if opt = TCPOPT_NOP then mssclampSteps ep n (cp + 1) maxmss tcp
        else if cp + 1 ≥ ep then some tcp
        else do
          let advance := (← tcp.thOpts[cp + 1]?).toNat
          if cp + advance > ep ∨ advance ≤ 0 then some tcp
          else if opt = TCPOPT_MAXSEG ∧ advance = 4 then do
            let hi ← tcp.thOpts[cp + 2]?
            let lo ← tcp.thOpts[cp + 3]?
            let mss : Word := hi.setWidth 32 * 256 + lo.setWidth 32
            if mss > maxmss then do
              let opts ← put tcp.thOpts (cp + 2) ((maxmss / 256).setWidth 8)
              let opts ← put opts (cp + 3) ((maxmss &&& 0xff).setWidth 8)
              let d := CALC_SUMD mss maxmss
              mssclampSteps ep n (cp + advance) d.1 { tcp with thOpts := opts, sum := ipfFixOutcksum M 0 tcp.sum d.2 0 }
            else mssclampSteps ep n (cp + advance) maxmss tcp
          else mssclampSteps ep n (cp + advance) maxmss tcp

/-- `ipf_nat_mssclamp`, for a header whose data offset is `thOff` -/
def ipfNatMssclamp (thOff : BitVec 4) (tcp : L4) (maxmss : Word) : Option L4 :=
  let hlen := thOff.toNat <<< 2
  if hlen > 20 then mssclampSteps M (hlen - 20) (hlen - 20) 0 maxmss tcp else some tcp

end

end Ipfilter.Mssclamp
