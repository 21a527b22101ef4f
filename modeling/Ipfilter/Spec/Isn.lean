import Ipfilter.Spec.Ipnat

/-!
# New initial sequence numbers

A rule with `newisn` makes the sequence numbers that one side of a TCP session sees others than those the other side counts
with. `ipf_checknewisn` (`ip_state.c`) keeps how far they are apart, `ipf_fixoutisn` and `ipf_fixinisn` rewrite the packets.
Numbers and the checksum of a packet are as they are in memory; `ipf_newisn`, which hashes, is a parameter.
-/

namespace Ipfilter.Isn

open Masks NatTab

def IS_ISNSYN : Flags := 0x40000
def IS_ISNACK : Flags := 0x80000

/-- `IS_ISNSYN` or `IS_ISNACK`, by the index of the arrays: `false` is 0. -/
def isnFlag (i : Bool) : Flags := if i then IS_ISNACK else IS_ISNSYN

/-- What there is of it in `ipstate_t`. -/
structure Ipstate where
  isFlags : Flags
  isIsninc : Bool → Word
  isSumd : Bool → BitVec 16

/-- The TCP header at `fin_dp`; `rest` are its other words, the data and the addresses and lengths that the checksum covers. -/
structure Tcphdr where
  thSeq : Word
  thAck : Word
  thSum : BitVec 16
  rest : List (BitVec 16)

/-- What is read of `fr_info_t`. -/
structure FrInfo where
  finRev : Bool
  finCksum : ℤ
  finDp : Tcphdr

section

variable (M : Machine)

/-- `ipf_checknewisn` -/
def ipfChecknewisn (ipfNewisn : FrInfo → Word) (fin : FrInfo) (is : Ipstate) : Ipstate :=
  let i := fin.finRev
  if (i = false ∧ is.isFlags &&& IS_ISNSYN = 0) ∨ (i = true ∧ is.isFlags &&& IS_ISNACK = 0) then
    let old := M.ntohl fin.finDp.thSeq
    let new := ipfNewisn fin
    { isFlags := is.isFlags ||| isnFlag i
      isIsninc := Function.update is.isIsninc i (new - old)
      isSumd := Function.update is.isSumd i ((sumd old new).setWidth 16) }
  else is

/-- `seq += is->is_isninc[i]`, and the checksum. -/
def Tcphdr.addSeq (tcp : Tcphdr) (is : Ipstate) (i : Bool) : Tcphdr :=
  { tcp with
    thSeq := M.htonl (M.ntohl tcp.thSeq + is.isIsninc i)
    thSum := ipfFixOutcksum M 0 tcp.thSum ((is.isSumd i).setWidth 32) 0 }

/-- `ack -= is->is_isninc[i]`, and the checksum. -/
def Tcphdr.subAck (tcp : Tcphdr) (is : Ipstate) (i : Bool) : Tcphdr :=
  { tcp with
    thAck := M.htonl (M.ntohl tcp.thAck - is.isIsninc i)
    thSum := ipfFixIncksum M 0 tcp.thSum ((is.isSumd i).setWidth 32) 0 }

/-- `ipf_fixoutisn`: the header. -/
def ipfFixoutisn (fin : FrInfo) (is : Ipstate) : Tcphdr :=
  let rev := fin.finRev
  let tcp := fin.finDp
  let tcp := if is.isFlags &&& IS_ISNSYN ≠ 0 then
      if rev = false ∧ fin.finCksum < FI_CK_L4PART then tcp.addSeq M is false else tcp
    else tcp
  if is.isFlags &&& IS_ISNACK ≠ 0 then
    if rev = true ∧ fin.finCksum < FI_CK_L4PART then tcp.addSeq M is true else tcp
  else tcp

/-- `ipf_fixinisn`: the header. -/
def ipfFixinisn (fin : FrInfo) (is : Ipstate) : Tcphdr :=
  let rev := fin.finRev
  let tcp := fin.finDp
  let tcp := if is.isFlags &&& IS_ISNSYN ≠ 0 then
      if rev = true ∧ fin.finCksum < FI_CK_L4PART then tcp.subAck M is false else tcp
    else tcp
  if is.isFlags &&& IS_ISNACK ≠ 0 then
    if rev = false ∧ fin.finCksum < FI_CK_L4PART then tcp.subAck M is true else tcp
  else tcp

/-! ## The checksum -/

/-- The words that the checksum covers, the protocol among them. -/
def Tcphdr.words (tcp : Tcphdr) : List (BitVec 16) :=
  M.htons tcp.thSum :: (halves M tcp.thSeq ++ (halves M tcp.thAck ++ 6#16 :: tcp.rest))

end

end Ipfilter.Isn
