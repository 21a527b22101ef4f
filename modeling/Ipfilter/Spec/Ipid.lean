import Ipfilter.Inet.Ones
import Ipfilter.Spec.Frag
import Ipfilter.Spec.StateMatch

/-!
# The ids of packets that are translated

`ipf_updateipid` of `fil.c`: each packet gets the next id, and the fragments behind the first one of a datagram get the id that
the fragment cache has for them.
-/

namespace Ipfilter.Frag

open Masks (Machine Word)

/-- The IP header: `ip_id` and `ip_sum` as they are in memory, and the other words as they are sent, with the version among
them. -/
structure Ip where
  ipId : BitVec 16
  ipSum : BitVec 16
  ipRest : List (BitVec 16)
  version : Inet.total ipRest ≠ 0

/-- The words that the checksum is of. -/
def Ip.words (M : Machine) (ip : Ip) : List (BitVec 16) := M.htons ip.ipSum :: M.htons ip.ipId :: ip.ipRest

/-- `CALC_SUMD` of two variables of 16 bits: its first four lines leave them as they are. -/
def CALC_SUMD (s1 s2 : BitVec 16) : Word :=
  let s2 := if s1 > s2 then s2 - 1 else s2
  Inet.fold (s2.setWidth 32 - s1.setWidth 32)

/-- `ipf_updateipid` from where the new id is known. -/
def Ip.update (M : Machine) (ip : Ip) (id : BitVec 16) : Ip :=
  let ido := M.htons ip.ipId
  if id = ido then ip
  else
    let sum := (~~~M.htons ip.ipSum).setWidth 32 + CALC_SUMD ido id
    let sum := Inet.fold (Inet.fold sum)
    { ip with ipId := M.htons id, ipSum := M.htons (~~~sum.setWidth 16) }

/-- `ipf_updateipid`, with the id from `ipf_nextipid` and the memory that `KMALLOC` gives: the header, if it returns 0. -/
def ipfUpdateipid (M : Machine) (s : Softf) (fin : FrInfo) (ip : Ip) (next : BitVec 16) (new : Option ℕ) (junk : Ipfr) :
    Softf × Option Ip :=
  if fin.finOff ≠ 0 then
    match ipfFragIpidknown s fin with
    | (s, sum) => (s, if sum = 0xffffffff then none else some (ip.update M (sum.setWidth 16)))
  else
    let s := if has fin.finFlx FI_FRAG then (ipfFragIpidnew s fin (next.setWidth 32) new junk).1 else s
    (s, some (ip.update M next))

end Ipfilter.Frag
