import Ipfilter.Spec.StateAges

/-!
# Matching a packet with a state entry

`ipf_matchsrcdst` of `ip_state.c`: a packet matches an entry in the direction of the packet that made it
or in the other one. A match may fill in a wildcard of the entry, or make a copy of the entry and fill in
the copy. Sequence numbers are left out.
-/

namespace Ipfilter

namespace Masks.Machine

variable (M : Machine)

/-- `htons` and `ntohs` -/
def htons (x : BitVec 16) : BitVec 16 :=
  if M.little then x.extractLsb' 0 8 ++ x.extractLsb' 8 8 else x

/-- `IN6_IS_ADDR_MULTICAST`: the first byte of the address is 0xff. -/
def multicast6 (a : I6addr) : Bool := (M.ntohl a.i60) >>> 24 = 0xff

end Masks.Machine

def FI_MULTICAST : Flags := 0x0020
def FI_BROADCAST : Flags := 0x0040
def FI_MBCAST : Flags := 0x0080
def FI_CMP : Flags := 0x5cfe3
def FI_NOWILD : Flags := 0x40000000
def FI_IGNORE : Flags := 0x80000000

namespace State

open Chain Queue Masks Tcp

/-- The fields of `fr_info_t` that the state code reads. `finData` are the ports, `icmpType` and `icmpId`
what an ICMP header at `fin_dp` has. -/
structure FrInfo where
  finV : ℕ
  finP : ℕ
  finSrc : I6addr
  finDst : I6addr
  finOut : Bool
  finRev : Bool
  finFlx : Flags
  finIfp : Option ℕ
  finIfname : List Char
  finData : Bool → BitVec 16
  finOptmsk : Flags
  finSecmsk : BitVec 16
  finAuth : BitVec 16
  icmpType : ℕ
  icmpId : BitVec 16

/-! ## The parts of `ipf_matchsrcdst` -/

section Parts

variable (M : Machine) (fin : FrInfo)

/-- `sp`, with `tcp` saying that there is a TCP or UDP header. -/
def FrInfo.sp (tcp : Bool) : BitVec 16 := if tcp then M.htons (fin.finData false) else 0

/-- `dp` -/
def FrInfo.dp (tcp : Bool) : BitVec 16 := if tcp then M.htons (fin.finData true) else 0

/-- `rev`, as it is after the ports were looked at. -/
def matchRev (i : Ipstate) (dst : I6addr) (tcp : Bool) : Bool :=
  if ip6Eq i.isDst dst = false then true
  else if tcp = false then false
  else if i.isFlags &&& SI_W_SPORT = 0 ∧ fin.sp M tcp ≠ i.isSport then true
  else decide (i.isFlags &&& SI_W_DPORT = 0 ∧ fin.dp M tcp ≠ i.isDport)

/-- An interface name that is not set matches any, as does a name of `-` or `*`. -/
def anyName (name : List Char) : Bool := name = [] ∨ name.head? = some '-' ∨ name.head? = some '*'

/-- The interface for this direction. -/
def matchIfp (i : Ipstate) (rev : Bool) : Bool :=
  i.isIfp fin.finOut rev = fin.finIfp ∨ (i.isIfp fin.finOut rev = none ∧ anyName (i.isIfname fin.finOut rev))

/-- Addresses and ports, `from` and `to` as the packet has them. -/
def matchAddrs (i : Ipstate) (src dst : I6addr) (sp dp : BitVec 16) (tcp : Bool) : Bool :=
  (ip6Eq i.isDst dst ∨ i.isFlags &&& SI_W_DADDR ≠ 0) ∧
    (ip6Eq i.isSrc src ∨ i.isFlags &&& SI_W_SADDR ≠ 0) ∧
    (tcp = true → (sp = i.isSport ∨ i.isFlags &&& SI_W_SPORT ≠ 0) ∧
      (dp = i.isDport ∨ i.isFlags &&& SI_W_DPORT ≠ 0))

/-- The two `if` blocks that match addresses and ports. -/
def matchBoth (i : Ipstate) (src dst : I6addr) (tcp rev : Bool) : Bool :=
  if rev then matchAddrs i dst src (fin.dp M tcp) (fin.sp M tcp) tcp
  else matchAddrs i src dst (fin.sp M tcp) (fin.dp M tcp) tcp

/-- The local `flags`. -/
def matchFlags (i : Ipstate) (tcp : Bool) : Flags :=
  if tcp then i.isFlags else i.isFlags &&& ~~~(SI_WILDP ||| SI_NEWFR ||| SI_CLONE ||| SI_CLONED)

/-- The missing address is filled in; an IPv6 multicast address is not. -/
def fillAddr (i : Ipstate) (flags : Flags) (rev : Bool) : Ipstate :=
  if flags &&& SI_W_SADDR ≠ 0 then
    let a := if rev then fin.finDst else fin.finSrc
    if i.isV = 6 ∧ M.multicast6 a then i
    else { i with isSrc := a, isFlags := i.isFlags &&& ~~~SI_W_SADDR }
  else if flags &&& SI_W_DADDR ≠ 0 then
    let a := if rev then fin.finSrc else fin.finDst
    if i.isV = 6 ∧ M.multicast6 a then i
    else { i with isDst := a, isFlags := i.isFlags &&& ~~~SI_W_DADDR }
  else i

/-- The flags set from IP options. -/
def matchOpts (i : Ipstate) (cmask : Flags) (rev : Bool) : Bool :=
  let flx := fin.finFlx &&& cmask
  let cflx := i.isFlx fin.finOut rev
  (cflx = 0 ∨ flx = cflx &&& cmask) ∧ fin.finOptmsk &&& i.isOptmsk rev = i.isOpt rev ∧
    fin.finSecmsk &&& i.isSecmsk = i.isSec ∧ fin.finAuth &&& i.isAuthmsk = i.isAuth

/-- The missing port is filled in. -/
def fillPort (i : Ipstate) (flags : Flags) (rev tcp : Bool) : Ipstate :=
  let i := { i with isFlags := i.isFlags &&& ~~~SI_WILDP }
  if flags &&& SI_W_SPORT ≠ 0 then { i with isSport := if rev then fin.dp M tcp else fin.sp M tcp }
  else if flags &&& SI_W_DPORT ≠ 0 then { i with isDport := if rev then fin.sp M tcp else fin.dp M tcp }
  else i

/-- `i` with the entry at `out` and `rev` of a two-dimensional field changed. -/
def put2 {α : Type} (f : Bool → Bool → α) (out rev : Bool) (a : α) : Bool → Bool → α :=
  Function.update f out (Function.update (f out) rev a)

/-- The flags and options of a direction seen for the first time are filled in. -/
def fillFlx (i : Ipstate) (cmask : Flags) (rev : Bool) : Ipstate :=
  if i.isFlx fin.finOut rev = 0 then
    let v6 : Flags := if i.isV = 6 then ~~~0x8 else 0xffffffff
    let first := rev = true ∧ i.isOptmsk true = 0
    { i with
      isFlx := put2 i.isFlx fin.finOut rev (fin.finFlx &&& cmask)
      isOpt := if first then Function.update i.isOpt true (fin.finOptmsk &&& v6) else i.isOpt
      isOptmsk := if first then Function.update i.isOptmsk true v6 else i.isOptmsk }
  else i

/-- The interface of a direction is filled in, if it is not set. -/
def fillIfp (i : Ipstate) (rev : Bool) : Ipstate :=
  if i.isIfp fin.finOut rev = none ∧
      (i.isIfname fin.finOut rev = [] ∨ (i.isIfname fin.finOut rev).head? = some '*') then
    { i with
      isIfp := put2 i.isIfp fin.finOut rev fin.finIfp
      isIfname := put2 i.isIfname fin.finOut rev fin.finIfname }
  else i

/-- What a match leaves in the entry. -/
def fillRest (i : Ipstate) (cmask : Flags) (rev : Bool) : Ipstate :=
  fillIfp fin (fillFlx fin i cmask rev) rev

end Parts

/-- What an attempt to clone meets: `clone` is the new memory, if the table has room and there is some,
and `full` that `ipf_state_insert` fails. -/
structure Room where
  clone : Option ℕ
  full : Bool
  ticks : ℕ

/-- The port block of `ipf_matchsrcdst`: the entry the packet belongs to, `none` when no clone could be
made. The clone is put on its queue by the `fin_rev` of an earlier match. -/
def takePort (M : Machine) (fin : FrInfo) (w : Softs) (e : ℕ) (flags : Flags) (rev tcp : Bool)
    (room : Room) : Option (Softs × Option ℕ) :=
  if flags &&& SI_WILDP = 0 then some (w, some e)
  else if flags &&& SI_CLONE ≠ 0 then
    match room.clone with
    | none => some (w, none)
    | some c => do
      let (w, ok) ← ipfStateClone w e c fin.finRev room.full room.ticks
      if ok then return (w.upd c fun i => fillPort M fin i flags rev tcp, some c)
      else return (w, none)
  else
    some ({ w with wild := w.wild - 1 }.upd e fun i => fillPort M fin i flags rev tcp, some e)

/-- `ipf_matchsrcdst`, with the entry it returns and `fin_rev`. -/
def ipfMatchsrcdst (M : Machine) (fin : FrInfo) (w : Softs) (e : ℕ) (src dst : I6addr) (tcp : Bool)
    (cmask : Flags) (room : Room) : Option (Softs × Option (ℕ × Bool)) := do
  -- no packet matches an entry that is about to be deleted
  if w.tq.tqeIfq e = some .delete then return (w, none)
  let i := w.is e
  let rev := matchRev M fin i dst tcp
  if matchIfp fin i rev = false ∨ matchBoth M fin i src dst tcp rev = false then return (w, none)
  let flags := matchFlags i tcp
  let i' := fillAddr M fin i flags rev
  let w := { w.upd e fun _ => i' with
    wild := if flags &&& SI_WILDA ≠ 0 ∧ i'.isFlags &&& (SI_WILDA ||| SI_WILDP) = 0 then w.wild - 1
      else w.wild }
  if matchOpts fin i' cmask rev = false then return (w, none)
  if fin.finFlx &&& FI_IGNORE ≠ 0 then return (w, some (e, rev))
  let (w, found) ← takePort M fin w e flags rev tcp room
  match found with
  | none => return (w, none)
  | some is => return (w.upd is fun i => fillRest fin i cmask rev, some (is, rev))

/-! ## Traffic -/

/-- The calls that `iss_wild` depends on. A `packet` is matched with an entry that is on its chain; a
lookup is such matches one after the other. -/
inductive Traffic
  | add (e : ℕ) (i : Ipstate) (rev full : Bool) (ticks : ℕ)
  | packet (fin : FrInfo) (e : ℕ) (src dst : I6addr) (tcp : Bool) (cmask : Flags) (room : Room)
  | move (e hv : ℕ)
  | del (e : ℕ)
  | hold (e : ℕ)
  | deref (e : ℕ)

/-- One call. -/
def Traffic.run (M : Machine) (seed : ℕ → ℕ) (w : Softs) : Traffic → Option Softs
  | .packet fin e src dst tcp cmask room =>
    (ipfMatchsrcdst M fin w e src dst tcp cmask room).map Prod.fst
  | .add e i rev full ticks => step seed w (.insert e i rev full ticks)
  | .move e hv => step seed w (.move e hv)
  | .del e => step seed w (.del e)
  | .hold e => step seed w (.hold e)
  | .deref e => step seed w (.deref e)

/-- New memory is not in use, other entries are in the table, and a packet's entry is on its chain. -/
def Traffic.Legal (w : Softs) : Traffic → Prop
  | .add e .. => w.alloc e = false
  | .packet _ e _ _ _ _ room => w.alloc e = true ∧ w.table.pnext e ≠ none ∧
      ∀ c, room.clone = some c → w.alloc c = false
  | .move e _ => w.alloc e = true ∧ w.table.pnext e ≠ none
  | .del e | .hold e | .deref e => w.alloc e = true

/-- The packet gets to the block of `ipf_matchsrcdst` that fills in a port. -/
def reachesPort (M : Machine) (fin : FrInfo) (w : Softs) (e : ℕ) (src dst : I6addr) (tcp : Bool)
    (cmask : Flags) : Bool :=
  let rev := matchRev M fin (w.is e) dst tcp
  w.tq.tqeIfq e ≠ some .delete ∧ matchIfp fin (w.is e) rev ∧ matchBoth M fin (w.is e) src dst tcp rev ∧
    matchOpts fin (fillAddr M fin (w.is e) (matchFlags (w.is e) tcp) rev) cmask rev ∧
    fin.finFlx &&& FI_IGNORE = 0 ∧ matchFlags (w.is e) tcp &&& SI_WILDP ≠ 0

/-- **`iss_wild` stays right.** A port is filled in when no address is missing any more, and in a clone
that is made when one still is; no clone with a wildcard is deleted. -/
def Traffic.Keeps (M : Machine) (w : Softs) : Traffic → Prop
  | .packet fin e src dst tcp cmask room => reachesPort M fin w e src dst tcp cmask = true →
      let i := fillAddr M fin (w.is e) (matchFlags (w.is e) tcp) (matchRev M fin (w.is e) dst tcp)
      if matchFlags (w.is e) tcp &&& SI_CLONE = 0 then i.isFlags &&& SI_WILDA = 0
      else room.clone = none ∨ room.full = true ∨ i.isFlags &&& SI_WILDA ≠ 0
  | .del e => (w.is e).isFlags &&& (SI_WILDP ||| SI_WILDA) = 0 ∨ (w.is e).isFlags &&& SI_CLONED = 0
  | .deref e => (w.is e).isRef ≤ 1 →
      (w.is e).isFlags &&& (SI_WILDP ||| SI_WILDA) = 0 ∨ (w.is e).isFlags &&& SI_CLONED = 0
  | _ => True

/-- The calls from `w₀` on that all meet `ok`. -/
inductive Traffics (M : Machine) (seed : ℕ → ℕ) (ok : Softs → Traffic → Prop) (w₀ : Softs) : Softs → Prop
  | init : Traffics M seed ok w₀ w₀
  | step {w w' : Softs} (c : Traffic) : Traffics M seed ok w₀ w → c.Legal w → ok w c →
      c.run M seed w = some w' → Traffics M seed ok w₀ w'

end State

end Ipfilter
