import Ipfilter.Cyclic.Arc
import Ipfilter.Spec.Flags

/-!
# The authentication ring

Packets that wait for a decision of a user program (`ip_auth.c`): `ipf_auth_new` puts them into a ring, `ipf_auth_wait` hands
them to the program, `ipf_auth_reply` takes its answer and sends the packet in again, and `ipf_auth_check` looks for the answer
when the packet comes back.

A slot is free if its `fra_index` is -1, and answered if it is -2.
-/

namespace Ipfilter.Auth

open Cyclic

def FR_KEEPFRAG : Flags := 0x00200
def FI_FRAG : Flags := 0x0004
def FI_NATED : Flags := 0x0010

/-- `fr_info_t`: the rule, the direction and the flags, the other fields before `fin_icode`, and `fin_id`. All but `fin_id`
are compared with `bcmp`. -/
structure FrInfo (C : Type) where
  finFr : Option ℕ
  finOut : Bool
  finFlx : Flags
  fields : C
  finId : BitVec 32

/-- `frauth_t`. -/
structure Frauth (C : Type) where
  age : ℤ
  index : ℤ
  pass : Flags
  info : FrInfo C
  flx : Flags

/-- `ipf_auth_softc_t`, with the flags of the rules and their reference counts. The rules that `ipf_auth_check` makes are in
`rules`. Packets in `pkts` are numbers. -/
structure Softa (C : Type) where
  size : ℕ
  used : ℤ
  replies : ℤ
  defaultage : ℤ
  lock : Bool
  auth : ℕ → Frauth C
  pkts : ℕ → Option ℕ
  start : ℕ
  stop : ℕ
  next : ℕ
  rules : List ℕ
  frFlags : ℕ → Flags
  frRef : ℕ → ℤ

variable {C : Type}

def Softa.setAuth (s : Softa C) (i : ℕ) (f : Frauth C → Frauth C) : Softa C :=
  { s with auth := Function.update s.auth i (f (s.auth i)) }

def Softa.setPkt (s : Softa C) (i : ℕ) (m : Option ℕ) : Softa C := { s with pkts := Function.update s.pkts i m }

/-- Whether a slot is free. -/
def Softa.free (s : Softa C) (i : ℕ) : Bool := decide ((s.auth i).index = -1)

/-- The start moves on from `i`, as long as `p` holds. An empty ring begins at 0 again. -/
def Softa.advance (s : Softa C) (p : ℕ → Bool) (i : ℕ) : Softa C :=
  if i = s.start then
    let i := skip s.size s.stop p s.size i
    if i = s.stop then { s with start := 0, stop := 0, next := 0 } else { s with start := i }
  else s

/-! ## Packets come back -/

/-- What is compared when a packet comes back. `ipId` is `ip_id` of its header. -/
def same [DecidableEq C] (fin : FrInfo C) (ipId : BitVec 16) (fra : FrInfo C) : Bool :=
  decide (ipId.setWidth 32 = fra.finId) && decide (fin.finFr = fra.finFr) && decide (fin.finOut = fra.finOut) &&
    decide (fin.finFlx = fra.finFlx) && decide (fin.fields = fra.fields)

/-- The decision, without a way back into the ring. -/
def verdict (pass : Flags) : Flags := if pass = 0 ∨ isAuth pass = true then FR_BLOCK else pass

/-- What `ipf_auth_check` returns: the packet, the rule, and the flags and the slot if there was an answer. -/
structure Checked (C : Type) where
  softa : Softa C
  fin : FrInfo C
  fr : Option ℕ
  pass : Option Flags
  slot : Option ℕ

/-- The slot with the answer for a packet. -/
def Softa.answer [DecidableEq C] (s : Softa C) (fin : FrInfo C) (ipId : BitVec 16) : Option ℕ :=
  seek s.size s.stop (fun i => decide ((s.auth i).index = -2) && same fin ipId (s.auth i).info) s.size s.start

/-- `ipf_auth_check`, with the memory that `KMALLOC` gives. -/
def ipfAuthCheck [DecidableEq C] (s : Softa C) (fin : FrInfo C) (ipId : BitVec 16) (new : Option ℕ) : Checked C :=
  if s.lock || decide (s.used = 0) then ⟨s, fin, none, none, none⟩
  else
    match s.answer fin ipId with
    | none => ⟨s, fin, none, none, none⟩
    | some i =>
      let fra := s.auth i
      let pass := verdict fra.pass
      let copies := has pass FR_KEEPSTATE || (has pass FR_KEEPFRAG && has fin.finFlx FI_FRAG)
      let fr := if copies then new else fra.info.finFr
      let s := match (if copies then new else none) with
        | none => s
        | some n => { s with
            rules := n :: s.rules, frFlags := Function.update s.frFlags n pass, frRef := Function.update s.frRef n 1 }
      let s := s.setAuth i fun a => { a with index := -1 }
      let s := { s with used := s.used - 1, replies := s.replies - 1 }
      ⟨s.advance s.free i, { fin with finFr := fr, finFlx := fin.finFlx ||| fra.flx }, fr, some pass, some i⟩

/-! ## Packets wait -/

/-- What is kept of a packet. -/
def stored (fin : FrInfo C) : FrInfo C := { fin with finFlx := fin.finFlx &&& ~~~(FI_STATE ||| FI_NATED) }

/-- `ipf_auth_new`: whether the packet is in the ring. -/
def ipfAuthNew (s : Softa C) (m : ℕ) (fin : FrInfo C) : Softa C × Bool :=
  if s.lock then (s, false)
  else if (s.stop + 1) % s.size = s.start then (s, false)
  else
    let i := s.stop
    let s := { s with used := s.used + 1, stop := inc s.size i }
    let pass := match fin.finFr with
      | none => 0
      | some fr => s.frFlags fr
    let s := s.setAuth i fun _ =>
      { age := s.defaultage, index := i, pass := pass, info := stored fin, flx := fin.finFlx &&& (FI_STATE ||| FI_NATED) }
    (s.setPkt i (some m), true)

/-- How `ipf_auth_wait` ends: with an error, with a packet, or asleep. -/
inductive Waited where
  | error
  | handed (i : ℕ)
  | sleeps
  deriving DecidableEq

/-- `ipf_auth_wait`, up to where it sleeps: `inobj`, `outobj` and `copy` say whether data was copied in and out. The search for
a packet has no end if there is none. -/
def ipfAuthWait (fuel : ℕ) (s : Softa C) (inobj outobj copy : Bool) : Option (Softa C × Waited) :=
  if !inobj then some (s, .error)
  else if 0 < s.used then
    match hunt s.size (fun i => (s.pkts i).isSome) fuel s.next with
    | none => none
    | some i =>
      let s := { s with next := i }
      if !(outobj && copy) then some (s, .error) else some ({ s with next := inc s.size i }, .handed i)
  else some (s, .sleeps)

/-- What a user program answers. -/
structure Reply where
  index : ℤ
  id : BitVec 32
  pass : Flags

/-- `ipf_auth_reply`: `inject` says whether the packet could be sent in again. The scan for the next slot in use looks at the
slot that was answered all the time. -/
def ipfAuthReply (s : Softa C) (inobj : Bool) (au : Reply) (inject : Bool) : Softa C × ℕ :=
  if !inobj then (s, EFAULT)
  else if au.index < 0 ∨ s.size ≤ au.index then (s, ESRCH)
  else
    let i := au.index.toNat
    if (s.auth i).info.finId ≠ au.id then (s, ESRCH)
    else
      let m := s.pkts i
      let s := s.setAuth i fun a => { a with index := -2, pass := au.pass }
      let s := { s.setPkt i none with replies := s.replies + 1 }
      if m.isSome && !inject then
        let s := { s with used := s.used - 1 }
        let s := s.setAuth i fun a => { a with index := -1, pass := 0 }
        (s.advance (fun _ => s.free i) i, 0)
      else (s, 0)

/-! ## Time -/

/-- One slot of the loop of `ipf_auth_expire`. -/
def expireSlot (s : Softa C) (i : ℕ) : Softa C :=
  let s := s.setAuth i fun a => { a with age := a.age - 1 }
  if (s.auth i).age = 0 ∧ (s.auth i).index ≠ -1 then
    let s := match s.pkts i with
      | some _ => s.setPkt i none
      | none => if (s.auth i).index = -2 then { s with replies := s.replies - 1 } else s
    { s.setAuth i (fun a => { a with index := -1 }) with used := s.used - 1 }
  else s

/-- `ipf_auth_expire`, without the rules for pre-authorisation: the slots, and the rules that only the list holds. -/
def ipfAuthExpire (s : Softa C) : Softa C :=
  if s.lock then s
  else
    let s := (List.range s.size).foldl expireSlot s
    { s with rules := s.rules.filter fun fr => decide (s.frRef fr ≠ 1) }

/-- One slot of the loop of `ipf_auth_flush`. -/
def flushSlot (s : Softa C) (i : ℕ) : Softa C :=
  if (s.auth i).index ≠ -1 then (s.setPkt i none).setAuth i fun a => { a with index := -1 } else s

/-- `ipf_auth_flush`. -/
def ipfAuthFlush (s : Softa C) : Softa C :=
  if s.lock then s
  else { (List.range s.size).foldl flushSlot s with start := 0, stop := 0, next := 0, used := 0, replies := 0 }

/-! ## Runs -/

/-- A call. -/
inductive Op (C : Type) where
  | new (m : ℕ) (fin : FrInfo C)
  | wait (fuel : ℕ) (inobj outobj copy : Bool)
  | reply (inobj : Bool) (au : Reply) (inject : Bool)
  | check (fin : FrInfo C) (ipId : BitVec 16) (new : Option ℕ)
  | expire
  | flush
  | setlock (lock : Bool)

def step [DecidableEq C] (s : Softa C) : Op C → Option (Softa C)
  | .new m fin => some (ipfAuthNew s m fin).1
  | .wait fuel inobj outobj copy => (ipfAuthWait fuel s inobj outobj copy).map Prod.fst
  | .reply inobj au inject => some (ipfAuthReply s inobj au inject).1
  | .check fin ipId new => some (ipfAuthCheck s fin ipId new).softa
  | .expire => some (ipfAuthExpire s)
  | .flush => some (ipfAuthFlush s)
  | .setlock lock => some { s with lock := lock }

/-- `ipf_auth_soft_init`, after `ipf_auth_soft_create`: the slots are filled with zeros, so `fra_index` is 0 in all of them.
`zero` is what is compared of an `fr_info_t` of zeros. -/
def ipfAuthSoftInit (size : ℕ) (defaultage : ℤ) (zero : C) (frFlags : ℕ → Flags) (frRef : ℕ → ℤ) : Softa C where
  size := size
  used := 0
  replies := 0
  defaultage := defaultage
  lock := false
  auth _ := ⟨0, 0, 0, ⟨none, false, 0, zero, 0⟩, 0⟩
  pkts _ := none
  start := 0
  stop := 0
  next := 0
  rules := []
  frFlags := frFlags
  frRef := frRef

/-- A ring with all slots free: `ipf_auth_flush` sets their `fra_index` to -1. -/
def ring (size : ℕ) (defaultage : ℤ) (zero : C) (frFlags : ℕ → Flags) (frRef : ℕ → ℤ) : Softa C :=
  ipfAuthFlush (ipfAuthSoftInit size defaultage zero frFlags frRef)

end Ipfilter.Auth
