import Ipfilter.Spec.StateLife

/-!
# The timeouts of rules

Where state entries get and give back the timeout queues of rules: the two calls of
`ipf_addtimeoutqueue` in `ipf_state_add`, the copy of an entry in `ipf_state_clone`, and the two calls of
`ipf_deletetimeoutqueue` in `ipf_state_del` and where `ipf_state_add` fails.
-/

namespace Ipfilter.State

open Chain Queue Masks Tcp

/-- One of the two blocks of `ipf_state_add` for `fr_age`; `new` is what `KMALLOC` returns. -/
def addAge (w : Softs) (e : ℕ) (rev : Bool) (age : ℕ) (new : Option ℕ) : Softs :=
  if age = 0 then w
  else
    let (w, tq) := ipfAddtimeoutqueue w age new
    w.upd e fun i => { i with
      isTqehead := Function.update i.isTqehead rev tq
      tqeFlags := i.tqeFlags ||| TQE_RULEBASED }

/-- The end of `ipf_state_add`, from the new entry on: `i` is the local `ips`, which has no queues. -/
def addTail (w : Softs) (e : ℕ) (i : Ipstate) (stsave : Option ℕ) (age : Bool → ℕ)
    (new : Bool → Option ℕ) (rev full : Bool) (ticks : ℕ) : Option (Softs × Bool) :=
  let w := w.malloc e { i.owned stsave with isTqehead := fun _ => none }
  let w := addAge w e false (age false) (new false)
  let w := addAge w e true (age true) (new true)
  addInsert w e rev full ticks

/-- `ipf_state_clone`; `full` is `ipf_state_insert` failing. The sequence numbers and windows are left
out. -/
def ipfStateClone (w : Softs) (e clone : ℕ) (rev full : Bool) (ticks : ℕ) : Option (Softs × Bool) := do
  let i := w.is e
  let w := w.malloc clone { i with
    isState := fun _ => 0
    isFlags := (i.isFlags &&& ~~~SI_CLONE) ||| SI_CLONED }
  let (w, ok) ← ipfStateInsert w clone rev full ticks
  if ok then return (w.upd clone fun i => { i with isRef := 1 }, true)
  else return ({ w with alloc := Function.update w.alloc clone false }, false)

/-- The calls that concern the queues. A packet puts its entry on the queue of one of its slots or on one
of the common queues. -/
inductive Call
  | add (e : ℕ) (i : Ipstate) (stsave : Option ℕ) (age : Bool → ℕ) (new : Bool → Option ℕ)
      (rev full : Bool) (ticks : ℕ)
  | clone (e c : ℕ) (rev full : Bool) (ticks : ℕ)
  | del (e : ℕ)
  | hold (e : ℕ)
  | deref (e : ℕ)
  | packet (e : ℕ) (q : Tqid) (ticks : ℕ)

/-- One call. -/
def Call.run (w : Softs) : Call → Option Softs
  | .add e i stsave age new rev full ticks => (addTail w e i stsave age new rev full ticks).map Prod.fst
  | .clone e c rev full ticks => (ipfStateClone w e c rev full ticks).map Prod.fst
  | .del e => (ipfStateDel w e).map Prod.fst
  | .hold e => some (w.upd e fun i => { i with isRef := i.isRef + 1 })
  | .deref e => ipfStateDeref w e
  | .packet e q ticks => toQueue w e q ticks

/-- A queue of a rule. -/
def Tqid.isUser : Tqid → Bool
  | .user _ => true
  | _ => false

/-- New memory is not in use, and other entries are in the table; a clone is made of an entry on its
chain, and a packet moves such an entry. -/
def Call.Legal (w : Softs) : Call → Prop
  | .add e _ _ _ new _ _ _ => w.alloc e = false ∧
      (∀ rev a, new rev = some a → w.ifqAlloc (.user a) = false) ∧
      ∀ a, new false = some a → new true ≠ some a
  | .clone e c _ _ _ => w.alloc e = true ∧ w.table.pnext e ≠ none ∧ w.alloc c = false
  | .del e | .hold e | .deref e => w.alloc e = true
  | .packet e q _ => w.alloc e = true ∧ w.table.pnext e ≠ none ∧
      (q.isUser = true → ∃ rev, (w.is e).isTqehead rev = some q)

/-- No clone copies a slot. -/
def Call.NoCopy (w : Softs) : Call → Prop
  | .clone e _ _ _ _ => ∀ rev, (w.is e).isTqehead rev = none
  | _ => True

/-- The calls from `w₀` on that all meet `ok`. -/
inductive Calls (ok : Softs → Call → Prop) (w₀ : Softs) : Softs → Prop
  | init : Calls ok w₀ w₀
  | step {w w' : Softs} (c : Call) : Calls ok w₀ w → c.Legal w → ok w c → c.run w = some w' →
      Calls ok w₀ w'

end Ipfilter.State
