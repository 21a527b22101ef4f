import Ipfilter.Spec.State

/-!
# References to state entries

The parts of `ip_state.c` that delete entries and those that hold on to them: `SIOCDELST`, the flushes,
the expiry, and the iterator of `SIOCGENITER`. What one lock covers is one step, with these exceptions:
a pass over several timeout queues is one step for each queue, and `ipf_state_deref` is two, since it
looks at `is_ref` under the lock of the entry and takes the lock of the table afterwards.
-/

namespace Ipfilter.State

open Chain Queue Masks Tcp

/-! ## Walks that delete -/

/-- The loops of `ipf_state_flush` over the list of all entries: `isp` moves on when an entry stays. -/
def flushLoop (sel : Softs → ℕ → Bool) : ℕ → Link Unit ℕ → Softs → Option Softs
  | 0, isp, w => if w.list.get isp = none then some w else none
  | i + 1, isp, w =>
    match w.list.get isp with
    | none => some w
    | some e =>
      if sel w e then do
        let (w, refs) ← ipfStateDel w e
        if refs = 0 then flushLoop sel i isp w else flushLoop sel i (.next e) w
      else flushLoop sel i (.next e) w

/-- `ipf_state_flush` with `which` 0; `proto` is compared with `is_v`. -/
def flushAll (w : Softs) (proto : ℕ) : Option Softs :=
  flushLoop (fun w e => proto = 0 ∨ (w.is e).isV = proto) w.active.toNat (.head ()) w

def IPF_TTLVAL (x : ℕ) : ℕ := x * IPF_HZ_DIVIDE

/-- `ipf_state_flush` with `which` at least 30: the entries not touched for so many seconds. The
difference is one of `u_long`. -/
def flushIdle (w : Softs) (which proto ticks : ℕ) : Option Softs :=
  flushLoop (fun w e => (proto = 0 ∨ (w.is e).isV = proto) ∧
      (ticks + 2 ^ 64 - w.tq.tqeTouched e) % 2 ^ 64 > IPF_TTLVAL which)
    w.active.toNat (.head ()) w

/-- The loop of `ipf_state_matchflush`. -/
def matchflushLoop (sel : Softs → ℕ → Bool) : ℕ → Option ℕ → Softs → Option Softs
  | _, none, w => some w
  | 0, some _, _ => none
  | i + 1, some e, w =>
    let statenext := w.list.next e
    if sel w e then do
      let (w, _) ← ipfStateDel w e
      matchflushLoop sel i statenext w
    else matchflushLoop sel i statenext w

/-- `ipf_state_matchflush`; `array` is what `ipf_state_matcharray` finds of an entry, its fields and the
time it was touched. -/
def ipfStateMatchflush (array : ℕ → Ipstate → ℕ → Bool) (w : Softs) : Option Softs :=
  matchflushLoop (fun w e => array e (w.is e) (w.tq.tqeTouched e)) w.active.toNat (w.list.head ()) w

/-- What a loop over a timeout queue does with an entry: leave the loop, go on, or delete. -/
inductive Visit
  | stop
  | skip
  | del
deriving DecidableEq

/-- The loops over one timeout queue: `tqn` is read before the entry is deleted. -/
def queueLoop (visit : Softs → ℕ → Visit) : ℕ → Option ℕ → Softs → Option Softs
  | _, none, w => some w
  | 0, some _, _ => none
  | i + 1, some tqe, w =>
    let tqn := w.tq.mem.next tqe
    match visit w tqe with
    | .stop => some w
    | .skip => queueLoop visit i tqn w
    | .del => do
      let (w, _) ← ipfStateDel w (w.tq.tqeParent tqe)
      queueLoop visit i tqn w

/-- One queue of a pass. -/
def queuePass (visit : Softs → ℕ → Visit) (w : Softs) (q : Tqid) : Option Softs :=
  queueLoop visit w.active.toNat (w.tq.mem.head q) w

/-- `ipf_state_expire`, for one queue. -/
def expirePass (w : Softs) (q : Tqid) (ticks : ℕ) : Option Softs :=
  queuePass (fun w e => if w.tq.tqeDie e > ticks then .stop else .del) w q

/-- `ipf_state_flush` with `which` 1, for one of the queues from `IPF_TCPS_CLOSE_WAIT` on. -/
def closingPass (w : Softs) (q : Tqid) : Option Softs :=
  queuePass (fun w e => if (w.is e).isP ≠ IPPROTO_TCP then .stop else .del) w q

/-- `ipf_state_flush` with `which` 1, for a queue of a rule. -/
def closingUserPass (w : Softs) (q : Tqid) : Option Softs :=
  queuePass (fun w e =>
    if (w.is e).isP ≠ IPPROTO_TCP then .skip
    else if (w.is e).isState false > IPF_TCPS_ESTABLISHED ∧
        (w.is e).isState true > IPF_TCPS_ESTABLISHED then .del
    else .skip) w q

/-- `ipf_state_flush` with `which` one of the closing states of TCP. -/
def statePass (w : Softs) (which : ℕ) : Option Softs :=
  queuePass (fun _ _ => .del) w (.tcp which)

/-- The loop of `ipf_queueflush` over one queue: entries not touched since `since`, the variable `try` of
the source. -/
def idlePass (w : Softs) (q : Tqid) (since : ℕ) : Option Softs :=
  queuePass (fun w e => if since < w.tq.tqeTouched e then .stop else .del) w q

/-- The loop of `ipf_state_remove`; `same` is the comparison with the entry of the ioctl. -/
def removeLoop (same : Softs → ℕ → Bool) (w : Softs) : ℕ → Option ℕ → Option ℕ
  | _, none => none
  | 0, some _ => none
  | i + 1, some sp => if same w sp then some sp else removeLoop same w i (w.list.next sp)

/-- `ipf_state_remove` compares protocol, version and addresses, and `ps` the bytes of `is_ps`. -/
def removeSame (st : Ipstate) (ps : ℕ → Bool) (w : Softs) (sp : ℕ) : Bool :=
  (w.is sp).isP = st.isP ∧ (w.is sp).isV = st.isV ∧ (w.is sp).isSrc = st.isSrc ∧
    (w.is sp).isDst = st.isDst ∧ ps sp

/-- The entry `ipf_state_remove` deletes. -/
def removeTarget (w : Softs) (st : Ipstate) (ps : ℕ → Bool) : Option ℕ :=
  removeLoop (removeSame st ps) w w.active.toNat (w.list.head ())

/-- `ipf_state_remove` -/
def ipfStateRemove (w : Softs) (st : Ipstate) (ps : ℕ → Bool) : Option (Softs × ℕ) :=
  match removeTarget w st ps with
  | none => some (w, ESRCH)
  | some sp => do
    let (w, _) ← ipfStateDel w sp
    return (w, 0)

/-! ## The system -/

/-- The table with those who hold entries. `iptData` has the place of every iterator's token, NULL for
one that has not begun, is done or was freed. `held` counts the references of calls under way, and `late`
those among the calls of `ipf_state_deref` that found no other reference and wait for the lock. -/
structure Sys where
  sc : Softs
  iptData : List (Option ℕ)
  held : ℕ → ℕ
  late : ℕ → ℕ

/-- The references to an entry that were taken and not given back. -/
def Sys.refs (s : Sys) (e : ℕ) : ℕ := s.iptData.count (some e) + s.held e + s.late e

/-- The part of `ipf_state_add` that counts references. -/
def Ipstate.owned (i : Ipstate) (stsave : Option ℕ) : Ipstate :=
  { i with isMe := stsave, isRef := if stsave = none then 1 else 2 }

/-- The end of `ipf_state_add`: an entry that could not be inserted gives its queues back and is freed. -/
def addInsert (w : Softs) (e : ℕ) (rev full : Bool) (ticks : ℕ) : Option (Softs × Bool) := do
  let (w, ok) ← ipfStateInsert w e rev full ticks
  if ok then return (w, true)
  else
    let w := w.dropTq ((w.is e).isTqehead false)
    let w := w.dropTq ((w.is e).isTqehead true)
    return ({ w with alloc := Function.update w.alloc e false }, false)

/-- A packet moves its entry to another timeout queue. -/
def toQueue (w : Softs) (e : ℕ) (nifq : Tqid) (ticks : ℕ) : Option Softs :=
  match w.tq.tqeIfq e with
  | some oifq => do
    let tq ← ipfMovequeue w.tq ticks e oifq nifq
    return { w with tq := tq }
  | none => some { w with tq := ipfQueueappend w.tq ticks e nifq e }

/-- Where the token of `ipf_state_iter` goes from `is`. -/
def iterNext (w : Softs) : Option ℕ → Option (Option ℕ)
  | none => some (w.list.head ())
  | some is => if w.alloc is then some (w.list.next is) else none

/-- `next->is_ref++`, for an entry that is not NULL. -/
def Softs.take (w : Softs) : Option ℕ → Softs
  | none => w
  | some next => w.upd next fun i => { i with isRef := i.isRef + 1 }

/-- `ipt_data` becomes `next`, and the reference to the old entry is the call's. -/
def Sys.handOver (s : Sys) (token : ℕ) (is next : Option ℕ) : Sys :=
  { s with
    iptData := s.iptData.set token next
    held := match is with
      | none => s.held
      | some e => Function.update s.held e (s.held e + 1) }

/-- The part of `ipf_state_iter` under the lock: the token moves to the next entry and takes a reference
to it. The call gives the reference to the old one back last. -/
def ipfStateIter (s : Sys) (token : ℕ) : Option Sys := do
  let is ← s.iptData[token]?
  let next ← iterNext s.sc is
  return ({ s with sc := s.sc.take next } : Sys).handOver token is next

/-- The token is freed: `ipf_token_deref` hands what it holds to `ipf_state_deref`. -/
def closeToken (s : Sys) (token : ℕ) : Option Sys := do
  let is ← s.iptData[token]?
  return s.handOver token is none

/-- The part of `ipf_state_deref` under the lock of the entry. -/
def derefTest (s : Sys) (e : ℕ) : Option Sys :=
  if s.sc.alloc e = false then none
  else
    let s := { s with held := Function.update s.held e (s.held e - 1) }
    if (s.sc.is e).isRef > 1 then
      some { s with sc := s.sc.upd e fun i => { i with isRef := i.isRef - 1 } }
    else some { s with late := Function.update s.late e (s.late e + 1) }

/-- The rest of `ipf_state_deref`. -/
def derefDel (s : Sys) (e : ℕ) : Option Sys := do
  let (sc, _) ← ipfStateDel s.sc e
  return { s with sc := sc, late := Function.update s.late e (s.late e - 1) }

/-- What may happen next. -/
inductive Event
  | add (e : ℕ) (i : Ipstate) (stsave : Option ℕ) (rev full : Bool) (ticks : ℕ)
  | remove (st : Ipstate) (ps : ℕ → Bool)
  | flushAll (proto : ℕ)
  | flushIdle (which proto ticks : ℕ)
  | matchflush (array : ℕ → Ipstate → ℕ → Bool)
  | expire (q : Tqid) (ticks : ℕ)
  | closing (q : Tqid)
  | closingUser (q : Tqid)
  | flushState (which : ℕ)
  | idle (q : Tqid) (since : ℕ)
  | packet (e : ℕ) (q : Tqid) (ticks : ℕ)
  | hold (e : ℕ)
  | newToken
  | iter (token : ℕ)
  | close (token : ℕ)
  | test (e : ℕ)
  | reap (e : ℕ)

/-- Change the table only. -/
def Sys.table (s : Sys) (w : Option Softs) : Option Sys := w.map fun w => { s with sc := w }

/-- One event. -/
def Sys.next (s : Sys) : Event → Option Sys
  | .add e i stsave rev full ticks =>
    s.table ((addInsert (s.sc.malloc e (i.owned stsave)) e rev full ticks).map Prod.fst)
  | .remove st ps => s.table ((ipfStateRemove s.sc st ps).map Prod.fst)
  | .flushAll proto => s.table (State.flushAll s.sc proto)
  | .flushIdle which proto ticks => s.table (State.flushIdle s.sc which proto ticks)
  | .matchflush array => s.table (ipfStateMatchflush array s.sc)
  | .expire q ticks => s.table (expirePass s.sc q ticks)
  | .closing q => s.table (closingPass s.sc q)
  | .closingUser q => s.table (closingUserPass s.sc q)
  | .flushState which => s.table (statePass s.sc which)
  | .idle q since => s.table (idlePass s.sc q since)
  | .packet e q ticks => s.table (toQueue s.sc e q ticks)
  | .hold e => some { s with
      sc := s.sc.upd e fun i => { i with isRef := i.isRef + 1 }
      held := Function.update s.held e (s.held e + 1) }
  | .newToken => some { s with iptData := s.iptData ++ [none] }
  | .iter token => ipfStateIter s token
  | .close token => closeToken s token
  | .test e => derefTest s e
  | .reap e => derefDel s e

/-- New memory is not in use; a packet and those who take a reference to an entry found it on its chain;
a reference is given back by who has it. -/
def Event.Legal (s : Sys) : Event → Prop
  | .add e _ _ _ _ _ => s.sc.alloc e = false
  | .packet e _ _ | .hold e => s.sc.alloc e = true ∧ s.sc.table.pnext e ≠ none
  | .iter token | .close token => token < s.iptData.length
  | .test e => 0 < s.held e
  | .reap e => 0 < s.late e
  | _ => True

/-- **No orphan is deleted by a walk.** What `SIOCDELST` finds is on its chain, and no entry that a flush
of the whole list selects is an orphan. -/
def Event.Spares (s : Sys) : Event → Prop
  | .remove st ps => ∀ e, removeTarget s.sc st ps = some e → s.sc.table.pnext e ≠ none
  | .flushAll proto => ∀ e, s.sc.alloc e = true → s.sc.table.pnext e = none →
      proto ≠ 0 ∧ (s.sc.is e).isV ≠ proto
  | .flushIdle which proto ticks => ∀ e, s.sc.alloc e = true → s.sc.table.pnext e = none →
      (proto ≠ 0 ∧ (s.sc.is e).isV ≠ proto) ∨
        (ticks + 2 ^ 64 - s.sc.tq.tqeTouched e) % 2 ^ 64 ≤ IPF_TTLVAL which
  | .matchflush array => ∀ e, s.sc.alloc e = true → s.sc.table.pnext e = none →
      array e (s.sc.is e) (s.sc.tq.tqeTouched e) = false
  | _ => True

/-- The events from `s₀` on that all meet `ok`. -/
inductive Events (ok : Sys → Event → Prop) (s₀ : Sys) : Sys → Prop
  | init : Events ok s₀ s₀
  | step {s s' : Sys} (ev : Event) : Events ok s₀ s → ev.Legal s → ok s ev → s.next ev = some s' →
      Events ok s₀ s'

/-- An empty table that nobody holds anything of. -/
def Sys.init (w : Softs) : Sys := ⟨w, [], fun _ => 0, fun _ => 0⟩

end Ipfilter.State
