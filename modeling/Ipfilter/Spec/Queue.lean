import Ipfilter.Chain.Mem

/-!
# Timeout queues

The queue functions of `fil.c`: tail queues of entries that wait for their
timeout, over any type `Q` of queues and `E` of entries. An entry is linked
through `tqe_next` and `tqe_pnext`; `ifq_tail` is the place where the next entry
goes. `none` is a step through a NULL pointer.

Ticks are `u_long`, `tqe_die` and `tqe_touched` are `u_32_t`: storing a tick cuts it
to 32 bits, and `tqe_touched == ticks` compares the cut value with the whole one.
-/

namespace Ipfilter.Queue

open Chain

/-- The value of a `u_32_t` field after an assignment. -/
def u32 (n : ℕ) : ℕ := n % 2 ^ 32

def IFQF_USER : ℕ := 0x01
def IFQF_DELETE : ℕ := 0x02

/-- The queues (`ipftq_t`) and their entries (`ipftqent_t`). `mem` holds `ifq_head`,
`tqe_next` and `tqe_pnext`. -/
structure Tq (Q E : Type) where
  mem : Mem Q E
  ifqTail : Q → Link Q E
  ifqTtl : Q → ℕ
  ifqRef : Q → ℤ
  ifqFlags : Q → ℕ
  tqeIfq : E → Option Q
  tqeParent : E → ℕ
  tqeDie : E → ℕ
  tqeTouched : E → ℕ

variable {Q E : Type} [DecidableEq Q] [DecidableEq E]

/-- Initialised queues, before any entry is queued. `IPFTQ_INIT` sets `ifq_ref` to 1, and
`ipf_addtimeoutqueue` counts its callers on top of that. -/
def Tq.init (ttl flags : Q → ℕ) (ref : Q → ℤ) : Tq Q E where
  mem := Mem.empty
  ifqTail q := .head q
  ifqTtl := ttl
  ifqRef := ref
  ifqFlags := flags
  tqeIfq _ := none
  tqeParent _ := 0
  tqeDie _ := 0
  tqeTouched _ := 0

/-- `tqe_die = ticks + ifq_ttl` and `tqe_touched = ticks`. -/
def Tq.stamp (s : Tq Q E) (ticks : ℕ) (tqe : E) (ifq : Q) : Tq Q E :=
  { s with
    tqeDie := Function.update s.tqeDie tqe (u32 (ticks + s.ifqTtl ifq))
    tqeTouched := Function.update s.tqeTouched tqe (u32 ticks) }

/-- The statements that take an entry out of its queue:
`*tqe->tqe_pnext = tqe->tqe_next;` then the back pointer of the next entry, or
`ifq_tail` when there is none, becomes `tqe->tqe_pnext`. -/
def Tq.unlink (s : Tq Q E) (ifq : Q) (tqe : E) (pnext : Link Q E) : Tq Q E :=
  let mem := s.mem.set pnext (s.mem.next tqe)
  { s with
    mem := mem.setP? (mem.next tqe) (some pnext)
    ifqTail := if mem.next tqe = none then Function.update s.ifqTail ifq pnext else s.ifqTail }

/-- The statements that put an entry last:
`tqe->tqe_pnext = ifq_tail; *ifq_tail = tqe; ifq_tail = &tqe->tqe_next`. -/
def Tq.linkTail (s : Tq Q E) (ifq : Q) (tqe : E) : Tq Q E :=
  { s with
    mem := (s.mem.setP tqe (some (s.ifqTail ifq))).set (s.ifqTail ifq) (some tqe)
    ifqTail := Function.update s.ifqTail ifq (.next tqe) }

/-- `ipf_deletetimeoutqueue`; the count it returns is the new `ifqRef`. -/
def ipfDeletetimeoutqueue (s : Tq Q E) (ifq : Q) : Tq Q E :=
  let s := { s with ifqRef := Function.update s.ifqRef ifq (s.ifqRef ifq - 1) }
  if s.ifqRef ifq = 0 ∧ s.ifqFlags ifq &&& IFQF_USER ≠ 0 then
    { s with ifqFlags := Function.update s.ifqFlags ifq (s.ifqFlags ifq ||| IFQF_DELETE) }
  else s

/-- `ipf_deletequeueentry` -/
def ipfDeletequeueentry (s : Tq Q E) (tqe : E) : Option (Tq Q E) :=
  match s.tqeIfq tqe with
  | none => none
  | some ifq =>
    let s := match s.mem.pnext tqe with
      | none => s
      | some pnext =>
        let s := s.unlink ifq tqe pnext
        { s with
          mem := s.mem.setP tqe none
          tqeIfq := Function.update s.tqeIfq tqe none }
    some (ipfDeletetimeoutqueue s ifq)

/-- `ipf_queuefront` -/
def ipfQueuefront (s : Tq Q E) (tqe : E) : Option (Tq Q E) :=
  match s.tqeIfq tqe with
  | none => some s
  | some ifq =>
    if s.mem.head ifq = some tqe then some s
    else do
      let pnext ← s.mem.pnext tqe
      let s := s.unlink ifq tqe pnext
      let first ← s.mem.head ifq
      let mem := (s.mem.set (.next tqe) (some first)).setP first (some (.next tqe))
      let mem := (mem.set (.head ifq) (some tqe)).setP tqe (some (.head ifq))
      return { s with mem := mem }

/-- `ipf_queueback` -/
def ipfQueueback (s : Tq Q E) (ticks : ℕ) (tqe : E) : Option (Tq Q E) :=
  match s.tqeIfq tqe with
  | none => some s
  | some ifq =>
    let s := s.stamp ticks tqe ifq
    match s.mem.next tqe with
    | none => some s
    | some next => do
      let pnext ← s.mem.pnext tqe
      let mem := (s.mem.set pnext (some next)).setP next (some pnext)
      let s := { s with mem := mem.set (.next tqe) none }
      return s.linkTail ifq tqe

/-- `ipf_queueappend` -/
def ipfQueueappend (s : Tq Q E) (ticks : ℕ) (tqe : E) (ifq : Q) (parent : ℕ) : Tq Q E :=
  let s := { s with tqeParent := Function.update s.tqeParent tqe parent }
  let s := s.linkTail ifq tqe
  let s := { s with
    mem := s.mem.set (.next tqe) none
    tqeIfq := Function.update s.tqeIfq tqe (some ifq) }
  let s := s.stamp ticks tqe ifq
  { s with ifqRef := Function.update s.ifqRef ifq (s.ifqRef ifq + 1) }

/-- `ipf_movequeue` -/
def ipfMovequeue (s : Tq Q E) (ticks : ℕ) (tqe : E) (oifq nifq : Q) : Option (Tq Q E) :=
  if oifq = nifq ∧ s.tqeTouched tqe = ticks then some s
  else
    let s := s.stamp ticks tqe nifq
    -- nothing to move: already last, or the next entry dies at the same tick
    if oifq = nifq ∧ (∀ next ∈ s.mem.next tqe, s.tqeDie next = s.tqeDie tqe) then some s
    else do
      let pnext ← s.mem.pnext tqe
      let s := s.unlink oifq tqe pnext
      let s := { s with mem := s.mem.set (.next tqe) none }
      let s :=
        if oifq ≠ nifq then
          let s := ipfDeletetimeoutqueue { s with tqeIfq := Function.update s.tqeIfq tqe none } oifq
          { s with
            tqeIfq := Function.update s.tqeIfq tqe (some nifq)
            ifqRef := Function.update s.ifqRef nifq (s.ifqRef nifq + 1) }
        else s
      return s.linkTail nifq tqe

/-! ## A new timeout -/

def IPF_HZ_MULT : ℕ := 1
def IPF_HZ_DIVIDE : ℕ := 2

/-- `IPF_TTLVAL`: seconds in ticks, a `u_int`. -/
def IPF_TTLVAL (x : ℕ) : ℕ := u32 (x / IPF_HZ_MULT * IPF_HZ_DIVIDE)

/-- The loop of `ipf_apply_timeout`: `tqe_die += delta` for the entries from `tqe` on, of which there are at most `fuel`. -/
def applyLoop (mem : Mem Q E) (delta : ℤ) : ℕ → Option E → (E → ℕ) → E → ℕ
  | fuel + 1, some tqe, die =>
    applyLoop mem delta fuel (mem.next tqe) (Function.update die tqe ((die tqe + delta) % 2 ^ 32).toNat)
  | _, _, die => die

/-- `ipf_apply_timeout` -/
def ipfApplyTimeout (s : Tq Q E) (fuel : ℕ) (head : Q) (seconds : ℕ) : Tq Q E :=
  let oldtimeout := s.ifqTtl head
  let newtimeout := IPF_TTLVAL seconds
  -- the difference of two `u_int`, kept in an `int`
  let delta := ((oldtimeout : ℤ) - newtimeout).bmod (2 ^ 32)
  { s with
    ifqTtl := Function.update s.ifqTtl head newtimeout
    tqeDie := applyLoop s.mem delta fuel (s.mem.head head) s.tqeDie }

/-! ## Runs -/

/-- A call of one of the five functions that place entries on queues. -/
inductive Op (Q E : Type) where
  | append (tqe : E) (ifq : Q) (parent : ℕ)
  | move (tqe : E) (oifq nifq : Q)
  | back (tqe : E)
  | front (tqe : E)
  | delete (tqe : E)

/-- One call at a tick. -/
def step (s : Tq Q E) (ticks : ℕ) : Op Q E → Option (Tq Q E)
  | .append tqe ifq parent => some (ipfQueueappend s ticks tqe ifq parent)
  | .move tqe oifq nifq => ipfMovequeue s ticks tqe oifq nifq
  | .back tqe => ipfQueueback s ticks tqe
  | .front tqe => ipfQueuefront s tqe
  | .delete tqe => ipfDeletequeueentry s tqe

/-- What callers test before a call: an entry is appended when its `tqe_ifq` is NULL,
moved from the queue its `tqe_ifq` names, and deleted when its `tqe_ifq` is not NULL. -/
def Legal (s : Tq Q E) : Op Q E → Prop
  | .append tqe _ _ => s.tqeIfq tqe = none
  | .move tqe oifq _ => s.tqeIfq tqe = some oifq
  | .delete tqe => s.tqeIfq tqe ≠ none
  | .back _ | .front _ => True

/-- The queue whose ttl a call adds to the ticks. -/
def stamped (s : Tq Q E) : Op Q E → Option Q
  | .append _ ifq _ => some ifq
  | .move _ _ nifq => some nifq
  | .back tqe => s.tqeIfq tqe
  | .front _ | .delete _ => none

/-- The sum of ticks and ttl that a call stores in a `u_32_t` fits in it. -/
def Fits (s : Tq Q E) (ticks : ℕ) (op : Op Q E) : Prop :=
  ∀ ifq ∈ stamped s op, ticks + s.ifqTtl ifq < 2 ^ 32

/-- The queue a call of `ipf_queuefront` reorders. -/
def fronted (s : Tq Q E) : Op Q E → Option Q
  | .front tqe => s.tqeIfq tqe
  | _ => none

/-- The runs from `s₀`, with non-decreasing ticks, whose steps
all meet `ok`. `now` is the last tick seen; `fr` holds the queues on which
`ipf_queuefront` was used. -/
inductive Run (ok : Tq Q E → ℕ → Op Q E → Prop) (s₀ : Tq Q E) : ℕ → (Q → Prop) → Tq Q E → Prop where
  | init : Run ok s₀ 0 (fun _ => False) s₀
  | step {now : ℕ} {fr : Q → Prop} {s s' : Tq Q E} (ticks : ℕ) (op : Op Q E) :
      Run ok s₀ now fr s → now ≤ ticks → Legal s op → ok s ticks op → step s ticks op = some s' →
      Run ok s₀ ticks (fun q => fr q ∨ fronted s op = some q) s'

end Ipfilter.Queue
