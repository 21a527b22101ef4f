import Ipfilter.Spec.Tcp

/-!
# Flushing the timeout queues

`ipf_queueflush` (`fil.c`), which makes room in a table of state or NAT entries. A timeout queue is the list of its entries,
from the head on. `u_long` has 64 bits.
-/

namespace Ipfilter.Queueflush

open Tcp

variable {σ ι : Type}

abbrev Ulong := BitVec 64

def IPF_HZ_DIVIDE : ℕ := 2

def IPF_TTLVAL (x : ℕ) : Ulong := BitVec.ofNat 64 (x * IPF_HZ_DIVIDE)

/-- The fields of `ipftqent_t` that matter here. -/
structure Tqent (ι : Type) where
  tqeTouched : BitVec 32
  tqeParent : ι
deriving DecidableEq

/-- `ipftq_delete_fn_t`: it returns 0, and the entry is gone from its queue, or another number, and the entry stays. `σ` is
what else there is, with the number of active entries. -/
abbrev Deletefn (σ ι : Type) := σ → ι → σ × Bool

/-- What the loops work on: the queues, what else there is, and `removed`. -/
structure Flush (σ ι : Type) where
  ipfqs : List (List (Tqent ι))
  userqs : List (List (Tqent ι))
  rest : σ
  removed : ℕ

/-- A queue, or several, after a loop. -/
structure Swept (α σ : Type) where
  queue : α
  rest : σ
  removed : ℕ

/-- The loop over one queue, up to an entry where it stops: `tqn` is read before the entry is deleted. -/
def sweep (del : Deletefn σ ι) (stop : Tqent ι → Bool) : List (Tqent ι) → σ → ℕ → Swept (List (Tqent ι)) σ
  | [], w, removed => ⟨[], w, removed⟩
  | tqe :: q, w, removed =>
    if stop tqe then ⟨tqe :: q, w, removed⟩
    else
      let d := del w tqe.tqeParent
      if d.2 then sweep del stop q d.1 (removed + 1)
      else
        let r := sweep del stop q d.1 removed
        { r with queue := tqe :: r.queue }

/-- The loop over several queues. -/
def sweepAll (del : Deletefn σ ι) (stop : Tqent ι → Bool) :
    List (List (Tqent ι)) → σ → ℕ → Swept (List (List (Tqent ι))) σ
  | [], w, removed => ⟨[], w, removed⟩
  | q :: qs, w, removed =>
    let r := sweep del stop q w removed
    let r' := sweepAll del stop qs r.rest r.removed
    { r' with queue := r.queue :: r'.queue }

/-- All entries of `ipfqs[i]` are deleted, if they can be. -/
def Flush.clear (del : Deletefn σ ι) (i : ℕ) (f : Flush σ ι) : Flush σ ι :=
  let r := sweep del (fun _ => false) (f.ipfqs.getD i []) f.rest f.removed
  { f with ipfqs := f.ipfqs.set i r.queue, rest := r.rest, removed := r.removed }

/-- `*activep * 100 / size > low`, with numbers without sign. -/
def Flush.over (active : σ → BitVec 32) (size low : BitVec 32) (f : Flush σ ι) : Bool := low < active f.rest * 100 / size

/-- Step 1: the queues of connections that are closed. -/
def Flush.closed (del : Deletefn σ ι) (active : σ → BitVec 32) (size low : BitVec 32) (f : Flush σ ι) : Flush σ ι :=
  let f := f.clear del IPF_TCPS_CLOSED
  if f.over active size low then f.clear del IPF_TCPS_TIME_WAIT else f

/-- The window of step 2. -/
structure Window where
  istart : Ulong
  interval : Ulong
  iend : Ulong
deriving DecidableEq

/-- `istart` and `interval` by the time that there has been, with `none` where the function returns 0. -/
def firstStart (ticks : Ulong) : Option (Ulong × Ulong) :=
  -- "* 15 / 10" is "* 1.5" without floating point
  if ticks > IPF_TTLVAL (43200 * 15 / 10) then some (IPF_TTLVAL (86400 * 4), IPF_TTLVAL 43200)
  else if ticks > IPF_TTLVAL (1800 * 15 / 10) then some (IPF_TTLVAL 43200, IPF_TTLVAL 1800)
  else if ticks > IPF_TTLVAL (30 * 15 / 10) then some (IPF_TTLVAL 1800, IPF_TTLVAL 30)
  else none

/-- The window at the start of step 2. -/
def Window.first (ticks istart interval : Ulong) : Window where
  istart :=
    if istart > ticks then
      if ticks - interval < interval then interval else ticks / interval * interval
    else istart
  interval := interval
  iend := ticks - interval

/-- A turn of the `while` loop over the queues; `since` is the variable `try`. -/
def Flush.turn (del : Deletefn σ ι) (since : Ulong) (f : Flush σ ι) : Flush σ ι :=
  let stop (tqe : Tqent ι) : Bool := since < tqe.tqeTouched.zeroExtend 64
  let r := sweepAll del stop f.ipfqs f.rest f.removed
  let r' := sweepAll del stop f.userqs r.rest r.removed
  ⟨r.queue, r'.queue, r'.rest, r'.removed⟩

/-- The interval after one of which all windows have been looked at. -/
def smaller (interval : Ulong) : Option Ulong :=
  if interval = IPF_TTLVAL 43200 then some (IPF_TTLVAL 1800)
  else if interval = IPF_TTLVAL 1800 then some (IPF_TTLVAL 30)
  else none

/-- The end of the loop's body, with `none` for `break`. -/
def Window.next (ticks : Ulong) (w : Window) : Option Window :=
  if ticks - w.istart ≥ w.iend then
    match smaller w.interval with
    | none => none
    | some interval =>
      if interval ≥ ticks then none else some ⟨w.istart - interval, interval, ticks - interval⟩
  else some { w with istart := w.istart - w.interval }

/-- The `while` loop, with room for `n` turns. -/
def flushLoop (del : Deletefn σ ι) (active : σ → BitVec 32) (size low : BitVec 32) (ticks : Ulong) :
    ℕ → Window → Flush σ ι → Option (Flush σ ι)
  | 0, _, f => if f.over active size low then none else some f
  | n + 1, w, f =>
    if f.over active size low then
      let f := f.turn del (ticks - w.istart)
      match w.next ticks with
      | none => some f
      | some w => flushLoop del active size low ticks n w f
    else some f

/-- `ipf_queueflush`, with room for `n` turns of its loop; the number is what it returns. -/
def ipfQueueflush (del : Deletefn σ ι) (active : σ → BitVec 32) (size low : BitVec 32) (ticks : Ulong) (n : ℕ)
    (ipfqs userqs : List (List (Tqent ι))) (rest : σ) : Option (Flush σ ι × ℕ) :=
  let f := Flush.closed del active size low ⟨ipfqs, userqs, rest, 0⟩
  if f.over active size low then
    match firstStart ticks with
    | none => some (f, 0)
    | some (istart, interval) =>
      (flushLoop del active size low ticks n (.first ticks istart interval) f).map fun f => (f, f.removed)
  else some (f, f.removed)

end Ipfilter.Queueflush
