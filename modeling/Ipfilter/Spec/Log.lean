import Ipfilter.Chain.Mem
import Ipfilter.Spec.Flags

/-!
# The log queue

`ipf_log_items`, `ipf_log_read` and `ipf_log_clear` on one unit. What they do between taking and releasing `ipl_mutex` is one
step; a reader that copies a record out does not hold the mutex.

The records from `iplt` on are a list with forward pointers only, and `iplh` is a place in memory.
-/

namespace Ipfilter.IpLog

open Chain

/-- `sizeof(iplog_t)` with pointers of 64 bits. -/
def sizeofIplog : ℕ := 48

/-- A record `iplog_t` without `ipl_next`, and the data behind it. -/
structure Iplog where
  count : BitVec 32
  seqnum : BitVec 32
  dsize : ℕ
  data : List (BitVec 8)
  deriving DecidableEq

/-- A packet: `fin_off`, `fin_crc`, and the first `FI_LCSIZE` bytes of `fr_info_t`. -/
structure FrInfo (B : Type) where
  finOff : ℕ
  finCrc : BitVec 32
  bytes : B

/-- A call of `ipf_log_read` that copies a record out: `ipl`, `dlen` and `uio_resid`. -/
structure Reading where
  ipl : ℕ
  dlen : ℕ
  resid : ℕ
  deriving DecidableEq

/-- The part of `ipf_log_softc_t` for one unit, the memory of the records, and the calls that copy records out. `made` is the
number of records that were ever linked, a bound for the loop of `ipf_log_clear`. -/
structure Softl (B : Type) where
  mem : Mem Unit ℕ
  iplh : Link Unit ℕ
  ipll : Option ℕ
  used : ℤ
  logsize : ℕ
  suppress : Bool
  crc : BitVec 32 × B
  counter : BitVec 32
  logfail : BitVec 64
  logok : BitVec 64
  ipl : ℕ → Iplog
  alloc : ℕ → Bool
  made : ℕ
  reading : ℕ → Option Reading

variable {B : Type}

/-- `iplt`. -/
def Softl.iplt (w : Softl B) : Option ℕ := w.mem.head ()

/-- `KFREES`. -/
def Softl.kfrees (w : Softl B) (x : ℕ) : Softl B := { w with alloc := Function.update w.alloc x false }

/-! ## Writing -/

section Write

variable [Zero B] [DecidableEq B]

/-- Whether a packet is like the one of the last record. -/
def Softl.merges (w : Softl B) (fin : Option (FrInfo B)) : Bool :=
  match fin with
  | none => false
  | some f => w.suppress && decide (f.finOff = 0) && w.ipll.isSome && decide (f.finCrc = w.crc.1) && decide (f.bytes = w.crc.2)

omit [DecidableEq B] in
/-- What is kept of a packet to compare the next one with. -/
def Softl.remember (w : Softl B) (fin : Option (FrInfo B)) : BitVec 32 × B :=
  match w.suppress, fin with
  | false, _ => w.crc
  | true, none => (0, 0)
  | true, some f => if f.finOff = 0 then (f.finCrc, f.bytes) else (0, 0)

omit [Zero B] [DecidableEq B] in
/-- A record goes to the end of the list. -/
def Softl.link (w : Softl B) (ipl len : ℕ) : Softl B :=
  { w with
    logok := w.logok + 1
    ipll := some ipl
    mem := w.mem.set w.iplh (some ipl)
    iplh := .next ipl
    used := w.used + len
    made := w.made + 1 }

omit [Zero B] [DecidableEq B] in
/-- One more packet like the last one. -/
def Softl.again (w : Softl B) : Softl B :=
  match w.ipll with
  | none => w
  | some x => { w with ipl := Function.update w.ipl x { w.ipl x with count := (w.ipl x).count + 1 } }

/-- `ipf_log_items`, with the memory that `KMALLOCS` gives. -/
def ipfLogItems (w : Softl B) (fin : Option (FrInfo B)) (items : List (List (BitVec 8))) (buf : Option ℕ) : Softl B × ℤ :=
  let len := sizeofIplog + items.flatten.length
  let w := { w with counter := w.counter + 1 }
  if (w.logsize : ℤ) < w.used + len then ({ w with logfail := w.logfail + 1 }, -1)
  else
    match buf with
    | none => ({ w with logfail := w.logfail + 1 }, -1)
    | some ipl =>
      let w := { w with
        alloc := Function.update w.alloc ipl true
        ipl := Function.update w.ipl ipl ⟨1, w.counter, len, items.flatten⟩
        mem := w.mem.set (.next ipl) none }
      if w.merges fin then (w.again.kfrees ipl, 0)
      else ({ w with crc := w.remember fin }.link ipl len, 0)

end Write

/-! ## Reading -/

/-- The end of `ipf_log_read`. -/
def Softl.readEnd (w : Softl B) (q : ℕ) : Softl B :=
  let w := { w with reading := Function.update w.reading q none }
  if w.iplt = none then { w with used := 0, iplh := .head (), ipll := none } else w

/-- The loop of `ipf_log_read` up to the place where it drops the mutex, or to the end. -/
def Softl.readNext (w : Softl B) (q resid : ℕ) : Softl B :=
  match w.iplt with
  | none => w.readEnd q
  | some ipl =>
    let dlen := (w.ipl ipl).dsize
    if resid < dlen then w.readEnd q
    else { w with
      mem := w.mem.set (.head ()) (w.mem.next ipl)
      used := w.used - dlen
      reading := Function.update w.reading q (some ⟨ipl, dlen, resid⟩) }

/-- `ipf_log_read` up to where it sleeps or copies the first record out. The error, if it returns with one. -/
def ipfLogRead (w : Softl B) (q resid : ℕ) : Softl B × Option ℕ :=
  if resid = 0 then (w, some 0)
  else if resid < sizeofIplog then (w, some EINVAL)
  else if w.logsize < resid then (w, some EINVAL)
  else
    match w.iplt with
    | none => (w, none)
    | some _ => (w.readNext q resid, none)

/-- `ipf_log_read` after `UIOMOVE` without error. -/
def copied (w : Softl B) (q : ℕ) : Softl B :=
  match w.reading q with
  | none => w
  | some r => (w.kfrees r.ipl).readNext q (r.resid - r.dlen)

/-- `ipf_log_read` after `UIOMOVE` with an error. -/
def failed (w : Softl B) (q : ℕ) : Softl B :=
  match w.reading q with
  | none => w
  | some r =>
    { w with
      mem := (w.mem.set (.next r.ipl) w.iplt).set (.head ()) (some r.ipl)
      used := w.used + r.dlen }.readEnd q

/-! ## Clearing -/

/-- The loop of `ipf_log_clear`. -/
def clearLoop : ℕ → Softl B → Softl B
  | 0, w => w
  | i + 1, w =>
    match w.iplt with
    | none => w
    | some ipl => clearLoop i ({ w with mem := w.mem.set (.head ()) (w.mem.next ipl) }.kfrees ipl)

/-- `ipf_log_clear`: the number of bytes. -/
def ipfLogClear [Zero B] (w : Softl B) : Softl B × ℤ :=
  let w := clearLoop w.made w
  ({ w with iplh := .head (), ipll := none, used := 0, crc := (0, 0) }, w.used)

/-! ## Runs -/

/-- `ipf_log_soft_init`. -/
def init [Zero B] (logsize : ℕ) (suppress : Bool) (ipl : ℕ → Iplog) : Softl B where
  mem := Mem.empty
  iplh := .head ()
  ipll := none
  used := 0
  logsize := logsize
  suppress := suppress
  crc := (0, 0)
  counter := 0
  logfail := 0
  logok := 0
  ipl := ipl
  alloc _ := false
  made := 0
  reading _ := none

/-- A step. `tune` changes `log_size` and `log_suppress`. -/
inductive Op (B : Type) where
  | items (fin : Option (FrInfo B)) (items : List (List (BitVec 8))) (buf : Option ℕ)
  | read (q resid : ℕ)
  | copied (q : ℕ)
  | failed (q : ℕ)
  | clear
  | tune (logsize : ℕ) (suppress : Bool)

variable [Zero B] [DecidableEq B]

def step (w : Softl B) : Op B → Softl B
  | .items fin items buf => (ipfLogItems w fin items buf).1
  | .read q resid => (ipfLogRead w q resid).1
  | .copied q => IpLog.copied w q
  | .failed q => IpLog.failed w q
  | .clear => (ipfLogClear w).1
  | .tune logsize suppress => { w with logsize := logsize, suppress := suppress }

end Ipfilter.IpLog
