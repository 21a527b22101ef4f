import Ipfilter.Spec.Sync

/-!
# A machine and its peer

`ip_sync.c` on two machines of one architecture: what the one makes, updates and reads is written on the other.
-/

namespace Ipfilter.Sync

open Masks (Word)

variable (A : Abi)

/-! ## Messages -/

/-- What `ipf_sync_write` prints of a message that it hands on, when it is debugged: the header in host order, the entry that
the message makes or finds, and the error. -/
structure Told where
  hdr : Synchdr
  entry : Option ℕ
  err : ℕ

/-- The entry that a message makes or finds. -/
def Softs.entry (s : Softs) (sh : Synchdr) (mem : Option ℕ × Option ℕ) : Option ℕ :=
  if sh.smCmd = SMC_CREATE then mem.2
  else if sh.smTable = SMC_STATE then s.search .state (bucket sh.smNum) sh.smNum
  else s.search .nat 0 sh.smNum

/-- What `writeLoop` prints. -/
def toldLoop : ℕ → Softs → List Byte → List (Option ℕ × Option ℕ) → List Byte → List Told
  | 0, _, _, _, _ => []
  | n + 1, s, uio, mem, buf =>
    if uio = [] then []
    else if uio.length < A.hdr.size then []
    else
      let sh := A.host (A.hdr.get (uio.take A.hdr.size))
      let rest := uio.drop A.hdr.size
      if !sh.sane then []
      else if sh.smLen = 0 then []
      else if !A.fits rest.length sh.smLen then []
      else
        let len := sh.smLen.toInt.toNat
        let buf := rest.take len ++ buf.drop len
        let a := writeMessage A s sh buf (mem.headD (none, none))
        ⟨sh, s.entry sh (mem.headD (none, none)), a.2.1⟩ :: toldLoop n a.1 (rest.drop len) mem.tail buf

/-! ## Two machines -/

/-- What an update says of a connection: the ends and windows, and the states, of both directions. -/
abbrev Conn := (Tcpdata × Tcpdata) × (Word × Word)

/-- The two machines; and what was told, the headers of the records of creations and of updates that were written, and the
connections of owners as of the last update. -/
structure Pair where
  master : Softs
  peer : Softs
  told : List Told
  made : List Synchdr
  moved : List Synchdr
  last : ℕ → Option Conn

/-- What happens: an entry is made, or updated; a state or a NAT entry of the master changes; and the master is read, and what
was read is written on the peer, where `mem` is allocated and `buf` is the message buffer. -/
inductive Act where
  | new (tab : Tab) (fin : FrInfo) (o : ℕ) (ticks : Word) (mem : Option ℕ)
  | update (tab : Tab) (fin : FrInfo) (o : ℕ) (ticks : Word)
  | state (o : ℕ) (d : IpsData)
  | nat (o : ℕ) (d : NatData)
  | sync (resid : ℕ) (fault : Option Slot) (mem : List (Option ℕ × Option ℕ)) (buf : List Byte)

/-- The header of the record that an update takes a slot for. -/
def Softs.newSlot (s : Softs) (tab : Tab) (fin : FrInfo) (sl : Option ℕ) : List Synchdr :=
  match sl with
  | none => []
  | some sl => if fin.finOut = true ∧ (s.ent sl).slIdx = none then [(s.ent sl).slHdr.update A tab fin.finRev] else []

/-- The connections as of the last update. -/
def Softs.lastConn (s : Softs) (tab : Tab) (fin : FrInfo) (o : ℕ) (last : ℕ → Option Conn) : ℕ → Option Conn :=
  if tab = .state ∧ fin.finOut = true ∧ s.sync tab o ≠ none then
    Function.update last o (some ((s.ips o).tsData, (s.ips o).isState))
  else last

def act (w : Pair) : Act → Pair
  | .new tab fin o ticks mem =>
    let r := ipfSyncNew A w.master tab fin o ticks mem
    { w with
      master := r.1.setSync tab o r.2.1
      made := w.made ++ if r.2.1 = none then [] else [(r.1.synclog w.master.slIdx).sleHdr] }
  | .update tab fin o ticks =>
    { w with
      master := (ipfSyncUpdate A w.master tab fin (w.master.sync tab o) ticks).1
      moved := w.moved ++ w.master.newSlot A tab fin (w.master.sync tab o)
      last := w.master.lastConn tab fin o w.last }
  | .state o d => { w with master := w.master.updIps o fun ips => { ips with toIpsData := d } }
  | .nat o d => { w with master := w.master.updIpn o fun n => { n with toNatData := d } }
  | .sync resid fault mem buf =>
    let r := ipfSyncRead A w.master ⟨resid, fault, []⟩
    match r.2.1 with
    | .bytes b =>
      { w with
        master := r.1
        peer := (ipfSyncWrite A w.peer b mem buf).1
        told := w.told ++ toldLoop A b.length w.peer b mem buf }
    | _ => { w with master := r.1 }

end Ipfilter.Sync
