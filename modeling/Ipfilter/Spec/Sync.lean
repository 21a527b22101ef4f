import Ipfilter.Chain.Linked
import Ipfilter.Spec.Masks

/-!
# Synchronisation with a peer

`ip_sync.c`: the tables of what is in sync (`synclist_t`), the log of creations (`synclogent_t`) and the buffer of updates
(`syncupdent_t`) that a daemon reads, and the messages that it writes on the other machine.

Each function also gives the places that it touches (`Touch`), so that one can say which of them exist.
-/

namespace Ipfilter.Sync

open Chain
open Masks (Word Machine)

abbrev Byte := BitVec 8

abbrev Half := BitVec 16

/-- The two bytes of a half word in the opposite order. -/
def bswap16 (x : Half) : Half := x.extractLsb' 0 8 ++ x.extractLsb' 8 8

def htons (M : Machine) (x : Half) : Half := if M.little then bswap16 x else x

def ntohs (M : Machine) (x : Half) : Half := if M.little then bswap16 x else x

/-! ## Constants -/

def SYNHDRMAGIC : Word := 0x0FF51DE5
def SMC_CREATE : Byte := 0
def SMC_UPDATE : Byte := 1
def SMC_MAXCMD : Byte := 1
def SMC_NAT : Byte := 0
def SMC_STATE : Byte := 1
def SMC_MAXTBL : Byte := 1
def IPPROTO_TCP : Byte := 6
def SYNC_STATETABSZ : Word := 256
def SYNC_NATTABSZ : Word := 256
def SYNCLOG_SZ : ℕ := 256

def EAGAIN : ℕ := 11
def EINVAL : ℕ := 22
def ENOENT : ℕ := 2
def ENOMEM : ℕ := 12
def EFAULT : ℕ := 14

/-- The two tables. -/
inductive Tab where
  | nat
  | state
  deriving DecidableEq

def Tab.code : Tab → Byte
  | .nat => SMC_NAT
  | .state => SMC_STATE

/-! ## Data -/

/-- `synchdr_t`. Its pointer `sm_sl` is only looked at in the buffer of updates, and kept there. -/
structure Synchdr where
  smMagic : Word
  smV : Byte
  smP : Byte
  smCmd : Byte
  smTable : Byte
  smNum : Word
  smRev : Word
  smLen : Word
  deriving DecidableEq

/-- `tcpdata_t`, what is sent of it -/
structure Tcpdata where
  tdEnd : Word
  tdMaxend : Word
  tdMaxwin : Word
  deriving DecidableEq

/-- `synctcp_update_t` -/
structure SynctcpUpdate where
  stuAge : Word
  stuData : Tcpdata × Tcpdata
  stuState : Word × Word
  deriving DecidableEq

/-- `ipstate_t` from `is_die` on, the fields that are converted or looked at here -/
structure IpsData where
  isDie : Word
  isState : Word × Word
  isPass : Word
  isHv : Word
  isOpt : Word × Word
  isOptmsk : Word × Word
  isSec : Half
  isSecmsk : Half
  isAuth : Half
  isAuthmsk : Half
  tsData : Tcpdata × Tcpdata
  isFlags : Word
  isRulen : Word
  isS0 : Word × Word
  isSmsk : Half × Half
  isGroup : BitVec 128
  deriving DecidableEq

/-- `ipstate_t`: what is sent, and the pointers to the entry and to the rule. -/
structure Ipstate extends IpsData where
  isSync : Option ℕ
  isRule : Option ℕ

/-- `nat_t` from `nat_age` on, the fields that are converted or looked at here -/
structure NatData where
  natAge : Word
  natFlags : Word
  natIpsumd : Word
  natUse : Word
  natDir : Word
  natRev : Word
  deriving DecidableEq

/-- `nat_t`: what is sent, and the pointer to the entry. -/
structure NatT extends NatData where
  natSync : Option ℕ

/-- `synclist_t`, without its links. `slIdx` is `none` for `-1`. -/
structure Synclist where
  slIdx : Option ℕ
  slHdr : Synchdr
  slPtr : Option ℕ

/-- `synclogent_t`. The union of a state and a NAT entry is kept as the bytes that it has. -/
structure Synclogent where
  sleHdr : Synchdr
  sleUn : List Byte

/-- `syncupdent_t` -/
structure Syncupdent where
  supHdr : Synchdr
  supSl : Option ℕ
  supTcp : SynctcpUpdate

/-- The references that a rule of the slave counts. -/
structure Frentry where
  frRef : ℤ
  frStatecnt : ℤ

/-- How a type lies in memory. -/
structure Layout (α : Type) where
  size : ℕ
  put : α → List Byte
  get : List Byte → α
  length_put : ∀ a, (put a).length = size
  get_put : ∀ a, get (put a) = a

/-- What a state entry keeps while it is put into its table and on its timeout queue. -/
def Ipstate.kept (is : Ipstate) : Option ℕ × (Tcpdata × Tcpdata) × (Word × Word) := (is.isSync, is.tsData, is.isState)

/-- **What the code takes from elsewhere:** byte order and layout of the machine, whether `uio_resid` has a sign, the rule of a
group and number, and what the insertion into the tables of states and of NAT entries and the choice of a timeout queue do to
an entry: they set links, a hash and a time of death. -/
structure Abi where
  M : Machine
  hdr : Layout Synchdr
  state : Layout IpsData
  nat : Layout NatData
  tcp : Layout SynctcpUpdate
  residSigned : Bool
  getrulen : BitVec 128 → Word → Option ℕ
  stateInsert : Ipstate → Word → Ipstate
  stateSetqueue : Ipstate → Word → Ipstate
  natInsert : NatT → NatT
  natSetqueue : NatT → NatT
  stateInsert_kept : ∀ is rev, (stateInsert is rev).kept = is.kept
  stateSetqueue_kept : ∀ is rev, (stateSetqueue is rev).kept = is.kept
  natInsert_sync : ∀ n, (natInsert n).natSync = n.natSync
  natSetqueue_sync : ∀ n, (natSetqueue n).natSync = n.natSync

variable (A : Abi)

/-- `sizeof(synclogent_t)` -/
def Abi.logSize : ℕ := A.hdr.size + max A.state.size A.nat.size

/-- `sizeof(syncupdent_t)` -/
def Abi.updSize : ℕ := A.hdr.size + A.tcp.size

/-- `ipf_sync_softc_t`, the memory, and the entries that are in sync. `alloc` are the entries that exist. -/
structure Softs where
  chain : Mem (Tab × ℕ) ℕ
  ent : ℕ → Synclist
  alloc : List ℕ
  synclog : ℕ → Synclogent
  syncupd : ℕ → Syncupdent
  ipfSyncNum : Word
  ipfSyncWrap : Word
  slIdx : ℕ
  suIdx : ℕ
  slTail : ℕ
  suTail : ℕ
  ipfSyncLogSz : ℕ
  ipfSyncEvents : ℕ
  ipfSyncLastwakeup : Word
  ipfSyncWakeInterval : Word
  ipfSyncEventHighWm : ℕ
  ipfSyncQueueHighWm : ℕ
  ips : ℕ → Ipstate
  ipn : ℕ → NatT
  fr : ℕ → Frentry

/-- A place that is touched: a slot of `synclog` or `syncupd`, the message buffer with so many bytes stored, and so many bytes
of a message whose header says that it has `len`. -/
inductive Touch where
  | synclog (i : ℕ)
  | syncupd (i : ℕ)
  | data (n : ℕ)
  | message (n : ℕ) (len : ℤ)

/-- `fr_info_t` -/
structure FrInfo where
  finV : Byte
  finP : Byte
  finRev : Word
  finOut : Bool

def Softs.updEnt (s : Softs) (sl : ℕ) (f : Synclist → Synclist) : Softs :=
  { s with ent := Function.update s.ent sl (f (s.ent sl)) }

def Softs.updIps (s : Softs) (o : ℕ) (f : Ipstate → Ipstate) : Softs :=
  { s with ips := Function.update s.ips o (f (s.ips o)) }

def Softs.updIpn (s : Softs) (o : ℕ) (f : NatT → NatT) : Softs := { s with ipn := Function.update s.ipn o (f (s.ipn o)) }

def Softs.updSlot (s : Softs) (i : ℕ) (f : Syncupdent → Syncupdent) : Softs :=
  { s with syncupd := Function.update s.syncupd i (f (s.syncupd i)) }

/-- `is_sync` or `nat_sync` of an owner -/
def Softs.sync (s : Softs) : Tab → ℕ → Option ℕ
  | .nat, o => (s.ipn o).natSync
  | .state, o => (s.ips o).isSync

def Softs.setSync (s : Softs) (t : Tab) (o : ℕ) (v : Option ℕ) : Softs :=
  match t with
  | .nat => s.updIpn o fun n => { n with natSync := v }
  | .state => s.updIps o fun n => { n with isSync := v }

/-! ## Byte order -/

/-- `ipf_sync_tcporder`. `td_maxwin` has 32 bits. -/
def ipfSyncTcporder (way : Bool) (td : Tcpdata) : Tcpdata :=
  if way then ⟨A.M.htonl td.tdEnd, A.M.htonl td.tdMaxend, (htons A.M (td.tdMaxwin.setWidth 16)).setWidth 32⟩
  else ⟨A.M.ntohl td.tdEnd, A.M.ntohl td.tdMaxend, (ntohs A.M (td.tdMaxwin.setWidth 16)).setWidth 32⟩

/-- `ipf_sync_natorder` -/
def ipfSyncNatorder (way : Bool) (n : NatData) : NatData :=
  let order := if way then A.M.htonl else A.M.ntohl
  { n with
    natAge := order n.natAge
    natFlags := order n.natFlags
    natIpsumd := order n.natIpsumd
    natUse := order n.natUse
    natDir := order n.natDir }

/-- `ipf_sync_storder` -/
def ipfSyncStorder (way : Bool) (ips : IpsData) : IpsData :=
  let order := if way then A.M.htonl else A.M.ntohl
  let order16 := if way then htons A.M else ntohs A.M
  -- `is_smsk` is sent with `htons` and received with `ntohl`
  let smsk := fun x : Half => if way then htons A.M x else (A.M.ntohl (x.setWidth 32)).setWidth 16
  { ips with
    tsData := (ipfSyncTcporder A way ips.tsData.1, ipfSyncTcporder A way ips.tsData.2)
    isHv := order ips.isHv
    isDie := order ips.isDie
    isPass := order ips.isPass
    isFlags := order ips.isFlags
    isOpt := (order ips.isOpt.1, order ips.isOpt.2)
    isOptmsk := (order ips.isOptmsk.1, order ips.isOptmsk.2)
    isSec := order16 ips.isSec
    isSecmsk := order16 ips.isSecmsk
    isAuth := order16 ips.isAuth
    isAuthmsk := order16 ips.isAuthmsk
    isS0 := (order ips.isS0.1, order ips.isS0.2)
    isSmsk := (smsk ips.isSmsk.1, smsk ips.isSmsk.2) }

/-! ## Wakeups -/

/-- `ipf_sync_poll_wakeup` -/
def ipfSyncPollWakeup (s : Softs) (ticks : Word) : Softs := { s with ipfSyncEvents := 0, ipfSyncLastwakeup := ticks }

/-- `ipf_sync_wakeup` -/
def ipfSyncWakeup (s : Softs) (ticks : Word) : Softs :=
  let s := { s with ipfSyncEvents := s.ipfSyncEvents + 1 }
  if s.ipfSyncLastwakeup + s.ipfSyncWakeInterval < ticks ∨ s.ipfSyncEventHighWm < s.ipfSyncEvents ∨
      s.ipfSyncQueueHighWm < (BitVec.ofNat 32 s.slTail - BitVec.ofNat 32 s.slIdx).toNat ∨
      s.ipfSyncQueueHighWm < (BitVec.ofNat 32 s.suTail - BitVec.ofNat 32 s.suIdx).toNat then
    ipfSyncPollWakeup s ticks
  else s

/-! ## Tables -/

/-- `num & (tab_sz - 1)`; both tables have the same size -/
def bucket (num : Word) : ℕ := (num &&& (SYNC_STATETABSZ - 1)).toNat

/-- Look for a number in a bucket: `for (sl = table[hv]; sl != NULL; sl = sl->sl_next) if (sl->sl_hdr.sm_num == num) break`. -/
def Softs.search (s : Softs) (tab : Tab) (hv : ℕ) (num : Word) : Option ℕ :=
  s.chain.get (s.chain.seek (fun sl => (s.ent sl).slHdr.smNum != num) s.alloc.length (.head (tab, hv)))

/-- The loop over numbers that are in use; there are `2 ^ 32` numbers. -/
def Softs.freeNum (s : Softs) (tab : Tab) : ℕ → Word → Word
  | 0, num => num
  | i + 1, num => if s.search tab (bucket num) num = none then num else s.freeNum tab i (num + 1)

/-- `ipf_sync_num++; if (ipf_sync_num == 0) { ipf_sync_num = 1; ipf_sync_wrap++ }` -/
def Softs.nextNum (s : Softs) : Word := if s.ipfSyncNum + 1 = 0 then 1 else s.ipfSyncNum + 1

def Softs.nextWrap (s : Softs) : Word := if s.ipfSyncNum + 1 = 0 then s.ipfSyncWrap + 1 else s.ipfSyncWrap

/-- The number of a new entry. Numbers are only looked for after a wrap. -/
def Softs.newNum (s : Softs) (tab : Tab) : Word :=
  if s.nextWrap ≠ 0 then s.freeNum tab (2 ^ 32) s.nextNum else s.nextNum

/-- The header of a new entry. -/
def newHdr (tab : Tab) (fin : FrInfo) (num : Word) : Synchdr :=
  ⟨A.M.htonl SYNHDRMAGIC, fin.finV, fin.finP, SMC_CREATE, tab.code, num, fin.finRev,
    BitVec.ofNat 32 (match tab with
      | .state => A.state.size
      | .nat => A.nat.size)⟩

/-- The record of a new entry. The union keeps what it has after the bytes that are stored. -/
def newLog (s : Softs) (tab : Tab) (ptr : ℕ) (hdr : Synchdr) (old : List Byte) : Synclogent :=
  let un := match tab with
    | .state => A.state.put (ipfSyncStorder A true (s.ips ptr).toIpsData)
    | .nat => A.nat.put (ipfSyncNatorder A true (s.ipn ptr).toNatData)
  ⟨{ hdr with smNum := A.M.htonl hdr.smNum, smLen := A.M.htonl hdr.smLen }, un ++ old.drop un.length⟩

/-- The new entry `sl` in its table, and its record. -/
def ipfSyncEnter (s : Softs) (tab : Tab) (fin : FrInfo) (ptr sl : ℕ) : Softs :=
  let num := s.newNum tab
  let hv := bucket num
  let hdr := newHdr A tab fin num
  { s with
    -- the back link of the entry that was first stays as it is
    chain := ((s.chain.setP sl (some (.head (tab, hv)))).set (.next sl) (s.chain.head (tab, hv))).set (.head (tab, hv))
      (some sl)
    ent := Function.update s.ent sl ⟨none, hdr, some ptr⟩
    alloc := sl :: s.alloc
    ipfSyncNum := num
    ipfSyncWrap := s.nextWrap
    synclog := Function.update s.synclog s.slIdx (newLog A s tab ptr hdr (s.synclog s.slIdx).sleUn)
    slIdx := s.slIdx + 1 }

/-- `ipf_sync_new`. `mem` is what `KMALLOC` gives. -/
def ipfSyncNew (s : Softs) (tab : Tab) (fin : FrInfo) (ptr : ℕ) (ticks : Word) (mem : Option ℕ) :
    Softs × Option ℕ × List Touch :=
  if s.slIdx = s.ipfSyncLogSz then (s, none, [])
  else match mem with
  | none => (s, none, [])
  | some sl => (ipfSyncWakeup (ipfSyncEnter A s tab fin ptr sl) ticks, some sl, [.synclog s.slIdx])

/-- The header of an update. -/
def Synchdr.update (h : Synchdr) (tab : Tab) (rev : Word) : Synchdr :=
  { h with
    smMagic := A.M.htonl SYNHDRMAGIC
    smCmd := SMC_UPDATE
    smTable := tab.code
    smNum := A.M.htonl h.smNum
    smLen := A.M.htonl (BitVec.ofNat 32 A.tcp.size)
    smRev := rev }

/-- What an update says about a connection. -/
def Ipstate.tcpUpdate (ips : Ipstate) : SynctcpUpdate := ⟨A.M.htonl ips.isDie, ips.tsData, ips.isState⟩

/-- `ipf_sync_update` -/
def ipfSyncUpdate (s : Softs) (tab : Tab) (fin : FrInfo) (sl : Option ℕ) (ticks : Word) : Softs × List Touch :=
  match sl with
  | none => (s, [])
  | some sl =>
    if fin.finOut = false then (s, [])
    else
      let i := (s.ent sl).slIdx.getD s.suIdx
      -- an entry without a slot takes the next one, whether there is one or not
      let s₁ := match (s.ent sl).slIdx with
        | some _ => s
        | none => { s.updEnt sl (fun e => { e with slIdx := some i }) with
            suIdx := s.suIdx + 1
            syncupd := Function.update s.syncupd i { s.syncupd i with
              supHdr := (s.ent sl).slHdr.update A tab fin.finRev
              supSl := some sl } }
      let s₂ := if fin.finP = IPPROTO_TCP then s₁.updSlot i fun slu => { slu with
            supTcp := match tab, (s.ent sl).slPtr with
              | .state, some o => (s.ips o).tcpUpdate A
              | .nat, some o => { slu.supTcp with stuAge := A.M.htonl (s.ipn o).natAge }
              | _, none => slu.supTcp }
        else s₁
      (ipfSyncWakeup s₂ ticks, [.syncupd i])

/-- `if (sl->sl_idx != -1) softs->syncupd[sl->sl_idx].sup_hdr.sm_sl = NULL` -/
def Softs.forget (s : Softs) (sl : ℕ) : Softs × List Touch :=
  match (s.ent sl).slIdx with
  | none => (s, [])
  | some i => (s.updSlot i fun slu => { slu with supSl := none }, [.syncupd i])

/-- `*sl->sl_pnext = sl->sl_next; if (sl->sl_next != NULL) sl->sl_next->sl_pnext = sl->sl_pnext` -/
def unlinkEnt (m : Mem (Tab × ℕ) ℕ) (sl : ℕ) : Mem (Tab × ℕ) ℕ :=
  match m.pnext sl with
  | none => m
  | some k => (m.set k (m.next sl)).setP? ((m.set k (m.next sl)).next sl) (some k)

/-- `ipf_sync_del` -/
def ipfSyncDel (s : Softs) (sl : ℕ) : Softs × List Touch := { s with chain := unlinkEnt s.chain sl }.forget sl

/-- `ipf_sync_del_state`, `ipf_sync_del_nat` -/
def ipfSyncDelTab (s : Softs) (sl : ℕ) : Softs × List Touch :=
  let r := ipfSyncDel s sl
  ({ r.1 with alloc := r.1.alloc.filter (· ≠ sl) }, r.2)

/-- The owner of an entry forgets it, as the table says that the entry names. -/
def Softs.disown (s : Softs) (sl : ℕ) : Softs :=
  match (s.ent sl).slPtr with
  | none => s
  | some o =>
    if (s.ent sl).slHdr.smTable = SMC_STATE then s.setSync .state o none
    else if (s.ent sl).slHdr.smTable = SMC_NAT then s.setSync .nat o none
    else s

/-- One entry of `ipf_sync_flush_table` -/
def flushEntry (s : Softs) (tab : Tab) (i sl : ℕ) : Softs × List Touch :=
  let s₁ := s.disown sl
  let chain := (s₁.chain.setP? (s₁.chain.next sl) (s₁.chain.pnext sl)).set (.head (tab, i)) (s₁.chain.next sl)
  let r := { s₁ with chain := chain }.forget sl
  ({ r.1 with alloc := r.1.alloc.filter (· ≠ sl) }, r.2)

/-- `while ((sl = table[i]) != NULL)`, over at most so many entries; gives their number. -/
def flushBucket (tab : Tab) (i : ℕ) : ℕ → Softs → Softs × ℕ × List Touch
  | 0, s => (s, 0, [])
  | n + 1, s =>
    match s.chain.head (tab, i) with
    | none => (s, 0, [])
    | some sl =>
      let r := flushEntry s tab i sl
      let q := flushBucket tab i n r.1
      (q.1, q.2.1 + 1, r.2 ++ q.2.2)

/-- The buckets from `i` on. -/
def flushBuckets (tab : Tab) : ℕ → ℕ → Softs → Softs × ℕ × List Touch
  | _, 0, s => (s, 0, [])
  | i, n + 1, s =>
    let r := flushBucket tab i s.alloc.length s
    let q := flushBuckets tab (i + 1) n r.1
    (q.1, r.2.1 + q.2.1, r.2.2 ++ q.2.2)

/-- `ipf_sync_flush_table` -/
def ipfSyncFlushTable (s : Softs) (tab : Tab) : Softs × ℕ × List Touch := flushBuckets tab 0 SYNC_NATTABSZ.toNat s

/-- `ipf_sync_ioctl` with `SMC_RLOG` -/
def ipfSyncRlog (s : Softs) : Softs := { s with slIdx := 0, suIdx := 0, slTail := 0, suTail := 0 }

/-! ## Reading -/

/-- A slot of the log or of the buffer of updates. -/
inductive Slot where
  | log (i : ℕ)
  | upd (i : ℕ)
  deriving DecidableEq

/-- Where the records that are read go: the room that is left, what was stored, and the slot that cannot be copied out, if there
is one. -/
structure Uio where
  resid : ℕ
  fault : Option Slot
  out : List Byte

/-- `UIOMOVE(.., UIO_READ, uio)` of a slot -/
def Uio.move (u : Uio) (at' : Slot) (bytes : List Byte) : Option Uio :=
  if u.fault = some at' then none else some { u with resid := u.resid - bytes.length, out := u.out ++ bytes }

def Abi.logBytes (sle : Synclogent) : List Byte := A.hdr.put sle.sleHdr ++ sle.sleUn

def Abi.updBytes (slu : Syncupdent) : List Byte := A.hdr.put slu.supHdr ++ A.tcp.put slu.supTcp

/-- The loop over the log, at most so many times; `none` after an error. -/
def readLog : ℕ → Softs → Uio → Softs × Option Uio × List Touch
  | 0, s, u => (s, some u, [])
  | n + 1, s, u =>
    if s.slTail < s.slIdx ∧ A.logSize < u.resid then
      let s' := { s with slTail := s.slTail + 1 }
      match u.move (.log s.slTail) (A.logBytes (s.synclog s.slTail)) with
      | none => (s', none, [.synclog s.slTail])
      | some u =>
        let r := readLog n s' u
        (r.1, r.2.1, .synclog s.slTail :: r.2.2)
    else (s, some u, [])

/-- `if (su->sup_hdr.sm_sl != NULL) su->sup_hdr.sm_sl->sl_idx = -1` -/
def Softs.untie (s : Softs) (su : Syncupdent) : Softs :=
  match su.supSl with
  | none => s
  | some sl => s.updEnt sl fun e => { e with slIdx := none }

/-- The loop over the updates, at most so many times. -/
def readUpd : ℕ → Softs → Uio → Softs × Option Uio × List Touch
  | 0, s, u => (s, some u, [])
  | n + 1, s, u =>
    if s.suTail < s.suIdx ∧ A.updSize < u.resid then
      let su := s.syncupd s.suTail
      let s' := { s with suTail := s.suTail + 1 }
      match u.move (.upd s.suTail) (A.updBytes su) with
      | none => (s', none, [.syncupd s.suTail])
      | some u =>
        let r := readUpd n (s'.untie su) u
        (r.1, r.2.1, .syncupd s.suTail :: r.2.2)
    else (s, some u, [])

/-- What `ipf_sync_read` gives. -/
inductive Got where
  | err (e : ℕ)
  | sleeps
  | bytes (b : List Byte)

/-- `if (tail == idx) tail = idx = 0`, for both -/
def Softs.rewind (s : Softs) : Softs :=
  let s := if s.slTail = s.slIdx then { s with slTail := 0, slIdx := 0 } else s
  if s.suTail = s.suIdx then { s with suTail := 0, suIdx := 0 } else s

/-- `ipf_sync_read`. With nothing to read the caller sleeps, and other calls come first. -/
def ipfSyncRead (s : Softs) (u : Uio) : Softs × Got × List Touch :=
  if u.resid % 4 ≠ 0 ∨ u.resid < 8 then (s, .err EINVAL, [])
  else if s.slTail = s.slIdx ∧ s.suTail = s.suIdx then (s, .sleeps, [])
  else
    let l := readLog A (s.slIdx - s.slTail) s u
    match l.2.1 with
    | none => (l.1, .err EFAULT, l.2.2)
    | some u =>
      let r := readUpd A (s.suIdx - s.suTail) l.1 u
      match r.2.1 with
      | none => (r.1, .err EFAULT, l.2.2 ++ r.2.2)
      | some u => (r.1.rewind, .bytes u.out, l.2.2 ++ r.2.2)

/-! ## Writing -/

/-- What a handler answers: the state, an error or 0, and how many bytes of the message it read. -/
abbrev Answer := Softs × ℕ × ℕ

/-- `SMC_CREATE` in `ipf_sync_state`. `mem` are what the two calls of `KMALLOC` give. -/
def ipfSyncStateCreate (s : Softs) (sp : Synchdr) (data : List Byte) (mem : Option ℕ × Option ℕ) : Answer :=
  match mem with
  | (none, _) => (s, ENOMEM, A.state.size)
  | (some _, none) => (s, ENOMEM, A.state.size)
  | (some o, some sl) =>
    let sn := A.state.get (data.take A.state.size)
    let fr := A.getrulen sn.isGroup sn.isRulen
    -- the fields before `is_die` are cleared, and of these only the rule and the entry are set
    let is : Ipstate := { toIpsData := ipfSyncStorder A false sn, isRule := fr, isSync := some sl }
    let hv := bucket sp.smNum
    let frs := match fr with
      | none => s.fr
      | some r => Function.update s.fr r ⟨(s.fr r).frRef + 1, (s.fr r).frStatecnt + 1⟩
    ({ s with
        chain := s.chain.link sl (.head (.state, hv))
        ent := Function.update s.ent sl ⟨none, sp, some o⟩
        alloc := sl :: s.alloc
        ips := Function.update s.ips o (A.stateInsert is sp.smRev)
        fr := frs }, 0, A.state.size)

/-- What an update does to a state entry. -/
def Ipstate.take (ips : Ipstate) (su : SynctcpUpdate) (p : Byte) : Ipstate :=
  if p = IPPROTO_TCP then { ips with tsData := su.stuData, isState := su.stuState } else ips

/-- `SMC_UPDATE` in `ipf_sync_state` -/
def ipfSyncStateUpdate (s : Softs) (sp : Synchdr) (data : List Byte) : Answer :=
  match s.search .state (bucket sp.smNum) sp.smNum with
  | none => (s, ENOENT, A.tcp.size)
  | some sl =>
    match (s.ent sl).slPtr with
    | none => (s, 0, A.tcp.size)
    | some o =>
      (s.updIps o fun ips => A.stateSetqueue (ips.take (A.tcp.get (data.take A.tcp.size)) sp.smP) sp.smRev, 0, A.tcp.size)

/-- `ipf_sync_state` -/
def ipfSyncState (s : Softs) (sp : Synchdr) (data : List Byte) (mem : Option ℕ × Option ℕ) : Answer :=
  if sp.smCmd = SMC_CREATE then ipfSyncStateCreate A s sp data mem
  else if sp.smCmd = SMC_UPDATE then ipfSyncStateUpdate A s sp data
  else (s, EINVAL, 0)

/-- `SMC_CREATE` in `ipf_sync_nat`. The header of the message is not copied: of that of the entry only the number is set. -/
def ipfSyncNatCreate (s : Softs) (sp : Synchdr) (data : List Byte) (mem : Option ℕ × Option ℕ) : Answer :=
  match mem with
  | (none, _) => (s, ENOMEM, 0)
  | (some _, none) => (s, ENOMEM, 0)
  | (some o, some sl) =>
    let e := s.ent sl
    let n : NatT := { ipfSyncNatorder A false (A.nat.get (data.take A.nat.size)) with
        natRev := e.slHdr.smRev
        natSync := some sl }
    ({ s with
        chain := s.chain.link sl (.head (.nat, 0))
        ent := Function.update s.ent sl ⟨none, { e.slHdr with smNum := A.M.ntohl sp.smNum }, some o⟩
        alloc := sl :: s.alloc
        ipn := Function.update s.ipn o (A.natInsert n) }, 0, A.nat.size)

/-- `SMC_UPDATE` in `ipf_sync_nat`, which copies a whole `syncupdent_t` -/
def ipfSyncNatUpdate (s : Softs) (sp : Synchdr) : Answer :=
  match s.search .nat 0 sp.smNum with
  | none => (s, ENOENT, A.updSize)
  | some sl =>
    match (s.ent sl).slPtr with
    | none => (s, 0, A.updSize)
    | some o => (s.updIpn o fun n => A.natSetqueue { n with natRev := (s.ent sl).slHdr.smRev }, 0, A.updSize)

/-- `ipf_sync_nat` -/
def ipfSyncNat (s : Softs) (sp : Synchdr) (data : List Byte) (mem : Option ℕ × Option ℕ) : Answer :=
  if sp.smCmd = SMC_CREATE then ipfSyncNatCreate A s sp data mem
  else if sp.smCmd = SMC_UPDATE then ipfSyncNatUpdate A s sp
  else (s, EINVAL, 0)

/-- The header of a message in host order. -/
def Abi.host (sh : Synchdr) : Synchdr :=
  { sh with smMagic := A.M.ntohl sh.smMagic, smLen := A.M.ntohl sh.smLen, smNum := A.M.ntohl sh.smNum }

/-- The checks of `ipf_sync_write` on a header. -/
def Synchdr.sane (sh : Synchdr) : Bool :=
  sh.smMagic == SYNHDRMAGIC && (sh.smV == 4 || sh.smV == 6) && sh.smCmd ≤ SMC_MAXCMD && sh.smTable ≤ SMC_MAXTBL

/-- `uio->uio_resid >= sh.sm_len` -/
def Abi.fits (resid : ℕ) (len : Word) : Bool := if len.toInt < 0 then A.residSigned else len.toInt ≤ resid

/-- `sizeof(data)` -/
def DATA_SIZE : ℕ := 2048

/-- One message of `ipf_sync_write`: the header was read, and `rest` follows. Gives the answer of the handler and what is left,
or an error. `buf` is the message buffer. -/
def writeMessage (s : Softs) (sh : Synchdr) (buf : List Byte) (mem : Option ℕ × Option ℕ) : Answer :=
  if sh.smTable = SMC_STATE then ipfSyncState A s sh buf mem
  else if sh.smTable = SMC_NAT then ipfSyncNat A s sh buf mem
  else (s, 0, 0)

/-- `ipf_sync_write` on a stream of bytes, at most so many messages: `err` is the error of the last message. The memory that is
allocated for the messages is `mem`, and `buf` the message buffer. -/
def writeLoop : ℕ → Softs → List Byte → List (Option ℕ × Option ℕ) → List Byte → ℕ →
    Softs × ℕ × List Touch
  | 0, s, _, _, _, err => (s, err, [])
  | n + 1, s, uio, mem, buf, err =>
    if uio = [] then (s, err, [])
    else if uio.length < A.hdr.size then (s, EAGAIN, [])
    else
      let sh := A.host (A.hdr.get (uio.take A.hdr.size))
      let rest := uio.drop A.hdr.size
      if !sh.sane then (s, EINVAL, [])
      else if sh.smLen = 0 then (s, EINVAL, [])
      else if !A.fits rest.length sh.smLen then (s, EAGAIN, [])
      else
        let len := sh.smLen.toInt.toNat
        let buf := rest.take len ++ buf.drop len
        let a := writeMessage A s sh buf (mem.headD (none, none))
        let r := writeLoop n a.1 (rest.drop len) mem.tail buf a.2.1
        (r.1, r.2.1, .data len :: .message a.2.2 sh.smLen.toInt :: r.2.2)

/-- `ipf_sync_write` -/
def ipfSyncWrite (s : Softs) (uio : List Byte) (mem : List (Option ℕ × Option ℕ)) (buf : List Byte) :
    Softs × ℕ × List Touch :=
  writeLoop A uio.length s uio mem buf 0

/-! ## Runs -/

/-- What happens to the tables. Packets and timeouts name the state or NAT entry `o`. -/
inductive Op where
  | new (tab : Tab) (fin : FrInfo) (o : ℕ) (ticks : Word) (mem : Option ℕ)
  | update (tab : Tab) (fin : FrInfo) (o : ℕ) (ticks : Word)
  | del (tab : Tab) (o : ℕ)
  | peer (tab : Tab) (sp : Synchdr) (data : List Byte) (mem : Option ℕ × Option ℕ)
  | read (u : Uio)
  | rlog
  | flush (tab : Tab)

/-- One operation and the places that it touches. -/
def step (s : Softs) : Op → Softs × List Touch
  | .new tab fin o ticks mem =>
    let r := ipfSyncNew A s tab fin o ticks mem
    (r.1.setSync tab o r.2.1, r.2.2)
  | .update tab fin o ticks => ipfSyncUpdate A s tab fin (s.sync tab o) ticks
  | .del tab o =>
    match s.sync tab o with
    | none => (s, [])
    | some sl =>
      let r := ipfSyncDelTab s sl
      (r.1.setSync tab o none, r.2)
  | .peer tab sp data mem =>
    match tab with
    | .state => ((ipfSyncStateCreate A s sp data mem).1, [])
    | .nat => ((ipfSyncNatCreate A s sp data mem).1, [])
  | .read u =>
    let r := ipfSyncRead A s u
    (r.1, r.2.2)
  | .rlog => (ipfSyncRlog s, [])
  | .flush tab =>
    let r := ipfSyncFlushTable s tab
    (r.1, r.2.2)

/-- `ipf_sync_soft_create` and `ipf_sync_soft_init`, in a memory with any content. -/
def init (ent : ℕ → Synclist) (log : ℕ → Synclogent) (upd : ℕ → Syncupdent) (ips : ℕ → Ipstate)
    (ipn : ℕ → NatT) (fr : ℕ → Frentry) (interval : Word) : Softs where
  chain := Mem.empty
  ent := ent
  alloc := []
  synclog := log
  syncupd := upd
  ipfSyncNum := 1
  ipfSyncWrap := 0
  slIdx := 0
  suIdx := 0
  slTail := 0
  suTail := 0
  ipfSyncLogSz := SYNCLOG_SZ
  ipfSyncEvents := 0
  ipfSyncLastwakeup := 0
  ipfSyncWakeInterval := interval
  ipfSyncEventHighWm := SYNCLOG_SZ * 100 / 90
  ipfSyncQueueHighWm := SYNCLOG_SZ * 100 / 90
  ips := ips
  ipn := ipn
  fr := fr

end Ipfilter.Sync
