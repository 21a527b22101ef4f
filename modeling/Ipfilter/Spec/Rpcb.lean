import Ipfilter.Chain.Linked

/-!
# Transactions of the RPCBIND proxy

`ip_rpcb_pxy.c` keeps a transaction for each request that waits for its reply, on a list of its session, and counts the
transactions of all sessions in `rpcbcnt`. This file has what requests, replies and deletions of sessions do to them. What the
decoders make of the bytes of a message is given: the transaction that a request decodes to, and how a reply decodes once its
transaction is known.

Memory of one kind that is allocated is a list of addresses. `none` is a step into memory that was freed.
-/

namespace Ipfilter.Rpcb

open Chain

def RPCB_MAXREQS : ℤ := 32

/-- `rpcb_xact_t` without its links. -/
structure RpcbXact where
  rxXid : BitVec 32
  rxType : ℕ
  rxRef : BitVec 32
  rxProto : ℕ

/-- The global counter, the sessions and their transactions: `rxlist` has `rs_rxlist` of a session, `rx_next` and `rx_pnext`. -/
structure World where
  rpcbcnt : ℤ
  rxlist : Mem ℕ ℕ
  rx : ℕ → RpcbXact
  xacts : List ℕ
  sessions : List ℕ

/-- `rx_ref` goes up by `k`. -/
def World.addRef (w : World) (a : ℕ) (k : BitVec 32) : World :=
  { w with rx := Function.update w.rx a { w.rx a with rxRef := (w.rx a).rxRef + k } }

/-- `KFREE` -/
def World.kfree (w : World) (a : ℕ) : Option World :=
  if a ∈ w.xacts then some { w with xacts := w.xacts.erase a } else none

/-- `ipf_p_rpcb_lookup` -/
def ipfPRpcbLookup (w : World) (rs : ℕ) (xid : BitVec 32) : Option ℕ :=
  w.rxlist.get (w.rxlist.seek (fun a => (w.rx a).rxXid != xid) w.xacts.length (.head rs))

/-- `ipf_p_rpcb_deref` -/
def ipfPRpcbDeref (w : World) (a : ℕ) : Option World :=
  if a ∉ w.xacts then none
  else
    let w := w.addRef a (-1)
    if (w.rx a).rxRef ≠ 0 then some w
    else do
      let k ← w.rxlist.pnext a
      let w ← { w with rxlist := (w.rxlist.setP? (w.rxlist.next a) (some k)).set k (w.rxlist.next a) }.kfree a
      some { w with rpcbcnt := w.rpcbcnt - 1 }

/-- `ipf_p_rpcb_insert`: 0 is `true`. `malloc` is the memory that `KMALLOC` returns. -/
def ipfPRpcbInsert (w : World) (rs : ℕ) (rx : RpcbXact) (malloc : Option ℕ) : World × Bool :=
  match ipfPRpcbLookup w rs rx.rxXid with
  | some rxp => (w.addRef rxp 1, true)
  | none =>
    if w.rpcbcnt = RPCB_MAXREQS then (w, false)
    else
      match malloc with
      | none => (w, false)
      | some rxp =>
        let first := w.rxlist.head rs
        ({ w with
          rxlist := (((w.rxlist.setP? first (some (.next rxp))).setP rxp (some (.head rs))).set (.next rxp) first).set
            (.head rs) (some rxp)
          rx := Function.update w.rx rxp { rx with rxRef := 1 }
          xacts := rxp :: w.xacts
          rpcbcnt := w.rpcbcnt + 1 }, true)

/-- The loop of `ipf_p_rpcb_flush`, with a bound on its rounds. -/
def flushLoop : ℕ → World → Option ℕ → Option World
  | _, w, none => some w
  | 0, _, some _ => none
  | n + 1, w, some r2 => (w.kfree r2).bind fun w' => flushLoop n w' (w.rxlist.next r2)

/-- `ipf_p_rpcb_flush` -/
def ipfPRpcbFlush (w : World) (rs : ℕ) : Option World := flushLoop w.xacts.length w (w.rxlist.head rs)

/-! ## Packets -/

/-- What `ipf_p_rpcb_decoderep` returns for a message whose transaction it found: -1, 0 and 1. -/
inductive Decoded where
  | bad
  | negative
  | positive
  deriving DecidableEq

/-- `ipf_p_rpcb_in`: a request that decodes to a transaction, or to none. -/
def ipfPRpcbIn (w : World) (rs : ℕ) (rx : Option RpcbXact) (malloc : Option ℕ) : World :=
  match rx with
  | none => w
  | some rx => (ipfPRpcbInsert w rs rx malloc).1

/-- `ipf_p_rpcb_out` with `ipf_p_rpcb_decoderep`: a reply with the number `xid`. -/
def ipfPRpcbOut (w : World) (rs : ℕ) (xid : BitVec 32) (decode : RpcbXact → Decoded) : Option World :=
  match ipfPRpcbLookup w rs xid with
  | none => some w
  | some rx =>
    -- per thread reference
    let w := w.addRef rx 1
    match decode (w.rx rx) with
    | .bad => ipfPRpcbDeref w rx
    | .negative | .positive => (ipfPRpcbDeref w rx).bind fun w => ipfPRpcbDeref w rx

/-- `ipf_p_rpcb_new` for new memory `rs`. -/
def ipfPRpcbNew (w : World) (rs : ℕ) : World :=
  { w with rxlist := w.rxlist.set (.head rs) none, sessions := rs :: w.sessions }

/-- `ipf_p_rpcb_del`; the caller frees the session then. -/
def ipfPRpcbDel (w : World) (rs : ℕ) : Option World :=
  (ipfPRpcbFlush w rs).map fun w => { w with sessions := w.sessions.erase rs }

/-! ## Runs -/

inductive Event where
  | new (rs : ℕ)
  | request (rs : ℕ) (rx : Option RpcbXact) (malloc : Option ℕ)
  | reply (rs : ℕ) (xid : BitVec 32) (decode : RpcbXact → Decoded)
  | del (rs : ℕ)

def step (w : World) : Event → Option World
  | .new rs => some (ipfPRpcbNew w rs)
  | .request rs rx malloc => some (ipfPRpcbIn w rs rx malloc)
  | .reply rs xid decode => ipfPRpcbOut w rs xid decode
  | .del rs => ipfPRpcbDel w rs

/-- Packets and deletions are for sessions that are there; memory that is allocated was free. -/
def Legal (w : World) : Event → Prop
  | .new rs => rs ∉ w.sessions
  | .request rs _ malloc => rs ∈ w.sessions ∧ ∀ a ∈ malloc, a ∉ w.xacts
  | .reply rs _ _ => rs ∈ w.sessions
  | .del rs => rs ∈ w.sessions

/-- `ipf_p_rpcb_main_load`, with whatever is in memory. -/
def load (rxlist : Mem ℕ ℕ) (rx : ℕ → RpcbXact) : World := ⟨0, rxlist, rx, [], []⟩

/-- The transactions that a deletion frees. -/
def flushed (w w' : World) : Event → ℕ
  | .del _ => w.xacts.length - w'.xacts.length
  | _ => 0

/-- **A run,** with events that all meet `C`. So many transactions were freed with their sessions. -/
inductive Run (C : World → Event → Prop) : World → ℕ → Prop
  | start (rxlist : Mem ℕ ℕ) (rx : ℕ → RpcbXact) : Run C (load rxlist rx) 0
  | step {w w' : World} {n : ℕ} (e : Event) : Run C w n → Legal w e → C w e → Rpcb.step w e = some w' →
      Run C w' (n + flushed w w' e)

/-! ## What is wanted -/

/-- **The transactions are accounted for:** `rpcbcnt` is their number, each is on the list of one session with consistent back
links, no step frees memory twice or looks at freed memory, and a new request is refused for its number only when `RPCB_MAXREQS`
transactions are outstanding. -/
structure Right (w : World) : Prop where
  count : w.rpcbcnt = w.xacts.length
  lists : ∃ L, Linked w.rxlist w.sessions L ∧ (∀ a, a ∈ w.xacts ↔ ∃ rs ∈ w.sessions, a ∈ L rs) ∧
    (∀ a ∈ w.xacts, ∃! rs, a ∈ L rs) ∧ w.xacts.Nodup
  safe : ∀ e, Legal w e → (Rpcb.step w e).isSome
  limit : ∀ rs ∈ w.sessions, ∀ rx a, (ipfPRpcbInsert w rs rx (some a)).2 = false → (w.xacts.length : ℤ) = RPCB_MAXREQS

/-- The reference count of a transaction does not wrap. -/
def Unwrapped (w : World) : Event → Prop
  | .request rs (some rx) _ => ∀ a ∈ ipfPRpcbLookup w rs rx.rxXid, (w.rx a).rxRef ≠ -1
  | _ => True

/-- **And no session is deleted with transactions that wait.** -/
def Calm (w : World) : Event → Prop
  | .del rs => w.rxlist.head rs = none
  | e => Unwrapped w e

end Ipfilter.Rpcb
