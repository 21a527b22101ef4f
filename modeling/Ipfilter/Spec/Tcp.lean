import Ipfilter.Spec.Flags
import Ipfilter.Spec.Queue

/-!
# The TCP state machine

`ipf_tcp_age` (`ip_state.c`): a packet moves the side that sent it through the states of a TCP
connection, and the entry to the timeout queue of the state reached. Each side keeps its state in
`tqe_state`, index 0 for the host that opened the connection and 1 for the other; `fin_rev` says
which of them sent the packet.
-/

namespace Ipfilter.Tcp

open Queue

abbrev ThFlags := BitVec 8

def TH_FIN : ThFlags := 0x01
def TH_SYN : ThFlags := 0x02
def TH_RST : ThFlags := 0x04
def TH_PUSH : ThFlags := 0x08
def TH_ACK : ThFlags := 0x10
def TH_ECN : ThFlags := 0x40
def TH_CWR : ThFlags := 0x80
def TH_OPENING : ThFlags := TH_SYN ||| TH_ACK
def TH_ACKMASK : ThFlags := TH_FIN ||| TH_SYN ||| TH_RST ||| TH_ACK

def IPF_TCPS_LISTEN : ℕ := 0
def IPF_TCPS_SYN_SENT : ℕ := 1
def IPF_TCPS_SYN_RECEIVED : ℕ := 2
def IPF_TCPS_HALF_ESTAB : ℕ := 3
def IPF_TCPS_ESTABLISHED : ℕ := 4
def IPF_TCPS_CLOSE_WAIT : ℕ := 5
def IPF_TCPS_FIN_WAIT_1 : ℕ := 6
def IPF_TCPS_CLOSING : ℕ := 7
def IPF_TCPS_LAST_ACK : ℕ := 8
def IPF_TCPS_TIME_WAIT : ℕ := 10
def IPF_TCPS_CLOSED : ℕ := 11

def IS_TCPFSM : Flags := 0x10000
def TQE_RULEBASED : Flags := 0x00000001

/-- What `ipf_tcp_age` reads of the packet, with its arguments `flags` and `ok` and the clock. -/
structure Call where
  finRev : Bool
  thFlags : ThFlags
  finDlen : ℕ
  thOff : ℕ
  flags : Flags
  ok : ℕ
  ticks : ℕ

/-- The payload length, `fin_dlen - (TCP_OFF(tcp) << 2)`. -/
def Call.dlen (c : Call) : ℤ := (c.finDlen : ℤ) - ((c.thOff <<< 2 : ℕ) : ℤ)

/-- `tcpflags & f`, as a condition. -/
def Call.sets (c : Call) (f : ThFlags) : Bool := c.thFlags &&& f ≠ 0

/-- The `switch (nstate)` of the function, for a packet without `TH_RST`: the new `nstate` and
`rval`. -/
def fsm (c : Call) (ostate nstate : ℕ) : ℕ × ℕ :=
  let f := c.thFlags
  match nstate with
  | 0 =>
    let r :=
      if f &&& TH_OPENING = TH_OPENING then (IPF_TCPS_SYN_RECEIVED, 1)
      else if f &&& TH_OPENING = TH_SYN then (IPF_TCPS_SYN_SENT, 1)
      else (nstate, 0)
    -- pick up connections that were there before the filter rules
    if c.flags &&& IS_TCPFSM = 0 ∧ f &&& TH_ACKMASK = TH_ACK then
      if ostate = IPF_TCPS_LISTEN ∨ ostate = IPF_TCPS_SYN_RECEIVED then (IPF_TCPS_HALF_ESTAB, 1)
      else if ostate = IPF_TCPS_HALF_ESTAB ∨ ostate = IPF_TCPS_ESTABLISHED then
        (IPF_TCPS_ESTABLISHED, 1)
      else r
    else r
  | 1 =>
    -- a retransmitted SYN does not renew the timeout
    if f &&& ~~~(TH_ECN ||| TH_CWR) = TH_SYN then (nstate, 2)
    else if f &&& (TH_SYN ||| TH_FIN ||| TH_ACK) = TH_ACK then (IPF_TCPS_ESTABLISHED, 1)
    else if c.sets TH_FIN then (IPF_TCPS_FIN_WAIT_1, 1)
    else if f &&& TH_OPENING = TH_OPENING then (IPF_TCPS_SYN_RECEIVED, 1)
    else (nstate, 0)
  | 2 =>
    if f &&& (TH_SYN ||| TH_FIN ||| TH_ACK) = TH_ACK then (IPF_TCPS_ESTABLISHED, 1)
    else if f &&& ~~~(TH_ECN ||| TH_CWR) = TH_OPENING then (nstate, 2)
    else if c.sets TH_FIN then (IPF_TCPS_FIN_WAIT_1, 1)
    else (nstate, 0)
  | 3 =>
    if c.sets TH_FIN then (IPF_TCPS_FIN_WAIT_1, 1)
    else if f &&& TH_ACKMASK = TH_ACK then
      if ostate = IPF_TCPS_LISTEN ∨ ostate = IPF_TCPS_SYN_SENT ∨
          ostate = IPF_TCPS_SYN_RECEIVED then (nstate, 1)
      else if ostate = IPF_TCPS_HALF_ESTAB ∨ ostate = IPF_TCPS_ESTABLISHED then
        (IPF_TCPS_ESTABLISHED, 1)
      else (nstate, 0)
    else (nstate, 0)
  | 4 =>
    if c.sets TH_FIN then
      if ostate = IPF_TCPS_FIN_WAIT_1 then (IPF_TCPS_CLOSING, 1) else (IPF_TCPS_FIN_WAIT_1, 1)
    else if c.sets TH_ACK then
      if ostate = IPF_TCPS_FIN_WAIT_1 then (IPF_TCPS_CLOSE_WAIT, 1)
      else if ostate < IPF_TCPS_CLOSE_WAIT then (IPF_TCPS_ESTABLISHED, 1)
      else (nstate, 1)
    else (nstate, 1)
  | 5 => if c.sets TH_FIN then (IPF_TCPS_LAST_ACK, 1) else (IPF_TCPS_CLOSE_WAIT, 1)
  | 6 =>
    if c.sets TH_ACK ∧ ostate > IPF_TCPS_CLOSE_WAIT then (IPF_TCPS_LAST_ACK, 1)
    else (IPF_TCPS_FIN_WAIT_1, 1)
  | 7 =>
    if f &&& (TH_FIN ||| TH_ACK) = TH_ACK then (IPF_TCPS_TIME_WAIT, 1) else (nstate, 1)
  | 8 => if c.sets TH_ACK then (nstate, 1) else (nstate, 0)
  | 10 => if ostate = IPF_TCPS_LAST_ACK then (IPF_TCPS_CLOSED, 1) else (nstate, 2)
  | 11 => (nstate, 2)
  -- `FIN_WAIT_2` is not used; any other value is the `default`
  | _ => (nstate, 0)

/-- Nothing is done in `FIN_WAIT_2`. -/
theorem fsm_fin_wait_2 (c : Call) (o : ℕ) : fsm c o 9 = (9, 0) := by
  simp only [fsm]

/-- A closed side stays closed. -/
theorem fsm_closed (c : Call) (o : ℕ) : fsm c o 11 = (11, 2) := by
  simp only [fsm]

/-- What `ipf_tcp_age` writes: the two states of the entry, and the queues. -/
structure World (Q E : Type) where
  state : Bool → ℕ
  tq : Tq Q E

/-- What stays the same for an entry: where it is, its `tqe_flags` and the array of queues, one for
each state. -/
structure Entry (Q E : Type) where
  tqe : E
  tqeFlags : Flags
  tqtab : ℕ → Q
  tqtab_inj : Function.Injective tqtab

variable {Q E : Type} [DecidableEq Q] [DecidableEq E]

/-- `ipf_tcp_age`, with the value it returns. -/
def ipfTcpAge (n : Entry Q E) (w : World Q E) (c : Call) : Option (World Q E × ℕ) :=
  let dir := c.finRev
  let ostate := w.state !dir
  let nstate := w.state dir
  let (state, nstate, rval) :=
    if c.sets TH_RST then
      let nstate := if ¬c.sets TH_PUSH ∧ c.dlen = 0 then IPF_TCPS_CLOSED else IPF_TCPS_CLOSE_WAIT
      let state :=
        if ostate ≤ IPF_TCPS_ESTABLISHED then
          Function.update w.state (!dir) IPF_TCPS_CLOSE_WAIT
        else w.state
      (state, nstate, 1)
    else (w.state, fsm c ostate nstate)
  if rval = 2 then some ({ w with state := state }, 1)
  else if rval = 1 then
    let state := if c.ok ≠ 0 then Function.update state dir nstate else state
    if n.tqeFlags &&& TQE_RULEBASED = 0 then do
      let oifq ← w.tq.tqeIfq n.tqe
      let tq ← ipfMovequeue w.tq c.ticks n.tqe oifq (n.tqtab nstate)
      return (⟨state, tq⟩, rval)
    else some ({ w with state := state }, rval)
  else some ({ w with state := state }, rval)

/-- The calls for the packets of one entry, in the order they are seen. -/
def run (n : Entry Q E) (w : World Q E) : List Call → Option (World Q E)
  | [] => some w
  | c :: cs => do
    let (w, _) ← ipfTcpAge n w c
    run n w cs

end Ipfilter.Tcp
