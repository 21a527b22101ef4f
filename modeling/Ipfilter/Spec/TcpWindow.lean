import Ipfilter.Serial.Seq
import Ipfilter.Spec.Tcp

/-!
# The TCP window

`ipf_state_tcpinwindow` (`ip_state.c`): whether a packet of a session is inside the window that the two sides have told, from
the two records `tcpdata_t` of the entry. `fdata` is of the side that sent the packet and `tdata` of its peer. Numbers of the
header are in host order; a negation of the least `int` wraps around, and so does a shift of an `int`. Counters are left out,
and `td_maxseg`, which the function does not read.
-/

namespace Ipfilter.TcpWindow

open Tcp Serial

def IS_STRICT : Flags := 0x20000
def TCP_WSCALE_SEEN : Flags := 0x00000001
def TCP_WSCALE_FIRST : Flags := 0x00000002
def TCP_SACK_PERMIT : Flags := 0x00000004
def MAXACKWINDOW : ℕ := 66000

/-- `tcpdata_t` -/
structure Tcpdata where
  tdEnd : BitVec 32
  tdMaxend : BitVec 32
  tdMaxwin : BitVec 32
  tdWinscale : BitVec 32
  tdWinflags : Flags
deriving DecidableEq

/-- What the function reads of the packet, with its argument `flags`. -/
structure Packet where
  finDlen : ℤ
  thSeq : BitVec 32
  thAck : BitVec 32
  thWin : BitVec 16
  thOff : BitVec 4
  thFlags : ThFlags
  flags : Flags

/-- `tcpflags & f`, as a condition. -/
def Packet.sets (p : Packet) (f : ThFlags) : Bool := p.thFlags &&& f ≠ 0

/-- What the function returns and leaves in the records; `oow` says that it sets `FI_OOW`. -/
structure Outcome where
  ret : ℕ
  fdata : Tcpdata
  tdata : Tcpdata
  oow : Bool
deriving DecidableEq

/-- `win` -/
def Packet.win (p : Packet) (fdata : Tcpdata) : BitVec 32 :=
  let win := if p.sets TH_SYN then p.thWin.zeroExtend 32 else p.thWin.zeroExtend 32 <<< fdata.tdWinscale.toNat
  -- a window of 0 produces undesirable behaviour
  if win = 0 then 1 else win

/-- `dsize` -/
def Packet.dsize (p : Packet) : ℤ :=
  p.finDlen - ((p.thOff.toNat <<< 2 : ℕ) : ℤ) + (if p.sets TH_SYN then 1 else 0) + (if p.sets TH_FIN then 1 else 0)

/-- `end` -/
def Packet.end_ (p : Packet) : BitVec 32 := p.thSeq + BitVec.ofInt 32 p.dsize

/-- The first packet of a side after its `SYN` ends the window that a `SYN` told. -/
def Packet.clearFirst (p : Packet) (fdata : Tcpdata) : Tcpdata :=
  if !p.sets TH_SYN ∧ has fdata.tdWinflags TCP_WSCALE_FIRST then
    { fdata with tdWinflags := fdata.tdWinflags &&& ~~~TCP_WSCALE_FIRST, tdMaxwin := p.win fdata }
  else fdata

/-- A side that has not sent yet, and whose first packet this may be. -/
def Packet.opens (p : Packet) (fdata : Tcpdata) : Bool :=
  fdata.tdEnd = 0 ∧ (p.flags &&& IS_TCPFSM = 0 ∨ p.thFlags &&& TH_OPENING = TH_OPENING)

/-- The record of a side that sends its first packet. -/
def Packet.open_ (p : Packet) (win : BitVec 32) (fdata : Tcpdata) : Tcpdata :=
  if p.opens fdata then { fdata with tdEnd := p.end_ - 1, tdMaxwin := 1, tdMaxend := p.end_ + win } else fdata

/-- `ack`: what the packet acknowledges, or what its peer sent where it does not. -/
def Packet.ack (p : Packet) (tdata : Tcpdata) : BitVec 32 :=
  if !p.sets TH_ACK then tdata.tdEnd
  -- gross hack to get around certain broken tcp stacks
  else if p.thFlags &&& (TH_ACK ||| TH_RST) = TH_ACK ||| TH_RST ∧ p.thAck = 0 then tdata.tdEnd
  else p.thAck

/-- `ackskew` -/
def Packet.ackskew (p : Packet) (tdata : Tcpdata) : BitVec 32 := tdata.tdEnd - p.ack tdata

/-- The first of the tests for `inseq`: the packet is inside the window, and its acknowledgement near what the peer sent. -/
def Packet.inWindow (p : Packet) (fdata tdata : Tcpdata) : Bool :=
  SeqGe fdata.tdMaxend p.end_ ∧ SeqGe p.thSeq (fdata.tdEnd - tdata.tdMaxwin) ∧
    (-p.ackskew tdata).toInt ≤ MAXACKWINDOW ∧
    (p.ackskew tdata).toInt ≤ (BitVec.ofNat 32 MAXACKWINDOW <<< fdata.tdWinscale.toNat).toInt

/-- The guesses for a session that was not seen from its start. -/
def Packet.guess (p : Packet) (fdata tdata : Tcpdata) : Bool :=
  p.flags &&& IS_TCPFSM = 0 ∧ !has fdata.tdWinflags (TCP_WSCALE_SEEN ||| TCP_WSCALE_FIRST) ∧
    ((p.thSeq = fdata.tdMaxend ∧ p.ackskew tdata = 0) ∨
      SeqGe (p.thSeq + tdata.tdMaxwin) (fdata.tdEnd - tdata.tdMaxwin))

/-- `inseq` -/
def Packet.inseq (p : Packet) (fdata tdata : Tcpdata) : Bool :=
  if p.inWindow fdata tdata then true
  -- the next packet is to the right of the window if SACK is in use
  else if p.thSeq = fdata.tdMaxend ∧ p.ackskew tdata = 0 ∧ has fdata.tdWinflags TCP_SACK_PERMIT ∧
      has tdata.tdWinflags TCP_SACK_PERMIT then true
  -- a RST with only the ACK field set
  else if p.thSeq = 0 ∧ p.thFlags = TH_RST ||| TH_ACK ∧ -1 ≤ (p.ackskew tdata).toInt ∧
    (p.ackskew tdata).toInt ≤ 1 then true
  else p.guess fdata tdata

/-- The records after a packet that is inside the window. -/
def Packet.update (p : Packet) (win : BitVec 32) (fdata tdata : Tcpdata) : Tcpdata × Tcpdata :=
  let ack := p.ack tdata
  ({ fdata with
      tdMaxwin := if fdata.tdMaxwin < win then win else fdata.tdMaxwin
      tdEnd := if SeqGt p.end_ fdata.tdEnd then p.end_ else fdata.tdEnd },
    { tdata with
      tdEnd := if (p.ackskew tdata).toInt < 0 then ack else tdata.tdEnd
      tdMaxend := if SeqGe (ack + win) tdata.tdMaxend then ack + win else tdata.tdMaxend })

/-- `ipf_state_tcpinwindow` -/
def ipfStateTcpinwindow (p : Packet) (fdata tdata : Tcpdata) : Outcome :=
  let win := p.win fdata
  let fdata := p.open_ win (p.clearFirst fdata)
  -- strict sequencing only allows in-order delivery
  if p.flags &&& IS_STRICT ≠ 0 ∧ p.thSeq ≠ fdata.tdEnd then ⟨0, fdata, tdata, true⟩
  else if p.inseq fdata tdata then
    let r := p.update win fdata tdata
    ⟨1, r.1, r.2, false⟩
  else ⟨0, fdata, tdata, true⟩

end Ipfilter.TcpWindow
