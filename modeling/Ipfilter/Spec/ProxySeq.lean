import Ipfilter.Spec.Masks

/-!
# Sequence numbers of proxied TCP sessions

`ipf_proxy_fixseqack` of `ip_proxy.c`. A proxy may change the size of the data in a packet; the numbers of later packets in the
same direction, and the acknowledgements that come back for them, are adjusted. Numbers are in host byte order; what is
printed for debugging is left out.
-/

namespace Ipfilter.ProxySeq

open Masks (Word)

/-- `ap_tcp_t`, the part for sequence numbers: there are two sets of an offset and a least number, for `seq` and for `ack`, and
a selector between them for each direction. The index 1 and the set 1 are `true`. -/
structure ApTcp where
  sel : Bool → Bool
  seqoff : Bool → ℤ
  seqmin : Bool → Word
  ackoff : Bool → ℤ
  ackmin : Bool → Word

/-- What the function reads from a packet: `fin_out`, `fin_dlen`, and from the TCP header `th_off`, `th_seq` and `th_ack`. -/
structure FrInfo where
  finOut : Bool
  finDlen : ℤ
  thOff : ℕ
  thSeq : Word
  thAck : Word

/-- An `int` that is stored in a `short`. -/
def short (z : ℤ) : ℤ := z.bmod (2 ^ 16)

/-- An `int` that is used as a `u_32_t`. -/
def u32 (z : ℤ) : Word := BitVec.ofInt 32 z

/-- `switch to other set ?` -/
def switch (min : Bool → Word) (sel : Bool) (seq1 : Word) : Bool :=
  if min (!sel) > min sel ∧ seq1 > min (!sel) then !sel else sel

/-- A sequence number with the offset of a set, and whether it changes. -/
def shiftSeq (off : ℤ) (min seq1 : Word) : Word × Bool :=
  if off ≠ 0 ∧ seq1 > min - u32 off then (seq1 + u32 off, true) else (seq1, false)

/-- An acknowledgement without the offset of a set, and whether it changes. -/
def shiftAck (off : ℤ) (min seq1 : Word) : Word × Bool :=
  if off ≠ 0 ∧ seq1 > min then (seq1 - u32 off, true) else (seq1, false)

/-- `ipf_proxy_fixseqack`: the session, `th_seq` and `th_ack` afterwards, and the result. -/
def ipfProxyFixseqack (aps : ApTcp) (fin : FrInfo) (inc : ℤ) : ApTcp × Word × Word × ℕ :=
  let nlen := fin.finDlen - 4 * fin.thOff
  let inc := short inc
  if fin.finOut then
    let sel := switch aps.seqmin (aps.sel true) fin.thSeq
    let aps := { aps with sel := Function.update aps.sel true sel }
    let (seq1, ch) := shiftSeq (aps.seqoff sel) (aps.seqmin sel) fin.thSeq
    -- the set that is in use changes
    let aps := if inc ≠ 0 ∧ seq1 > aps.seqmin (!sel) then
        { aps with
          seqmin := Function.update aps.seqmin sel (seq1 + u32 nlen - 1)
          seqoff := Function.update aps.seqoff sel (short (aps.seqoff sel + inc)) }
      else aps
    let sel := switch aps.ackmin (aps.sel false) fin.thAck
    let aps := { aps with sel := Function.update aps.sel false sel }
    let (ack, ch') := shiftAck (aps.ackoff sel) (aps.ackmin sel) fin.thAck
    (aps, seq1, ack, if ch || ch' then 2 else 0)
  else
    let sel := switch aps.ackmin (aps.sel false) fin.thSeq
    let aps := { aps with sel := Function.update aps.sel false sel }
    let (seq1, ch) := shiftSeq (aps.ackoff sel) (aps.ackmin sel) fin.thSeq
    -- the other set changes
    let aps := if inc ≠ 0 ∧ seq1 > aps.ackmin (!sel) then
        { aps with
          ackmin := Function.update aps.ackmin (!sel) (seq1 + u32 nlen - 1)
          ackoff := Function.update aps.ackoff (!sel) (short (aps.ackoff sel + inc)) }
      else aps
    let sel := switch aps.seqmin (aps.sel true) fin.thAck
    let aps := { aps with sel := Function.update aps.sel true sel }
    let (ack, ch') := shiftAck (aps.seqoff sel) (aps.seqmin sel) fin.thAck
    (aps, seq1, ack, if ch || ch' then 2 else 0)

/-- A new session (`ipf_proxy_new` clears it). -/
def ApTcp.zero : ApTcp := ⟨fun _ => false, fun _ => 0, fun _ => 0, fun _ => 0, fun _ => 0⟩

end Ipfilter.ProxySeq
