import Mathlib.Data.Int.Notation
import Mathlib.Data.Nat.Notation
import Mathlib.Logic.Function.Basic

/-!
# Control messages of the PPTP proxy

`ipf_p_pptp_nextmessage` (`ip_pptp_pxy.c`) puts control messages together from the segments of a connection, and hands them to
`ipf_p_pptp_message`. `pptps_wptr` is the number of bytes in front of it in `pptps_buffer`, which goes on behind its 512 bytes.
-/

namespace Ipfilter.Pptp

abbrev Byte := BitVec 8
abbrev Word := BitVec 32

def EINVAL : ℤ := 22
def PPTP_MSGTYPE_CTL : ℕ := 1

/-- `pptp_side_t`, without `pptps_state` -/
structure Side where
  pptpsNexthdr : Word
  pptpsNext : Word
  pptpsGothdr : Bool
  pptpsLen : ℕ
  pptpsBytes : ℕ
  pptpsWptr : ℕ
  pptpsBuffer : ℕ → Byte

/-- The sides of a `pptp_pxy_t`, and the messages that each of them has handed to `ipf_p_pptp_message`. -/
structure PptpPxy where
  pptpSide : Bool → Side
  handed : Bool → List (List Byte)

def PptpPxy.upd (p : PptpPxy) (rev : Bool) (s : Side) : PptpPxy := { p with pptpSide := Function.update p.pptpSide rev s }

/-- `ntohs` of the two bytes at `i`. -/
def ntohs (b : ℕ → Byte) (i : ℕ) : ℕ := (b i).toNat * 256 + (b (i + 1)).toNat

/-- An `int` that is stored in a `u_short`. -/
def ushort (x : ℤ) : ℕ := (x % 65536).toNat

/-- `COPYDATA` of `len` bytes of the packet to where `pptps_wptr` is, which moves on. -/
def Side.copydata (s : Side) (m : ℕ → Byte) (off len : ℕ) : Side :=
  { s with
    pptpsBuffer := fun i =>
      if s.pptpsWptr ≤ i ∧ i < s.pptpsWptr + len then m (off + (i - s.pptpsWptr)) else s.pptpsBuffer i
    pptpsBytes := s.pptpsBytes + len
    pptpsWptr := s.pptpsWptr + len }

/-- Nothing is gathered. -/
def Side.clear (s : Side) : Side := { s with pptpsWptr := 0, pptpsGothdr := false, pptpsBytes := 0, pptpsLen := 0 }

/-- `ipf_p_pptp_message`. What `ipf_p_pptp_mctl` does with a control message is left out; it returns 0. -/
def ipfPPptpMessage (p : PptpPxy) (rev : Bool) : PptpPxy × ℤ :=
  let s := p.pptpSide rev
  ({ p with handed := Function.update p.handed rev (p.handed rev ++ [(List.range s.pptpsLen).map s.pptpsBuffer]) },
    if ntohs s.pptpsBuffer 2 = PPTP_MSGTYPE_CTL then 0 else EINVAL)

/-- The part of the loop that reads a header. An error leaves the loop, and is what is returned. -/
def readhdr (m : ℕ → Byte) (s : Side) (off dlen : ℕ) : Except (Side × ℤ) (Side × ℕ × ℕ) :=
  let len := ushort (min (8 - s.pptpsBytes : ℤ) dlen)
  let s := s.copydata m off len
  let hdr := s.pptpsBuffer
  let s := if s.pptpsBytes = 8 then { s with pptpsNext := s.pptpsNext + 8 } else s
  if s.pptpsBytes = 8 ∧ ntohs hdr 4 * 65536 + ntohs hdr 6 ≠ 0x1a2b3c4d then .error (s, -1)
  else
    let size := ntohs hdr 0
    let s := { s with
      pptpsGothdr := true, pptpsLen := size, pptpsNexthdr := s.pptpsNexthdr + BitVec.ofNat 32 size }
    if 512 < size then .error ({ s.clear with pptpsNext := s.pptpsNexthdr }, 0)
    else .ok (s, off + len, dlen - len)

/-- One turn of the loop of `ipf_p_pptp_nextmessage`. The offset is not moved behind the body of a message. -/
def turn (m : ℕ → Byte) (rev : Bool) (p : PptpPxy) (off dlen : ℕ) : Except (PptpPxy × ℤ) (PptpPxy × ℕ × ℕ) :=
  let s := p.pptpSide rev
  let off := off + s.pptpsBytes
  match if s.pptpsGothdr then .ok (s, off, dlen) else readhdr m s off dlen with
  | .error (s, r) => .error (p.upd rev s, r)
  | .ok (s, off, dlen) =>
    let len := ushort (min (s.pptpsLen - s.pptpsBytes : ℤ) dlen)
    let s := { s.copydata m off len with pptpsNext := s.pptpsNext + BitVec.ofNat 32 len }
    let p := p.upd rev s
    if s.pptpsBytes < s.pptpsLen then .error (p, 0)
    else
      let (p, r) := ipfPPptpMessage p rev
      .ok (if r = 0 then p.upd rev s.clear else p, off, dlen - len)

/-- The loop, of which `n` turns are looked at. -/
def turns (m : ℕ → Byte) (rev : Bool) : ℕ → PptpPxy → ℕ → ℕ → Option (PptpPxy × ℤ)
  | _, p, _, 0 => some (p, 0)
  | 0, _, _, _ + 1 => none
  | n + 1, p, off, dlen + 1 =>
    match turn m rev p off (dlen + 1) with
    | .error r => some r
    | .ok (p, off, dlen) => turns m rev n p off dlen

/-- What is read of a packet: `m` are the bytes from `fin_m` on, and `off` is where its data starts. -/
structure Seg where
  finDlen : ℕ
  tcpOff : ℕ
  thSeq : Word
  off : ℕ
  m : ℕ → Byte

/-- `ipf_p_pptp_nextmessage` -/
def ipfPPptpNextmessage (n : ℕ) (p : PptpPxy) (rev : Bool) (t : Seg) : Option (PptpPxy × ℤ) :=
  let dlen : ℤ := t.finDlen - t.tcpOff
  let next := (p.pptpSide rev).pptpsNext
  if dlen ≤ 0 then some (p, 0)
  else if t.thSeq + BitVec.ofInt 32 dlen < next ∧ t.thSeq < next then some (p, 0)
  else if next ≠ t.thSeq then some (p, -1)
  else turns t.m rev n p t.off dlen.toNat

end Ipfilter.Pptp
