import Ipfilter.Spec.Masks
import Ipfilter.Spec.Tcp

/-!
# What the headers of a packet tell

The part of `fr_info_t` that `ipf_makefrip` (`fil.c`) fills in, and what IPv4 and IPv6 have in common there: `ipf_pr_pullup`,
checksums, and TCP and UDP. Checksums and `ipf_coalesce` are those of `ip_fil.c`. A pointer into the packet is the number of
bytes from the start of the IP header. Counters are left out.
-/

namespace Ipfilter.Makefrip

open Masks Tcp

def FI_TCPUDP : Flags := 0x0001
def FI_OPTIONS : Flags := 0x0002
def FI_FRAG : Flags := 0x0004
def FI_SHORT : Flags := 0x0008
def FI_MULTICAST : Flags := 0x0020
def FI_MBCAST : Flags := 0x0080
def FI_ICMPERR : Flags := 0x1000
def FI_FRAGBODY : Flags := 0x2000
def FI_V6EXTHDR : Flags := 0x10000
def FI_COALESCE : Flags := 0x20000
def FI_ICMPQUERY : Flags := 0x80000
def FI_AH : Flags := 0x200000

def FI_CK_BAD : ℤ := -1
def FI_CK_SUMOK : ℤ := 1

def IPPROTO_HOPOPTS : ℕ := 0
def IPPROTO_ICMP : ℕ := 1
def IPPROTO_TCP : ℕ := 6
def IPPROTO_UDP : ℕ := 17
def IPPROTO_IPV6 : ℕ := 41
def IPPROTO_ROUTING : ℕ := 43
def IPPROTO_FRAGMENT : ℕ := 44
def IPPROTO_GRE : ℕ := 47
def IPPROTO_ESP : ℕ := 50
def IPPROTO_AH : ℕ := 51
def IPPROTO_ICMPV6 : ℕ := 58
def IPPROTO_NONE : ℕ := 59
def IPPROTO_DSTOPTS : ℕ := 60
def IPPROTO_MOBILITY : ℕ := 135

def TH_URG : ThFlags := 0x20

/-- The packet and the machine. `byte` goes on behind the packet, with what is in memory there; `pull` says whether `ipf_pullup`
gets so many bytes into one piece, or they are in one already; `frCksum` is what `fr_cksum` gives for a protocol, the place of
its header and `fin_dlen`. -/
structure Buf where
  byte : ℕ → BitVec 8
  pull : ℕ → Bool
  little : Bool
  frCksum : ℕ → ℕ → ℤ → BitVec 16

/-- `ntohs` of the two bytes at `i`. -/
def Buf.be16 (b : Buf) (i : ℕ) : BitVec 16 := b.byte i ++ b.byte (i + 1)

/-- The two bytes at `i`, as the machine reads them. -/
def Buf.raw16 (b : Buf) (i : ℕ) : BitVec 16 := if b.little then b.byte (i + 1) ++ b.byte i else b.be16 i

/-- The four bytes at `i`, as the machine reads them. -/
def Buf.raw32 (b : Buf) (i : ℕ) : Word :=
  if b.little then b.byte (i + 3) ++ b.byte (i + 2) ++ b.byte (i + 1) ++ b.byte i
  else b.byte i ++ b.byte (i + 1) ++ b.byte (i + 2) ++ b.byte (i + 3)

def Buf.raw128 (b : Buf) (i : ℕ) : I6addr := ⟨b.raw32 i, b.raw32 (i + 4), b.raw32 (i + 8), b.raw32 (i + 12)⟩

/-- The fields of `fr_info_t` that `ipf_makefrip` reads or writes. `finM` says that `fin_m` is not NULL; a failed pullup frees
the packet, and `fin_ip` is NULL afterwards as well. Index `false` of `finData` is 0. -/
structure FrInfo where
  finHlen : ℕ
  finPlen : ℤ
  finDlen : ℤ
  finDp : ℕ
  finOff : ℕ
  finM : Bool
  finDepth : ℕ
  finRule : Word
  finGroup : List (BitVec 8)
  finFlx : Flags
  finP : ℕ
  fiTos : BitVec 8
  fiTtl : BitVec 8
  finSrc : I6addr
  finDst : I6addr
  finCrc : Word
  finId : Word
  finOptmsk : Flags
  finSecmsk : BitVec 16
  finAuth : BitVec 16
  fiSensitivity : BitVec 8
  finData : Bool → BitVec 16
  finTcpf : ThFlags
  finCksum : ℤ
  finFraghdr : Option ℕ

/-- As `bzero` leaves it, with a packet. -/
def FrInfo.zero : FrInfo where
  finHlen := 0
  finPlen := 0
  finDlen := 0
  finDp := 0
  finOff := 0
  finM := true
  finDepth := 0
  finRule := 0
  finGroup := []
  finFlx := 0
  finP := 0
  fiTos := 0
  fiTtl := 0
  finSrc := I6addr.zero
  finDst := I6addr.zero
  finCrc := 0
  finId := 0
  finOptmsk := 0
  finSecmsk := 0
  finAuth := 0
  fiSensitivity := 0
  finData _ := 0
  finTcpf := 0
  finCksum := 0
  finFraghdr := none

/-- A packet in one piece, with zeros behind it, on a little-endian machine; its checksums come out as 0. -/
def Buf.ofList (l : List (BitVec 8)) : Buf := ⟨fun i => l.getD i 0, fun _ => true, true, fun _ _ _ => 0⟩

/-- `fin->fin_flx |= m` -/
def FrInfo.flag (fin : FrInfo) (m : Flags) : FrInfo := { fin with finFlx := fin.finFlx ||| m }

/-- `fin->fin_flx |= m` if `c`. -/
def FrInfo.flagIf (fin : FrInfo) (c : Bool) (m : Flags) : FrInfo := if c then fin.flag m else fin

/-! ## Pullup -/

/-- `plen` bytes from `fin_dp` on are there or can be had. -/
def pulls (b : Buf) (fin : FrInfo) (plen : ℕ) : Bool := !fin.finM || b.pull (fin.finDp + plen)

/-- `ipf_pr_pullup`, with `true` for 0. -/
def ipfPrPullup (b : Buf) (fin : FrInfo) (plen : ℕ) : FrInfo × Bool :=
  if pulls b fin plen then (fin, true) else ({ fin with finM := false }, false)

/-- `ipf_coalesce` returns 1. -/
def ipfCoalesce (fin : FrInfo) : Bool := has fin.finFlx FI_COALESCE || fin.finM

/-! ## Checksums -/

/-- `hdrsum == sum` in `ipf_checkl4sum`, with `none` for a protocol that it does not know. -/
def sumOk (b : Buf) (fin : FrInfo) : Option Bool :=
  let sum := b.frCksum fin.finP fin.finDp fin.finDlen
  if fin.finP = IPPROTO_TCP then some (b.raw16 (fin.finDp + 16) = sum)
  else if fin.finP = IPPROTO_UDP then
    let uhSum := b.raw16 (fin.finDp + 6)
    -- without a checksum there is nothing to compare
    some (uhSum = 0 ∨ uhSum = sum)
  else if fin.finP = IPPROTO_ICMPV6 ∨ fin.finP = IPPROTO_ICMP then some (b.raw16 (fin.finDp + 2) = sum)
  else none

/-- `ipf_checkl4sum`, with `true` for a return value of -1. -/
def ipfCheckl4sum (b : Buf) (fin : FrInfo) : FrInfo × Bool :=
  if has fin.finFlx (FI_FRAG ||| FI_SHORT ||| FI_BAD) then (fin, false)
  else
    match sumOk b fin with
    | none => (fin, false)
    | some true => ({ fin with finCksum := FI_CK_SUMOK }, false)
    | some false => ({ fin with finCksum := FI_CK_BAD }, true)

/-- `ipf_checkv4sum`, which is `ipf_checkv6sum` as well. -/
def ipfCheckv4sum (b : Buf) (fin : FrInfo) : FrInfo :=
  if has fin.finFlx FI_SHORT then fin
  else
    let r := ipfCheckl4sum b fin
    r.1.flagIf r.2 FI_BAD

/-- The places that call `ipf_checkv6sum`: `fin_p` is `p` there. -/
def checkv6sumAs (b : Buf) (p : ℕ) (fin : FrInfo) : FrInfo :=
  { ipfCheckv4sum b { fin with finP := p } with finP := fin.finP }

/-! ## TCP and UDP -/

/-- `tlen`: the length of a TCP header by its data offset. -/
def tcpTlen (b : Buf) (dp : ℕ) : ℕ := ((b.byte (dp + 12)) >>> 4).toNat <<< 2

/-- The tests of `ipf_pr_tcpcommon` for flags that do not go together. -/
def tcpBad (b : Buf) (dp : ℕ) : Bool :=
  let flags : ThFlags := b.byte (dp + 13)
  if flags &&& TH_URG ≠ 0 ∧ b.raw16 (dp + 18) = 0 then true
  -- `TH_FIN|TH_RST|TH_ACK` seems to appear "naturally"
  else if flags &&& (TH_SYN ||| TH_FIN) ≠ 0 ∧ flags &&& (TH_RST ||| TH_ACK) = TH_RST then true
  else if flags &&& TH_SYN ≠ 0 ∧ flags &&& (TH_URG ||| TH_PUSH) ≠ 0 then true
  else if flags &&& TH_ACK = 0 then
    -- Cisco PIX sets the ACK field to a random value
    if flags = TH_SYN ∧ b.raw32 (dp + 8) ≠ 0 then false
    else if flags &&& (TH_RST ||| TH_SYN) = 0 then true
    else decide (flags &&& (TH_URG ||| TH_PUSH ||| TH_FIN) ≠ 0)
  else false

/-- The ports are read if their four bytes are there. -/
def FrInfo.ports (b : Buf) (fin : FrInfo) : FrInfo :=
  if fin.finDlen > 3 then
    { fin with finData := fun i => if i then b.be16 (fin.finDp + 2) else b.be16 fin.finDp }
  else fin

/-- `MIN(sizeof(*tcp), fin->fin_dlen)`, a minimum of numbers without sign. -/
def tcpMin (fin : FrInfo) : ℕ := if 0 ≤ fin.finDlen ∧ fin.finDlen < 20 then fin.finDlen.toNat else 20

/-- `ipf_pr_tcpcommon`; the result is what it returns. -/
def ipfPrTcpcommon (b : Buf) (fin : FrInfo) : FrInfo × ℤ :=
  let fin := fin.flag FI_TCPUDP
  if fin.finOff ≠ 0 then (fin, 0)
  else if pulls b fin (tcpMin fin) = false then ((ipfPrPullup b fin (tcpMin fin)).1, -1)
  else
    let fin := fin.ports b
    if has fin.finFlx FI_SHORT then (fin, 1)
    else
      let tlen := tcpTlen b fin.finDp
      if tlen < 20 then (fin.flag FI_BAD, 1)
      else
        let fin := { fin with finTcpf := b.byte (fin.finDp + 13) }
        let fin := fin.flagIf (tcpBad b fin.finDp) FI_BAD
        if has fin.finFlx FI_BAD then (fin, 1)
        else if tlen = 20 then (fin, 0)
        else
          let r := ipfPrPullup b fin tlen
          (r.1, if r.2 then 0 else -1)

/-- `ipf_pr_udpcommon`; the result is what it returns. -/
def ipfPrUdpcommon (b : Buf) (fin : FrInfo) : FrInfo × ℤ :=
  let fin := fin.flag FI_TCPUDP
  if fin.finOff = 0 ∧ fin.finDlen > 3 then
    let r := ipfPrPullup b fin 8
    if r.2 then (r.1.ports b, 0) else (r.1.flag FI_SHORT, 1)
  else (fin, 0)

end Ipfilter.Makefrip
