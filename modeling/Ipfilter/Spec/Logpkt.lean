import Ipfilter.Spec.Log
import Ipfilter.Spec.SyncAbi

/-!
# Log records of packets

`ipf_log_pkt` of `ip_log.c`: how much of a packet goes into its log record, and the structure `ipflog_t` in front of it. The
record itself is made by `ipf_log_items`. The names of the interface and of the NAT tag are left out.
-/

namespace Ipfilter.IpLog

open Sync (Byte Half Layout)
open Masks (Word)

def FR_LOGBODY : Flags := 0x10000
def FR_NOLOGTAG : Word := 0

def IPPROTO_ICMP : ℕ := 1
def IPPROTO_TCP : ℕ := 6
def IPPROTO_UDP : ℕ := 17
def IPPROTO_ICMPV6 : ℕ := 58

def ICMP_UNREACH : Byte := 3
def ICMP_SOURCEQUENCH : Byte := 4
def ICMP_REDIRECT : Byte := 5
def ICMP_TIMXCEED : Byte := 11
def ICMP_PARAMPROB : Byte := 12

def sizeofTcphdr : ℕ := 20
def sizeofUdphdr : ℕ := 8
def sizeofIcmp : ℕ := 28
def sizeofIcmp6hdr : ℕ := 8

/-- The part of `fr_info_t` that `ipf_log_pkt` reads, with the bytes of the packet (`finM`, from the IP header on). `finDp` is
`fin_dp - fin_ip`, `icmpType` the first byte behind it, `finFr` the log level and tag of the rule. -/
structure PktInfo (B : Type) extends FrInfo B where
  finM : Option (ℕ → Byte)
  finDp : ℕ
  finP : ℕ
  finDlen : ℤ
  finPlen : ℤ
  icmpType : Byte
  finRule : Word
  finGroup : BitVec 128
  finFr : Option (Half × Word)
  finReason : Word
  finOut : Byte
  finFlx : Flags
  finFamily : Byte

/-- `ipflog_t` -/
structure Ipflog where
  flRule : Word
  flFlags : Flags
  flLflags : Flags
  flLogtag : Word
  flPlen : Half
  flLoglevel : Half
  flGroup : BitVec 128
  flHlen : Byte
  flDir : Byte
  flBreason : Byte
  flFamily : Byte

/-- `ipflog_t` on a little endian machine. -/
def ipflogLayout : Layout Ipflog :=
  (((Layout.word.pair Layout.word).pair (Layout.word.pair Layout.word)).pad 4 16).pair
    (((Layout.half.pair Layout.half).pair Layout.group).pair
      (((Layout.byte.pair Layout.byte).pair (Layout.byte.pair Layout.byte)).pad 0 16)) |>.via
    (fun l => (((l.flRule, l.flFlags), (l.flLflags, l.flLogtag)),
      (((l.flPlen, l.flLoglevel), l.flGroup), ((l.flHlen, l.flDir), (l.flBreason, l.flFamily)))))
    (fun p => {
      flRule := p.1.1.1
      flFlags := p.1.1.2
      flLflags := p.1.2.1
      flLogtag := p.1.2.2
      flPlen := p.2.1.1.1
      flLoglevel := p.2.1.1.2
      flGroup := p.2.1.2
      flHlen := p.2.2.1.1
      flDir := p.2.2.1.2
      flBreason := p.2.2.2.1
      flFamily := p.2.2.2.2 }) fun _ => rfl

/-- `MIN(size, fin->fin_dlen)`, which is a comparison without sign. -/
def minSize (size : ℕ) (dlen : ℤ) : ℕ := if dlen < 0 ∨ size < dlen then size else dlen.toNat

variable {B : Type} (inet6 logall : Bool)

/-- How much of the header of the protocol is logged. `inet6` is whether `USE_INET6` is defined. -/
def PktInfo.hdrPart (fin : PktInfo B) : ℕ :=
  if fin.finOff = 0 then
    if fin.finP = IPPROTO_TCP then minSize sizeofTcphdr fin.finDlen
    else if fin.finP = IPPROTO_UDP then minSize sizeofUdphdr fin.finDlen
    else if fin.finP = IPPROTO_ICMP then
      if fin.icmpType ∈ [ICMP_UNREACH, ICMP_SOURCEQUENCH, ICMP_REDIRECT, ICMP_TIMXCEED, ICMP_PARAMPROB] then
        minSize (sizeofIcmp + 8) fin.finDlen
      else minSize sizeofIcmp fin.finDlen
    else if inet6 ∧ fin.finP = IPPROTO_ICMPV6 then
      if fin.icmpType < 128 then minSize (sizeofIcmp6hdr + 8) fin.finDlen else minSize sizeofIcmp6hdr fin.finDlen
    else 0
  else 0

/-- `mlen`, what is logged of the packet behind `hlen` bytes. -/
def PktInfo.mlen (fin : PktInfo B) (flags : Flags) (hlen : ℕ) : ℤ :=
  let mlen := fin.finPlen - hlen
  let mlen :=
    if logall = false then if has flags FR_LOGBODY then min mlen 128 else 0
    else if has flags FR_LOGBODY = false then 0
    else mlen
  if mlen < 0 then 0 else mlen

/-- The structure in front of the packet. -/
def PktInfo.ipflog (fin : PktInfo B) (flags : Flags) (hlen : ℕ) (mlen : ℤ) : Ipflog where
  flPlen := (BitVec.ofInt 8 mlen).setWidth 16
  flHlen := BitVec.ofNat 8 hlen
  flRule := fin.finRule
  flGroup := fin.finGroup
  flLoglevel := match fin.finFr with
    | some (loglevel, _) => loglevel
    | none => 0xffff
  flLogtag := match fin.finFr with
    | some (_, logtag) => logtag
    | none => FR_NOLOGTAG
  flFlags := flags
  flBreason := fin.finReason.setWidth 8
  flDir := fin.finOut
  flLflags := fin.finFlx
  flFamily := fin.finFamily

/-- `ipf_log_pkt`, with the layout of `ipflog_t` and the memory that `KMALLOCS` gives. -/
def ipfLogPkt [Zero B] [DecidableEq B] (layout : Layout Ipflog) (w : Softl B) (fin : PktInfo B) (flags : Flags)
    (buf : Option ℕ) : Softl B × ℤ :=
  match fin.finM with
  | none => (w, -1)
  | some m =>
    let hlen := fin.finDp + fin.hdrPart inet6
    let mlen := fin.mlen logall flags hlen
    ipfLogItems w (some fin.toFrInfo)
      [layout.put (fin.ipflog flags hlen mlen), (List.range (hlen + mlen.toNat)).map m] buf

end Ipfilter.IpLog
