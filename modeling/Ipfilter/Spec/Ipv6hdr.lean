import Ipfilter.Spec.FrInfo

/-!
# IPv6 headers

`ipf_pr_ipv6hdr` (`fil.c`) goes from one extension header to the next up to the header of layer 4.
-/

namespace Ipfilter.Makefrip

open Masks Tcp

/-- `ip6exthdr`, up to its terminator. -/
def ip6exthdr : List (ℕ × Flags) :=
  [(IPPROTO_HOPOPTS, 0x000001), (IPPROTO_IPV6, 0x000002), (IPPROTO_ROUTING, 0x000004), (IPPROTO_FRAGMENT, 0x000008),
    (IPPROTO_ESP, 0x000010), (IPPROTO_AH, 0x000020), (IPPROTO_NONE, 0x000040), (IPPROTO_DSTOPTS, 0x000080),
    (IPPROTO_MOBILITY, 0x000100)]

/-- The bit of a protocol in `ip6exthdr`. -/
def extBit (proto : ℕ) : Option Flags := (ip6exthdr.find? fun e => e.1 = proto).map Prod.snd

/-- `ipf_pr_short6` -/
def ipfPrShort6 (fin : FrInfo) (xmin : ℤ) : FrInfo := fin.flagIf (fin.finDlen < xmin) FI_SHORT

/-! ## Extension headers -/

/-- The length of an extension header, as `ipf_pr_ipv6exthdr` has it. -/
def extShift (b : Buf) (proto dp : ℕ) : ℕ := if proto = IPPROTO_FRAGMENT then 8 else 8 + (b.byte (dp + 1)).toNat <<< 3

/-- The presence of a header is put down, and the second one of a kind that is allowed once only. Behind a fragment header
nothing is. -/
def FrInfo.notePresence (fin : FrInfo) (multiple : Bool) (proto : ℕ) : FrInfo :=
  if has fin.finFlx FI_FRAG then fin
  else
    match extBit proto with
    | none => fin
    | some bit =>
      if multiple = false ∧ has fin.finOptmsk bit then fin.flag FI_BAD
      else { fin with finOptmsk := fin.finOptmsk ||| bit }

/-- `ipf_pr_ipv6exthdr`, with the place of the header. -/
def ipfPrIpv6exthdr (b : Buf) (fin : FrInfo) (multiple : Bool) (proto : ℕ) : FrInfo × Option ℕ :=
  let fin := fin.flag FI_V6EXTHDR
  if fin.finDlen - 8 < 0 then (fin.flag FI_SHORT, none)
  else if pulls b fin 8 = false then ((ipfPrPullup b fin 8).1, none)
  else
    let hdr := fin.finDp
    let shift := extShift b proto hdr
    if (shift : ℤ) > fin.finDlen then (fin.flag FI_BAD, none)
    else
      (({ fin with finDp := fin.finDp + shift, finDlen := fin.finDlen - shift } : FrInfo).notePresence multiple proto, some hdr)

/-- The handlers that only go on to the next header. -/
def exthdrNext (b : Buf) (proto : ℕ) (fin : FrInfo) : FrInfo × ℕ :=
  let r := ipfPrIpv6exthdr b fin false proto
  match r.2 with
  | none => (r.1, IPPROTO_NONE)
  | some hdr => (r.1, (b.byte hdr).toNat)

/-- `ipf_pr_hopopts6` -/
def ipfPrHopopts6 (b : Buf) (fin : FrInfo) : FrInfo × ℕ := exthdrNext b IPPROTO_HOPOPTS fin

/-- `ipf_pr_mobility6` -/
def ipfPrMobility6 (b : Buf) (fin : FrInfo) : FrInfo × ℕ := exthdrNext b IPPROTO_MOBILITY fin

/-- `ipf_pr_dstopts6` -/
def ipfPrDstopts6 (b : Buf) (fin : FrInfo) : FrInfo × ℕ := exthdrNext b IPPROTO_DSTOPTS fin

/-- A routing header of type 0 with more segments left than it has room for. -/
def routingBad (b : Buf) (hdr : ℕ) : Bool :=
  let len := (b.byte (hdr + 1)).toNat
  let segleft := (b.byte (hdr + 3)).toNat
  b.byte (hdr + 2) = 0 ∧ (len >>> 1 < segleft ∨ (segleft ≠ 0 ∧ len &&& 1 ≠ 0))

/-- `ipf_pr_routing6` -/
def ipfPrRouting6 (b : Buf) (fin : FrInfo) : FrInfo × ℕ :=
  let r := ipfPrIpv6exthdr b fin false IPPROTO_ROUTING
  match r.2 with
  | none => (r.1, IPPROTO_NONE)
  | some hdr => if routingBad b hdr then (r.1.flag FI_BAD, IPPROTO_NONE) else (r.1, (b.byte hdr).toNat)

/-- `ntohs(frag->ip6f_offlg & IP6F_OFF_MASK)` -/
def fragOff (b : Buf) (hdr : ℕ) : ℕ := (b.be16 (hdr + 2) &&& 0xfff8).toNat

/-- `frag->ip6f_offlg & IP6F_MORE_FRAG` -/
def moreFrag (b : Buf) (hdr : ℕ) : Bool := b.be16 (hdr + 2) &&& 1 ≠ 0

/-- What `ipf_pr_fragment6` finds in a fragment header. -/
def FrInfo.fragment (b : Buf) (fin : FrInfo) (hdr : ℕ) : FrInfo :=
  let fin := fin.flagIf (moreFrag b hdr ∧ fin.finPlen % 8 ≠ 0) FI_BAD
  let fin := { fin with finFraghdr := some hdr, finId := b.raw32 (hdr + 4), finOff := fragOff b hdr }
  let fin := fin.flagIf (fin.finOff ≠ 0) FI_FRAGBODY
  -- jumbograms aren't handled, so the max. length is 64k
  fin.flagIf (((fin.finOff <<< 3 : ℕ) : ℤ) + fin.finDlen > 65535) FI_BAD

/-- `ipf_pr_fragment6` -/
def ipfPrFragment6 (b : Buf) (fin : FrInfo) : FrInfo × ℕ :=
  let r := ipfPrIpv6exthdr b (fin.flag FI_FRAG) false IPPROTO_FRAGMENT
  match r.2 with
  | none => (r.1, IPPROTO_NONE)
  | some hdr => (r.1.fragment b hdr, (b.byte hdr).toNat)

/-- `ipf_pr_ah6` -/
def ipfPrAh6 (b : Buf) (fin : FrInfo) : FrInfo × ℕ :=
  let r := ipfPrIpv6exthdr b (fin.flag FI_AH) false IPPROTO_HOPOPTS
  match r.2 with
  | none => (r.1, IPPROTO_NONE)
  | some hdr => (ipfPrShort6 r.1 12, (b.byte hdr).toNat)

/-! ## Layer 4 -/

def ICMP6_DST_UNREACH : ℕ := 1
def ICMP6_PACKET_TOO_BIG : ℕ := 2
def ICMP6_TIME_EXCEEDED : ℕ := 3
def ICMP6_PARAM_PROB : ℕ := 4
def ICMP6_ECHO_REQUEST : ℕ := 128
def ICMP6_ECHO_REPLY : ℕ := 129
def ICMP6_INFOMSG_MASK : BitVec 8 := 0x80

/-- The `switch` of `ipf_pr_icmp6`: the smallest legal size, with `none` where the function returns. -/
def icmp6Type (b : Buf) (fin : FrInfo) : FrInfo × Option ℤ :=
  let type := (b.byte fin.finDp).toNat
  if type = ICMP6_ECHO_REPLY ∨ type = ICMP6_ECHO_REQUEST then
    if fin.finDlen ≥ 6 then ({ fin with finData := Function.update fin.finData true (b.raw16 (fin.finDp + 4)) }, some 8)
    else (fin, some 8)
  else if type = ICMP6_DST_UNREACH ∨ type = ICMP6_PACKET_TOO_BIG ∨ type = ICMP6_TIME_EXCEEDED ∨
    type = ICMP6_PARAM_PROB then
    let fin := fin.flag FI_ICMPERR
    if fin.finPlen < 88 then (fin, some 48)
    -- `ipf_coalesce` has nothing to do here
    else if pulls b fin 48 = false then ((ipfPrPullup b fin 48).1, none)
    else (fin.flagIf (ip6Eq fin.finDst (b.raw128 (fin.finDp + 16)) = false) FI_BAD, some 48)
  else (fin, some 8)

/-- The block of `ipf_pr_icmp6` for a header whose type is there. -/
def icmp6Start (b : Buf) (fin : FrInfo) : FrInfo × Option ℤ :=
  if fin.finDlen > 1 then
    let fin := { fin with finData := Function.update fin.finData false (b.raw16 fin.finDp) }
    icmp6Type b (fin.flagIf (b.byte fin.finDp &&& ICMP6_INFOMSG_MASK ≠ 0) FI_ICMPQUERY)
  else (fin, some 8)

/-- `ipf_pr_icmp6` -/
def ipfPrIcmp6 (b : Buf) (fin : FrInfo) : FrInfo :=
  if pulls b fin 8 = false then (ipfPrPullup b fin 8).1
  else
    let r := icmp6Start b fin
    match r.2 with
    | none => r.1
    | some minicmpsz =>
      let fin := ipfPrShort6 r.1 minicmpsz
      if has fin.finFlx (FI_SHORT ||| FI_BAD) then fin else checkv6sumAs b IPPROTO_ICMPV6 fin

/-- `ipf_pr_udp6` -/
def ipfPrUdp6 (b : Buf) (fin : FrInfo) : FrInfo :=
  let r := ipfPrUdpcommon b fin
  if r.2 = 0 then checkv6sumAs b IPPROTO_UDP r.1 else r.1

/-- `ipf_pr_tcp6` -/
def ipfPrTcp6 (b : Buf) (fin : FrInfo) : FrInfo :=
  let r := ipfPrTcpcommon b fin
  if r.2 = 0 then checkv6sumAs b IPPROTO_TCP r.1 else r.1

/-- `ipf_pr_esp6` -/
def ipfPrEsp6 (b : Buf) (fin : FrInfo) : FrInfo := if fin.finOff = 0 then (ipfPrPullup b fin 8).1 else fin

/-- `GRE_REV(gre->gr_flags)` -/
def greRev (b : Buf) (dp : ℕ) : ℕ := (b.be16 dp).toNat >>> 13

/-- The call of an enhanced GRE header. -/
def FrInfo.greCall (b : Buf) (fin : FrInfo) : FrInfo :=
  if greRev b fin.finDp = 1 then { fin with finData := Function.update fin.finData false (b.raw16 (fin.finDp + 6)) } else fin

/-- `ipf_pr_gre6` -/
def ipfPrGre6 (b : Buf) (fin : FrInfo) : FrInfo :=
  if pulls b fin 8 then fin.greCall b else (ipfPrPullup b fin 8).1

/-! ## The loop -/

/-- Where the loop of `ipf_pr_ipv6hdr` is; `brk` says that it was left by `break`. -/
structure Walk where
  fin : FrInfo
  p : ℕ
  go : Bool
  brk : Bool

/-- The condition of the loop. -/
def Walk.more (s : Walk) : Bool := s.go && !has s.fin.finFlx FI_SHORT && !s.brk

/-- An extension header: the loop goes on with the next one. -/
def Walk.next (s : Walk) (r : FrInfo × ℕ) : Walk := { s with fin := r.1, p := r.2 }

/-- `go = 0` -/
def Walk.last (s : Walk) (fin : FrInfo) : Walk := { s with fin := fin, go := false }

/-- `IPPROTO_IPV6`: the bit of `ip6exthdr` goes to `fin_flx`. -/
def FrInfo.flagExt (fin : FrInfo) (proto : ℕ) : FrInfo :=
  match extBit proto with
  | some bit => fin.flag bit
  | none => fin

/-- `IPPROTO_FRAGMENT`: a fragment that is not the first one has only data. -/
def Walk.fragment (s : Walk) (r : FrInfo × ℕ) : Walk := { s with fin := r.1, p := r.2, go := r.1.finOff = 0 }

/-- The `switch` of the loop. -/
def Walk.switch (b : Buf) (s : Walk) : Walk :=
  if s.p = IPPROTO_UDP then s.last (ipfPrUdp6 b s.fin)
  else if s.p = IPPROTO_TCP then s.last (ipfPrTcp6 b s.fin)
  else if s.p = IPPROTO_ICMPV6 then s.last (ipfPrIcmp6 b s.fin)
  else if s.p = IPPROTO_GRE then s.last (ipfPrGre6 b s.fin)
  else if s.p = IPPROTO_HOPOPTS then s.next (ipfPrHopopts6 b s.fin)
  else if s.p = IPPROTO_MOBILITY then s.next (ipfPrMobility6 b s.fin)
  else if s.p = IPPROTO_DSTOPTS then s.next (ipfPrDstopts6 b s.fin)
  else if s.p = IPPROTO_ROUTING then s.next (ipfPrRouting6 b s.fin)
  else if s.p = IPPROTO_AH then s.next (ipfPrAh6 b s.fin)
  else if s.p = IPPROTO_ESP then s.last (ipfPrEsp6 b s.fin)
  else if s.p = IPPROTO_IPV6 then s.last (s.fin.flagExt s.p)
  else if s.p = IPPROTO_NONE then s.last s.fin
  else if s.p = IPPROTO_FRAGMENT then s.fragment (ipfPrFragment6 b s.fin)
  else s.last s.fin

/-- The end of the loop's body. -/
def Walk.settle (b : Buf) (s : Walk) : Walk :=
  if s.go = true ∧ s.p ≠ IPPROTO_NONE ∧ pulls b s.fin 0 = false then
    { s with fin := (ipfPrPullup b s.fin 0).1, p := IPPROTO_NONE, brk := true }
  else s

/-- The body of the loop. -/
def Walk.step (b : Buf) (s : Walk) : Walk := (s.switch b).settle b

/-- The loop, with room for `n` turns. -/
def walkLoop (b : Buf) : ℕ → Walk → Option Walk
  | 0, s => if s.more then none else some s
  | n + 1, s => if s.more then walkLoop b n (s.step b) else some s

/-- The loop at its start. -/
def Walk.start (b : Buf) (fin : FrInfo) : Walk :=
  let p := b.byte 6
  let src := b.raw128 8
  let dst := b.raw128 24
  { fin := { fin with
      finOff := 0
      fiTos := 0
      finOptmsk := 0
      finSecmsk := 0
      finAuth := 0
      fiTtl := b.byte 7
      finSrc := src
      finDst := dst
      finCrc := p.zeroExtend 32 + src.i60 + src.i61 + src.i62 + src.i63 + dst.i60 + dst.i61 + dst.i62 + dst.i63
      finId := 0 }
    p := p.toNat
    go := true
    brk := false }

/-- What `ipf_pr_ipv6hdr` does after the loop. -/
def Walk.finish (s : Walk) : FrInfo :=
  if s.fin.finM = false then s.fin
  else
    let fin := { s.fin with finP := s.p }
    -- fragment case 1: no layer 4 header came
    fin.flagIf (s.go ∧ has fin.finFlx FI_FRAG ∧ fin.finOff = 0) FI_BAD

/-- `ipf_pr_ipv6hdr`, with room for `n` headers. -/
def ipfPrIpv6hdr (b : Buf) (n : ℕ) (fin : FrInfo) : Option FrInfo := (walkLoop b n (Walk.start b fin)).map Walk.finish

end Ipfilter.Makefrip
