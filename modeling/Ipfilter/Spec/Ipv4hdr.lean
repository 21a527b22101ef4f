import Ipfilter.Spec.Ipv6hdr

/-!
# IPv4 headers

`ipf_pr_ipv4hdr` (`fil.c`): the fields of the header, the header of layer 4, and a walk over the IP options. The walk reads the
header through `optByte`, which has no byte behind it.
-/

namespace Ipfilter.Makefrip

open Masks Tcp

/-- `ipf_pr_short` -/
def ipfPrShort (fin : FrInfo) (xmin : ℕ) : FrInfo :=
  fin.flagIf (if fin.finOff = 0 then decide (fin.finDlen < xmin) else decide (fin.finOff < xmin)) FI_SHORT

/-! ## Layer 4 -/

/-- `ipf_pr_tcp` -/
def ipfPrTcp (b : Buf) (fin : FrInfo) : FrInfo :=
  let r := ipfPrTcpcommon b (ipfPrShort fin 20)
  if r.2 = 0 then ipfCheckv4sum b r.1 else r.1

/-- `ipf_pr_udp` -/
def ipfPrUdp (b : Buf) (fin : FrInfo) : FrInfo :=
  let r := ipfPrUdpcommon b (ipfPrShort fin 8)
  if r.2 = 0 then ipfCheckv4sum b r.1 else r.1

/-- `ipf_pr_esp` -/
def ipfPrEsp (b : Buf) (fin : FrInfo) : FrInfo :=
  if fin.finOff = 0 then (ipfPrPullup b (ipfPrShort fin 8) 8).1 else fin

/-- `ipf_pr_gre` -/
def ipfPrGre (b : Buf) (fin : FrInfo) : FrInfo :=
  let fin := ipfPrShort fin 8
  if fin.finOff ≠ 0 then fin else if pulls b fin 8 then fin.greCall b else (ipfPrPullup b fin 8).1

def ICMP_ECHOREPLY : ℕ := 0
def ICMP_UNREACH : ℕ := 3
def ICMP_SOURCEQUENCH : ℕ := 4
def ICMP_REDIRECT : ℕ := 5
def ICMP_ECHO : ℕ := 8
def ICMP_ROUTERADVERT : ℕ := 9
def ICMP_ROUTERSOLICIT : ℕ := 10
def ICMP_TIMXCEED : ℕ := 11
def ICMP_PARAMPROB : ℕ := 12
def ICMP_TSTAMP : ℕ := 13
def ICMP_TSTAMPREPLY : ℕ := 14
def ICMP_MASKREQ : ℕ := 17
def ICMP_MASKREPLY : ℕ := 18
def ICMP_UNREACH_NEEDFRAG : ℕ := 4

/-- The header that an ICMP error quotes is that of a fragment without a layer 4 header, or of no packet of the one that the
error goes to. -/
def icmpQuoteBad (b : Buf) (fin : FrInfo) : Bool :=
  let oip := fin.finDp + 8
  b.be16 (oip + 6) &&& 0x1fff ≠ 0 ∨ b.raw32 (oip + 12) ≠ fin.finDst.i60

/-- The `switch` of `ipf_pr_icmp`: the smallest legal size, with `none` where the function returns; `minmtu` is
`ipf_icmpminfragmtu`. -/
def icmpType (b : Buf) (minmtu : ℕ) (fin : FrInfo) : FrInfo × Option ℕ :=
  let type := (b.byte fin.finDp).toNat
  if type = ICMP_ECHOREPLY ∨ type = ICMP_ECHO ∨ type = ICMP_ROUTERADVERT ∨ type = ICMP_ROUTERSOLICIT then
    (fin.flag FI_ICMPQUERY, some 8)
  else if type = ICMP_TSTAMP ∨ type = ICMP_TSTAMPREPLY then (fin.flag FI_ICMPQUERY, some 20)
  else if type = ICMP_MASKREQ ∨ type = ICMP_MASKREPLY then (fin.flag FI_ICMPQUERY, some 12)
  else if type = ICMP_UNREACH ∨ type = ICMP_SOURCEQUENCH ∨ type = ICMP_REDIRECT ∨ type = ICMP_TIMXCEED ∨
      type = ICMP_PARAMPROB then
    -- the MTU is compared as it is in the packet
    let fin := fin.flagIf (type = ICMP_UNREACH ∧ (b.byte (fin.finDp + 1)).toNat = ICMP_UNREACH_NEEDFRAG ∧
      (b.raw16 (fin.finDp + 6)).toNat < minmtu) FI_BAD
    let fin := fin.flag FI_ICMPERR
    if ipfCoalesce fin = false then (fin, none) else (fin.flagIf (icmpQuoteBad b fin) FI_BAD, some 28)
  else (fin, some 28)

/-- `ipf_pr_icmp` -/
def ipfPrIcmp (b : Buf) (minmtu : ℕ) (fin : FrInfo) : FrInfo :=
  let fin := ipfPrShort fin 8
  if fin.finOff ≠ 0 then fin
  else if pulls b fin 8 = false then (ipfPrPullup b fin 8).1
  else
    let r := icmpType b minmtu
      { fin with finData := fun i => if i then b.raw16 (fin.finDp + 4) else b.raw16 fin.finDp }
    match r.2 with
    | none => r.1
    | some minicmpsz => ipfCheckv4sum b (ipfPrShort r.1 minicmpsz)

/-- The length of an authentication header, as `ipf_pr_ah` has it. -/
def ahLen (b : Buf) (dp : ℕ) : ℕ := ((b.byte (dp + 1)).toNat + 2) <<< 2

/-- `ipf_pr_ah` -/
def ipfPrAh (b : Buf) (fin : FrInfo) : FrInfo × ℕ :=
  let fin := ipfPrShort (fin.flag FI_AH) 12
  if has fin.finFlx FI_SHORT ∨ fin.finOff ≠ 0 then (fin, IPPROTO_NONE)
  else if pulls b fin 12 = false then ((ipfPrPullup b fin 12).1, IPPROTO_NONE)
  else
    let ah := fin.finDp
    let len := ahLen b ah
    let fin := ipfPrShort fin len
    if pulls b fin len = false then ((ipfPrPullup b fin len).1, IPPROTO_NONE)
    else ({ fin with finDp := fin.finDp + len, finDlen := fin.finDlen - len }, (b.byte ah).toNat)

/-! ## Options -/

def IPOPT_NOP : ℕ := 1
def IPOPT_RR : ℕ := 7
def IPOPT_ZSU : ℕ := 10
def IPOPT_MTUP : ℕ := 11
def IPOPT_MTUR : ℕ := 12
def IPOPT_ENCODE : ℕ := 15
def IPOPT_TS : ℕ := 68
def IPOPT_TR : ℕ := 82
def IPOPT_SECURITY : ℕ := 130
def IPOPT_LSRR : ℕ := 131
def IPOPT_E_SEC : ℕ := 133
def IPOPT_CIPSO : ℕ := 134
def IPOPT_SATID : ℕ := 136
def IPOPT_SSRR : ℕ := 137
def IPOPT_VISA : ℕ := 142
def IPOPT_IMITD : ℕ := 144
def IPOPT_EIP : ℕ := 145
def IPOPT_ADDEXT : ℕ := 147
def IPOPT_FINN : ℕ := 205

/-- `struct optlist` -/
structure Optlist where
  olVal : ℕ
  olBit : Flags
deriving DecidableEq

/-- `ipopts`; the types are not all in order. -/
def ipopts : List Optlist :=
  [⟨IPOPT_NOP, 0x000001⟩, ⟨IPOPT_RR, 0x000002⟩, ⟨IPOPT_ZSU, 0x000004⟩, ⟨IPOPT_MTUP, 0x000008⟩,
    ⟨IPOPT_MTUR, 0x000010⟩,
    ⟨IPOPT_ENCODE, 0x000020⟩, ⟨IPOPT_TS, 0x000040⟩, ⟨IPOPT_TR, 0x000080⟩, ⟨IPOPT_SECURITY, 0x000100⟩,
    ⟨IPOPT_LSRR, 0x000200⟩, ⟨IPOPT_E_SEC, 0x000400⟩, ⟨IPOPT_CIPSO, 0x000800⟩, ⟨IPOPT_SATID, 0x001000⟩,
    ⟨IPOPT_SSRR, 0x002000⟩, ⟨IPOPT_ADDEXT, 0x004000⟩, ⟨IPOPT_VISA, 0x008000⟩, ⟨IPOPT_IMITD, 0x010000⟩,
    ⟨IPOPT_EIP, 0x020000⟩, ⟨IPOPT_FINN, 0x040000⟩, ⟨0, 0x000000⟩]

/-- `secopt` -/
def secopt : List Optlist :=
  [⟨0x01, 0x01⟩, ⟨0x3d, 0x02⟩, ⟨0x5a, 0x04⟩, ⟨0x66, 0x08⟩, ⟨0x96, 0x10⟩, ⟨0xab, 0x20⟩,
    ⟨0xcc, 0x40⟩, ⟨0xf1, 0x80⟩]

/-- An entry of a table, if there is one with this number. -/
def optAt (l : List Optlist) (i : ℤ) : Option Optlist := if i < 0 then none else l[i.toNat]?

/-- A byte of a header of `hlen` bytes. -/
def optByte (b : Buf) (hlen i : ℕ) : Option (BitVec 8) := if i < hlen then some (b.byte i) else none

/-- The loop of `ipf_checkripso`, `k` more times. -/
def ripsoLoop (b : Buf) (hlen s : ℕ) (sec : ℕ) : ℕ → ℤ → Option (BitVec 16 × BitVec 16)
  | 0, _ => some (0, 0)
  | m + 1, j => do
    let sp ← optAt secopt j
    if sec = sp.olVal then
      let hi ← optByte b hlen (s + 3)
      let lo ← optByte b hlen (s + 4)
      return (sp.olBit.truncate 16, hi ++ lo)
    else ripsoLoop b hlen s sec m (if sec < sp.olVal then j - m else j + m)

/-- `ipf_checkripso`: `secmsk` and `auth`. -/
def ipfCheckripso (b : Buf) (hlen s : ℕ) : Option (BitVec 16 × BitVec 16) := do
  let sec ← optByte b hlen (s + 2)
  ripsoLoop b hlen s sec.toNat 3 3

/-- What the walk over the options puts down; `bad` says that it sets `FI_BAD`. -/
structure Optinfo where
  optmsk : BitVec 16
  secmsk : BitVec 16
  auth : BitVec 16
  fiSensitivity : BitVec 8
  bad : Bool
deriving DecidableEq

/-- A tag of a CIPSO option: its sensitivity, or `none` for one that is bad. -/
def cipsoTag (b : Buf) (hlen t : ℕ) : Option (Option (BitVec 8)) := do
  let tag ← optByte b hlen t
  if tag = 1 ∨ tag = 4 ∨ tag = 5 then
    let align ← optByte b hlen (t + 2)
    if align ≠ 0 then return none
    else
      let sensitivity ← optByte b hlen (t + 3)
      return some sensitivity
  else if tag.toNat > 127 then return some 0
  else return none

/-- The loop of `ipf_checkcipso` over the tags, with room for so many; the flag is that of a return value of 0. -/
def cipsoLoop (b : Buf) (hlen : ℕ) : ℕ → ℕ → ℕ → Optinfo → Option (Optinfo × Bool)
  | 0, _, len, o => if len < 2 then some (o, false) else none
  | n + 1, t, len, o =>
    if len < 2 then some (o, false)
    else do
      let tlen ← optByte b hlen (t + 1)
      if tlen.toNat > len ∨ tlen.toNat < 4 ∨ tlen.toNat > 34 then return ({ o with bad := true }, true)
      else
        let sensitivity ← cipsoTag b hlen t
        cipsoLoop b hlen n (t + tlen.toNat) (len - tlen.toNat) (match sensitivity with
          | none => { o with bad := true }
          | some x => { o with fiSensitivity := if o.fiSensitivity < x then x else o.fiSensitivity })

/-- The four bytes of the domain of integrity, as the machine reads them. -/
def cipsoDoi (b : Buf) (hlen s : ℕ) : Option Word := do
  let _ ← optByte b hlen (s + 5)
  return b.raw32 (s + 2)

/-- `ipf_checkcipso`, with the domain of integrity. -/
def ipfCheckcipso (b : Buf) (hlen s ol : ℕ) (o : Optinfo) : Option (Optinfo × Word) :=
  if ol < 6 ∨ ol > 40 then some ({ o with bad := true }, 0)
  else do
    let doi ← cipsoDoi b hlen s
    let r ← cipsoLoop b hlen ol (s + 6) (ol - 6) { o with fiSensitivity := 0 }
    return (r.1, if r.2 then 0 else doi)

/-- An option is found in the table. -/
def optFound (b : Buf) (hlen s opt ol : ℕ) (op : Optlist) (o : Optinfo) : Option Optinfo := do
  let seen : Bool := o.optmsk.zeroExtend 32 &&& op.olBit ≠ 0
  let o ←
    if opt = IPOPT_SECURITY then
      if seen then pure { o with bad := true }
      else do
        let r ← ipfCheckripso b hlen s
        pure { o with secmsk := r.1, auth := r.2 }
    else if opt = IPOPT_CIPSO then
      if seen then pure { o with bad := true }
      else do
        let r ← ipfCheckcipso b hlen s ol o
        pure { r.1 with secmsk := (r.2 >>> 16).truncate 16, auth := r.2.truncate 16 }
    else pure o
  -- `optmsk` has 16 bits
  return { o with optmsk := o.optmsk ||| op.olBit.truncate 16 }

/-- The search for an option in the table, `k` more times: it goes on when the option is found. -/
def optSearch (b : Buf) (hlen s opt ol : ℕ) : ℕ → ℤ → Optinfo → Option Optinfo
  | 0, _, o => some o
  | mv + 1, i, o => do
    let op ← optAt ipopts i
    let o ← if opt = op.olVal ∧ ol > 4 then optFound b hlen s opt ol op o else some o
    optSearch b hlen s opt ol mv (if opt < op.olVal then i - mv else i + mv) o

/-- The length of the option at `s` of the `rest` bytes that are left, with `none` where the walk stops. -/
def optLen (b : Buf) (hlen s rest : ℕ) : Option (Option ℕ) := do
  let opt ← optByte b hlen s
  if opt = 0 then return none
  else if opt.toNat = IPOPT_NOP then return some 1
  else if rest < 2 then return none
  else
    let ol ← optByte b hlen (s + 1)
    return if ol.toNat < 2 ∨ ol.toNat > rest then none else some ol.toNat

/-- The walk over the options from `s` on, with room for so many. -/
def optWalk (b : Buf) (hlen : ℕ) : ℕ → ℕ → Optinfo → Option Optinfo
  | 0, s, o => if s < hlen then none else some o
  | n + 1, s, o =>
    if s < hlen then do
      let ol ← optLen b hlen s (hlen - s)
      match ol with
      | none => return o
      | some ol =>
        let opt ← optByte b hlen s
        let o ← optSearch b hlen s opt.toNat ol 5 9 o
        optWalk b hlen n (s + ol) o
    else some o

/-- The options of a header of `hlen` bytes. -/
def ipOptions (b : Buf) (hlen : ℕ) (fin : FrInfo) : Option Optinfo :=
  optWalk b hlen hlen 20 ⟨0, 0, 0, fin.fiSensitivity, false⟩

/-! ## The header -/

/-- A fragment: its offset in bytes is `off`. -/
def FrInfo.fragment4 (b : Buf) (fin : FrInfo) : FrInfo :=
  let ipOff := b.be16 6
  let more : Bool := ipOff &&& 0x2000 ≠ 0
  let off := (ipOff &&& 0x1fff).toNat <<< 3
  if ipOff &&& 0x3fff ≠ 0 then
    let fin := fin.flag FI_FRAG
    if off ≠ 0 then
      let fin := fin.flag FI_FRAGBODY
      { fin.flagIf ((off : ℤ) + fin.finDlen > 65535 ∨ fin.finDlen = 0 ∨ (more ∧ fin.finDlen % 8 ≠ 0)) FI_BAD with
        finOff := off }
    else { fin with finOff := 0 }
  else { fin with finOff := 0 }

/-- The fields of the header. -/
def FrInfo.header4 (b : Buf) (fin : FrInfo) : FrInfo :=
  let src := b.raw32 12
  let dst := b.raw32 16
  ({ fin with
    finP := (b.byte 9).toNat
    fiTos := b.byte 1
    finId := (b.raw16 4).zeroExtend 32
    fiTtl := b.byte 8
    finSrc := ⟨src, 0, 0, 0⟩
    finDst := ⟨dst, 0, 0, 0⟩
    finCrc := (b.byte 9).zeroExtend 32 + src + dst } : FrInfo).flagIf
      ((b.byte 16).toNat >>> 4 = 14) (FI_MULTICAST ||| FI_MBCAST)

/-- The header of layer 4, behind that of AH if there is one: its protocol. -/
def skipAh (b : Buf) (fin : FrInfo) : FrInfo × ℕ :=
  if fin.finP = IPPROTO_AH then ipfPrAh b fin else (fin, fin.finP)

/-- The `switch` for the protocols of layer 4. -/
def layer4 (b : Buf) (minmtu p : ℕ) (fin : FrInfo) : FrInfo :=
  if p = IPPROTO_UDP then ipfPrUdp b fin
  else if p = IPPROTO_TCP then ipfPrTcp b fin
  else if p = IPPROTO_ICMP then ipfPrIcmp b minmtu fin
  else if p = IPPROTO_ESP then ipfPrEsp b fin
  else if p = IPPROTO_GRE then ipfPrGre b fin
  else fin

/-- `ipf_pr_ipv4hdr` up to the options. -/
def upToOptions (b : Buf) (minmtu : ℕ) (fin : FrInfo) : FrInfo :=
  let r := skipAh b ((fin.header4 b).fragment4 b)
  layer4 b minmtu r.2 r.1

/-- What the options leave in the packet information. -/
def FrInfo.options (fin : FrInfo) (o : Optinfo) : FrInfo :=
  { (fin.flag FI_OPTIONS).flagIf o.bad FI_BAD with
    fiSensitivity := o.fiSensitivity
    finOptmsk := o.optmsk.zeroExtend 32
    finSecmsk := o.secmsk
    finAuth := if o.auth ≠ 0 ∧ o.auth &&& 0x0100 = 0 then o.auth &&& 0xff00 else o.auth }

/-- `ipf_pr_ipv4hdr` -/
def ipfPrIpv4hdr (b : Buf) (minmtu : ℕ) (fin : FrInfo) : Option FrInfo :=
  let r := upToOptions b minmtu fin
  -- a pullup that failed: `fin_ip` is NULL, as `fin_m` is
  if fin.finM = true ∧ r.finM = false then some r
  else if r.finHlen = 20 then some { r with finOptmsk := 0, finSecmsk := 0, finAuth := 0 }
  else (ipOptions b r.finHlen r).map r.options

/-! ## The packet -/

/-- The start of `ipf_makefrip`. -/
def FrInfo.init (fin : FrInfo) (hlen : ℕ) : FrInfo :=
  { fin with finDepth := 0, finHlen := hlen, finRule := 0xffffffff, finGroup := [0xff, 0], finDp := hlen }

/-- `ipf_makefrip` for an IPv4 packet; `none` is a read outside the header or a loop that does not end. -/
def ipfMakefrip4 (b : Buf) (minmtu hlen : ℕ) (fin : FrInfo) : Option FrInfo :=
  let plen : ℤ := (b.be16 2).toNat
  ipfPrIpv4hdr b minmtu { fin.init hlen with finPlen := plen, finDlen := plen - hlen }

/-- `ipf_makefrip` for an IPv6 packet, with room for `n` headers. -/
def ipfMakefrip6 (b : Buf) (n hlen : ℕ) (fin : FrInfo) : Option FrInfo :=
  let plen : ℤ := (b.be16 4).toNat
  ipfPrIpv6hdr b n { fin.init hlen with finPlen := plen + hlen, finDlen := plen }

end Ipfilter.Makefrip
