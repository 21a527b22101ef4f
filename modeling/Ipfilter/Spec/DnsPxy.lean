import Ipfilter.Spec.Flags

/-!
# The DNS proxy of the kernel

`ip_dns_pxy.c`: the list of filter entries that `ipf_p_dns_ctl` keeps, and `ipf_p_dns_inout`, which looks at the questions of a
message. Characters are signed. A result is missing where memory is read that the packet, or an entry, does not have.
-/

namespace Ipfilter.DnsPxy

abbrev Byte := BitVec 8

/-- `ipf_dns_filter_t`. The name is what its memory has, the length what is kept of its size. -/
structure Filter where
  idnsName : List Byte
  idnsNamelen : ℤ
  idnsPass : BitVec 32

/-- `ap_ctl_t` as `ipf_proxy_ioctl` hands it on, with `apc_dsize` bytes of data. -/
structure ApCtl where
  apcCmd : ℕ
  apcArg : BitVec 64
  apcData : List Byte

/-- The counters of `ipf_dns_softc_t`. -/
structure Softc where
  compress : ℕ
  toolong : ℕ
  nospace : ℕ

/-- `dnsinfo_t`: the two bytes before the buffer are those of `dnsi_id`. -/
structure DnsInfo where
  dnsiId : BitVec 16
  dnsiBuffer : List Byte

/-- The order of the bytes of a word in memory. -/
inductive Order where
  | little
  | big
  deriving DecidableEq, Repr

/-- A `u_short` of two bytes in memory. -/
def Order.read : Order → Byte → Byte → ℕ
  | .little, a, b => b.toNat * 256 + a.toNat
  | .big, a, b => a.toNat * 256 + b.toNat

/-- `tolower` -/
def tolower (c : Byte) : Byte := if 0x41 ≤ c ∧ c ≤ 0x5a then c + 0x20 else c

/-- `strncmp` and `strncasecmp`, up to what is done to characters first: whether there is no difference. -/
def strncmp (f : Byte → Byte) : List Byte → List Byte → ℕ → Bool
  | _, _, 0 => true
  | a :: as, b :: bs, n + 1 => if f a ≠ f b then false else if a = 0 then true else strncmp f as bs n
  | _, _, _ + 1 => false

/-! ## Entries -/

def APC_CMD_ADD : ℕ := 0
def APC_CMD_DEL : ℕ := 1

/-- The entry that the loop of `ipf_p_dns_ctl` stops at. -/
def ApCtl.hits (ctl : ApCtl) (idns : Filter) : Bool :=
  decide (idns.idnsNamelen = ctl.apcData.length) && strncmp id ctl.apcData idns.idnsName ctl.apcData.length

/-- `ipf_p_dns_ctl`: the list and the error. `tmp` is whether there is memory for an entry. -/
def ipfPDnsCtl (list : List Filter) (tmp : Bool) (ctl : ApCtl) : List Filter × ℕ :=
  let found := list.any ctl.hits
  if ctl.apcCmd = APC_CMD_DEL then
    if !found then (list, ESRCH) else (list.eraseP ctl.hits, 0)
  else if ctl.apcCmd = APC_CMD_ADD then
    if found then (list, EEXIST)
    else if !tmp then (list, ENOMEM)
    else (list ++ [⟨ctl.apcData, (BitVec.ofNat 32 ctl.apcData.length).toInt, ctl.apcArg.setWidth 32⟩], 0)
  else (list, EINVAL)

/-- The list after commands. -/
def built (ctls : List (Bool × ApCtl)) : List Filter := ctls.foldl (fun list c => (ipfPDnsCtl list c.1 c.2).1) []

/-! ## Names -/

/-- The end of `ipf_p_dns_match_names`: the tail of the query. -/
def matchTail (base : List Byte) (blen : ℤ) (query : List Byte) : Option Bool :=
  if blen < 0 then none else some (strncmp tolower base (query.drop (query.length - blen.toNat)) blen.toNat)

/-- `ipf_p_dns_match_names`: whether it returns 0. -/
def ipfPDnsMatchNames (idns : Filter) (query : List Byte) : Option Bool :=
  let blen := idns.idnsNamelen
  if blen > query.length then some false
  else if blen = query.length then some (strncmp tolower idns.idnsName query query.length)
  else
    match idns.idnsName with
    | [] => none
    | c :: base =>
      if c = 0x2a then matchTail base (blen - 1) query
      else if c ≠ 0x2e then some false
      else matchTail (c :: base) blen query

/-- The loop of `ipf_p_dns_get_name`, from `s` on: what is written, and where the loop ends, if it does not return. -/
def getNameLoop (softd : Softc) : ℕ → List Byte → ℤ → ℤ → List Byte →
    Option (Softc × List Byte × Option (List Byte))
  | 0, _, _, _, _ => none
  | _ + 1, [], _, _, _ => none
  | n + 1, c :: s, slen, blen, t =>
    if c = 0 then some (softd, t, some (c :: s))
    else if c &&& 0xc0 = 0xc0 then some ({ softd with compress := softd.compress + 1 }, t, none)
    else if c.toInt > slen then some ({ softd with toolong := softd.toolong + 1 }, t, none)
    else if c.toInt + 1 > blen then some ({ softd with nospace := softd.nospace + 1 }, t, none)
    else if c.toInt < 0 ∨ (s.length : ℤ) < c.toInt then none
    else getNameLoop softd n (s.drop c.toNat) (slen - c.toInt) (blen - (c.toInt + 1)) (t ++ s.take c.toNat ++ [0x2e])

/-- What is written to the buffer from its start. -/
def DnsInfo.write (di : DnsInfo) (t : List Byte) : DnsInfo := { di with dnsiBuffer := t ++ di.dnsiBuffer.drop t.length }

/-- `*(t - 1) = '\0'`, which is the last byte of `dnsi_id` when nothing was written. -/
def DnsInfo.close (order : Order) (di : DnsInfo) (t : List Byte) : DnsInfo :=
  if t = [] then
    { di with dnsiId := match order with
      | .little => di.dnsiId &&& 0x00ff
      | .big => di.dnsiId &&& 0xff00 }
  else di.write (t.dropLast ++ [0])

/-- `ipf_p_dns_get_name` into the buffer of `dnsinfo_t`, and what it returns. -/
def ipfPDnsGetName (order : Order) (softd : Softc) (di : DnsInfo) (start : List Byte) (len : ℤ) :
    Option (Softc × DnsInfo × ℕ) :=
  match getNameLoop softd (start.length + 1) start len (512 - 1) [] with
  | none => none
  | some (softd, t, none) => some (softd, di.write t, 0)
  | some (softd, t, some s) => some (softd, (di.write t).close order t, start.length - s.length)

/-- The loop of `ipf_p_dns_allow_query`. -/
def allowLoop (query : List Byte) : List Filter → Option (BitVec 32)
  | [] => some 0
  | idns :: list =>
    match ipfPDnsMatchNames idns query with
    | none => none
    | some true => some idns.idnsPass
    | some false => allowLoop query list

/-- The string in memory, up to its end. -/
def cstring (b : List Byte) : List Byte := b.takeWhile (· ≠ 0)

/-- `ipf_p_dns_allow_query` -/
def ipfPDnsAllowQuery (list : List Filter) (di : DnsInfo) : Option (BitVec 32) :=
  if 0 ∈ di.dnsiBuffer then allowLoop (cstring di.dnsiBuffer) list else none

/-! ## Messages -/

/-- `APR_ERR` -/
def APR_ERR (x : BitVec 32) : BitVec 32 := x <<< 16

/-- The loop of `ipf_p_dns_inout`, with `q` questions to go: the value of `rc`. -/
def inoutLoop (order : Order) (list : List Filter) : ℕ → Softc → DnsInfo → List Byte → ℤ →
    Option (Softc × DnsInfo × BitVec 32)
  | 0, softd, di, _, _ => some (softd, di, 0)
  | q + 1, softd, di, data, dlen =>
    if dlen ≤ 0 then some (softd, di, 0)
    else
      match ipfPDnsGetName order softd di data dlen with
      | none => none
      | some (softd, di, len) =>
        if len = 0 then some (softd, di, 1)
        else
          match ipfPDnsAllowQuery list di with
          | none => none
          | some rc => if rc ≠ 0 then some (softd, di, rc) else inoutLoop order list q softd di (data.drop len) (dlen - len)

/-- `ipf_p_dns_inout` for a packet with `fin_dlen` bytes from its UDP header on. -/
def ipfPDnsInout (order : Order) (list : List Filter) (softd : Softc) (di : DnsInfo) (dp : List Byte) :
    Option (Softc × DnsInfo × BitVec 32) :=
  if dp.length < 12 then some (softd, di, APR_ERR 1)
  else
    match dp.drop 8 with
    | _ :: _ :: _ :: _ :: qd :: qd' :: _ :: _ :: _ :: _ :: _ :: _ :: data =>
      (inoutLoop order list (order.read qd qd') softd di data ((dp.length : ℤ) - 12 - 8)).map fun r =>
      (r.1, r.2.1, APR_ERR r.2.2)
    | _ => none

end Ipfilter.DnsPxy
