import Ipfilter.Spec.Ipnat

/-!
# What `ipf_nat_out` and `ipf_nat_in` do to a packet

* `ipfNatProto_eq`: the packet keeps its addresses, its ports and its id.
* `ipfNatOut_eq`, `ipfNatIn_eq`: the translated packet, in terms of what is written into it.
* `translate_trip`: exactly which sessions are translated both ways.
-/

namespace Ipfilter.NatTab

open Masks State Option

variable {M : Machine} {k : Kind} {nat : NatT} {nflags X : Flags} {fin r : FrInfo} {t : Tuple}

/-! ## The flags of a packet -/

theorem Kind.Fits.and (hn : k.Fits nflags)
    (hX : (IPN_TCPUDP ||| IPN_ICMPERR ||| IPN_ICMPQUERY) &&& X = X) : nflags &&& X = k.flag &&& X := by
  unfold Kind.Fits at hn
  calc nflags &&& X = nflags &&& ((IPN_TCPUDP ||| IPN_ICMPERR ||| IPN_ICMPQUERY) &&& X) := by rw [hX]
    _ = k.flag &&& X := by rw [← BitVec.and_assoc, hn]

theorem Kind.Fits.has_eq (hn : k.Fits nflags)
    (hX : (IPN_TCPUDP ||| IPN_ICMPERR ||| IPN_ICMPQUERY) &&& X = X) : has nflags X = has k.flag X := by
  unfold Ipfilter.has
  rw [hn.and hX]

theorem Kind.Fits.tcpudp (hn : k.Fits nflags) : has nflags IPN_TCPUDP = decide (k ≠ .icmp) := by
  rw [hn.has_eq (by decide)]
  cases k <;> decide

theorem Kind.Fits.icmpquery (hn : k.Fits nflags) : has nflags IPN_ICMPQUERY = decide (k = .icmp) := by
  rw [hn.has_eq (by decide)]
  cases k <;> decide

theorem Kind.Fits.not_icmperr (hn : k.Fits nflags) : nflags ≠ IPN_ICMPERR := by
  rintro rfl
  revert hn
  cases k <;> decide

/-! ## The transport header -/

theorem mssclampLoop_not_hit (M : Machine) (maxmss : Word) (sum : BitVec 16) (opts : List (BitVec 8))
    (h : (mssclampLoop M maxmss sum opts).2.2 = false) :
    (mssclampLoop M maxmss sum opts).1 = opts ∧ (mssclampLoop M maxmss sum opts).2.1 = sum := by
  fun_induction mssclampLoop M maxmss sum opts <;> simp_all

/-- **`ipf_nat_proto`** changes the options and the checksum of a TCP header, and nothing if no option is
above the clamp. -/
theorem ipfNatProto_eq (M : Machine) (nat : NatT) (hp : fin.finP = k.proto) (hn : k.Fits nflags) :
    ∃ rev opts sum, ipfNatProto M fin nat nflags =
        some ({ fin with finRev := rev, finDp := { fin.finDp with thOpts := opts, sum := sum } },
          decide (k = .tcp ∨ fin.finDp.sum ≠ 0)) ∧
      (fin.clamped M nat = false → opts = fin.finDp.thOpts ∧ sum = fin.finDp.sum) := by
  unfold ipfNatProto FrInfo.clamped
  cases k with
  | tcp =>
    have hcs : has nflags IPN_TCP = true := by
      rw [hn.has_eq (by decide)]
      decide
    by_cases hc : nat.natMssclamp ≠ 0 ∧ fin.finDp.thSyn = true
    · simp only [hp, Kind.proto, if_true, if_pos hc, hcs, Bool.true_eq_false, and_false, if_false]
      refine ⟨_, _, _, rfl, fun h => ?_⟩
      apply mssclampLoop_not_hit
      simpa only [hp, Kind.proto, hc.1, hc.2, ne_eq, not_false_eq_true, true_and, decide_eq_false_iff_not,
        Bool.not_eq_true] using h
    · simp only [hp, Kind.proto, if_true, if_neg hc, hcs]
      exact ⟨_, _, _, rfl, fun _ => ⟨rfl, rfl⟩⟩
  | udp =>
    have hcs : has nflags IPN_UDP = true := by
      rw [hn.has_eq (by decide)]
      decide
    have hne : IPPROTO_UDP ≠ IPPROTO_TCP := by decide
    simp only [hp, Kind.proto, if_neg hne, if_true, hcs, true_and, reduceCtorEq, false_or]
    exact ⟨_, _, _, rfl, fun _ => ⟨rfl, rfl⟩⟩
  | icmp =>
    have hcs : has nflags IPN_ICMPQUERY = true := by
      rw [hn.has_eq (by decide)]
      decide
    have hne : IPPROTO_ICMP ≠ IPPROTO_TCP := by decide
    have hne' : IPPROTO_ICMP ≠ IPPROTO_UDP := by decide
    simp only [hp, Kind.proto, if_neg hne, if_neg hne', if_true, hcs, true_and, reduceCtorEq, false_or]
    exact ⟨_, _, _, rfl, fun _ => ⟨rfl, rfl⟩⟩

/-! ## The two translations -/

/-- The packet that `ipf_nat_out` hands to `ipf_nat_proto`. -/
def outWritten (M : Machine) (fin : FrInfo) (nat : NatT) (nflags : Flags) : FrInfo :=
  outPorts M (outAddrs { fin with finIp := { fin.finIp with ipSum := outIpSum M fin nat nflags } } nat) nat nflags

/-- The packet that `ipf_nat_in` hands to `ipf_nat_proto`. -/
def inWritten (M : Machine) (fin : FrInfo) (nat : NatT) (nflags : Flags) : FrInfo :=
  let q := (inAddrs fin nat).1
  inPorts M { q with finIp := { q.finIp with ipSum := inIpSum M q.finIp.ipSum nat.natDir (inAddrs fin nat).2 } }
    nat nflags

/-- What becomes of the transport checksum `sum` of a packet that goes out. -/
def outSum (M : Machine) (fin : FrInfo) (nat : NatT) (sum : BitVec 16) : BitVec 16 :=
  match nat.natDir with
  | .outbound => ipfFixOutcksum M fin.finCksum sum (nat.natSumd false) (nat.natSumd true + fin.finDlen)
  | .inbound => ipfFixIncksum M fin.finCksum sum (nat.natSumd false) (nat.natSumd true + fin.finDlen)

/-- What becomes of the transport checksum `sum` of a packet that comes in. -/
def inSum (M : Machine) (nat : NatT) (sum : BitVec 16) : BitVec 16 :=
  match nat.natDir with
  | .outbound => ipfFixIncksum M 0 sum (nat.natSumd false) 0
  | .inbound => ipfFixOutcksum M 0 sum (nat.natSumd false) 0

/-- `fin` with the fields that come after the addresses and the ports. -/
def FrInfo.finish (fin : FrInfo) (rev : Bool) (opts : List (BitVec 8)) (sum : BitVec 16) : FrInfo :=
  { fin with
    finRev := rev
    finFlx := fin.finFlx ||| FI_NATED
    finDp := { fin.finDp with thOpts := opts, sum := sum } }

/-- `q` is `fin` with other addresses, ports and id, and another IP checksum. -/
structure FrInfo.Keeps (q fin : FrInfo) : Prop where
  proto : q.finP = fin.finP
  flx : q.finFlx = fin.finFlx
  off : q.finOff = fin.finOff
  cksum : q.finCksum = fin.finCksum
  dlen : q.finDlen = fin.finDlen
  ipRest : q.finIp.ipRest = fin.finIp.ipRest
  sum : q.finDp.sum = fin.finDp.sum
  syn : q.finDp.thSyn = fin.finDp.thSyn
  opts : q.finDp.thOpts = fin.finDp.thOpts
  rest : q.finDp.rest = fin.finDp.rest

theorem FrInfo.Keeps.clamped {q : FrInfo} (h : q.Keeps fin) : q.clamped M nat = fin.clamped M nat := by
  unfold FrInfo.clamped
  rw [h.proto, h.syn, h.sum, h.opts]

theorem outWritten_keeps : (outWritten M fin nat nflags).Keeps fin := by
  unfold outWritten outPorts outAddrs FrInfo.setPorts FrInfo.setId
  cases nat.natDir <;> constructor <;> dsimp only <;> split_ifs <;> rfl

theorem inWritten_keeps : (inWritten M fin nat nflags).Keeps fin := by
  unfold inWritten inPorts inAddrs FrInfo.setPorts FrInfo.setId
  cases nat.natDir <;> constructor <;> dsimp only <;> split_ifs <;> rfl

@[simp] theorem outAddrs_finFlx : (outAddrs fin nat).finFlx = fin.finFlx := by
  unfold outAddrs
  cases nat.natDir <;> rfl

@[simp] theorem outAddrs_finOff : (outAddrs fin nat).finOff = fin.finOff := by
  unfold outAddrs
  cases nat.natDir <;> rfl

@[simp] theorem inAddrs_finFlx : (inAddrs fin nat).1.finFlx = fin.finFlx := by
  unfold inAddrs
  cases nat.natDir <;> rfl

@[simp] theorem inAddrs_finOff : (inAddrs fin nat).1.finOff = fin.finOff := by
  unfold inAddrs
  cases nat.natDir <;> rfl

/-- **A packet that goes out.** -/
theorem ipfNatOut_eq (hp : fin.finP = k.proto) (hl : has fin.finFlx FI_SHORT = false) (ho : fin.finOff = 0)
    (hn : k.Fits nflags) :
    ∃ rev opts sum, ipfNatOut M fin nat nflags = some ((outWritten M fin nat nflags).finish rev opts sum) ∧
      (fin.clamped M nat = false → opts = fin.finDp.thOpts ∧
        sum = if k = .tcp ∨ fin.finDp.sum ≠ 0 then outSum M fin nat fin.finDp.sum else fin.finDp.sum) := by
  have hk : (outWritten M fin nat nflags).Keeps fin := outWritten_keeps
  obtain ⟨rev, opts, sum, heq, hfree⟩ := ipfNatProto_eq M nat (hk.proto.trans hp) hn
  rw [hk.clamped, hk.opts, hk.sum] at hfree
  rw [hk.sum] at heq
  have hsum : outSum M (outWritten M fin nat nflags) nat sum = outSum M fin nat sum := by
    unfold outSum
    rw [hk.cksum, hk.dlen]
  refine ⟨rev, opts, if k = .tcp ∨ fin.finDp.sum ≠ 0 then outSum M (outWritten M fin nat nflags) nat sum else sum,
    ?_, fun h => ⟨(hfree h).1, by rw [hsum, (hfree h).2]⟩⟩
  unfold ipfNatOut
  rw [if_pos (by simp only [outAddrs_finFlx, outAddrs_finOff, hl, ho, and_self])]
  change ipfNatProto M (outWritten M fin nat nflags) nat nflags >>= _ = _
  rw [heq]
  simp only [bind_eq_bind, bind_some, pure_def, decide_eq_false_iff_not, ite_not]
  rfl

/-- **A packet that comes in.** -/
theorem ipfNatIn_eq (hp : fin.finP = k.proto) (hl : has fin.finFlx FI_SHORT = false) (ho : fin.finOff = 0)
    (hn : k.Fits nflags) :
    ∃ rev opts sum, ipfNatIn M fin nat nflags = some ((inWritten M fin nat nflags).finish rev opts sum) ∧
      (fin.clamped M nat = false → opts = fin.finDp.thOpts ∧
        sum = if k = .tcp ∨ fin.finDp.sum ≠ 0 then inSum M nat fin.finDp.sum else fin.finDp.sum) := by
  have hk : (inWritten M fin nat nflags).Keeps fin := inWritten_keeps
  obtain ⟨rev, opts, sum, heq, hfree⟩ := ipfNatProto_eq M nat (hk.proto.trans hp) hn
  rw [hk.clamped, hk.opts, hk.sum] at hfree
  rw [hk.sum] at heq
  refine ⟨rev, opts, if k = .tcp ∨ fin.finDp.sum ≠ 0 then inSum M nat sum else sum, ?_,
    fun h => ⟨(hfree h).1, by rw [(hfree h).2]⟩⟩
  unfold ipfNatIn
  rw [if_pos (by simp only [inAddrs_finFlx, inAddrs_finOff, hl, ho, and_self])]
  change ipfNatProto M (inWritten M fin nat nflags) nat nflags >>= _ = _
  rw [heq]
  simp only [bind_eq_bind, bind_some, pure_def, decide_eq_false_iff_not, ite_not]
  rfl

/-! ## Which sessions are translated both ways -/

@[simp] theorem finish_tuple {rev : Bool} {opts : List (BitVec 8)} {sum : BitVec 16} :
    (fin.finish rev opts sum).tuple k = fin.tuple k := rfl

/-- The packet before `ipf_nat_proto`, for both directions. -/
def written (M : Machine) (out : Bool) (fin : FrInfo) (nat : NatT) (nflags : Flags) : FrInfo :=
  if out then outWritten M fin nat nflags else inWritten M fin nat nflags

variable {out : Bool}

/-- **The translated packet.** `written` has its addresses, ports and id, and its copies of them. -/
theorem translate_eq (nat : NatT) (out : Bool) (hc : Carries M k t fin) (hn : k.Fits nflags) :
    ∃ rev opts sum, translate M out fin nat nflags = some ((written M out fin nat nflags).finish rev opts sum) ∧
      (fin.clamped M nat = false → opts = fin.finDp.thOpts ∧ sum = if k = .tcp ∨ fin.finDp.sum ≠ 0 then
          if out then outSum M fin nat fin.finDp.sum else inSum M nat fin.finDp.sum else fin.finDp.sum) := by
  cases out with
  | true => exact ipfNatOut_eq hc.proto hc.long hc.first hn
  | false => exact ipfNatIn_eq hc.proto hc.long hc.first hn

theorem written_tuple (nat : NatT) (out : Bool) (hc : Carries M k t fin) (hn : k.Fits nflags) :
    (written M out fin nat nflags).tuple k = if nat.writes k out then nat.target k out
      else ⟨(nat.target k out).src, (nat.target k out).dst, t.sport, t.dport, t.id⟩ := by
  obtain rfl := hc.tuple
  have h1 := hn.tcpudp
  have h2 := hn.icmpquery
  have h3 := hc.query
  unfold written outWritten inWritten outPorts inPorts outAddrs inAddrs NatT.target NatT.forward NatT.writes
  cases hd : nat.natDir <;> cases k <;> cases out <;>
    simp only [h1, h2, h3, ne_eq, reduceCtorEq, not_false_eq_true, not_true_eq_false, decide_true, decide_false, and_true,
      and_false, if_true, if_false, Bool.false_eq_true, decide_eq_true_eq] <;>
    split_ifs <;> rfl

/-- The copies in `fr_info_t` fall behind only when a packet of a redirect goes out. -/
theorem written_agrees (nat : NatT) (out : Bool) (hc : Carries M k t fin) (hn : k.Fits nflags) :
    (written M out fin nat nflags).Agrees M k ↔ (out = true → nat.natDir = .inbound →
      nat.natOsrcaddr = nat.natNsrcaddr ∧ nat.natOdstaddr = nat.natNdstaddr) := by
  have h1 := hn.tcpudp
  have h2 := hn.icmpquery
  have h3 := hc.query
  have h4 := hc.agrees
  unfold FrInfo.Agrees at h4 ⊢
  unfold written outWritten inWritten outPorts inPorts outAddrs inAddrs FrInfo.setPorts FrInfo.setId
  cases hd : nat.natDir <;> cases k <;> cases out <;>
    simp only [h1, h2, h3, ne_eq, reduceCtorEq, not_false_eq_true, not_true_eq_false, decide_true, decide_false, and_true,
      and_false, if_true, if_false, Bool.false_eq_true, false_implies, true_implies, implies_true] at h4 ⊢ <;>
    split_ifs <;> grind

/-- An ICMP id is not written into `fin_data`. -/
theorem written_data (hn : Kind.icmp.Fits nflags) : (written M out fin nat nflags).finData = fin.finData := by
  have h1 := hn.tcpudp
  unfold written outWritten inWritten outPorts inPorts outAddrs inAddrs FrInfo.setPorts FrInfo.setId
  cases nat.natDir <;> cases out <;>
    simp only [h1, ne_eq, not_true_eq_false, decide_false, Bool.false_eq_true, and_false, if_false, if_true] <;>
    split_ifs <;> rfl

/-- The trip, without the fields that come after the addresses and the ports. -/
theorem trip_iff (hf : Carries M k (nat.old k) fin) (hr : Carries M k (nat.new k).reply r) (hn : k.Fits nflags) :
    nat.Trip M k nflags fin r ↔ (written M nat.forward fin nat nflags).tuple k = nat.new k ∧
      (written M nat.forward fin nat nflags).Agrees M k ∧
      (written M (!nat.forward) r nat nflags).tuple k = (nat.old k).reply ∧
      (written M (!nat.forward) r nat nflags).Agrees M k := by
  obtain ⟨rev, opts, sum, hout, -⟩ := translate_eq nat nat.forward hf hn
  obtain ⟨rev', opts', sum', hback, -⟩ := translate_eq nat (!nat.forward) hr hn
  unfold NatT.Trip
  rw [hout, hback]
  constructor
  · rintro ⟨t, b, ht, h1, h2, hb, h3, h4⟩
    cases ht
    cases hb
    exact ⟨h1, h2, h3, h4⟩
  · rintro ⟨h1, h2, h3, h4⟩
    exact ⟨_, _, rfl, h1, h2, rfl, h3, h4⟩

/-- **Translation round trip.** The first packet of a session comes out with the new addresses and ports,
its reply with the old ones, and the copies in `fr_info_t` agree with the headers, iff `NatT.Both`. The copy of
an ICMP id is that of the header iff the id is not changed. -/
theorem translate_trip (hf : Carries M k (nat.old k) fin) (hr : Carries M k (nat.new k).reply r)
    (hn : k.Fits nflags) :
    (nat.Trip M k nflags fin r ↔ nat.Both k) ∧
      (k = .icmp → ∀ t, translate M nat.forward fin nat nflags = some t →
        (t.finData true = t.finDp.icmpId ↔ nat.natOicmpid = 0 ∨ nat.natOicmpid = nat.natNicmpid)) := by
  constructor
  · rw [trip_iff hf hr hn, written_tuple nat _ hf hn, written_tuple nat _ hr hn, written_agrees nat _ hf hn,
      written_agrees nat _ hr hn]
    unfold NatT.Both NatT.target NatT.writes NatT.forward NatT.new NatT.old
    -- a port of 0 is the only way for the ports not to be written
    cases hd : nat.natDir <;> cases k <;> simp [Tuple.reply, Kind.tuple] <;> grind
  · rintro rfl t ht
    obtain ⟨rev, opts, sum, hout, -⟩ := translate_eq nat nat.forward hf hn
    obtain rfl := mem_unique hout ht
    have hdata : (written M nat.forward fin nat nflags).finData true = nat.natOicmpid := by
      rw [written_data hn, hf.data rfl]
      exact congrArg Tuple.id hf.tuple
    have hid : (written M nat.forward fin nat nflags).finDp.icmpId =
        if nat.natOicmpid = 0 then nat.natOicmpid else nat.natNicmpid := by
      refine (congrArg Tuple.id (written_tuple nat nat.forward hf hn)).trans ?_
      unfold NatT.writes NatT.target
      simp only [decide_not, Bool.not_eq_true', decide_eq_false_iff_not, ite_not, if_true]
      split_ifs <;> rfl
    change (written M nat.forward fin nat nflags).finData true =
      (written M nat.forward fin nat nflags).finDp.icmpId ↔ _
    rw [hdata, hid]
    split_ifs with h0
    · exact iff_of_true rfl (Or.inl h0)
    · exact ⟨Or.inr, fun h => h.resolve_left h0⟩

/-! ## A session of each direction -/

/-- A little-endian machine. -/
def host : Machine := ⟨true, 0xffffffff⟩

/-- A packet with the tuple `t` and nothing else. -/
def Tuple.packet (t : Tuple) (k : Kind) (sum ipSum : BitVec 16) : FrInfo where
  finP := k.proto
  finOut := false
  finRev := false
  finFlx := if k = .icmp then FI_ICMPQUERY else 0
  finOff := 0
  finCksum := FI_CK_NEEDED
  finDlen := 20
  finIfp := none
  finSaddr := t.src
  finDaddr := t.dst
  finData i := if k = .icmp then t.id else if i then host.htons t.dport else host.htons t.sport
  finIp := ⟨t.src, t.dst, ipSum, [0x4500]⟩
  finDp := ⟨t.sport, t.dport, t.id, sum, false, [], []⟩

/-- `map le0 10.0.0.0/8 -> 192.0.2.1/32 portmap tcp/udp 1025:65000`, for 10.1.1.1,1024 to 198.51.100.1,80. -/
def mapped : NatT :=
  { NatT.zero with
    natFlags := IPN_TCP
    natDir := .outbound
    natPr := fun _ => IPPROTO_TCP
    natOsrcaddr := host.htonl 0x0a010101
    natOdstaddr := host.htonl 0xc6336401
    natNsrcaddr := host.htonl 0xc0000201
    natNdstaddr := host.htonl 0xc6336401
    natOsport := host.htons 1024
    natOdport := host.htons 80
    natNsport := host.htons 1025
    natNdport := host.htons 80 }

/-- `rdr le0 192.0.2.1/32 port 80 -> 10.1.1.1 port 80 tcp`, for 198.51.100.1,1024. -/
def redirected : NatT :=
  { NatT.zero with
    natFlags := IPN_TCP
    natDir := .inbound
    natPr := fun _ => IPPROTO_TCP
    natOsrcaddr := host.htonl 0xc6336401
    natOdstaddr := host.htonl 0xc0000201
    natNsrcaddr := host.htonl 0xc6336401
    natNdstaddr := host.htonl 0x0a010101
    natOsport := host.htons 1024
    natOdport := host.htons 80
    natNsport := host.htons 1024
    natNdport := host.htons 80 }

theorem packet_carries {sum ipSum : BitVec 16} (ht : ∃ a b c d e, t = k.tuple a b c d e) :
    Carries host k t (t.packet k sum ipSum) := by
  obtain ⟨a, b, c, d, e, rfl⟩ := ht
  have hl : has (if k = .icmp then FI_ICMPQUERY else 0) FI_SHORT = false := by cases k <;> decide
  have hq : has (if k = .icmp then FI_ICMPQUERY else 0) FI_ICMPERR = false := by cases k <;> decide
  cases k with
  | icmp => exact ⟨rfl, hl, rfl, hq, rfl, ⟨rfl, rfl, fun h => absurd rfl h⟩, fun _ => rfl⟩
  | tcp | udp => exact ⟨rfl, hl, rfl, hq, rfl, ⟨rfl, rfl, fun _ => ⟨rfl, rfl⟩⟩, nofun⟩

theorem translate_trip_mapped :
    (mapped.finalise host).Both .tcp ∧ (mapped.finalise host).Trip host .tcp IPN_TCP
      ((mapped.old .tcp).packet .tcp 0 0) ((mapped.new .tcp).reply.packet .tcp 0 0) := by
  have hboth : (mapped.finalise host).Both .tcp := by
    refine ⟨nofun, fun h => ?_, fun h => ?_⟩
    · exact absurd h (by decide)
    · exact absurd h (by decide)
  refine ⟨hboth, (translate_trip ?_ ?_ (by decide)).1.2 hboth⟩
  · exact packet_carries ⟨_, _, _, _, 0, rfl⟩
  · exact packet_carries ⟨_, _, _, _, 0, rfl⟩

/-- A reply from the server of a redirect goes out with the address the client asked for in its header, and with
the server's own in `fin_saddr`. -/
theorem redirected_not_trip :
    ∃ fin r, Carries host .tcp ((redirected.finalise host).old .tcp) fin ∧
      Carries host .tcp ((redirected.finalise host).new .tcp).reply r ∧
      ¬ (redirected.finalise host).Trip host .tcp IPN_TCP fin r := by
  have hf : Carries host .tcp ((redirected.finalise host).old .tcp) ((redirected.old .tcp).packet .tcp 0 0) :=
    packet_carries ⟨_, _, _, _, 0, rfl⟩
  have hr : Carries host .tcp ((redirected.finalise host).new .tcp).reply
      ((redirected.new .tcp).reply.packet .tcp 0 0) := packet_carries ⟨_, _, _, _, 0, rfl⟩
  have hn : Kind.tcp.Fits IPN_TCP := by decide
  refine ⟨_, _, hf, hr, fun h => ?_⟩
  have hag := ((trip_iff hf hr hn).1 h).2.2.2
  rw [written_agrees _ _ hr hn] at hag
  exact absurd (hag rfl rfl).2 (by decide)

end Ipfilter.NatTab
