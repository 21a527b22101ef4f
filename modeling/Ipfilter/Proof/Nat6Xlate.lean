import Ipfilter.Proof.Nat6Find

/-!
# What `ipf_nat6_out` and `ipf_nat6_in` do to a packet

* `ipfNat6Proto_eq`: the packet keeps its addresses, its ports and its id.
* `translate6_eq`: the translated packet, in terms of what is written into it.
* `translate6_trip`: exactly which sessions are translated both ways.
* `nat6_round_trip`: **when a session is found and translated both ways.**
-/

namespace Ipfilter.NatTab

open Chain Masks State

variable {M : Machine} {proxyMatch : FrInfo → NatT → Bool} {k : Kind} {nat : Nat6} {nflags : Flags} {fin r : FrInfo6}
  {t : Tuple6} {out : Bool}

/-! ## The transport header -/

/-- **`ipf_nat_proto`** changes the options and the checksum. -/
theorem ipfNat6Proto_eq {q : FrInfo} (nat : NatT) (hp : q.finP = k.proto6) (hn : k.Fits nflags) :
    ∃ rev opts sum csump, ipfNat6Proto M q nat nflags =
      some ({ q with finRev := rev, finDp := { q.finDp with thOpts := opts, sum := sum } }, csump) := by
  unfold ipfNat6Proto
  cases k with
  | icmp =>
    have hicmp : q.finP = IPPROTO_ICMPV6 := hp
    rw [if_pos hicmp]
    exact ⟨_, q.finDp.thOpts, q.finDp.sum, _, rfl⟩
  | tcp =>
    have hne : q.finP ≠ IPPROTO_ICMPV6 := by
      rw [hp]
      decide
    rw [if_neg hne]
    obtain ⟨rev, opts, sum, heq, -⟩ := ipfNatProto_eq (k := .tcp) M nat hp hn
    exact ⟨rev, opts, sum, _, heq⟩
  | udp =>
    have hne : q.finP ≠ IPPROTO_ICMPV6 := by
      rw [hp]
      decide
    rw [if_neg hne]
    obtain ⟨rev, opts, sum, heq, -⟩ := ipfNatProto_eq (k := .udp) M nat hp hn
    exact ⟨rev, opts, sum, _, heq⟩

/-! ## The two translations -/

/-- The packet before `ipf_nat_proto`, for both directions. -/
def written6 (M : Machine) (out : Bool) (fin : FrInfo6) (nat : Nat6) (nflags : Flags) : FrInfo6 :=
  let q := if out then out6Addrs fin nat else in6Addrs fin nat
  { q with toFrInfo := if out then out6Ports M q.toFrInfo nat.toNatT nflags else in6Ports M q.toFrInfo nat.toNatT nflags }

theorem out6Addrs_base : (out6Addrs fin nat).toFrInfo = fin.toFrInfo := by
  unfold out6Addrs
  cases nat.natDir <;> rfl

theorem in6Addrs_base : (in6Addrs fin nat).toFrInfo = fin.toFrInfo := by
  unfold in6Addrs
  cases nat.natDir <;> rfl

theorem out6Ports_proto (q : FrInfo) (nat : NatT) : (out6Ports M q nat nflags).finP = q.finP := by
  unfold out6Ports FrInfo.setPorts FrInfo.setId
  cases nat.natDir <;> dsimp only <;> split_ifs <;> rfl

theorem in6Ports_proto (q : FrInfo) (nat : NatT) : (in6Ports M q nat nflags).finP = q.finP := by
  unfold in6Ports FrInfo.setPorts FrInfo.setId
  cases nat.natDir <;> dsimp only <;> split_ifs <;> rfl

/-- `t` has the addresses, ports and id of `q`, and its copies of them. -/
structure FrInfo6.Same (t q : FrInfo6) : Prop where
  tuple : ∀ k, t.tuple k = q.tuple k
  agrees : ∀ k, t.Agrees M k ↔ q.Agrees M k
  data : t.finData = q.finData
  id : t.finDp.icmpId = q.finDp.icmpId

/-- **The translated packet** has what was written. -/
theorem translate6_eq (nat : Nat6) (out : Bool) (hc : Carries6 M k t fin) (hn : k.Fits nflags) :
    ∃ q, translate6 M out fin nat nflags = some q ∧ FrInfo6.Same (M := M) q (written6 M out fin nat nflags) := by
  unfold translate6 written6
  cases out with
  | true =>
    obtain ⟨rev, opts, sum, csump, heq⟩ :=
      ipfNat6Proto_eq (M := M) (q := out6Ports M (out6Addrs fin nat).toFrInfo nat.toNatT nflags)
      nat.toNatT (by rw [out6Ports_proto, out6Addrs_base, hc.proto]) hn
    have hwhole : has (out6Addrs fin nat).finFlx FI_SHORT = false ∧ (out6Addrs fin nat).finOff = 0 := by
      rw [out6Addrs_base]
      exact ⟨hc.long, hc.first⟩
    simp only [if_true]
    unfold ipfNat6Out
    dsimp only
    rw [if_pos hwhole, heq]
    exact ⟨_, rfl, fun k => rfl, fun k => Iff.rfl, rfl, rfl⟩
  | false =>
    obtain ⟨rev, opts, sum, csump, heq⟩ :=
      ipfNat6Proto_eq (M := M) (q := in6Ports M (in6Addrs fin nat).toFrInfo nat.toNatT nflags)
      nat.toNatT (by rw [in6Ports_proto, in6Addrs_base, hc.proto]) hn
    have hwhole : has (in6Addrs fin nat).finFlx FI_SHORT = false ∧ (in6Addrs fin nat).finOff = 0 := by
      rw [in6Addrs_base]
      exact ⟨hc.long, hc.first⟩
    simp only [Bool.false_eq_true, if_false]
    unfold ipfNat6In
    dsimp only
    rw [if_pos hwhole, heq]
    exact ⟨_, rfl, fun k => rfl, fun k => Iff.rfl, rfl, rfl⟩

/-! ## Which sessions are translated both ways -/

/-- What the entry asks for: the new tuple, or the reply of the old one. -/
def Nat6.target (k : Kind) (nat : Nat6) (out : Bool) : Tuple6 :=
  if out = nat.forward then nat.new k else (nat.old k).reply

/-- The ports or the id of the entry are written into the packet. -/
def NatT.writes6 (k : Kind) (nat : NatT) (out : Bool) : Bool :=
  match k with
  | .icmp => nat.natNicmpid ≠ 0
  | _ => if out then nat.natNsport ≠ 0 else nat.natOdport ≠ 0

theorem written6_tuple (nat : Nat6) (out : Bool) (hc : Carries6 M k t fin) (hn : k.Fits nflags) :
    (written6 M out fin nat nflags).tuple k = if nat.writes6 k out then nat.target k out
      else ⟨(nat.target k out).src, (nat.target k out).dst, t.sport, t.dport, t.id⟩ := by
  obtain rfl := hc.tuple
  have h1 := hn.tcpudp
  have h2 := hn.icmpquery
  have h3 := hc.query
  unfold written6 out6Ports in6Ports out6Addrs in6Addrs Nat6.target NatT.forward NatT.writes6
  cases hd : nat.natDir <;> cases k <;> cases out <;>
    simp only [h1, h2, h3, ne_eq, reduceCtorEq, not_false_eq_true, not_true_eq_false, decide_true, decide_false, and_true,
      and_false, if_true, if_false, Bool.false_eq_true, decide_eq_true_eq] <;>
    split_ifs <;> rfl

/-- The copies in `fr_info_t` fall behind only when a packet of a redirect goes out. -/
theorem written6_agrees (nat : Nat6) (out : Bool) (hc : Carries6 M k t fin) (hn : k.Fits nflags) :
    (written6 M out fin nat nflags).Agrees M k ↔ (out = true → nat.natDir = .inbound →
      nat.natOsrc6 = nat.natNsrc6 ∧ nat.natOdst6 = nat.natNdst6) := by
  have h1 := hn.tcpudp
  have h2 := hn.icmpquery
  have h3 := hc.query
  have h4 := hc.agrees
  unfold FrInfo6.Agrees at h4 ⊢
  unfold written6 out6Ports in6Ports out6Addrs in6Addrs FrInfo.setPorts FrInfo.setId
  cases hd : nat.natDir <;> cases k <;> cases out <;>
    simp only [h1, h2, h3, ne_eq, reduceCtorEq, not_false_eq_true, not_true_eq_false, decide_true, decide_false, and_true,
      and_false, if_true, if_false, Bool.false_eq_true, false_implies, true_implies, implies_true] at h4 ⊢ <;>
    (try split_ifs) <;> grind

/-- An id is not written into `fin_data`. -/
theorem written6_data (hn : Kind.icmp.Fits nflags) : (written6 M out fin nat nflags).finData = fin.finData := by
  have h1 := hn.tcpudp
  unfold written6 out6Ports in6Ports out6Addrs in6Addrs FrInfo.setPorts FrInfo.setId
  cases nat.natDir <;> cases out <;>
    simp only [h1, ne_eq, not_true_eq_false, decide_false, Bool.false_eq_true, and_false, if_false, if_true] <;>
    split_ifs <;> rfl

/-- **Translation round trip.** The first packet of a session comes out with the new addresses and ports, its reply with the old
ones, and the copies in `fr_info_t` agree with the headers, iff `Nat6.Both`. -/
theorem translate6_trip (hf : Carries6 M k (nat.old k) fin) (hr : Carries6 M k (nat.new k).reply r) (hn : k.Fits nflags) :
    nat.Trip M k nflags fin r ↔ nat.Both k := by
  obtain ⟨p, hp, hpsame⟩ := translate6_eq nat nat.forward hf hn
  obtain ⟨q, hq, hqsame⟩ := translate6_eq nat (!nat.forward) hr hn
  have htrip : nat.Trip M k nflags fin r ↔ p.tuple k = nat.new k ∧ p.Agrees M k ∧ q.tuple k = (nat.old k).reply ∧
      q.Agrees M k := by
    unfold Nat6.Trip
    rw [hp, hq]
    constructor
    · rintro ⟨t, b, ht, h1, h2, hb, h3, h4⟩
      cases ht
      cases hb
      exact ⟨h1, h2, h3, h4⟩
    · rintro ⟨h1, h2, h3, h4⟩
      exact ⟨_, _, rfl, h1, h2, rfl, h3, h4⟩
  rw [htrip, hpsame.tuple, hpsame.agrees, hqsame.tuple, hqsame.agrees, written6_tuple nat _ hf hn, written6_tuple nat _ hr hn,
    written6_agrees nat _ hf hn, written6_agrees nat _ hr hn]
  unfold Nat6.Both Nat6.target NatT.writes6 NatT.forward Nat6.new Nat6.old
  -- a port or an id of 0 is the only way for them not to be written
  cases hd : nat.natDir <;> cases k <;> simp [Tuple6.reply, Kind.tuple6] <;> grind

/-- **The copy of an id** is that of the header if the id is not changed, or not written. -/
theorem translate6_data (hn : Kind.icmp.Fits nflags) (hc : Carries6 M .icmp (nat.arrives .icmp out) fin) {q : FrInfo6}
    (hq : translate6 M out fin nat nflags = some q) :
    q.finData true = q.finDp.icmpId ↔ nat.natNicmpid = 0 ∨ nat.natOicmpid = nat.natNicmpid := by
  obtain ⟨p, hp, hsame⟩ := translate6_eq nat out hc hn
  obtain rfl := Option.mem_unique hp hq
  have hdata : p.finData true = (nat.arrives .icmp out).id := by
    rw [hsame.data, written6_data hn, hc.data rfl]
    exact congrArg Tuple6.id hc.tuple
  have hid : p.finDp.icmpId = if nat.writes6 .icmp out then (nat.target .icmp out).id else (nat.arrives .icmp out).id := by
    have hwritten := congrArg Tuple6.id (written6_tuple nat out hc hn)
    rw [hsame.id]
    refine hwritten.trans ?_
    split_ifs <;> rfl
  rw [hdata, hid]
  unfold NatT.writes6 Nat6.target Nat6.arrives Nat6.new Nat6.old
  simp only [Kind.tuple6, Tuple6.reply, decide_not, Bool.not_eq_true', decide_eq_false_iff_not, ite_not]
  by_cases hout : out = nat.forward <;> simp only [hout, if_true, if_false] <;> grind

/-! ## The round trip -/

/-- **IPv6 translation round trip.** In every state of the table the two lookups of a session find its entry iff `FoundFirst` or
`FoundSecond`, and the packets are translated both ways iff `Nat6.Both`. -/
theorem nat6_round_trip {size s : Word} (hs : 0 < size.toNat) {max maxbucket : ℤ} {w : Softn6} {e : ℕ}
    (hp : Placed6 M proxyMatch (Softn6.init size max maxbucket) e s w) (hk : (w.nat6 e).For k)
    (hf : (w.nat6 e).Takes M proxyMatch k (w.nat6 e).forward fin) (hr : (w.nat6 e).Takes M proxyMatch k (!(w.nat6 e).forward) r)
    (hn : k.Fits nflags) {new : Option ℕ} (hnew : ∀ c, new = some c → w.tab.alloc c = false)
    (ifps : Bool → Option ℕ) :
    let there := fin.lookup k (w.nat6 e).forward new ifps
    let back := r.lookup k (!(w.nat6 e).forward) new ifps
    (Finds6 M proxyMatch w there e ↔ FoundFirst M proxyMatch w there e s ∨ FoundSecond M proxyMatch w there e s) ∧
      (Finds6 M proxyMatch w back e ↔ FoundFirst M proxyMatch w back e s ∨ FoundSecond M proxyMatch w back e s) ∧
      ((w.nat6 e).Trip M k nflags fin r ↔ (w.nat6 e).Both k) ∧
      (k = .icmp → ∀ t b, translate6 M (w.nat6 e).forward fin (w.nat6 e) nflags = some t →
        translate6 M (!(w.nat6 e).forward) r (w.nat6 e) nflags = some b →
        (t.finData true = t.finDp.icmpId ∧ b.finData true = b.finDp.icmpId ↔
          (w.nat6 e).natNicmpid = 0 ∨ (w.nat6 e).natOicmpid = (w.nat6 e).natNicmpid)) := by
  obtain ⟨A, O, H, h, he, hsess⟩ := placed6_session hs hp
  have hforward : (w.nat6 e).arrives k (w.nat6 e).forward = (w.nat6 e).old k := if_pos rfl
  have hback : (w.nat6 e).arrives k (!(w.nat6 e).forward) = ((w.nat6 e).new k).reply := if_neg (by simp)
  refine ⟨found6_iff h he hsess hk hf hnew, found6_iff h he hsess hk hr hnew, ?_, ?_⟩
  · exact translate6_trip (hforward ▸ hf.carries) (hback ▸ hr.carries) hn
  · rintro rfl t b ht hb
    rw [translate6_data hn hf.carries ht, translate6_data hn hr.carries hb, and_self]

/-! ## A session of each direction -/

/-- An address with the first and the last word `a` and `b`. -/
def i6 (a b : Word) : I6addr := ⟨host.htonl a, 0, 0, host.htonl b⟩

/-- An entry for TCP between `osrc` and `odst`, with the ports of a client and of a web server. -/
def webSession (dir : Dir) (osrc odst nsrc ndst : I6addr) (nport : BitVec 16) : Nat6 where
  toNatT :=
    { NatT.zero with
      natFlags := IPN_TCP
      natDir := dir
      natPr := fun _ => IPPROTO_TCP
      natOsrcaddr := osrc.i60
      natOdstaddr := odst.i60
      natNsrcaddr := nsrc.i60
      natNdstaddr := ndst.i60
      natOsport := host.htons 1024
      natOdport := host.htons 80
      natNsport := host.htons nport
      natNdport := host.htons 80 }
  osrcTail := ⟨osrc.i61, osrc.i62, osrc.i63⟩
  odstTail := ⟨odst.i61, odst.i62, odst.i63⟩
  nsrcTail := ⟨nsrc.i61, nsrc.i62, nsrc.i63⟩
  ndstTail := ⟨ndst.i61, ndst.i62, ndst.i63⟩

/-- `map le0 fd00::/8 -> 2001:db8::1/128 portmap tcp/udp 1025:65000`, for fd00::1,1024 to 2001:db8::80,80. -/
def mapped6 : Nat6 :=
  (webSession .outbound (i6 0xfd000000 1) (i6 0x20010db8 0x80) (i6 0x20010db8 1) (i6 0x20010db8 0x80) 1025).finalise host

/-- `rdr le0 2001:db8::1/128 port 80 -> fd00::1 port 80 tcp`, for 2001:db8::80,1024. -/
def redirected6 : Nat6 :=
  (webSession .inbound (i6 0x20010db8 0x80) (i6 0x20010db8 1) (i6 0x20010db8 0x80) (i6 0xfd000000 1) 1024).finalise host

/-- A packet with the tuple `t` and nothing else. -/
def Tuple6.packet (t : Tuple6) : FrInfo6 where
  toFrInfo :=
    { finP := IPPROTO_TCP, finOut := false, finRev := false, finFlx := 0, finOff := 0, finCksum := FI_CK_NEEDED, finDlen := 20
      finIfp := none, finSaddr := t.src.i60, finDaddr := t.dst.i60
      finData := fun i => if i then host.htons t.dport else host.htons t.sport
      finIp := ⟨t.src.i60, t.dst.i60, 0, []⟩, finDp := ⟨t.sport, t.dport, 0, 0, false, [], []⟩ }
  finSrc6 := t.src
  finDst6 := t.dst
  ip6Src := t.src
  ip6Dst := t.dst

/-- A table of the default size with one session. -/
def withSession (nat : Nat6) : Softn6 := (ipfNat6Insert ((Softn6.init 2047 30000 22).malloc 0 nat) 0 fun _ => none).1

theorem session_placed (nat : Nat6) (hf : has nat.natFlags SI_WILDP = false) (hv : ∀ i, nat.natV i = 6)
    (hroom : (ipfNat6Insert ((Softn6.init 2047 30000 22).malloc 0 nat) 0 fun _ => none).2 = true) :
    Placed6 host (fun _ _ => true) (Softn6.init 2047 30000 22) 0 2047 (withSession nat) :=
  Placed6.insert nat (fun _ => none) 0 (fun _ => 0) (fun _ => none) .start rfl hf hv (Prod.ext rfl hroom)

/-- The session is the only entry of the table. -/
theorem withSession_alloc {nat : Nat6} {x : ℕ} (hx : (withSession nat).tab.alloc x = true) : x = 0 := by
  by_contra hx0
  unfold withSession ipfNat6Insert at hx
  dsimp only at hx
  rcases hashtabAdd_cases (((Softn6.init 2047 30000 22).malloc 0 nat).tab.upd 0 fun _ =>
    (((Softn6.init 2047 30000 22).malloc 0 nat).nat6 0).insert ((Softn6.init 2047 30000 22).malloc 0 nat).tab.size
      fun _ => none) 0 with h | h
  all_goals
    rw [h] at hx
    simp [Softn.upd, Softn6.malloc, Softn.malloc, Softn6.init, Softn.init, hx0] at hx

theorem withSession_first {nat : Nat6}
    (hp : Placed6 host (fun _ _ => true) (Softn6.init 2047 30000 22) 0 2047 (withSession nat)) (i : Bool) (b : Word)
    (test : Nat6 → Bool) : FirstOn (withSession nat) i b test 0 := by
  intro L hL l₁ l₂ hsplit y hy
  obtain ⟨A, O, H, h, -, -⟩ := placed6_session (by decide) hp
  have hchain : L b.toNat = H i b.toNat := (hL _).unique (h.rep i _)
  have hmem : y ∈ H i b.toNat := by
    rw [← hchain, hsplit]
    exact List.mem_append_left _ hy
  obtain rfl : y = 0 := withSession_alloc ((h.alloc y).2 (.inl ((h.place i y _).1 hmem).1))
  -- it would be on the chain twice
  have hnodup := hL.nodup b.toNat
  rw [hsplit, List.nodup_append] at hnodup
  exact absurd rfl (hnodup.2.2 0 hy 0 List.mem_cons_self)

theorem packet6_carries {src dst : I6addr} {sport dport : BitVec 16} :
    Carries6 host .tcp ⟨src, dst, sport, dport, 0⟩ (Tuple6.packet ⟨src, dst, sport, dport, 0⟩) := by
  have hnone : ∀ flag, has 0 flag = false := fun flag => by simp [has]
  exact ⟨rfl, hnone _, rfl, hnone _, rfl, ⟨rfl, rfl, fun _ => ⟨rfl, rfl⟩⟩, by simp⟩

theorem nat6_round_trip_mapped : ∃ w fin r,
    Placed6 host (fun _ _ => true) (Softn6.init 2047 30000 22) 0 2047 w ∧
      Finds6 host (fun _ _ => true) w (fin.lookup .tcp true none fun _ => none) 0 ∧
      Finds6 host (fun _ _ => true) w (r.lookup .tcp false none fun _ => none) 0 ∧
      (w.nat6 0).Trip host .tcp IPN_TCP fin r := by
  have hp := session_placed mapped6 (by decide) (fun _ => rfl) (by decide)
  have hk : ((withSession mapped6).nat6 0).For .tcp := ⟨fun _ => rfl, by decide⟩
  have hf : ((withSession mapped6).nat6 0).Takes host (fun _ _ => true) .tcp true ((mapped6.old .tcp).packet) :=
    ⟨packet6_carries, by decide, by decide⟩
  have hr : ((withSession mapped6).nat6 0).Takes host (fun _ _ => true) .tcp false ((mapped6.new .tcp).reply.packet) :=
    ⟨packet6_carries, by decide, by decide⟩
  have hboth : ((withSession mapped6).nat6 0).Both .tcp :=
    ⟨nofun, fun h => absurd h (by decide), fun h => absurd h (by decide)⟩
  have hn : Kind.tcp.Fits IPN_TCP := by decide
  have hnew : ∀ c, (none : Option ℕ) = some c → (withSession mapped6).tab.alloc c = false := nofun
  obtain ⟨h1, h2, h3, -⟩ := nat6_round_trip (by decide) hp hk hf hr hn hnew fun _ => none
  refine ⟨_, _, _, hp, h1.2 (.inl ⟨by decide, withSession_first hp _ _ _⟩),
    h2.2 (.inl ⟨by decide, withSession_first hp _ _ _⟩), ?_⟩
  exact h3.2 hboth

/-- **A reply from the server of a redirect** goes out with the address the client asked for in its header, and with the
server's own in `fin_src6`. -/
theorem redirected6_not_trip : ∃ w fin r,
    Placed6 host (fun _ _ => true) (Softn6.init 2047 30000 22) 0 2047 w ∧ (w.nat6 0).For .tcp ∧
      (w.nat6 0).Takes host (fun _ _ => true) .tcp (w.nat6 0).forward fin ∧
      (w.nat6 0).Takes host (fun _ _ => true) .tcp (!(w.nat6 0).forward) r ∧
      ¬(w.nat6 0).Trip host .tcp IPN_TCP fin r := by
  have hp := session_placed redirected6 (by decide) (fun _ => rfl) (by decide)
  have hk : ((withSession redirected6).nat6 0).For .tcp := ⟨fun _ => rfl, by decide⟩
  refine ⟨_, (redirected6.old .tcp).packet, (redirected6.new .tcp).reply.packet, hp, hk,
    ⟨packet6_carries, by decide, by decide⟩, ⟨packet6_carries, by decide, by decide⟩, fun h => ?_⟩
  have hboth := (translate6_trip packet6_carries packet6_carries (by decide)).1 h
  exact absurd (hboth.1 rfl).2 (by decide)

end Ipfilter.NatTab
