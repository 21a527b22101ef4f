import Ipfilter.Proof.Nat6Links
import Ipfilter.Proof.NatCksum
import Ipfilter.Spec.Nat6Xlate

/-!
# The lookups find IPv6 entries

* `nat6Hash_eq`, `Nat6.Session.natHv` — the hash values in terms of sums;
* `Nat6.Takes.passes`, `Nat6.Takes.bucket_iff` — the entry passes the test for the packets of its session, and is on the chain
  that they search if the sums fall in one bucket;
* `found6_iff` — **when a lookup finds the entry.**
-/

namespace Ipfilter.NatTab

open Chain Masks State

variable {M : Machine} {proxyMatch : FrInfo → NatT → Bool} {w w' : Softn6} {A O : List ℕ}
  {H : Bool → ℕ → List ℕ} {e : ℕ} {k : Kind} {nat : Nat6} {out : Bool} {fin : FrInfo6} {s : Word}

/-! ## Hash values -/

theorem hash6_eq (a : I6addr) (l m : Word) : NAT_HASH_FN6 a l m = (spread6 a + l) % m := by
  unfold NAT_HASH_FN6 spread6 spread
  congr 1
  ac_rfl

theorem carried_eq (x : Word) : x % 0xffffffff = carried x x := mod_ones x

/-- **The two steps:** the first one carries when its sum is all ones. -/
theorem nat6Hash_eq (size : Word) (src dst : I6addr) (sp dp : Word) :
    nat6Hash size src dst sp dp = carried (spread6 src + spread6 dst + sp + dp) (spread6 src + sp) % size := by
  unfold nat6Hash
  rw [hash6_eq, hash6_eq, carried_eq]
  unfold carried
  congr 1
  generalize (if spread6 src + sp = ONES then (1 : Word) else 0) = c
  ac_rfl

theorem lookup6Bucket_eq (size : Word) (out : Bool) (src dst : I6addr) (sport dport : BitVec 16) :
    lookup6Bucket size out src dst sport dport =
      carried (sum6 src dst sport dport) (firstSum6 out src dst sport dport) % size := by
  unfold lookup6Bucket firstSum6 sum6
  rw [hash6_eq, hash6_eq, hash6_eq, hash6_eq, carried_eq, carried_eq]
  unfold carried
  cases out with
  | false =>
    simp only [Bool.false_eq_true, if_false]
    congr 1
    generalize (if spread6 dst + word dport = ONES then (1 : Word) else 0) = c
    ac_rfl
  | true =>
    simp only [if_true]
    congr 1
    generalize (if spread6 src + word sport = ONES then (1 : Word) else 0) = c
    ac_rfl

/-! ## The packets of a session -/

/-- The ports, or the id in the place of the second one, as the lookups take them. -/
def Kind.ports (k : Kind) (t : Tuple6) : BitVec 16 × BitVec 16 := (t.sport, if k = .icmp then t.id else t.dport)

theorem Carries6.ports {t : Tuple6} (hc : Carries6 M k t fin) :
    lookup6Ports M fin.toFrInfo (k.flag ||| NAT_SEARCH) fin.finP = k.ports t := by
  obtain rfl := hc.tuple
  unfold lookup6Ports Kind.ports
  rw [hc.proto]
  cases k with
  | icmp =>
    have hp : ¬(IPPROTO_ICMPV6 = IPPROTO_TCP ∨ IPPROTO_ICMPV6 = IPPROTO_UDP) := by decide
    have herr : ¬has (Kind.icmp.flag ||| NAT_SEARCH) IPN_ICMPERR = true := by decide
    simp only [Kind.proto6, if_neg hp, if_true, if_neg herr, hc.data rfl]
    rfl
  | tcp | udp =>
    obtain ⟨h1, h2⟩ := hc.agrees.2.2 (by decide)
    simp [Kind.proto6, h1, h2, FrInfo6.tuple, Kind.tuple6]

/-- What `ipf_nat6_insert` hashes of an entry. -/
theorem Nat6.For.hashPorts (hk : nat.For k) (hw : has nat.natFlags SI_WILDP = false) (sp dp id : BitVec 16) :
    nat.hashPorts sp dp id = if k = .icmp then (0, word id) else (word sp, word dp) := by
  unfold NatT.hashPorts
  rw [if_neg (by simp [hw]), hk.flags.tcpudp, hk.flags.icmpquery]
  cases k <;> simp

/-- The hash value on the side that a lookup searches. -/
theorem Nat6.Session.natHv (h : nat.Session s) (out : Bool) :
    nat.natHv (!out) = if out = nat.forward then nat.hv0 s else nat.hv1 s := by
  rw [h.hashed]
  unfold Dir.hv NatT.forward
  cases nat.natDir <;> cases out <;> rfl

section

variable {new : Option ℕ} {ifps : Bool → Option ℕ}

/-- A packet of the session has the addresses of its tuple. -/
theorem Nat6.Takes.addrs (ht : nat.Takes M proxyMatch k out fin) :
    fin.finSrc6 = (nat.arrives k out).src ∧ fin.finDst6 = (nat.arrives k out).dst := by
  have htuple := ht.carries.tuple
  obtain ⟨h1, h2, -⟩ := ht.carries.agrees
  rw [h1, h2, ← htuple]
  unfold FrInfo6.tuple
  cases k <;> exact ⟨rfl, rfl⟩

/-- **The hash value of the entry** is the reduced sum of the packet. -/
theorem Nat6.Takes.natHv (h : nat.Session s) (hk : nat.For k) (ht : nat.Takes M proxyMatch k out fin) :
    nat.natHv (!out) = carried ((fin.lookup k out new ifps).sum M) (nat.firstSum out) % s := by
  obtain ⟨hsrc, hdst⟩ := ht.addrs
  have hsum : (fin.lookup k out new ifps).sum M =
      sum6 (nat.arrives k out).src (nat.arrives k out).dst (k.ports (nat.arrives k out)).1 (k.ports (nat.arrives k out)).2 := by
    unfold Lookup6.sum FrInfo6.lookup
    rw [ht.carries.ports, hsrc, hdst]
  rw [h.natHv, hsum]
  unfold Nat6.firstSum Nat6.arrives
  have hw : word 0#16 = 0#32 := rfl
  by_cases hout : out = nat.forward
  · simp only [if_pos hout, Nat6.hv0, nat6Hash_eq, hk.hashPorts h.fixed]
    unfold Nat6.old Kind.tuple6 Kind.ports sum6
    cases k <;> simp [hw]
  · simp only [if_neg hout, Nat6.hv1, nat6Hash_eq, hk.hashPorts h.fixed]
    unfold Nat6.new Kind.tuple6 Tuple6.reply Kind.ports sum6
    cases k <;> simp only [reduceCtorEq, if_true, if_false, BitVec.ofNat_eq_ofNat, hw] <;> congr 2 <;> ac_rfl

/-- **The entry is on the chain that a lookup searches** exactly when the sums fall in one bucket. -/
theorem Nat6.Takes.bucket_iff (h : (w.nat6 e).Session s) (hk : (w.nat6 e).For k)
    (ht : (w.nat6 e).Takes M proxyMatch k out fin) (b : Word) :
    w.tab.bucket ((w.tab.nat e).natHv (!out)) = b.toNat ↔ chain6 M w (fin.lookup k out new ifps) e s = b := by
  have hv : (w.tab.nat e).natHv (!out) = carried ((fin.lookup k out new ifps).sum M) ((w.nat6 e).firstSum out) % s :=
    ht.natHv h hk
  unfold Softn.bucket chain6
  rw [hv]
  exact ⟨BitVec.eq_of_toNat_eq, congrArg BitVec.toNat⟩

/-- The entry passes the test for the packets of its session. -/
theorem Nat6.Takes.passes (h : nat.Session s) (hk : nat.For k) (ht : nat.Takes M proxyMatch k out fin) :
    (fin.lookup k out new ifps).passes M proxyMatch nat = true := by
  obtain ⟨hsrc, hdst⟩ := ht.addrs
  have hports : lookup6Ports M fin.toFrInfo (k.flag ||| NAT_SEARCH) k.proto6 = k.ports (nat.arrives k out) := by
    rw [← ht.carries.ports, ht.carries.proto]
  have hp : fin.finP = k.proto6 := ht.carries.proto
  unfold Lookup6.passes Nat6.matches Nat6.sameAddrs NatT.samePorts6 FrInfo6.lookup
  simp only [hports, hk.pr, hsrc, hdst, ht.admits, ht.accepts, h.v6, hk.flags.tcpudp, hp]
  unfold Nat6.arrives
  by_cases hout : out = nat.forward
  · simp only [if_pos hout]
    unfold Nat6.old Kind.tuple6 Kind.ports
    cases k <;> simp
  · simp only [if_neg hout]
    unfold Nat6.new Tuple6.reply Kind.tuple6 Kind.ports
    cases k <;> simp

end

/-! ## The two loops -/

/-- Among distinct entries the first one that passes comes after no other that does. -/
theorem find?_first {l : List ℕ} (hd : l.Nodup) {p : ℕ → Bool} (he : e ∈ l) :
    l.find? p = some e ↔ p e = true ∧ ∀ l₁ l₂, l = l₁ ++ e :: l₂ → ∀ y ∈ l₁, p y = false := by
  rw [List.find?_eq_some_iff_append]
  refine and_congr_right fun _ => ⟨?_, fun h => ?_⟩
  · rintro ⟨l₁, l₂, hl, hfirst⟩ m₁ m₂ hm y hy
    rw [hl] at hd hm
    have hnodup := List.nodup_append.1 hd
    have hbefore : e ∉ l₁ := fun h => hnodup.2.2 e h e List.mem_cons_self rfl
    have hafter : e ∉ l₂ := (List.nodup_cons.1 hnodup.2.1).1
    obtain ⟨rfl, -⟩ := (List.append_cons_inj_of_notMem hbefore hafter).1 hm
    simpa using hfirst y hy
  · obtain ⟨l₁, l₂, hl⟩ := List.append_of_mem he
    exact ⟨l₁, l₂, hl, fun y hy => by simpa using h l₁ l₂ hl y hy⟩

/-- **A search finds an entry** that passes if it is on the chain, and no other before it passes. -/
theorem Linked.find6_iff (h : Linked w.tab A O H) (he : e ∈ A) (i : Bool) (b : Word) {test : Nat6 → Bool} :
    w.find i b.toNat test = some e ↔
      test (w.nat6 e) = true ∧ w.tab.bucket ((w.tab.nat e).natHv i) = b.toNat ∧ FirstOn w i b test e := by
  have hchain : ∀ L, Rep (w.tab.side i).table L → L b.toNat = H i b.toNat := fun L hL => (hL _).unique (h.rep i _)
  have hfirst : FirstOn w i b test e ↔ ∀ l₁ l₂, H i b.toNat = l₁ ++ e :: l₂ →
      ∀ y ∈ l₁, test (w.nat6 y) = false := by
    refine ⟨fun hf => hf (H i) (h.rep i), fun hf L hL => ?_⟩
    rw [hchain L hL]
    exact hf
  rw [h.find6, hfirst]
  by_cases hon : w.tab.bucket ((w.tab.nat e).natHv i) = b.toNat
  · have hmem : e ∈ H i b.toNat := (h.place i e _).2 ⟨he, hon⟩
    have hnodup : (H i b.toNat).Nodup := (h.rep i).nodup _
    rw [find?_first hnodup hmem]
    simp only [hon, true_and]
  · refine iff_of_false (fun hf => ?_) fun hf => hon hf.2.1
    exact hon ((h.place i e _).1 (List.mem_of_find?_eq_some hf)).2

theorem Linked.find6_none (h : Linked w.tab A O H) (i : Bool) (b : Word) {test : Nat6 → Bool} :
    w.find i b.toNat test = none ↔ NoneOn w i b test := by
  have hchain : ∀ L, Rep (w.tab.side i).table L → L b.toNat = H i b.toNat := fun L hL => (hL _).unique (h.rep i _)
  rw [h.find6, List.find?_eq_none]
  constructor
  · intro hno L hL y hy
    rw [hchain L hL] at hy
    simpa using hno y hy
  · intro hno y hy
    simp [hno (H i) (h.rep i) y hy]

/-- **An entry found by the second loop is returned** if it is not to be cloned and can be moved. -/
theorem resolve6_iff (h : Linked w.tab A O H) (he : e ∈ A)
    {l : Lookup6} (hnew : ∀ c, l.new = some c → w.tab.alloc c = false) (y : ℕ) :
    (∃ u, resolve6 M w l y = some (u, some e)) ↔
      y = e ∧ has (w.nat6 e).natFlags SI_CLONE = false ∧ ∀ i, ((w.nat6 e).natHv i).toNat < w.tab.size.toNat := by
  unfold resolve6
  dsimp only
  by_cases hcl : has (w.nat6 y).natFlags SI_CLONE = true
  · -- a clone is another entry
    rw [if_pos hcl]
    refine iff_of_false ?_ fun hy => ?_
    · rintro ⟨u, hu⟩
      rcases clone_linked (e := y) h l.fin l.new hnew l.ifps with ⟨v, heq, -⟩ | ⟨v, c, H', heq, -, hne, -⟩
      · rw [heq] at hu
        cases hu
      · rw [heq] at hu
        obtain ⟨v', -, hv'⟩ := Option.bind_eq_some_iff.1 hu
        exact (hne e he).1 (by simpa using congrArg (Option.map Prod.snd) hv'.symm)
    · obtain ⟨rfl, hno, -⟩ := hy
      rw [hcl] at hno
      cases hno
  · rw [if_neg hcl]
    dsimp only
    have hless : Linked { w.tab with wilds := w.tab.wilds - 1 } A O H := h.congr rfl (fun _ => rfl) rfl rfl rfl fun _ _ => rfl
    obtain ⟨os, od, ns, nd, ifps, hres⟩ := resolve_keeps (w.tab.nat y) l.out (lookup6Ports M l.fin l.flags l.p).1
      (lookup6Ports M l.fin l.flags l.p).2 l.fin.finIfp
    set u : Softn6 := ⟨{ w.tab with wilds := w.tab.wilds - 1 }.upd y fun nat => nat.resolve l.out
      (lookup6Ports M l.fin l.flags l.p).1 (lookup6Ports M l.fin l.flags l.p).2 l.fin.finIfp, w.tails⟩ with hu
    have hself : u.tab.nat y = (w.tab.nat y).resolve l.out (lookup6Ports M l.fin l.flags l.p).1
      (lookup6Ports M l.fin l.flags l.p).2 l.fin.finIfp := Function.update_self ..
    have hhv : (u.tab.nat y).natHv = (w.tab.nat y).natHv := by rw [hself, hres]
    have hcl' : has (u.tab.nat y).natFlags SI_CLONE = false := by
      have hbits : ~~~SI_WILDP &&& SI_CLONE = SI_CLONE := by decide
      rw [hself, hres, has, BitVec.and_assoc, hbits]
      exact Bool.eq_false_of_not_eq_true hcl
    constructor
    · rintro ⟨v, hv⟩
      obtain ⟨v', hmove, hv'⟩ := Option.bind_eq_some_iff.1 hv
      obtain rfl : y = e := by simpa using congrArg (Option.map Prod.snd) hv'
      refine ⟨rfl, by simpa using hcl, fun i => ?_⟩
      have hlt := tabmove6_lt hcl' hmove i
      rw [hhv] at hlt
      exact hlt
    · rintro ⟨rfl, -, hlt⟩
      have hupd : Linked u.tab A O H := hless.upd (f := fun nat => nat.resolve l.out (lookup6Ports M l.fin l.flags l.p).1
        (lookup6Ports M l.fin l.flags l.p).2 l.fin.finIfp) (by rw [hres])
      have hlt' : ∀ i, ((u.tab.nat y).natHv i).toNat < u.tab.size.toNat := by
        intro i
        rw [hhv]
        exact hlt i
      obtain ⟨v, H', hmove, -⟩ := tabmove6_linked hupd he hcl' hlt'
      exact ⟨_, by rw [hmove]; rfl⟩

/-! ## When a lookup finds the entry -/

/-- **Which entry a lookup returns:** the one of the first loop, else that of the second one. -/
theorem lookup6_iff (h : Linked w.tab A O H) (he : e ∈ A) {l : Lookup6} (hl : has l.flags SI_WILDP = false)
    (hnew : ∀ c, l.new = some c → w.tab.alloc c = false) : Finds6 M proxyMatch w l e ↔
      exact6Found M proxyMatch w l = some e ∨ exact6Found M proxyMatch w l = none ∧ wild6Found M w l = some e ∧
        (has l.fin.finFlx FI_IGNORE = true ∨ has (w.nat6 e).natFlags SI_CLONE = false ∧
          ∀ i, ((w.nat6 e).natHv i).toNat < w.tab.size.toNat) := by
  unfold Finds6 ipfNat6Lookup
  rw [if_neg (by simp [hl])]
  cases hx : exact6Found M proxyMatch w l with
  | some y => simp
  | none =>
    simp only [reduceCtorEq, true_and, false_or]
    cases hy : wild6Found M w l with
    | none => simp
    | some y =>
      dsimp only
      by_cases hig : has l.fin.finFlx FI_IGNORE = true
      · simp [hig]
      · rw [if_neg hig, resolve6_iff h he hnew]
        simp [hig]

/-- **Findability.** A packet of the session finds the entry in the first loop or in the second one. -/
theorem found6_iff (h : Linked w.tab A O H) (he : e ∈ A) (hs : (w.nat6 e).Session s) (hk : (w.nat6 e).For k)
    (ht : (w.nat6 e).Takes M proxyMatch k out fin) {new : Option ℕ} {ifps : Bool → Option ℕ}
    (hnew : ∀ c, new = some c → w.tab.alloc c = false) : Finds6 M proxyMatch w (fin.lookup k out new ifps) e ↔
      FoundFirst M proxyMatch w (fin.lookup k out new ifps) e s ∨
        FoundSecond M proxyMatch w (fin.lookup k out new ifps) e s := by
  set l := fin.lookup k out new ifps with hl
  have hout : l.out = out := rfl
  have hflags : has l.flags SI_WILDP = false := by
    change has (k.flag ||| NAT_SEARCH) SI_WILDP = false
    cases k <;> decide
  have hpass : l.passes M proxyMatch (w.nat6 e) = true := ht.passes hs hk
  have hon : ∀ b : Word, w.tab.bucket ((w.tab.nat e).natHv (!out)) = b.toNat ↔ chain6 M w l e s = b := ht.bucket_iff hs hk
  have hfirst : exact6Found M proxyMatch w l = some e ↔ FoundFirst M proxyMatch w l e s := by
    unfold exact6Found FoundFirst
    rw [hout, h.find6_iff he, hon, Lookup6.bucket, lookup6Bucket_eq, hout]
    simp only [hpass, true_and]
    rfl
  have hnone : exact6Found M proxyMatch w l = none ↔ NoneOn w (!l.out) (l.bucket M w.tab.size) (l.passes M proxyMatch) :=
    h.find6_none _ _
  have hsecond : wild6Found M w l = some e ↔ l.searches w = true ∧ l.wildPasses M (w.nat6 e) = true ∧
      chain6 M w l e s = carried (sum6 l.src l.dst 0 0) (firstSum6 l.out l.src l.dst 0 0) % w.tab.size ∧
      FirstOn w (!l.out) (l.wildBucket w.tab.size) (l.wildPasses M) e := by
    unfold wild6Found
    by_cases hsearch : l.searches w = true
    · rw [if_pos hsearch, hout, h.find6_iff he, hon, Lookup6.wildBucket, lookup6Bucket_eq, hout]
      simp only [hsearch, true_and]
    · rw [if_neg hsearch]
      simp [hsearch]
  rw [lookup6_iff h he hflags hnew, hfirst, hnone, hsecond, hs.hashed]
  unfold FoundSecond
  simp only [and_assoc]

end Ipfilter.NatTab
