import Ipfilter.Proof.NatXlate

/-!
# Incremental checksums

`ipf_nat_finalise` keeps the difference between the one's-complement sums of the old and the new addresses
and ports; `ipf_fix_outcksum` adds it and `ipf_fix_incksum` takes it away. The sums are 32-bit words, so
everything is done modulo `2 ^ 16 - 1`.

* `sumd_toNat`: a difference, modulo `2 ^ 16 - 1`.
* `ipfFixOutcksum_toNat`, `ipfFixIncksum_toNat`: an adjusted checksum.
* `translate_cksum`: exactly which packets have right checksums after the translation.
-/

namespace Ipfilter.NatTab

open Masks State Inet BitVec

variable {M : Machine} {k : Kind} {nat : NatT} {nflags : Flags} {fin : FrInfo} {out : Bool}
  {s1 s2 n part a b : Word} {c p x y z : BitVec 16} {cksum : ℤ} {t : Tuple}

/-! ## Words -/

@[simp] theorem htons_htons : M.htons (M.htons p) = p := by
  unfold Machine.htons
  split_ifs with h
  · apply eq_of_getLsbD_eq
    intro i hi
    simp only [getLsbD_append, getLsbD_extractLsb']
    by_cases h8 : i < 8
    · simp [h8, show ¬ 8 + i < 8 by omega]
    · simp [h8, show i - 8 < 8 by omega, show 8 + (i - 8) = i by omega]
  · rfl

theorem htons_inj {q : BitVec 16} : M.htons p = M.htons q ↔ p = q :=
  ⟨fun h => by rw [← htons_htons (M := M) (p := p), h, htons_htons], fun h => by rw [h]⟩

theorem htons_eq_zero : (M.htons p).toNat = 0 ↔ p = 0 := by
  have h0 : M.htons 0 = 0#16 := by cases hl : M.little <;> simp [Machine.htons, hl]
  rw [← htons_inj (M := M) (q := 0), h0, ← toNat_inj]
  rfl

theorem htons_eq_ones : (M.htons p).toNat = 65535 ↔ p = 0xffff#16 := by
  have h0 : M.htons 0xffff#16 = 0xffff#16 := by cases hl : M.little <;> simp [Machine.htons, hl]
  rw [← htons_inj (M := M) (q := 0xffff#16), h0, ← toNat_inj]
  rfl

theorem port32_toNat : (port32 M p).toNat = (M.htons p).toNat := by
  have hp := (M.htons p).isLt
  unfold port32
  rw [toNat_setWidth]
  omega

theorem total_halves : total (halves M a) % 65535 = (M.ntohl a).toNat % 65535 := by
  have ha := (M.ntohl a).isLt
  have h1 : ((M.ntohl a).extractLsb' 16 16).toNat = (M.ntohl a).toNat / 65536 := by
    rw [BitVec.extractLsb'_toNat, Nat.shiftRight_eq_div_pow]
    omega
  have h2 : ((M.ntohl a).extractLsb' 0 16).toNat = (M.ntohl a).toNat % 65536 := by
    rw [BitVec.extractLsb'_toNat, Nat.shiftRight_zero]
  unfold halves
  rw [total_cons, total_cons, total_nil, h1, h2]
  omega

/-! ## Differences -/

/-- What `CALC_SUMD` computes from two folded sums, folded once more. -/
theorem sumd_folded {x y : Word} (hx : x.toNat ≤ 65535) (hy : y.toNat ≤ 65535) :
    (fold (fold ((if x > y then y - 1 else y) - x))).toNat ≤ 65535 ∧
      ((fold (fold ((if x > y then y - 1 else y) - x))).toNat + x.toNat) % 65535 = y.toNat % 65535 ∧
      ((fold (fold ((if x > y then y - 1 else y) - x))).toNat = 0 ↔ x = y) := by
  rw [fold_toNat, fold_toNat, ← toNat_inj]
  by_cases hlt : x > y
  · have hn : y.toNat < x.toNat := hlt
    have hsub : (y - 1 - x).toNat = 2 ^ 32 - (x.toNat - y.toNat) - 1 := by bv_omega
    rw [if_pos hlt, hsub]
    omega
  · have hn : x.toNat ≤ y.toNat := Nat.le_of_not_lt hlt
    have hsub : (y - x).toNat = y.toNat - x.toNat := by bv_omega
    rw [if_neg hlt, hsub]
    omega

/-- **The difference of two sums.** It is added to `s1` to have `s2`, modulo `2 ^ 16 - 1`. -/
theorem sumd_toNat (s1 s2 : Word) :
    (sumd s1 s2).toNat ≤ 65535 ∧ ((sumd s1 s2).toNat + s1.toNat) % 65535 = s2.toNat % 65535 := by
  obtain ⟨hle1, hmod1, -⟩ := fold_fold s1
  obtain ⟨hle2, hmod2, -⟩ := fold_fold s2
  obtain ⟨hle, hmod, -⟩ := sumd_folded hle1 hle2
  change (fold (fold _)).toNat ≤ _ ∧ ((fold (fold _)).toNat + _) % _ = _
  exact ⟨hle, by omega⟩

theorem LONG_SUM_toNat : (LONG_SUM a).toNat % 65535 = a.toNat % 65535 := by
  have ha := a.isLt
  unfold LONG_SUM
  rw [fold_toNat]
  omega

/-- The difference of the sums of two words. -/
theorem sumd_LONG_SUM : (sumd (LONG_SUM a) (LONG_SUM b)).toNat ≤ 65535 ∧
      ((sumd (LONG_SUM a) (LONG_SUM b)).toNat + a.toNat) % 65535 = b.toNat % 65535 := by
  obtain ⟨hle, hmod⟩ := sumd_toNat (LONG_SUM a) (LONG_SUM b)
  have h1 := LONG_SUM_toNat (a := a)
  have h2 := LONG_SUM_toNat (a := b)
  exact ⟨hle, by omega⟩

/-! ## Adjusted checksums -/

theorem compl_setWidth : ((~~~p).setWidth 32).toNat = 65535 - p.toNat := by
  have hp := p.isLt
  rw [toNat_setWidth, toNat_not]
  omega

/-- A checksum put together from a sum. -/
theorem recombined (x : Word) :
    (M.htons (M.htons (~~~((fold (fold x)).setWidth 16)))).toNat = 65535 - (fold (fold x)).toNat := by
  have hle := (fold_fold x).1
  rw [htons_htons, toNat_not, toNat_setWidth]
  omega

/-- **`ipf_fix_outcksum`** takes `n` from the checksum, that is, adds it to the sum. -/
theorem ipfFixOutcksum_toNat (M : Machine) (c : BitVec 16) (hn : n.toNat ≤ 131070) :
    ((M.htons (ipfFixOutcksum M 0 c n 0)).toNat + n.toNat) % 65535 = (M.htons c).toNat % 65535 ∧
      (n.toNat ≠ 0 → (M.htons (ipfFixOutcksum M 0 c n 0)).toNat ≠ 65535) := by
  have hc := (M.htons c).isLt
  unfold ipfFixOutcksum
  rw [if_neg (show ¬ (0 : ℤ) = 4 by decide), if_neg (show ¬ (0 : ℤ) = 2 by decide)]
  split_ifs with h0
  · subst h0
    exact ⟨rfl, fun h => absurd rfl h⟩
  · have hn0 : n.toNat ≠ 0 := fun h => h0 (eq_of_toNat_eq h)
    have hsum : ((~~~(M.htons c)).setWidth 32 + n).toNat = 65535 - (M.htons c).toNat + n.toNat := by
      rw [toNat_add, compl_setWidth]
      omega
    obtain ⟨hle, hmod, hzero⟩ := fold_fold ((~~~(M.htons c)).setWidth 32 + n)
    rw [recombined]
    omega

/-- **`ipf_fix_incksum`** adds the low 16 bits of `n` to the checksum. -/
theorem ipfFixIncksum_toNat (M : Machine) (c : BitVec 16) (n : Word) :
    (M.htons (ipfFixIncksum M 0 c n 0)).toNat % 65535 = ((M.htons c).toNat + n.toNat % 65536) % 65535 := by
  have hc := (M.htons c).isLt
  unfold ipfFixIncksum
  rw [if_neg (show ¬ (0 : ℤ) = 4 by decide), if_neg (show ¬ (0 : ℤ) = 2 by decide)]
  split_ifs with h0
  · subst h0
    rfl
  · have hlow : (~~~n &&& 0xffff#32).toNat = 65535 - n.toNat % 65536 := by
      have hn := n.isLt
      rw [toNat_and, toNat_not]
      refine (Nat.and_two_pow_sub_one_eq_mod _ 16).trans ?_
      omega
    have hsum : ((~~~(M.htons c)).setWidth 32 + (~~~n &&& 0xffff#32)).toNat =
        65535 - (M.htons c).toNat + (65535 - n.toNat % 65536) := by
      rw [toNat_add, compl_setWidth, hlow]
      omega
    obtain ⟨hle, hmod, hzero⟩ := fold_fold ((~~~(M.htons c)).setWidth 32 + (~~~n &&& 0xffff#32))
    rw [recombined]
    omega

/-- Neither special case is taken. -/
theorem ipfFixOutcksum_soft (h4 : cksum ≠ 4) (h2 : cksum ≠ 2) :
    ipfFixOutcksum M cksum c n part = ipfFixOutcksum M 0 c n 0 := by
  simp [ipfFixOutcksum, h4, h2]

theorem ipfFixIncksum_soft (h4 : cksum ≠ 4) (h2 : cksum ≠ 2) :
    ipfFixIncksum M cksum c n part = ipfFixIncksum M 0 c n 0 := by
  simp [ipfFixIncksum, h4, h2]

theorem ipfFix_zero (hn : n.toNat = 0) : ipfFixOutcksum M cksum c n part = c ∧ ipfFixIncksum M cksum c n part = c := by
  have h0 : n = 0 := eq_of_toNat_eq hn
  simp [ipfFixOutcksum, ipfFixIncksum, h0]

/-- The adjustment of a checksum: towards the new tuple, or back. -/
def adjust (M : Machine) (fwd : Bool) (c : BitVec 16) (n : Word) : BitVec 16 :=
  if fwd then ipfFixOutcksum M 0 c n 0 else ipfFixIncksum M 0 c n 0

/-- **An adjusted checksum is right** iff the other words, of sum `x` before and `x'` now, changed by what the
checksum was adjusted by. -/
theorem adjust_valid {fwd : Bool} {ws ws' : List (BitVec 16)} (hn : n.toNat ≤ 131070)
    (hv : Valid (M.htons c :: ws)) (hpos : total ws' ≠ 0) : Valid (M.htons (adjust M fwd c n) :: ws') ↔
      if fwd then total ws' % 65535 = (total ws + n.toNat) % 65535
      else (total ws' + n.toNat % 65536) % 65535 = total ws % 65535 := by
  rw [valid_iff, total_cons] at hv ⊢
  unfold adjust
  cases fwd with
  | true =>
    have hfix := (ipfFixOutcksum_toNat M c hn).1
    simp only [if_true]
    omega
  | false =>
    have hfix := ipfFixIncksum_toNat M c n
    simp only [Bool.false_eq_true, if_false]
    omega

/-! ## The differences of an entry -/

theorem addPort_toNat :
    ((M.ntohl a + port32 M p).toNat + wrap M a p) % 65535 = ((M.ntohl a).toNat + (M.htons p).toNat) % 65535 := by
  unfold wrap
  rw [toNat_add, port32_toNat]
  omega

/-- The difference for an address and a port. -/
theorem sumd_addPort (a b : Word) (p q : BitVec 16) :
    (sumd (LONG_SUM (M.ntohl a + port32 M p)) (LONG_SUM (M.ntohl b + port32 M q))).toNat ≤ 65535 ∧
      ((sumd (LONG_SUM (M.ntohl a + port32 M p)) (LONG_SUM (M.ntohl b + port32 M q))).toNat + (M.ntohl a).toNat +
        (M.htons p).toNat + wrap M b q) % 65535 = ((M.ntohl b).toNat + (M.htons q).toNat + wrap M a p) % 65535 := by
  obtain ⟨hle, hmod⟩ := sumd_LONG_SUM (a := M.ntohl a + port32 M p) (b := M.ntohl b + port32 M q)
  have h1 := addPort_toNat (M := M) (a := a) (p := p)
  have h2 := addPort_toNat (M := M) (a := b) (p := q)
  exact ⟨hle, by omega⟩

/-- The old addresses. -/
def NatT.oldAddrs (M : Machine) (nat : NatT) : ℕ := (M.ntohl nat.natOsrcaddr).toNat + (M.ntohl nat.natOdstaddr).toNat

/-- The new addresses. -/
def NatT.newAddrs (M : Machine) (nat : NatT) : ℕ := (M.ntohl nat.natNsrcaddr).toNat + (M.ntohl nat.natNdstaddr).toNat

theorem ipsumd_toNat (M : Machine) (nat : NatT) : (nat.ipsumd M).toNat ≤ 131070 ∧
    ((nat.ipsumd M).toNat + nat.oldAddrs M) % 65535 = nat.newAddrs M % 65535 := by
  obtain ⟨hle1, hmod1⟩ := sumd_LONG_SUM (a := M.ntohl nat.natOsrcaddr) (b := M.ntohl nat.natNsrcaddr)
  obtain ⟨hle2, hmod2⟩ := sumd_LONG_SUM (a := M.ntohl nat.natOdstaddr) (b := M.ntohl nat.natNdstaddr)
  unfold NatT.ipsumd NatT.oldAddrs NatT.newAddrs
  rw [toNat_add]
  omega

/-- The difference for TCP and UDP; each overflow of a sum is a word too much. -/
theorem sumd0_toNat (hp : nat.natPr false ≠ IPPROTO_ICMP) : (nat.sumd0 M).toNat ≤ 131070 ∧
    ((nat.sumd0 M).toNat + nat.oldAddrs M + nat.oldPorts M + nat.newWraps M) % 65535 =
      (nat.newAddrs M + nat.newPorts M + nat.oldWraps M) % 65535 := by
  obtain ⟨hle1, hmod1⟩ := sumd_addPort (M := M) nat.natOsrcaddr nat.natNsrcaddr nat.natOsport nat.natNsport
  obtain ⟨hle2, hmod2⟩ := sumd_addPort (M := M) nat.natOdstaddr nat.natNdstaddr nat.natOdport nat.natNdport
  unfold NatT.sumd0 NatT.oldAddrs NatT.newAddrs NatT.oldPorts NatT.newPorts NatT.oldWraps NatT.newWraps
  rw [if_neg hp, toNat_add]
  omega

/-- The difference for ICMP, which has no carry. -/
theorem sumd0_icmp (hp : nat.natPr false = IPPROTO_ICMP) : (nat.sumd0 M).toNat ≤ 65535 ∧
    ((nat.sumd0 M).toNat + (M.htons nat.natOicmpid).toNat) % 65535 = (M.htons nat.natNicmpid).toNat % 65535 ∧
    ((nat.sumd0 M).toNat = 0 ↔ nat.natOicmpid = nat.natNicmpid) := by
  have hport : ∀ q : BitVec 16, LONG_SUM (port32 M q) = port32 M q ∧ (port32 M q).toNat ≤ 65535 := by
    intro q
    have hq := (M.htons q).isLt
    have hle : (port32 M q).toNat ≤ 65535 := by
      rw [port32_toNat]
      omega
    exact ⟨fold_of_lt (by omega), hle⟩
  obtain ⟨hfo, hlo⟩ := hport nat.natOicmpid
  obtain ⟨hfn, hln⟩ := hport nat.natNicmpid
  -- ids are below `2 ^ 16`, so that folding them does nothing
  have heq : nat.sumd0 M = fold (fold ((if port32 M nat.natOicmpid > port32 M nat.natNicmpid then
      port32 M nat.natNicmpid - 1 else port32 M nat.natNicmpid) - port32 M nat.natOicmpid)) := by
    unfold NatT.sumd0 sumd CALC_SUMD
    have hfo' := fold_of_lt (x := port32 M nat.natOicmpid) (by omega)
    have hfn' := fold_of_lt (x := port32 M nat.natNicmpid) (by omega)
    rw [if_pos hp, hfo, hfn]
    simp only [hfo', hfn']
  obtain ⟨hle, hmod, hzero⟩ := sumd_folded hlo hln
  rw [← heq] at hle hmod hzero
  rw [port32_toNat, port32_toNat] at hmod
  refine ⟨hle, hmod, hzero.trans ?_⟩
  rw [← toNat_inj, port32_toNat, port32_toNat, toNat_inj]
  exact htons_inj

/-! ## The translated packet -/

/-- The values of `fin_cksum` of a packet with a checksum of its own. -/
def Soft (cksum : ℤ) : Prop := cksum = FI_CK_NEEDED ∨ cksum = FI_CK_SUMOK

theorem Soft.ne (h : Soft cksum) : cksum ≠ 4 ∧ cksum ≠ 2 ∧ l4part cksum = 0 := by
  rcases h with rfl | rfl <;> decide

theorem written_ipSum (nat : NatT) (out : Bool) (hc : Carries M k t fin) (hn : k.Fits nflags)
    (hs : Soft fin.finCksum) : (written M out fin nat nflags).finIp.ipSum =
      adjust M (out == nat.forward) fin.finIp.ipSum nat.natIpsumd := by
  have h3 := hc.query
  have h4 := hn.not_icmperr
  have h5 := hs.ne.2.2
  unfold written outWritten inWritten outPorts inPorts outAddrs inAddrs outIpSum inIpSum FrInfo.setPorts FrInfo.setId
    adjust NatT.forward
  cases hd : nat.natDir <;> cases out <;>
    simp only [h3, h4, h5, if_false, if_true, Bool.false_eq_true] <;> split_ifs <;> first | rfl | simp_all

theorem written_sum (nat : NatT) (out : Bool) (hs : Soft fin.finCksum) :
    (if out then outSum M fin nat c else inSum M nat c) = adjust M (out == nat.forward) c (nat.natSumd false) := by
  obtain ⟨h4, h2, -⟩ := hs.ne
  unfold outSum inSum adjust NatT.forward
  cases hd : nat.natDir <;> cases out <;>
    simp [ipfFixOutcksum_soft h4 h2, ipfFixIncksum_soft h4 h2]

@[simp] theorem tuple_src : (k.tuple a b x y z).src = a := by cases k <;> rfl

@[simp] theorem tuple_dst : (k.tuple a b x y z).dst = b := by cases k <;> rfl

theorem arrives_addrs (nat : NatT) (out : Bool) :
    (total (halves M (nat.arrives k out).src) + total (halves M (nat.arrives k out).dst)) % 65535 =
      (if out == nat.forward then nat.oldAddrs M else nat.newAddrs M) % 65535 := by
  have h1 := total_halves (M := M) (a := nat.natOsrcaddr)
  have h2 := total_halves (M := M) (a := nat.natOdstaddr)
  have h3 := total_halves (M := M) (a := nat.natNsrcaddr)
  have h4 := total_halves (M := M) (a := nat.natNdstaddr)
  unfold NatT.arrives NatT.oldAddrs NatT.newAddrs
  by_cases h : out = nat.forward
  · simp only [h, beq_self_eq_true, if_true, NatT.old, tuple_src, tuple_dst]
    omega
  · simp only [h, beq_eq_false_iff_ne.2 h, if_false, NatT.new, Tuple.reply, tuple_src, tuple_dst, Bool.false_eq_true]
    omega

theorem target_addrs (nat : NatT) (out : Bool) :
    (total (halves M (nat.target k out).src) + total (halves M (nat.target k out).dst)) % 65535 =
      (if out == nat.forward then nat.newAddrs M else nat.oldAddrs M) % 65535 := by
  have h1 := total_halves (M := M) (a := nat.natOsrcaddr)
  have h2 := total_halves (M := M) (a := nat.natOdstaddr)
  have h3 := total_halves (M := M) (a := nat.natNsrcaddr)
  have h4 := total_halves (M := M) (a := nat.natNdstaddr)
  unfold NatT.target NatT.oldAddrs NatT.newAddrs
  by_cases h : out = nat.forward
  · simp only [h, beq_self_eq_true, if_true, NatT.new, tuple_src, tuple_dst]
    omega
  · simp only [h, beq_eq_false_iff_ne.2 h, if_false, NatT.old, Tuple.reply, tuple_src, tuple_dst, Bool.false_eq_true]
    omega

theorem Carries.src (hc : Carries M k t fin) : fin.finIp.ipSrc = t.src := by
  rw [← hc.tuple]
  exact tuple_src.symm

theorem Carries.dst (hc : Carries M k t fin) : fin.finIp.ipDst = t.dst := by
  rw [← hc.tuple]
  exact tuple_dst.symm

theorem written_addrs (nat : NatT) (out : Bool) (hc : Carries M k t fin) (hn : k.Fits nflags) :
    (written M out fin nat nflags).finIp.ipSrc = (nat.target k out).src ∧
      (written M out fin nat nflags).finIp.ipDst = (nat.target k out).dst := by
  have htup := written_tuple nat out hc hn
  have hsrc := congrArg Tuple.src htup
  have hdst := congrArg Tuple.dst htup
  rw [FrInfo.tuple, tuple_src] at hsrc
  rw [FrInfo.tuple, tuple_dst] at hdst
  rw [hsrc, hdst]
  constructor <;> split_ifs <;> rfl

@[simp] theorem finalise_target : (nat.finalise M).target k out = nat.target k out := rfl

@[simp] theorem finalise_forward : (nat.finalise M).forward = nat.forward := rfl

@[simp] theorem finalise_oldPorts : (nat.finalise M).oldPorts M = nat.oldPorts M := rfl

@[simp] theorem finalise_newPorts : (nat.finalise M).newPorts M = nat.newPorts M := rfl

@[simp] theorem finalise_writes : (nat.finalise M).writes k out = nat.writes k out := rfl

/-- **The IP checksum.** -/
theorem written_ip (nat : NatT) (out : Bool) (hc : Carries M k (nat.arrives k out) fin) (hn : k.Fits nflags)
    (hs : Soft fin.finCksum) (hv : fin.Sound M k) :
    Valid ((written M out fin (nat.finalise M) nflags).finIp.words M) ↔
      (out ≠ nat.forward → (nat.ipsumd M).toNat < 2 ^ 16) := by
  obtain ⟨hle, hmod⟩ := ipsumd_toNat M nat
  obtain ⟨hsrc, hdst⟩ := written_addrs (nat.finalise M) out hc hn
  have hrest : (written M out fin (nat.finalise M) nflags).finIp.ipRest = fin.finIp.ipRest := by
    cases out
    · exact inWritten_keeps.ipRest
    · exact outWritten_keeps.ipRest
  have hin := arrives_addrs (M := M) (k := k) nat out
  have hout := target_addrs (M := M) (k := k) nat out
  have hval := hv.ip
  unfold Ip.words at hval ⊢
  rw [written_ipSum (nat.finalise M) out hc hn hs, hsrc, hdst, hrest]
  rw [hc.src, hc.dst] at hval
  have hpos := hv.version
  refine (adjust_valid hle hval ?_).trans ?_
  · rw [total_append, total_append]
    omega
  · simp only [total_append]
    by_cases h : out = nat.forward
    · rw [beq_iff_eq.2 h] at hin hout
      rw [finalise_forward, beq_iff_eq.2 h]
      simp only [if_true, finalise_target] at hin hout ⊢
      refine iff_of_true ?_ (fun hne => absurd h hne)
      omega
    · rw [beq_eq_false_iff_ne.2 h] at hin hout
      rw [finalise_forward, beq_eq_false_iff_ne.2 h]
      simp only [Bool.false_eq_true, if_false, finalise_target, ne_eq, h, not_false_eq_true, true_implies] at hin hout ⊢
      omega

/-- The words of a TCP or UDP packet that the translation does not touch. -/
def FrInfo.fixedWords (k : Kind) (fin : FrInfo) : List (BitVec 16) :=
  BitVec.ofNat 16 k.proto :: fin.finDlen.setWidth 16 :: (byteWords fin.finDp.thOpts ++ fin.finDp.rest)

theorem l4words_ports (hk : k ≠ .icmp) (fin : FrInfo) : fin.l4words M k = M.htons fin.finDp.sum ::
    M.htons fin.finDp.thSport :: M.htons fin.finDp.thDport ::
      (halves M fin.finIp.ipSrc ++ halves M fin.finIp.ipDst ++ fin.fixedWords k) := by
  cases k with
  | icmp => exact absurd rfl hk
  | tcp => rfl
  | udp => rfl

theorem fixedWords_pos (hk : k ≠ .icmp) (fin : FrInfo) : total (fin.fixedWords k) ≠ 0 := by
  have hproto : (BitVec.ofNat 16 k.proto).toNat ≠ 0 := by
    cases k with
    | icmp => exact absurd rfl hk
    | tcp => decide
    | udp => decide
  unfold FrInfo.fixedWords
  rw [total_cons]
  omega

/-- The port numbers of a tuple. -/
def Tuple.ports (M : Machine) (t : Tuple) : ℕ := (M.htons t.sport).toNat + (M.htons t.dport).toNat

theorem tuple_ports (hk : k ≠ .icmp) : (k.tuple a b x y z).ports M = (M.htons x).toNat + (M.htons y).toNat := by
  cases k with
  | icmp => exact absurd rfl hk
  | tcp => rfl
  | udp => rfl

theorem reply_ports (t : Tuple) : t.reply.ports M = t.ports M := add_comm _ _

theorem arrives_ports (hk : k ≠ .icmp) (nat : NatT) (out : Bool) :
    (nat.arrives k out).ports M = if out = nat.forward then nat.oldPorts M else nat.newPorts M := by
  unfold NatT.arrives
  split_ifs
  · exact tuple_ports hk
  · rw [reply_ports]
    exact tuple_ports hk

theorem target_ports (hk : k ≠ .icmp) (nat : NatT) (out : Bool) :
    (nat.target k out).ports M = if out = nat.forward then nat.newPorts M else nat.oldPorts M := by
  unfold NatT.target
  split_ifs
  · exact tuple_ports hk
  · rw [reply_ports]
    exact tuple_ports hk

/-- The ports that the packet leaves with: those of the entry, or its own. -/
theorem written_ports (hk : k ≠ .icmp) (nat : NatT) (out : Bool) (hc : Carries M k (nat.arrives k out) fin)
    (hn : k.Fits nflags) : (M.htons (written M out fin nat nflags).finDp.thSport).toNat +
        (M.htons (written M out fin nat nflags).finDp.thDport).toNat =
      if nat.writes k out then if out = nat.forward then nat.newPorts M else nat.oldPorts M
      else if out = nat.forward then nat.oldPorts M else nat.newPorts M := by
  have htup := congrArg (Tuple.ports M) (written_tuple nat out hc hn)
  rw [FrInfo.tuple, tuple_ports hk] at htup
  rw [htup, ← target_ports hk, ← arrives_ports hk]
  split_ifs <;> rfl

theorem wrap_le : wrap M a p ≤ 1 := by
  have ha := (M.ntohl a).isLt
  have hp := (M.htons p).isLt
  unfold wrap
  omega

theorem oldWraps_le (M : Machine) (nat : NatT) : nat.oldWraps M ≤ 2 := Nat.add_le_add wrap_le wrap_le

theorem newWraps_le (M : Machine) (nat : NatT) : nat.newWraps M ≤ 2 := Nat.add_le_add wrap_le wrap_le

/-- **The checksum of TCP and UDP.** -/
theorem written_l4_ports (hk : k ≠ .icmp) (nat : NatT) (out rev : Bool) (hc : Carries M k (nat.arrives k out) fin)
    (hn : k.Fits nflags) (hp : nat.natPr false = k.proto) (hv : fin.Sound M k) :
    Valid (((written M out fin (nat.finalise M) nflags).finish rev fin.finDp.thOpts
        (adjust M (out == nat.forward) fin.finDp.sum (nat.sumd0 M))).l4words M k) ↔ if out = nat.forward then
        if nat.writes k out then nat.newWraps M = nat.oldWraps M
        else (nat.oldPorts M + nat.newWraps M) % 65535 = (nat.newPorts M + nat.oldWraps M) % 65535
      else if nat.writes k out then nat.oldWraps M = nat.newWraps M + (nat.sumd0 M).toNat / 2 ^ 16
        else (nat.newPorts M + nat.oldWraps M) % 65535 =
          (nat.oldPorts M + nat.newWraps M + (nat.sumd0 M).toNat / 2 ^ 16) % 65535 := by
  have hicmp : nat.natPr false ≠ IPPROTO_ICMP := by
    rw [hp]
    cases k with
    | icmp => exact absurd rfl hk
    | tcp => decide
    | udp => decide
  obtain ⟨hle, hmod⟩ := sumd0_toNat (M := M) hicmp
  obtain ⟨hsrc, hdst⟩ := written_addrs (nat.finalise M) out hc hn
  have hin := arrives_addrs (M := M) (k := k) nat out
  have hout := target_addrs (M := M) (k := k) nat out
  have hpin := arrives_ports (M := M) hk nat out
  have hpout := written_ports hk (nat.finalise M) out hc hn
  have hkeep : (written M out fin (nat.finalise M) nflags).Keeps fin := by
    cases out
    · exact inWritten_keeps
    · exact outWritten_keeps
  have hfixed : ((written M out fin (nat.finalise M) nflags).finish rev fin.finDp.thOpts
      (adjust M (out == nat.forward) fin.finDp.sum (nat.sumd0 M))).fixedWords k = fin.fixedWords k := by
    unfold FrInfo.fixedWords FrInfo.finish
    rw [hkeep.dlen, hkeep.rest]
  have hval := hv.l4
  rw [l4words_ports hk] at hval ⊢
  rw [hfixed]
  refine (adjust_valid hle hval ?_).trans ?_
  · rw [total_cons, total_cons, total_append, total_append]
    have hpos := fixedWords_pos hk fin
    omega
  · have ho := oldWraps_le M nat
    have hw := newWraps_le M nat
    have hfin : (M.htons fin.finDp.thSport).toNat + (M.htons fin.finDp.thDport).toNat =
        (nat.arrives k out).ports M := by
      rw [← hc.tuple, FrInfo.tuple, tuple_ports hk]
    simp only [FrInfo.finish, total_cons, total_append]
    rw [hsrc, hdst, hc.src, hc.dst, ← add_assoc, hpout, ← add_assoc (M.htons fin.finDp.thSport).toNat, hfin, hpin]
    simp only [finalise_target, finalise_writes, finalise_forward, finalise_oldPorts, finalise_newPorts]
    by_cases h : out = nat.forward
    · rw [beq_iff_eq.2 h] at hin hout ⊢
      simp only [h, if_true] at hin hout ⊢
      split_ifs <;> omega
    · rw [beq_eq_false_iff_ne.2 h] at hin hout ⊢
      simp only [h, Bool.false_eq_true, if_false] at hin hout ⊢
      split_ifs <;> omega

/-! ## ICMP -/

/-- **The checksum of ICMP.** -/
theorem written_l4_icmp (nat : NatT) (out rev : Bool) (hc : Carries M .icmp (nat.arrives .icmp out) fin)
    (hn : Kind.icmp.Fits nflags) (hp : nat.natPr false = IPPROTO_ICMP) (hv : fin.Sound M .icmp) :
    Valid (((written M out fin (nat.finalise M) nflags).finish rev fin.finDp.thOpts
        (adjust M (out == nat.forward) fin.finDp.sum (nat.sumd0 M))).l4words M .icmp) ↔
      (nat.natOicmpid = 0 → nat.natNicmpid = 0 ∨ nat.natNicmpid = 0xffff#16) ∧
      ¬ (out = nat.forward ∧ total fin.finDp.rest = 0 ∧ nat.natOicmpid ≠ nat.natNicmpid ∧
        (nat.natOicmpid = 0 ∨ nat.natNicmpid = 0)) := by
  obtain ⟨hle, hmod, hzero⟩ := sumd0_icmp (M := M) hp
  have hkeep : (written M out fin (nat.finalise M) nflags).Keeps fin := by
    cases out
    · exact inWritten_keeps
    · exact outWritten_keeps
  have hid : fin.finDp.icmpId = if out = nat.forward then nat.natOicmpid else nat.natNicmpid := by
    refine (congrArg Tuple.id hc.tuple).trans ?_
    unfold NatT.arrives
    split_ifs <;> rfl
  have hid' : (written M out fin (nat.finalise M) nflags).finDp.icmpId =
      if nat.natOicmpid = 0 then fin.finDp.icmpId
      else if out = nat.forward then nat.natNicmpid else nat.natOicmpid := by
    refine (congrArg Tuple.id (written_tuple (nat.finalise M) out hc hn)).trans ?_
    rw [← hc.tuple]
    unfold NatT.writes NatT.target
    simp only [ne_eq, decide_not, Bool.not_eq_true', decide_eq_false_iff_not, ite_not, finalise_forward]
    change Tuple.id (if nat.natOicmpid = 0 then _ else _) = _
    split_ifs with h0 hf hf <;> simp only [hf, if_true, if_false] <;> rfl
  -- everything in terms of the numbers that the ids stand for
  have hI : nat.natOicmpid = 0 ↔ (M.htons nat.natOicmpid).toNat = 0 := htons_eq_zero.symm
  have hJ : nat.natNicmpid = 0 ↔ (M.htons nat.natNicmpid).toNat = 0 := htons_eq_zero.symm
  have hJ' : nat.natNicmpid = 0xffff#16 ↔ (M.htons nat.natNicmpid).toNat = 65535 := htons_eq_ones.symm
  have hIJ : nat.natOicmpid = nat.natNicmpid ↔ (M.htons nat.natOicmpid).toNat = (M.htons nat.natNicmpid).toNat := by
    rw [toNat_inj, htons_inj]
  rw [hIJ] at hzero
  have hltJ : (M.htons nat.natNicmpid).toNat ≤ 65535 := Nat.le_of_lt_succ (M.htons nat.natNicmpid).isLt
  have hwords : ((written M out fin (nat.finalise M) nflags).finish rev fin.finDp.thOpts
        (adjust M (out == nat.forward) fin.finDp.sum (nat.sumd0 M))).l4words M .icmp =
      M.htons (adjust M (out == nat.forward) fin.finDp.sum (nat.sumd0 M)) ::
        M.htons (written M out fin (nat.finalise M) nflags).finDp.icmpId :: fin.finDp.rest := by
    unfold FrInfo.l4words FrInfo.finish
    simp only [hkeep.rest]
  have hval := hv.l4
  unfold FrInfo.l4words at hval
  rw [valid_iff, total_cons, total_cons, hid] at hval
  rw [hwords, valid_iff, total_cons, total_cons, hid', hid]
  unfold adjust
  by_cases h : out = nat.forward
  · obtain ⟨hfix, hne⟩ := ipfFixOutcksum_toNat M fin.finDp.sum (n := nat.sumd0 M) (by omega)
    have hlt : (nat.sumd0 M).toNat ≠ 0 → (M.htons (ipfFixOutcksum M 0 fin.finDp.sum (nat.sumd0 M) 0)).toNat < 65535 := by
      intro hn0
      have hlt := (M.htons (ipfFixOutcksum M 0 fin.finDp.sum (nat.sumd0 M) 0)).isLt
      have := hne hn0
      omega
    have hsame : (nat.sumd0 M).toNat = 0 →
        (M.htons (ipfFixOutcksum M 0 fin.finDp.sum (nat.sumd0 M) 0)).toNat = (M.htons fin.finDp.sum).toNat :=
      fun hn0 => by rw [(ipfFix_zero hn0).1]
    rw [beq_iff_eq.2 h]
    simp only [h, if_true, true_and] at hval ⊢
    split_ifs with h0
    · have hI0 := hI.1 h0
      rw [hI0, zero_add] at hval ⊢
      rw [hI0] at hzero hIJ
      rw [hI0, add_zero] at hmod
      rw [ne_eq nat.natOicmpid, hIJ, hJ, hJ']
      refine (kept_iff hfix hmod hzero hsame hlt hltJ hval).trans ?_
      exact and_congr ⟨fun hor _ => hor, fun hor => hor h0⟩
        (not_congr ⟨fun hr => ⟨hr.1, hr.2, .inl h0⟩, fun hr => ⟨hr.1, hr.2.1⟩⟩)
    · refine (replaced_iff hfix hmod hzero hlt (fun hI0 => h0 (hI.2 hI0)) hval.1).trans ?_
      rw [ne_eq nat.natOicmpid, hIJ, hJ]
      exact ⟨fun hnot => ⟨fun hI0 => absurd hI0 h0, fun hr => hnot ⟨hr.1, hr.2.1, hr.2.2.resolve_left h0⟩⟩,
        fun hnot hr => hnot.2 ⟨hr.1, hr.2.1, .inr hr.2.2⟩⟩
  · have hfix := ipfFixIncksum_toNat M fin.finDp.sum (nat.sumd0 M)
    rw [Nat.mod_eq_of_lt (show (nat.sumd0 M).toNat < 65536 by omega)] at hfix
    have hsame : (nat.sumd0 M).toNat = 0 →
        (M.htons (ipfFixIncksum M 0 fin.finDp.sum (nat.sumd0 M) 0)).toNat = (M.htons fin.finDp.sum).toNat :=
      fun hn0 => by rw [(ipfFix_zero hn0).2]
    rw [beq_eq_false_iff_ne.2 h]
    simp only [h, Bool.false_eq_true, if_false, false_and, not_false_eq_true, and_true] at hval ⊢
    split_ifs with h0
    · have hI0 := hI.1 h0
      rw [hI0] at hzero
      rw [hI0, add_zero] at hmod
      rw [hJ, hJ']
      exact (unrestored_iff hfix hmod hzero hsame hltJ hval).trans ⟨fun hor _ => hor, fun hor => hor h0⟩
    · exact iff_of_true (restored_iff hfix hmod (fun hI0 => h0 (hI.2 hI0)) hval.1) fun hI0 => absurd hI0 h0

/-- **Incremental checksums.** A packet of a session, with right checksums, has right checksums after the
translation iff `NatT.Exact`. -/
theorem translate_cksum (hc : Carries M k (nat.arrives k out) fin) (hn : k.Fits nflags)
    (hp : nat.natPr false = k.proto) (hs : Soft fin.finCksum) (hsum : fin.finDp.sum ≠ 0)
    (hclamp : fin.clamped M nat = false) (hv : fin.Sound M k) :
    (∃ t, translate M out fin (nat.finalise M) nflags = some t ∧ t.Sound M k) ↔
      nat.Exact M k out fin.finDp.rest := by
  obtain ⟨rev, opts, sum, heq, hfree⟩ := translate_eq (nat.finalise M) out hc hn
  obtain ⟨hopts, hsum'⟩ := hfree hclamp
  rw [if_pos (Or.inr hsum), written_sum (nat.finalise M) out hs] at hsum'
  subst hopts hsum'
  have hip := written_ip nat out hc hn hs hv
  have hrest : (written M out fin (nat.finalise M) nflags).finIp.ipRest = fin.finIp.ipRest := by
    cases out
    · exact inWritten_keeps.ipRest
    · exact outWritten_keeps.ipRest
  -- the translated packet is given by `heq`, so that only its checksums are in question
  have hsound : (∃ t, translate M out fin (nat.finalise M) nflags = some t ∧ t.Sound M k) ↔
      (out ≠ nat.forward → (nat.ipsumd M).toNat < 2 ^ 16) ∧
        Valid (((written M out fin (nat.finalise M) nflags).finish rev fin.finDp.thOpts
          (adjust M (out == nat.forward) fin.finDp.sum (nat.sumd0 M))).l4words M k) := by
    constructor
    · rintro ⟨t, ht, hS⟩
      obtain rfl := Option.mem_unique heq ht
      exact ⟨hip.1 hS.ip, hS.l4⟩
    · rintro ⟨h1, h2⟩
      refine ⟨_, heq, hip.2 h1, ?_, h2⟩
      exact fun h => hv.version (hrest ▸ h)
  rw [hsound]
  apply and_congr_right
  intro _
  cases k with
  | icmp => exact written_l4_icmp nat out rev hc hn hp hv
  | tcp => exact written_l4_ports (by decide) nat out rev hc hn hp hv
  | udp => exact written_l4_ports (by decide) nat out rev hc hn hp hv

theorem translate_cksum_mapped :
    mapped.Exact host .tcp true [] ∧
      ∃ t, translate host true ((mapped.old .tcp).packet .tcp (host.htons 0xc65e) (host.htons 0x85c8))
        (mapped.finalise host) IPN_TCP = some t ∧ t.Sound host .tcp := by
  have hexact : mapped.Exact host .tcp true [] := ⟨fun h => absurd rfl h, by decide⟩
  have hc : Carries host .tcp (mapped.arrives .tcp true)
      ((mapped.old .tcp).packet .tcp (host.htons 0xc65e) (host.htons 0x85c8)) := packet_carries ⟨_, _, _, _, 0, rfl⟩
  have hsound : FrInfo.Sound host .tcp
      ((mapped.old .tcp).packet .tcp (host.htons 0xc65e) (host.htons 0x85c8)) :=
    ⟨by decide, by decide, by decide⟩
  exact ⟨hexact, (translate_cksum hc (by decide) rfl (Or.inl rfl) (by decide) (by decide) hsound).2 hexact⟩

/-- `rewrite out on le0 proto tcp from 10.0.0.0/8 to 198.51.100.1 -> src 192.0.2.1/32 dst 10.1.112.52/32`, for
10.1.1.1,1024 to port 80. -/
def rewritten : NatT :=
  { mapped with
    natNdstaddr := host.htonl 0x0a017034
    natNsport := host.htons 1024 }

/-- The two differences of the entry have a carry. A reply comes in with right checksums, and leaves with
neither. -/
theorem rewritten_not_sound :
    ∃ fin, Carries host .tcp (rewritten.arrives .tcp false) fin ∧ fin.Sound host .tcp ∧ Soft fin.finCksum ∧
      ¬ ∃ t, translate host false fin (rewritten.finalise host) IPN_TCP = some t ∧
        (Valid (t.finIp.words host) ∨ Valid (t.l4words host .tcp)) := by
  refine ⟨(rewritten.new .tcp).reply.packet .tcp (host.htons 0xbf5e) (host.htons 0x7ec8),
    packet_carries ⟨_, _, _, _, 0, rfl⟩, ⟨by decide, by decide, by decide⟩, Or.inl rfl, ?_⟩
  rintro ⟨t, ht, hv⟩
  have hsums : ((translate host false ((rewritten.new .tcp).reply.packet .tcp (host.htons 0xbf5e)
      (host.htons 0x7ec8)) (rewritten.finalise host) IPN_TCP).map
      fun t => decide (Valid (t.finIp.words host) ∨ Valid (t.l4words host .tcp))) = some false := by decide
  rw [ht] at hsums
  simp only [Option.map_some, Option.some.injEq, decide_eq_false_iff_not] at hsums
  exact hsums hv

end Ipfilter.NatTab
