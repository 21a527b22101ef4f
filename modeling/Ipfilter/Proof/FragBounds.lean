import Ipfilter.Proof.Ipoptions
import Ipfilter.Proof.Ipv6hdr

/-!
# How far a fragment may reach

* `upToOptions_frag`, `fragment6_eq` — the flags of a fragment with an offset, in IPv4 and in IPv6;
* `fragment_bounds_iff` — **a fragment is bad if it reaches over the largest packet, and only then:** in IPv4 unless it is
  empty, in IPv6 unless eight times its offset does; `fragment_bounds_short` — two fragments of 8 bytes;
  `fragment_bounds_scale` — a fragment in the middle of a packet that is bad.
-/

namespace Ipfilter.Makefrip

open Masks Tcp

variable {b : Buf} {f f' : FrInfo} {s : Walk} {n : ℕ}

/-! ## IPv4 -/

/-- The offset of an IPv4 fragment, in units of 8 bytes. -/
def units4 (b : Buf) : ℕ := (b.be16 6 &&& 0x1fff).toNat

/-- A checksum is not looked at in a fragment. -/
theorem checkv4sum_frag (h : has f.finFlx FI_FRAG = true) : ipfCheckv4sum b f = f := by
  unfold ipfCheckv4sum ipfCheckl4sum
  rw [has_flags, has_flags, h]
  split
  · rfl
  · rfl

theorem tcp_frag (h : has f.finFlx FI_FRAG = true) (hoff : f.finOff ≠ 0) :
    ipfPrTcp b f = (ipfPrShort f 20).flag FI_TCPUDP := by
  have hoff' : ((ipfPrShort f 20).flag FI_TCPUDP).finOff ≠ 0 := by
    rw [(Stays.flag _ _).off, (Stays.short f 20).off]
    exact hoff
  unfold ipfPrTcp ipfPrTcpcommon
  dsimp only
  rw [if_pos hoff']
  apply checkv4sum_frag
  exact (Stays.flag _ _).flx _ ((Stays.short f 20).flx _ h)

theorem udp_frag (h : has f.finFlx FI_FRAG = true) (hoff : f.finOff ≠ 0) :
    ipfPrUdp b f = (ipfPrShort f 8).flag FI_TCPUDP := by
  have hoff' : ¬(((ipfPrShort f 8).flag FI_TCPUDP).finOff = 0 ∧ ((ipfPrShort f 8).flag FI_TCPUDP).finDlen > 3) := by
    rw [(Stays.flag _ _).off, (Stays.short f 8).off]
    exact fun h => hoff h.1
  unfold ipfPrUdp ipfPrUdpcommon
  dsimp only
  rw [if_neg hoff']
  apply checkv4sum_frag
  exact (Stays.flag _ _).flx _ ((Stays.short f 8).flx _ h)

/-- **A fragment without a layer 4 header** does not get bad by the protocol. -/
theorem layer4_frag (minmtu p : ℕ) (h : has f.finFlx FI_FRAG = true) (hoff : f.finOff ≠ 0) :
    has (layer4 b minmtu p f).finFlx FI_BAD = has f.finFlx FI_BAD := by
  have hshort : ∀ m, has (ipfPrShort f m).finFlx FI_BAD = has f.finFlx FI_BAD := by
    intro m
    unfold ipfPrShort
    rw [has_flagIf]
    simp [show has FI_SHORT FI_BAD = false by decide]
  have hoff' : ∀ m, (ipfPrShort f m).finOff ≠ 0 := by
    intro m
    rw [(Stays.short f m).off]
    exact hoff
  unfold layer4
  split
  · rw [udp_frag h hoff, has_flag, hshort]
    simp [show has FI_TCPUDP FI_BAD = false by decide]
  split
  · rw [tcp_frag h hoff, has_flag, hshort]
    simp [show has FI_TCPUDP FI_BAD = false by decide]
  split
  · unfold ipfPrIcmp
    dsimp only
    rw [if_pos (hoff' 8), hshort]
  split
  · unfold ipfPrEsp
    rw [if_neg hoff]
  split
  · unfold ipfPrGre
    dsimp only
    rw [if_pos (hoff' 8), hshort]
  · rfl

/-- An authentication header is not looked at in a fragment without its start. -/
theorem skipAh_frag (hoff : f.finOff ≠ 0) :
    has (skipAh b f).1.finFlx FI_BAD = has f.finFlx FI_BAD ∧ Stays f (skipAh b f).1 := by
  unfold skipAh
  split
  · have h := (Stays.flag f FI_AH).trans (.short (f.flag FI_AH) 12)
    have hoff' : has (ipfPrShort (f.flag FI_AH) 12).finFlx FI_SHORT ∨ (ipfPrShort (f.flag FI_AH) 12).finOff ≠ 0 := by
      rw [h.off]
      exact .inr hoff
    unfold ipfPrAh
    dsimp only
    rw [if_pos hoff']
    refine ⟨?_, h⟩
    unfold ipfPrShort
    simp [show has FI_SHORT FI_BAD = false by decide, show has FI_AH FI_BAD = false by decide]
  · exact ⟨rfl, .refl f⟩

theorem header4_bad (b : Buf) (f : FrInfo) :
    has (f.header4 b).finFlx FI_BAD = has f.finFlx FI_BAD ∧ (f.header4 b).finDlen = f.finDlen := by
  unfold FrInfo.header4
  constructor
  · dsimp only
    rw [has_flagIf, show has (FI_MULTICAST ||| FI_MBCAST) FI_BAD = false by decide, Bool.and_false, Bool.or_false]
  · exact (Stays.flagIf _ _ _).dlen

/-- What makes an IPv4 fragment with an offset bad. -/
def bad4 (b : Buf) (dlen : ℤ) : Bool :=
  (8 * units4 b : ℕ) + dlen > 65535 ∨ dlen = 0 ∨ (b.be16 6 &&& 0x2000 ≠ 0 ∧ dlen % 8 ≠ 0)

/-- A fragment with an offset. -/
theorem fragment4_eq (h : units4 b ≠ 0) (f : FrInfo) : f.fragment4 b =
      { ((f.flag FI_FRAG).flag FI_FRAGBODY).flagIf (bad4 b f.finDlen) FI_BAD with finOff := 8 * units4 b } := by
  have hfrag : b.be16 6 &&& 0x3fff ≠ 0 := by
    intro h0
    apply h
    have hmask : b.be16 6 &&& 0x1fff = b.be16 6 &&& 0x3fff &&& 0x1fff := by
      rw [BitVec.and_assoc]
      rfl
    unfold units4
    rw [hmask, h0]
    rfl
  have hoff : (b.be16 6 &&& 0x1fff).toNat <<< 3 = 8 * units4 b := by
    rw [Nat.shiftLeft_eq, mul_comm]
    rfl
  unfold FrInfo.fragment4
  dsimp only
  rw [if_pos hfrag, hoff, if_pos (by omega)]
  unfold bad4
  simp only [decide_eq_true_eq]
  rfl

/-- **The flags of an IPv4 fragment with an offset**, up to the options. -/
theorem upToOptions_frag (minmtu : ℕ) (f : FrInfo) (hoff : units4 b ≠ 0) :
    (upToOptions b minmtu f).finOff = 8 * units4 b ∧
      has (upToOptions b minmtu f).finFlx FI_BAD = (has f.finFlx FI_BAD || bad4 b f.finDlen) := by
  obtain ⟨hbad, hdlen⟩ := header4_bad b f
  have hoff4 : ((f.header4 b).fragment4 b).finOff = 8 * units4 b := by
    rw [fragment4_eq hoff]
  have hne : ((f.header4 b).fragment4 b).finOff ≠ 0 := by
    rw [hoff4]
    omega
  have hfrag : has ((f.header4 b).fragment4 b).finFlx FI_FRAG = true := by
    rw [fragment4_eq hoff]
    dsimp only
    rw [has_flagIf, has_flag, has_flag, show has FI_FRAG FI_FRAG = true by decide, Bool.or_true, Bool.true_or, Bool.true_or]
  have hbad4 : has ((f.header4 b).fragment4 b).finFlx FI_BAD = (has f.finFlx FI_BAD || bad4 b f.finDlen) := by
    rw [fragment4_eq hoff]
    dsimp only
    rw [has_flagIf, has_flag, has_flag, hbad, hdlen, show has FI_FRAG FI_BAD = false by decide,
      show has FI_FRAGBODY FI_BAD = false by decide, show has FI_BAD FI_BAD = true by decide, Bool.or_false, Bool.or_false,
      Bool.and_true]
  unfold upToOptions
  dsimp only
  generalize (f.header4 b).fragment4 b = g at hoff4 hne hfrag hbad4 ⊢
  obtain ⟨hah, hstays⟩ := skipAh_frag (b := b) hne
  have hlayer := Stays.layer4 b minmtu (skipAh b g).2 (skipAh b g).1
  have hne' : (skipAh b g).1.finOff ≠ 0 := by
    rw [hstays.off]
    exact hne
  constructor
  · exact hlayer.off.trans (hstays.off.trans hoff4)
  · exact (layer4_frag minmtu _ (hstays.flx _ hfrag) hne').trans (hah.trans hbad4)

/-- An IPv4 fragment with an offset and without an option error; unless it is the last one, its length is right. -/
structure Fragment4 (b : Buf) (minmtu hlen : ℕ) (f : FrInfo) : Prop where
  off : units4 b ≠ 0
  clear : has f.finFlx FI_BAD = false
  options : ∀ o, ipOptions b hlen (upToOptions b minmtu (start4 b hlen f)) = some o → o.bad = false
  length : b.be16 6 &&& 0x2000 ≠ 0 → dlen4 b hlen ≠ 0 ∧ 8 ∣ dlen4 b hlen

/-- **An IPv4 fragment** is bad if it is empty or reaches over the largest packet. -/
theorem makefrip4_frag {minmtu hlen : ℕ} (h : Fragment4 b minmtu hlen f) :
    ∃ r, ipfMakefrip4 b minmtu hlen f = some r ∧ r.finOff = 8 * units4 b ∧
      (has r.finFlx FI_BAD = true ↔ (8 * units4 b : ℕ) + dlen4 b hlen > 65535 ∨ dlen4 b hlen = 0) := by
  have hlength := h.length
  have hbad : bad4 b (dlen4 b hlen) = true ↔ (8 * units4 b : ℕ) + dlen4 b hlen > 65535 ∨ dlen4 b hlen = 0 := by
    unfold bad4
    rw [decide_eq_true_eq]
    constructor
    · rintro (h | h | ⟨hmore, h⟩)
      · exact .inl h
      · exact .inr h
      · have h8 := (hlength hmore).2
        omega
    · rintro (h | h)
      · exact .inl h
      · exact .inr (.inl h)
  obtain ⟨hoff, hflx⟩ := upToOptions_frag minmtu (start4 b hlen f) h.off
  have hhlen := (upToOptions_header b minmtu (start4 b hlen f)).hlen
  have hoptions := h.options
  have hclear : has (start4 b hlen f).finFlx FI_BAD = false := h.clear
  rw [hclear, Bool.false_or] at hflx
  unfold ipfMakefrip4
  change ∃ r, ipfPrIpv4hdr b minmtu (start4 b hlen f) = some r ∧ _
  unfold ipfPrIpv4hdr
  dsimp only
  generalize upToOptions b minmtu (start4 b hlen f) = u at hoff hflx hhlen hoptions ⊢
  change has u.finFlx FI_BAD = bad4 b (dlen4 b hlen) at hflx
  change u.finHlen = hlen at hhlen
  rw [← hflx] at hbad
  split
  · exact ⟨u, rfl, hoff, hbad⟩
  split
  · exact ⟨_, rfl, hoff, hbad⟩
  · rw [hhlen]
    obtain ⟨o, ho, -⟩ := ipOptions_bit b hlen u
    rw [ho]
    refine ⟨u.options o, rfl, ?_, ?_⟩
    · unfold FrInfo.options
      rw [hoptions o ho]
      exact hoff
    · rw [← hbad]
      unfold FrInfo.options
      rw [hoptions o ho]
      dsimp only
      rw [has_flagIf, has_flag, show has FI_OPTIONS FI_BAD = false by decide, Bool.false_and, Bool.or_false, Bool.or_false]

/-! ## IPv6 -/

/-- The offset in the fragment header at `hdr`, in units of 8 bytes. -/
def units6 (b : Buf) (hdr : ℕ) : ℕ := (b.be16 (hdr + 2)).toNat / 8

theorem fragOff_eq (b : Buf) (hdr : ℕ) : fragOff b hdr = 8 * units6 b hdr := by
  have hbits : ∀ i : Fin 16, (0xfff8 : BitVec 16).getLsbD i = decide (3 ≤ i.val) := by decide
  have hshift : b.be16 (hdr + 2) &&& (0xfff8 : BitVec 16) = (b.be16 (hdr + 2) >>> 3) <<< 3 := by
    apply BitVec.eq_of_getLsbD_eq
    intro i hi
    rw [BitVec.getLsbD_and, hbits ⟨i, hi⟩, BitVec.getLsbD_shiftLeft, BitVec.getLsbD_ushiftRight]
    by_cases h : i < 3
    · simp [h]
    · have hle : 3 ≤ i := Nat.le_of_not_lt h
      rw [Nat.add_sub_cancel' hle]
      simp [hi, h, hle]
  have hlt := (b.be16 (hdr + 2)).isLt
  unfold fragOff units6
  rw [hshift, BitVec.toNat_shiftLeft, BitVec.toNat_ushiftRight, Nat.shiftLeft_eq, Nat.shiftRight_eq_div_pow]
  omega

/-- When a fragment header makes a packet bad. -/
theorem fragment_bad (g : FrInfo) (hdr : ℕ) :
    has (g.fragment b hdr).finFlx FI_BAD = true ↔ has g.finFlx FI_BAD = true ∨
      (moreFrag b hdr = true ∧ g.finPlen % 8 ≠ 0) ∨ ((fragOff b hdr <<< 3 : ℕ) : ℤ) + g.finDlen > 65535 := by
  unfold FrInfo.fragment
  dsimp only
  rw [has_flagIf, has_flagIf, show has FI_FRAGBODY FI_BAD = false by decide, Bool.and_false, Bool.or_false, has_flagIf,
    show has FI_BAD FI_BAD = true by decide, Bool.and_true, Bool.and_true, (Stays.flagIf _ _ _).dlen, (Stays.flagIf _ _ _).off,
    (Stays.flagIf _ _ _).dlen, Bool.or_eq_true, Bool.or_eq_true, decide_eq_true_eq, decide_eq_true_eq, or_assoc]

/-- The packet behind a fragment header, with its flags. -/
theorem fragment6_eq (h : fits b f IPPROTO_FRAGMENT = true) : ipfPrFragment6 b f =
      ((((f.flag FI_FRAG).flag FI_V6EXTHDR).skip 8).fragment b f.finDp, (b.byte f.finDp).toNat) := by
  have hfits : fits b (f.flag FI_FRAG) IPPROTO_FRAGMENT = true := h
  have hfrag : has (((f.flag FI_FRAG).flag FI_V6EXTHDR).skip 8).finFlx FI_FRAG = true := by
    change has ((f.flag FI_FRAG).flag FI_V6EXTHDR).finFlx FI_FRAG = true
    rw [has_flag, has_flag, show has FI_FRAG FI_FRAG = true by decide, Bool.or_true, Bool.true_or]
  have hnote : (((f.flag FI_FRAG).flag FI_V6EXTHDR).skip 8).notePresence false IPPROTO_FRAGMENT =
      ((f.flag FI_FRAG).flag FI_V6EXTHDR).skip 8 := by
    unfold FrInfo.notePresence
    rw [if_pos hfrag]
  unfold ipfPrFragment6
  rw [exthdr_fits hfits]
  change ((((((f.flag FI_FRAG).flag FI_V6EXTHDR).skip 8).notePresence false IPPROTO_FRAGMENT).fragment b f.finDp,
    (b.byte f.finDp).toNat) : FrInfo × ℕ) = _
  rw [hnote]

/-- An IPv6 fragment with an offset, at its fragment header, without an error so far; unless it is the last one, its length is
right. -/
structure Fragment6 (b : Buf) (s : Walk) : Prop where
  more : s.more = true
  proto : s.p = IPPROTO_FRAGMENT
  fits : fits b s.fin IPPROTO_FRAGMENT = true
  off : units6 b s.fin.finDp ≠ 0
  clear : has s.fin.finFlx FI_BAD = false
  length : moreFrag b s.fin.finDp = true → s.fin.finDlen - 8 ≠ 0 ∧ 8 ∣ s.fin.finDlen - 8

/-- **An IPv6 fragment** is bad if eight times its offset reaches over the largest packet. -/
theorem makefrip6_frag {ps : List ℕ} (hs : Steps b (start6 b 40 f) ps s) (h : Fragment6 b s) (hn : payload b / 8 + 2 ≤ n) :
    ∃ r, ipfMakefrip6 b n 40 f = some r ∧ r.finOff = 8 * units6 b s.fin.finDp ∧
      (has r.finFlx FI_BAD = true ↔ 8 * (8 * units6 b s.fin.finDp : ℕ) + (s.fin.finDlen - 8) > 65535) := by
  have hplen : ¬(moreFrag b s.fin.finDp = true ∧ s.fin.finPlen % 8 ≠ 0) := by
    rintro ⟨hmore, hne⟩
    obtain ⟨hplen, -, heights⟩ := hs.eights
    have hlength := (h.length hmore).2
    have hstart : (start6 b 40 f).fin.finPlen = (start6 b 40 f).fin.finDlen + 40 := rfl
    omega
  have hswitch : s.switch b = s.fragment (ipfPrFragment6 b s.fin) := by
    unfold Walk.switch
    rw [h.proto]
    rfl
  rw [fragment6_eq h.fits] at hswitch
  generalize hg : ((((s.fin.flag FI_FRAG).flag FI_V6EXTHDR).skip 8).fragment b s.fin.finDp) = g at hswitch
  have hoff : g.finOff = 8 * units6 b s.fin.finDp := by
    rw [← hg, ← fragOff_eq]
    exact ((Stays.flagIf _ _ _).trans (.flagIf _ _ _)).off
  have hgo : (s.switch b).go = false := by
    have hunits := h.off
    rw [hswitch]
    change decide (g.finOff = 0) = false
    rw [hoff, decide_eq_false_iff_not]
    omega
  have hrun := makefrip6_last hs h.more (step_last hgo).2 hn
  rw [(step_last hgo).1] at hrun
  obtain ⟨hstays, hflx⟩ := finish_last hgo
  rw [hswitch] at hflx hstays hrun
  refine ⟨_, hrun, hstays.off.trans hoff, ?_⟩
  rw [hflx]
  change has g.finFlx FI_BAD = true ↔ _
  have hdlen : 8 * (8 * units6 b s.fin.finDp : ℕ) + (s.fin.finDlen - 8) > 65535 ↔
      ((8 * units6 b s.fin.finDp) <<< 3 : ℕ) + (s.fin.finDlen - 8) > 65535 := by
    rw [Nat.shiftLeft_eq]
    push_cast
    omega
  have hclear : has (((s.fin.flag FI_FRAG).flag FI_V6EXTHDR).skip 8).finFlx FI_BAD = false := by
    change has ((s.fin.flag FI_FRAG).flag FI_V6EXTHDR).finFlx FI_BAD = false
    rw [has_flag, has_flag, h.clear]
    rfl
  rw [hdlen, ← fragOff_eq, ← hg, fragment_bad, hclear]
  constructor
  · rintro (h | h | h)
    · cases h
    · exact absurd h hplen
    · exact h
  · intro h
    exact .inr (.inr h)

/-! ## Both -/

/-- **The bounds of fragments.** `fin_off` is in bytes in both protocols. An IPv4 fragment with an offset is bad if and only if
it reaches over the largest packet, exactly where it is not empty. An IPv6 fragment is, exactly where eight times its offset
does not reach over the largest packet, or the fragment does so itself: the offset is in bytes already when it is multiplied. -/
theorem fragment_bounds_iff (b : Buf) (f : FrInfo) :
    (∀ minmtu hlen, Fragment4 b minmtu hlen f → ∃ r, ipfMakefrip4 b minmtu hlen f = some r ∧ r.finOff = 8 * units4 b ∧
        ((has r.finFlx FI_BAD = true ↔ (8 * units4 b : ℕ) + dlen4 b hlen > 65535) ↔ dlen4 b hlen ≠ 0)) ∧
      ∀ ps s, Steps b (start6 b 40 f) ps s → Fragment6 b s → ∀ n, payload b / 8 + 2 ≤ n →
        ∃ r, ipfMakefrip6 b n 40 f = some r ∧ r.finOff = 8 * units6 b s.fin.finDp ∧
          ((has r.finFlx FI_BAD = true ↔ (8 * units6 b s.fin.finDp : ℕ) + (s.fin.finDlen - 8) > 65535) ↔
            (8 * (8 * units6 b s.fin.finDp : ℕ) + (s.fin.finDlen - 8) > 65535 →
              (8 * units6 b s.fin.finDp : ℕ) + (s.fin.finDlen - 8) > 65535)) := by
  constructor
  · intro minmtu hlen h
    obtain ⟨r, hr, hoff, hbad⟩ := makefrip4_frag h
    refine ⟨r, hr, hoff, ?_⟩
    have hunits : units4 b ≤ 0x1fff := by
      unfold units4
      rw [BitVec.toNat_and]
      exact Nat.and_le_right
    rw [hbad]
    constructor
    · intro h h0
      have hover := h.1 (.inr h0)
      omega
    · intro hne
      exact ⟨fun h => h.resolve_right hne, .inl⟩
  · intro ps s hs h n hn
    obtain ⟨r, hr, hoff, hbad⟩ := makefrip6_frag hs h hn
    refine ⟨r, hr, hoff, ?_⟩
    rw [hbad]
    constructor
    · exact fun h => h.1
    · intro h
      exact ⟨h, by omega⟩

/-- The second 8 bytes of a packet, as a fragment in IPv4 and in IPv6. -/
theorem fragment_bounds_short :
    (∃ r, ipfMakefrip4 (ipv4 17 1 [] [0, 0, 0, 0, 0, 0, 0, 0]) 68 20 .zero = some r ∧ r.finOff = 8 ∧
        has r.finFlx FI_BAD = false) ∧
      ∃ r, ipfMakefrip6 (ipv6 44 [17, 0, 0, 8, 0, 0, 0, 1, 0, 0, 0, 0, 0, 0, 0, 0]) 4 40 .zero = some r ∧ r.finOff = 8 ∧
        has r.finFlx FI_BAD = false := by
  have h4 : Fragment4 (ipv4 17 1 [] [0, 0, 0, 0, 0, 0, 0, 0]) 68 20 .zero := by
    refine ⟨by decide, rfl, ?_, fun h => absurd h (by decide)⟩
    intro o ho
    have hnone : some (⟨0, 0, 0, _, false⟩ : Optinfo) = some o := ho
    rw [← Option.some.inj hnone]
  have h6 : Fragment6 (ipv6 44 [17, 0, 0, 8, 0, 0, 0, 1, 0, 0, 0, 0, 0, 0, 0, 0])
      (start6 (ipv6 44 [17, 0, 0, 8, 0, 0, 0, 1, 0, 0, 0, 0, 0, 0, 0, 0]) 40 .zero) :=
    ⟨rfl, rfl, by decide, by decide, rfl, fun h => absurd h (by decide)⟩
  obtain ⟨r, hr, hoff, hbad⟩ := (fragment_bounds_iff _ .zero).1 68 20 h4
  obtain ⟨r', hr', hoff', hbad'⟩ := (fragment_bounds_iff _ .zero).2 [] _ .start h6 4 (by decide)
  refine ⟨⟨r, hr, hoff, ?_⟩, r', hr', hoff', ?_⟩
  · rw [Bool.eq_false_iff, ne_eq, hbad.2 (by decide)]
    decide
  · rw [Bool.eq_false_iff, ne_eq, hbad'.2 (by decide)]
    decide

/-- A fragment of 8 bytes at 8192 is bad in IPv6: the packet that it belongs to may be much longer. -/
theorem fragment_bounds_scale :
    ∃ r, ipfMakefrip6 (ipv6 44 [17, 0, 0x20, 0, 0, 0, 0, 1, 0, 0, 0, 0, 0, 0, 0, 0]) 4 40 .zero = some r ∧
      r.finOff = 8192 ∧
      Fragment6 (ipv6 44 [17, 0, 0x20, 0, 0, 0, 0, 1, 0, 0, 0, 0, 0, 0, 0, 0])
        (start6 (ipv6 44 [17, 0, 0x20, 0, 0, 0, 0, 1, 0, 0, 0, 0, 0, 0, 0, 0]) 40 .zero) ∧
      has r.finFlx FI_BAD = true ∧ ¬(8192 + 8 > 65535) :=
  ⟨_, rfl, rfl, ⟨rfl, rfl, by decide, by decide, rfl, fun h => absurd h (by decide)⟩, by decide, by decide⟩

end Ipfilter.Makefrip
