import Ipfilter.Proof.ShortHeaders

/-!
# What is behind an authentication header

* `makefrip4_ah` — IPv4 goes behind the header if it is there;
* `ah6_eq`, `Steps.hop` — IPv6 takes it for a hop-by-hop header, and one that came before is put down;
* `ah_skip_iff` — **an authentication header is skipped by its own length**, in IPv6 only one of 8 bytes that no hop-by-hop
  header comes before; `ah_skip_both` — two that are; `ah_skip_v6` — one of 24 bytes that is taken for 40, and one that
  makes the packet bad.
-/

namespace Ipfilter.Makefrip

open Masks Tcp

variable {b : Buf} {f f' : FrInfo} {s s₀ : Walk} {n : ℕ}

/-- `f'` is behind the authentication header that `f` is at, and in the packet unless it is flagged. -/
structure Behind (b : Buf) (f f' : FrInfo) : Prop where
  dp : f'.finDp = f.finDp + ahLen b f.finDp
  dlen : f'.finDlen = f.finDlen - ahLen b f.finDp
  room : flagged f' = false → 0 ≤ f'.finDlen

theorem eight_le_ahLen (b : Buf) (dp : ℕ) : 8 ≤ ahLen b dp := by
  unfold ahLen
  rw [Nat.shiftLeft_eq]
  omega

theorem Behind.stays {f'' : FrInfo} (h : Behind b f f') (h' : Stays f' f'') : Behind b f f'' where
  dp := h'.dp.trans h.dp
  dlen := h'.dlen.trans h.dlen
  room hflags := by
    rw [h'.dlen]
    apply h.room
    rw [← Bool.not_eq_true] at hflags ⊢
    exact fun hf => hflags (h'.flagged hf)

/-! ## IPv4 -/

/-- The authentication header is there. -/
def ahThere (b : Buf) (f : FrInfo) : Bool :=
  !has f.finFlx FI_SHORT && (f.finOff = 0 && (12 ≤ f.finDlen && (pulls b f 12 && pulls b f (ahLen b f.finDp))))

theorem pulls_flagIf (f : FrInfo) (c : Bool) (m : Flags) (k : ℕ) : pulls b (f.flagIf c m) k = pulls b f k := by
  unfold FrInfo.flagIf
  split
  · rfl
  · rfl

theorem flagIf_finP (f : FrInfo) (c : Bool) (m : Flags) : (f.flagIf c m).finP = f.finP := by
  unfold FrInfo.flagIf
  split
  · rfl
  · rfl

/-- **`ipf_pr_ah`** goes behind the header if it is there, and stays where it is otherwise. -/
theorem ah_spec (b : Buf) (f : FrInfo) :
    (ahThere b f = true ∧ Behind b f (ipfPrAh b f).1) ∨ (ahThere b f = false ∧ (ipfPrAh b f).1.finDp = f.finDp) := by
  have hstays : Stays f (ipfPrShort (f.flag FI_AH) 12) := (Stays.flag f FI_AH).trans (.short _ 12)
  have hpulls : ∀ k, pulls b (ipfPrShort (f.flag FI_AH) 12) k = pulls b f k := fun k => pulls_flagIf _ _ _ k
  have hshort : f.finOff = 0 →
      has (ipfPrShort (f.flag FI_AH) 12).finFlx FI_SHORT = (has f.finFlx FI_SHORT || decide (f.finDlen < 12)) := by
    intro hoff
    have hoff' : (f.flag FI_AH).finOff = 0 := hoff
    unfold ipfPrShort
    rw [has_flagIf, has_flag, if_pos hoff', show has FI_AH FI_SHORT =
      false by decide, show has FI_SHORT FI_SHORT = true by decide,
      Bool.or_false, Bool.and_true]
    rfl
  unfold ipfPrAh ahThere
  dsimp only
  generalize ipfPrShort (f.flag FI_AH) 12 = g at hstays hpulls hshort ⊢
  by_cases hoff : f.finOff = 0
  swap
  · -- behind the first fragment there is no header
    right
    rw [if_pos (.inr (by rw [hstays.off]; exact hoff)), decide_eq_false hoff]
    exact ⟨by simp, hstays.dp⟩
  by_cases hlen : has g.finFlx FI_SHORT = true
  · right
    rw [if_pos (.inl hlen)]
    refine ⟨?_, hstays.dp⟩
    rw [hshort hoff, Bool.or_eq_true, decide_eq_true_eq] at hlen
    obtain hflag | hlt := hlen
    · rw [hflag]
      rfl
    · rw [decide_eq_false (by omega : ¬12 ≤ f.finDlen)]
      simp
  · have hgo : ¬(has g.finFlx FI_SHORT = true ∨ g.finOff ≠ 0) := by
      rw [hstays.off]
      exact fun h => h.elim hlen fun h => h hoff
    rw [Bool.not_eq_true, hshort hoff, Bool.or_eq_false_iff, decide_eq_false_iff_not] at hlen
    rw [if_neg hgo, hpulls, hlen.1, decide_eq_true hoff, decide_eq_true (by omega : 12 ≤ f.finDlen)]
    cases hpull : pulls b f 12 with
    | false =>
      right
      rw [if_pos rfl]
      exact ⟨rfl, (hstays.trans (.pullup b g 12)).dp⟩
    | true =>
      have hlenstays : Stays f (ipfPrShort g (ahLen b g.finDp)) := hstays.trans (.short g _)
      have hlenpulls : pulls b (ipfPrShort g (ahLen b g.finDp)) (ahLen b g.finDp) = pulls b f (ahLen b f.finDp) := by
        unfold ipfPrShort
        rw [pulls_flagIf, hpulls, hstays.dp]
      rw [if_neg (by decide), hlenpulls]
      cases hpull' : pulls b f (ahLen b f.finDp) with
      | false =>
        right
        rw [if_pos rfl]
        exact ⟨rfl, (hlenstays.trans (.pullup b _ _)).dp⟩
      | true =>
        left
        rw [if_neg (by decide)]
        refine ⟨rfl, ?_, ?_, ?_⟩
        · change (ipfPrShort g (ahLen b g.finDp)).finDp + ahLen b g.finDp = _
          rw [hlenstays.dp, hstays.dp]
        · change (ipfPrShort g (ahLen b g.finDp)).finDlen - (ahLen b g.finDp : ℤ) = _
          rw [hlenstays.dlen, hstays.dp]
        · -- a header that is longer than the data is short
          intro hflags
          change 0 ≤ (ipfPrShort g (ahLen b g.finDp)).finDlen - (ahLen b g.finDp : ℤ)
          rw [hlenstays.dlen]
          apply Int.sub_nonneg_of_le
          apply Int.not_lt.1
          intro hlt
          have hshort' : flagged (ipfPrShort g (ahLen b g.finDp)) = true :=
            short_flagged (hstays.off.trans hoff) (by rw [hstays.dlen]; exact hlt)
          rw [← Bool.not_eq_true] at hflags
          exact hflags hshort'

/-- A packet without an offset. -/
theorem fragment4_first (h : units4 b = 0) (f : FrInfo) : ∃ c, f.fragment4 b = { f.flagIf c FI_FRAG with finOff := 0 } := by
  have hoff : ¬(b.be16 6 &&& 0x1fff).toNat <<< 3 ≠ 0 := by
    rw [Nat.shiftLeft_eq]
    change ¬units4 b * _ ≠ 0
    rw [h, zero_mul]
    exact fun h => h rfl
  unfold FrInfo.fragment4
  dsimp only
  split
  · exact ⟨true, rfl⟩
  · exact ⟨false, rfl⟩

/-- An authentication header at the start of the data of an IPv4 packet. -/
def ahThere4 (b : Buf) (hlen : ℕ) (f : FrInfo) : Bool :=
  !has f.finFlx FI_SHORT &&
    (units4 b = 0 && (12 ≤ dlen4 b hlen && (pulls b (start4 b hlen f) 12 && pulls b (start4 b hlen f) (ahLen b hlen))))

/-- The fields of the header, and the offset, leave the place in the packet as it is. -/
theorem fragment4_place (b : Buf) (hlen : ℕ) (f : FrInfo) :
    (((start4 b hlen f).header4 b).fragment4 b).finP = (b.byte 9).toNat ∧
      (((start4 b hlen f).header4 b).fragment4 b).finDp = hlen ∧ (((start4 b hlen f).header4 b).fragment4 b).finDlen =
        dlen4 b hlen ∧
      ahThere b (((start4 b hlen f).header4 b).fragment4 b) = ahThere4 b hlen f := by
  have hheader : Stays { start4 b hlen f with
      finP := (b.byte 9).toNat
      fiTos := b.byte 1
      finId := (b.raw16 4).zeroExtend 32
      fiTtl := b.byte 8
      finSrc := ⟨b.raw32 12, 0, 0, 0⟩
      finDst := ⟨b.raw32 16, 0, 0, 0⟩
      finCrc := (b.byte 9).zeroExtend 32 + b.raw32 12 + b.raw32 16 } ((start4 b hlen f).header4 b) := .flagIf _ _ _
  have hshort : has ((start4 b hlen f).header4 b).finFlx FI_SHORT = has f.finFlx FI_SHORT := by
    unfold FrInfo.header4
    dsimp only
    rw [has_flagIf, show has (FI_MULTICAST ||| FI_MBCAST) FI_SHORT = false by decide, Bool.and_false, Bool.or_false]
    rfl
  have hpulls : ∀ k, pulls b ((start4 b hlen f).header4 b) k = pulls b (start4 b hlen f) k := by
    intro k
    exact pulls_flagIf _ _ _ k
  have hp : ((start4 b hlen f).header4 b).finP = (b.byte 9).toNat := flagIf_finP _ _ _
  have hdp : ((start4 b hlen f).header4 b).finDp = hlen := hheader.dp
  have hdlen : ((start4 b hlen f).header4 b).finDlen = dlen4 b hlen := hheader.dlen
  generalize (start4 b hlen f).header4 b = g at hshort hpulls hp hdp hdlen ⊢
  unfold ahThere ahThere4
  by_cases hoff : units4 b = 0
  · obtain ⟨c, hc⟩ := fragment4_first hoff g
    have hstays := Stays.flagIf g c FI_FRAG
    have hc' : ∀ k, pulls b (g.fragment4 b) k = pulls b (start4 b hlen f) k := by
      intro k
      rw [hc, ← hpulls k]
      exact pulls_flagIf g c FI_FRAG k
    rw [hc', hc', hc]
    refine ⟨(flagIf_finP g c FI_FRAG).trans hp, hstays.dp.trans hdp, hstays.dlen.trans hdlen, ?_⟩
    dsimp only
    rw [has_flagIf, hstays.dp, hdp, hstays.dlen, hdlen, hshort, show has FI_FRAG FI_SHORT = false by decide, hoff]
    simp
  · have hstays := ((Stays.flag g FI_FRAG).trans (.flag _ FI_FRAGBODY)).trans (.flagIf _ (bad4 b g.finDlen) FI_BAD)
    have hne : 8 * units4 b ≠ 0 := by omega
    rw [fragment4_eq hoff g]
    refine ⟨(flagIf_finP _ _ _).trans hp, hstays.dp.trans hdp, hstays.dlen.trans hdlen, ?_⟩
    rw [decide_eq_false hoff, decide_eq_false hne, Bool.false_and, Bool.and_false, Bool.false_and, Bool.and_false]

/-- **In IPv4** the header is skipped if it is there. -/
theorem makefrip4_ah {minmtu hlen : ℕ} {r : FrInfo} (hr : ipfMakefrip4 b minmtu hlen f = some r)
    (hp : (b.byte 9).toNat = IPPROTO_AH) : Behind b (start4 b hlen f) r ↔ ahThere4 b hlen f = true := by
  obtain ⟨hdp, hdlen, -, hflx⟩ := makefrip4_upTo hr
  obtain ⟨hproto, hplace, hrest, hthere⟩ := fragment4_place b hlen f
  have hskip : skipAh b (((start4 b hlen f).header4 b).fragment4 b) = ipfPrAh b (((start4 b hlen f).header4 b).fragment4 b) :=
    if_pos (hproto.trans hp)
  unfold upToOptions at hdp hdlen hflx
  dsimp only at hdp hdlen hflx
  rw [hskip] at hdp hdlen hflx
  generalize ((start4 b hlen f).header4 b).fragment4 b = g at hdp hdlen hflx hplace hrest hthere
  have hlayer := Stays.layer4 b minmtu (ipfPrAh b g).2 (ipfPrAh b g).1
  rw [← hthere]
  obtain ⟨h, hbehind⟩ | ⟨h, hstays⟩ := ah_spec b g
  · have hu := hbehind.stays hlayer
    refine ⟨fun _ => h, fun _ => ⟨?_, ?_, fun hflags => ?_⟩⟩
    · rw [hdp, hu.dp, hplace]
      rfl
    · rw [hdlen, hu.dlen, hplace, hrest]
      rfl
    · rw [hdlen]
      apply hu.room
      rw [flagged_eq, Bool.or_eq_false_iff] at hflags ⊢
      simp only [← Bool.not_eq_true] at hflags ⊢
      exact ⟨fun hf => hflags.1 (hflx _ hf), fun hf => hflags.2 (hflx _ hf)⟩
  · rw [h]
    refine ⟨fun hb => ?_, fun h => by cases h⟩
    have hmoved := hb.dp
    have hpos := eight_le_ahLen b (start4 b hlen f).finDp
    rw [hdp, hlayer.dp, hstays, hplace] at hmoved
    change hlen = hlen + _ at hmoved
    omega

/-! ## IPv6 -/

/-- The bit of hop-by-hop options. -/
def hopBit : Flags := 0x000001

theorem extBit_hop : extBit IPPROTO_HOPOPTS = some hopBit := rfl

/-- What is put down about a hop-by-hop header, or one that is taken for it. -/
theorem notePresence_hop (g : FrInfo) : (has (g.notePresence false IPPROTO_HOPOPTS).finFlx FI_FRAG = true ∨
        has (g.notePresence false IPPROTO_HOPOPTS).finOptmsk hopBit = true) ∧
      has (g.notePresence false IPPROTO_HOPOPTS).finFlx FI_BAD =
        (has g.finFlx FI_BAD || (!has g.finFlx FI_FRAG && has g.finOptmsk hopBit)) := by
  unfold FrInfo.notePresence
  rw [extBit_hop]
  by_cases hfrag : has g.finFlx FI_FRAG = true
  · rw [if_pos hfrag, hfrag]
    simp
  · rw [if_neg hfrag, Bool.eq_false_iff.2 hfrag]
    dsimp only
    by_cases hseen : has g.finOptmsk hopBit = true
    · rw [if_pos ⟨rfl, hseen⟩, hseen]
      refine ⟨.inr hseen, ?_⟩
      rw [has_flag, show has FI_BAD FI_BAD = true by decide]
      rfl
    · rw [if_neg (fun h => hseen h.2), Bool.eq_false_iff.2 hseen]
      refine ⟨.inr ?_, by simp⟩
      change has (g.finOptmsk ||| hopBit) hopBit = true
      rw [has_or, show has hopBit hopBit = true by decide, Bool.or_true]

/-- The end of the loop's body adds no flag. -/
theorem settle_stays (b : Buf) (s : Walk) : Stays s.fin (s.settle b).fin ∧ (s.settle b).fin.finFlx = s.fin.finFlx ∧
      ((s.settle b).p = s.p ∨ (s.settle b).p = IPPROTO_NONE) := by
  unfold Walk.settle
  split
  · exact ⟨.pullup b s.fin 0, pullup_flx b s.fin 0, .inr rfl⟩
  · exact ⟨.refl s.fin, rfl, .inl rfl⟩

/-- A hop-by-hop header is put down, unless it is behind a fragment header or there is no next header. -/
theorem step_hop (hp : s.p = IPPROTO_HOPOPTS) :
    has (s.step b).fin.finFlx FI_FRAG = true ∨ has (s.step b).fin.finOptmsk hopBit = true ∨
      (s.step b).p = IPPROTO_NONE := by
  have hswitch : s.switch b = s.next (exthdrNext b IPPROTO_HOPOPTS s.fin) := by
    unfold Walk.switch
    rw [hp]
    rfl
  obtain ⟨hstays, -, hproto⟩ := settle_stays b (s.switch b)
  cases hfits : fits b s.fin IPPROTO_HOPOPTS with
  | true =>
    have hnoted : has (s.switch b).fin.finFlx FI_FRAG = true ∨ has (s.switch b).fin.finOptmsk hopBit = true := by
      rw [hswitch]
      unfold exthdrNext
      rw [exthdr_fits hfits]
      exact (notePresence_hop _).1
    obtain h | h := hnoted
    · exact .inl (hstays.flx _ h)
    · right
      left
      change has ((s.switch b).settle b).fin.finOptmsk hopBit = true
      rw [hstays.optmsk]
      exact h
  | false =>
    have hnone : (s.switch b).p = IPPROTO_NONE := by
      obtain ⟨hnone, -⟩ : (ipfPrIpv6exthdr b s.fin false IPPROTO_HOPOPTS).2 = none ∧ _ := exthdr_not_fits hfits
      rw [hswitch]
      unfold exthdrNext
      dsimp only
      rw [hnone]
      rfl
    right
    right
    obtain h | h := hproto
    · exact h.trans hnone
    · exact h

/-- **A hop-by-hop header that came before** is put down, unless there was a fragment header. -/
theorem Steps.hop {ps : List ℕ} (h : Steps b s₀ ps s) (hop : IPPROTO_HOPOPTS ∈ ps) :
    has s.fin.finFlx FI_FRAG = true ∨ has s.fin.finOptmsk hopBit = true ∨ s.p = IPPROTO_NONE ∨ s.more = false := by
  induction h with
  | start => cases hop
  | step _ hm ih =>
    rename_i ps s _
    obtain ⟨k, hmoves, -⟩ := step_moves b s
    rw [List.mem_append, List.mem_singleton] at hop
    obtain hop | hop := hop
    · obtain h | h | h | h := ih hop
      · exact .inl (hmoves.flx _ h)
      · exact .inr (.inl (hmoves.optmsk _ h))
      · exact .inr (.inr (.inr (step_none h)))
      · rw [h] at hm
        cases hm
    · obtain h | h | h := step_hop (b := b) hop.symm
      · exact .inl h
      · exact .inr (.inl h)
      · exact .inr (.inr (.inl h))

/-- The length of an authentication header is that of an extension header if it has 8 bytes. -/
theorem ahLen_eq (b : Buf) (dp : ℕ) : extShift b IPPROTO_HOPOPTS dp = ahLen b dp ↔ (b.byte (dp + 1)).toNat = 0 := by
  unfold extShift ahLen
  rw [if_neg (by decide), Nat.shiftLeft_eq, Nat.shiftLeft_eq]
  omega

/-- **`ipf_pr_ah6`** goes behind the header as if it were a hop-by-hop header. -/
theorem ah6_spec (b : Buf) (f : FrInfo) :
    (fits b f IPPROTO_HOPOPTS = true ∧ Moves (extShift b IPPROTO_HOPOPTS f.finDp) f (ipfPrAh6 b f).1 ∧
        has (ipfPrAh6 b f).1.finFlx FI_BAD = (has f.finFlx FI_BAD || (!has f.finFlx FI_FRAG && has f.finOptmsk hopBit))) ∨
      (fits b f IPPROTO_HOPOPTS = false ∧ (ipfPrAh6 b f).1.finDp = f.finDp) := by
  have hflag : fits b (f.flag FI_AH) IPPROTO_HOPOPTS = fits b f IPPROTO_HOPOPTS := rfl
  unfold ipfPrAh6
  dsimp only
  cases hfits : fits b f IPPROTO_HOPOPTS with
  | true =>
    left
    have hfits' := hflag.trans hfits
    have hmoves : Moves (extShift b IPPROTO_HOPOPTS f.finDp) f (ipfPrIpv6exthdr b (f.flag FI_AH) false IPPROTO_HOPOPTS).1 :=
      (Stays.flag f FI_AH).moves (exthdr_fits_moves hfits')
    rw [exthdr_fits hfits'] at hmoves ⊢
    refine ⟨rfl, hmoves.stays (.short6 _ 12), ?_⟩
    unfold ipfPrShort6
    dsimp only
    rw [has_flagIf, (notePresence_hop _).2, show has FI_SHORT FI_BAD = false by decide, Bool.and_false, Bool.or_false]
    change (has ((f.flag FI_AH).flag FI_V6EXTHDR).finFlx FI_BAD ||
      (!has ((f.flag FI_AH).flag FI_V6EXTHDR).finFlx FI_FRAG && has f.finOptmsk hopBit)) = _
    rw [has_flag, has_flag, has_flag, has_flag, show has FI_AH FI_BAD =
      false by decide, show has FI_V6EXTHDR FI_BAD = false by decide,
      show has FI_AH FI_FRAG = false by decide, show has FI_V6EXTHDR FI_FRAG = false by decide]
    simp
  | false =>
    right
    obtain ⟨hnone, hstays⟩ : (ipfPrIpv6exthdr b (f.flag FI_AH) false IPPROTO_HOPOPTS).2 = none ∧
        Stays _ (ipfPrIpv6exthdr b (f.flag FI_AH) false IPPROTO_HOPOPTS).1 := exthdr_not_fits (hflag.trans hfits)
    rw [hnone]
    exact ⟨rfl, hstays.dp⟩

/-- No hop-by-hop header that came before, without an authentication header in between, makes the packet bad. -/
def HopHarmless (ps : List ℕ) (f f' : FrInfo) : Prop :=
  IPPROTO_HOPOPTS ∈ ps → IPPROTO_AH ∉ ps → has f.finFlx FI_BAD = false → has f'.finFlx FI_BAD = false

/-- The header is there and has 8 bytes. -/
def ahThere6 (b : Buf) (f : FrInfo) : Bool := 8 ≤ f.finDlen ∧ pulls b f 8 = true ∧ (b.byte (f.finDp + 1)).toNat = 0

/-- The packet is not behind a fragment header, and not bad. -/
def fresh (f : FrInfo) : Bool := !has f.finFlx FI_FRAG && !has f.finFlx FI_BAD

theorem ahThere6_iff (h : fits b f IPPROTO_HOPOPTS = true) : ahThere6 b f = true ↔ (b.byte (f.finDp + 1)).toNat = 0 := by
  obtain ⟨hlen, hpull, -⟩ := of_decide_eq_true h
  unfold ahThere6
  rw [decide_eq_true_eq]
  exact ⟨fun h => h.2.2, fun h => ⟨hlen, hpull, h⟩⟩

theorem fits_of_ahThere6 (h : ahThere6 b f = true) : fits b f IPPROTO_HOPOPTS = true := by
  obtain ⟨hlen, hpull, hplen⟩ := of_decide_eq_true h
  unfold fits
  rw [decide_eq_true_eq, (ahLen_eq b f.finDp).2 hplen]
  refine ⟨hlen, hpull, ?_⟩
  unfold ahLen
  rw [hplen]
  exact hlen

/-- **In IPv6** a header is skipped by its length if it has 8 bytes, and does no harm to a packet that had no hop-by-hop
header. -/
theorem step_ah {ps : List ℕ} (h : Steps b s₀ ps s) (hm : s.more = true) (hp : s.p = IPPROTO_AH) :
    (Behind b s.fin (s.step b).fin ∧ HopHarmless ps s.fin (s.step b).fin) ↔
      ahThere6 b s.fin = true ∧ ¬(IPPROTO_HOPOPTS ∈ ps ∧ IPPROTO_AH ∉ ps ∧ fresh s.fin = true) := by
  have hswitch : s.switch b = s.next (ipfPrAh6 b s.fin) := by
    unfold Walk.switch
    rw [hp]
    rfl
  obtain ⟨hstays, hflx, -⟩ := settle_stays b (s.switch b)
  change Stays (s.switch b).fin (s.step b).fin at hstays
  change (s.step b).fin.finFlx = (s.switch b).fin.finFlx at hflx
  rw [hswitch] at hstays hflx
  obtain ⟨hfits, hmoves, hbad⟩ | ⟨hfits, hdp⟩ := ah6_spec b s.fin
  · have hmoves' := hmoves.stays hstays
    have hbehind : Behind b s.fin (s.step b).fin ↔ ahThere6 b s.fin = true := by
      rw [ahThere6_iff hfits, ← ahLen_eq]
      constructor
      · intro hb
        have hdp := hb.dp
        rw [hmoves'.dp] at hdp
        omega
      · intro hlen
        refine ⟨?_, ?_, fun _ => hmoves'.room ?_⟩
        · rw [hmoves'.dp, hlen]
        · rw [hmoves'.dlen, hlen]
        · obtain ⟨hlen, -⟩ := of_decide_eq_true hfits
          omega
    have hharm : HopHarmless ps s.fin (s.step b).fin ↔
        ¬(IPPROTO_HOPOPTS ∈ ps ∧ IPPROTO_AH ∉ ps ∧ fresh s.fin = true) := by
      unfold HopHarmless fresh
      rw [hflx]
      change (_ → _ → _ → has (ipfPrAh6 b s.fin).1.finFlx FI_BAD = false) ↔ _
      rw [hbad, Bool.and_eq_true, Bool.not_eq_true', Bool.not_eq_true']
      constructor
      · rintro hharm ⟨hop, hno, hfrag, hclear⟩
        have hafter := hharm hop hno hclear
        obtain h | h | h | h := h.hop hop
        · rw [h] at hfrag
          cases hfrag
        · rw [hfrag, h] at hafter
          simp at hafter
        · rw [hp] at h
          cases h
        · rw [hm] at h
          cases h
      · intro hno hop hah hclear
        have hfrag : has s.fin.finFlx FI_FRAG = true := by
          rw [← Bool.not_eq_false]
          exact fun h => hno ⟨hop, hah, h, hclear⟩
        rw [hclear, hfrag]
        rfl
    exact and_congr hbehind hharm
  · constructor
    · intro hb
      have hmoved := hb.1.dp
      have hpos := eight_le_ahLen b s.fin.finDp
      rw [hstays.dp] at hmoved
      change (ipfPrAh6 b s.fin).1.finDp = _ at hmoved
      omega
    · intro hthere
      rw [fits_of_ahThere6 hthere.1] at hfits
      cases hfits

/-! ## Both -/

/-- **An authentication header is skipped by its own length.** In IPv4 this is so exactly where it is there: the packet has no
offset, is not short, and the bytes can be had. In IPv6, where a hop-by-hop header that came before must not make the packet bad
either, it is so exactly where the header has 8 bytes, which can be had, and no such header came before: it is taken for one. -/
theorem ah_skip_iff (b : Buf) (f : FrInfo) :
    (∀ minmtu hlen, (b.byte 9).toNat = IPPROTO_AH → ∃ r, ipfMakefrip4 b minmtu hlen f = some r ∧
        (Behind b (start4 b hlen f) r ↔ ahThere4 b hlen f = true)) ∧
      ∀ hlen ps s, Steps b (start6 b hlen f) ps s → s.more = true → s.p = IPPROTO_AH →
        ((Behind b s.fin (s.step b).fin ∧ HopHarmless ps s.fin (s.step b).fin) ↔
          ahThere6 b s.fin = true ∧ ¬(IPPROTO_HOPOPTS ∈ ps ∧ IPPROTO_AH ∉ ps ∧ fresh s.fin = true)) := by
  constructor
  · intro minmtu hlen hp
    obtain ⟨r, hr⟩ := makefrip4_some b minmtu hlen f
    exact ⟨r, hr, makefrip4_ah hr hp⟩
  · intro hlen ps s hs hm hp
    exact step_ah hs hm hp

/-- A header of 12 bytes in IPv4, and one of 8 bytes in IPv6. -/
theorem ah_skip_both :
    (∃ r, ipfMakefrip4 (ipv4 51 0 [] [59, 1, 0, 0, 0, 0, 0, 0, 0, 0, 0, 0]) 68 20 .zero = some r ∧ r.finDp = 32) ∧
      ((start6 (ipv6 51 [59, 0, 0, 0, 0, 0, 0, 0]) 40 .zero).step (ipv6 51 [59, 0, 0, 0, 0, 0, 0, 0])).fin.finDp = 48 := by
  obtain ⟨h4, -⟩ := ah_skip_iff (ipv4 51 0 [] [59, 1, 0, 0, 0, 0, 0, 0, 0, 0, 0, 0]) .zero
  obtain ⟨-, h6⟩ := ah_skip_iff (ipv6 51 [59, 0, 0, 0, 0, 0, 0, 0]) .zero
  constructor
  · obtain ⟨r, hr, hiff⟩ := h4 68 20 rfl
    exact ⟨r, hr, (hiff.2 (by decide)).dp⟩
  · have hbehind := ((h6 40 [] _ .start rfl rfl).2 ⟨by decide, fun h => by cases h.1⟩).1
    exact hbehind.dp

/-- A header of 24 bytes at the start of an IPv6 packet is taken for one of 40 bytes, and one behind a hop-by-hop header makes
the packet bad. -/
theorem ah_skip_v6 :
    (∃ s, s = start6 (ipv6 51 ([59, 4] ++ List.replicate 38 0)) 40 .zero ∧ s.more = true ∧ s.p = IPPROTO_AH ∧
        ahLen (ipv6 51 ([59, 4] ++ List.replicate 38 0)) s.fin.finDp = 24 ∧
        (s.step (ipv6 51 ([59, 4] ++ List.replicate 38 0))).fin.finDp = s.fin.finDp + 40) ∧
      ∃ s, Steps (ipv6 0 ([51, 0, 0, 0, 0, 0, 0, 0, 59, 0] ++ List.replicate 30 0))
          (start6 (ipv6 0 ([51, 0, 0, 0, 0, 0, 0, 0, 59, 0] ++ List.replicate 30 0)) 40 .zero) [IPPROTO_HOPOPTS] s ∧
        s.more = true ∧ s.p = IPPROTO_AH ∧ has s.fin.finFlx FI_BAD = false ∧
        has (s.step (ipv6 0 ([51, 0, 0, 0, 0, 0, 0, 0, 59, 0] ++ List.replicate 30 0))).fin.finFlx FI_BAD = true :=
  ⟨⟨_, rfl, rfl, rfl, rfl, rfl⟩, _, .step .start rfl, rfl, rfl, rfl, rfl⟩

end Ipfilter.Makefrip
