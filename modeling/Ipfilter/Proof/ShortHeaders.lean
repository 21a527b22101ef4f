import Ipfilter.Proof.FragBounds

/-!
# Headers of layer 4 that are cut short

* `makefrip4_short` — in IPv4 the analysis tells that a TCP or UDP header is not all there;
* `tcp6_short`, `udp6_short` — what it tells in IPv6, where it does not look at the length;
* `short_header_iff` — **a header that is cut short is flagged:** in IPv4 always, in IPv6 exactly where the packet is bad
  already, or what is behind it in memory makes it so; `short_header_v4` — a packet that is; `short_header_first` — the
  first fragment of a packet with 3 bytes of a UDP header is not.
-/

namespace Ipfilter.Makefrip

open Masks Tcp

variable {b : Buf} {f f' : FrInfo} {s : Walk} {n : ℕ}

/-- The packet is flagged. -/
def flagged (f : FrInfo) : Bool := has f.finFlx (FI_SHORT ||| FI_BAD)

theorem flagged_eq (f : FrInfo) : flagged f = (has f.finFlx FI_SHORT || has f.finFlx FI_BAD) := has_flags _ _ _

theorem Stays.flagged (h : Stays f f') (hf : flagged f = true) : Makefrip.flagged f' = true := by
  rw [flagged_eq, Bool.or_eq_true] at hf ⊢
  obtain hf | hf := hf
  · exact .inl (h.flx _ hf)
  · exact .inr (h.flx _ hf)

theorem flagged_of_flx (h : f'.finFlx = f.finFlx) : flagged f' = flagged f := by
  unfold flagged
  rw [h]

@[simp] theorem flagged_flag (f : FrInfo) (m : Flags) : flagged (f.flag m) = (flagged f || has m (FI_SHORT ||| FI_BAD)) :=
  has_or _ _ _

@[simp] theorem flagged_flagIf (f : FrInfo) (c : Bool) (m : Flags) :
    flagged (f.flagIf c m) = (flagged f || (c && has m (FI_SHORT ||| FI_BAD))) := has_flagIf _ _ _ _

theorem pullup_flx (b : Buf) (f : FrInfo) (m : ℕ) : (ipfPrPullup b f m).1.finFlx = f.finFlx := by
  unfold ipfPrPullup
  split
  · rfl
  · rfl

/-- The ports are in neither the flags nor the place in the packet. -/
theorem ports_same (b : Buf) (f : FrInfo) :
    (f.ports b).finFlx = f.finFlx ∧ (f.ports b).finDp = f.finDp ∧ ∀ m, pulls b (f.ports b) m = pulls b f m := by
  unfold FrInfo.ports
  split
  · exact ⟨rfl, rfl, fun _ => rfl⟩
  · exact ⟨rfl, rfl, fun _ => rfl⟩

/-- The smallest header of TCP and of UDP. -/
def minHeader (p : ℕ) : ℕ := if p = IPPROTO_TCP then 20 else 8

/-! ## IPv4 -/

theorem short_flagged {m : ℕ} (hoff : f.finOff = 0) (hlen : f.finDlen < m) : flagged (ipfPrShort f m) = true := by
  unfold ipfPrShort
  rw [if_pos hoff, flagged_eq, has_flagIf, decide_eq_true hlen, show has FI_SHORT FI_SHORT = true by decide]
  simp

/-- **TCP and UDP in IPv4** look at the length first. -/
theorem layer4_short {minmtu p : ℕ} (hp : p = IPPROTO_TCP ∨ p = IPPROTO_UDP) (hoff : f.finOff = 0)
    (hlen : f.finDlen < minHeader p) : flagged (layer4 b minmtu p f) = true := by
  obtain rfl | rfl := hp
  · have h : layer4 b minmtu IPPROTO_TCP f = ipfPrTcp b f := rfl
    rw [h]
    unfold ipfPrTcp
    have hshort := (Stays.tcpcommon b _).flagged (short_flagged hoff hlen)
    dsimp only
    split
    · exact (Stays.checkv4sum b _).flagged hshort
    · exact hshort
  · have h : layer4 b minmtu IPPROTO_UDP f = ipfPrUdp b f := rfl
    rw [h]
    unfold ipfPrUdp
    have hshort := (Stays.udpcommon b _).flagged (short_flagged hoff hlen)
    dsimp only
    split
    · exact (Stays.checkv4sum b _).flagged hshort
    · exact hshort

/-- The protocol of layer 4 in an IPv4 packet. -/
def proto4 (b : Buf) (hlen : ℕ) (f : FrInfo) : ℕ := (skipAh b (((start4 b hlen f).header4 b).fragment4 b)).2

/-- **In IPv4** a header that is cut short is flagged. -/
theorem makefrip4_short {minmtu hlen : ℕ} {r : FrInfo} (hr : ipfMakefrip4 b minmtu hlen f = some r)
    (hp : proto4 b hlen f = IPPROTO_TCP ∨ proto4 b hlen f = IPPROTO_UDP) (hoff : r.finOff = 0)
    (hlt : r.finDlen < minHeader (proto4 b hlen f)) : flagged r = true := by
  obtain ⟨-, hdlen, hoff', hflx⟩ := makefrip4_upTo hr
  have hstays := Stays.layer4 b minmtu (proto4 b hlen f) (skipAh b (((start4 b hlen f).header4 b).fragment4 b)).1
  have hshort : flagged (upToOptions b minmtu (start4 b hlen f)) = true := by
    apply layer4_short hp
    · rw [← hstays.off]
      exact hoff'.symm.trans hoff
    · rw [← hstays.dlen]
      exact hdlen ▸ hlt
  rw [flagged_eq, Bool.or_eq_true] at hshort ⊢
  exact hshort.imp (hflx _) (hflx _)

/-! ## IPv6 -/

/-- The checksum of a packet that is not a fragment does not fit the bytes behind `fin_dp`. -/
def sumBad (b : Buf) (p : ℕ) (f : FrInfo) : Bool := !has f.finFlx FI_FRAG && sumOk b { f with finP := p } = some false

/-- What `ipf_pr_tcp6` tells about a header that is cut short: the packet is bad already, or bytes behind `fin_dp`, also those
that are not in the packet, make no TCP header or have another checksum. -/
def tcp6Flagged (b : Buf) (f : FrInfo) : Bool :=
  has f.finFlx FI_BAD || (pulls b f (tcpMin f) && (tcpTlen b f.finDp < 20 || tcpBad b f.finDp ||
    ((tcpTlen b f.finDp = 20 || pulls b f (tcpTlen b f.finDp)) && sumBad b IPPROTO_TCP f)))

/-- What `ipf_pr_udp6` tells about a header that is cut short: the packet is bad already, 4 bytes of it are there but 8 cannot
be had, or the checksum is another one. -/
def udp6Flagged (b : Buf) (f : FrInfo) : Bool :=
  has f.finFlx FI_BAD || (3 < f.finDlen && !pulls b f 8) || sumBad b IPPROTO_UDP f

theorem sumOk_congr {p : ℕ} (hdp : f'.finDp = f.finDp) (hdlen : f'.finDlen = f.finDlen) :
    sumOk b { f' with finP := p } = sumOk b { f with finP := p } := by
  unfold sumOk
  dsimp only
  rw [hdp, hdlen]

/-- The checksum of a packet without a flag. -/
theorem checkv6sumAs_flagged (p : ℕ) (h : flagged f = false) : flagged (checkv6sumAs b p f) = sumBad b p f := by
  have hflagged : ∀ g : FrInfo, g.finFlx = f.finFlx → flagged g = false := by
    intro g hg
    unfold flagged at h ⊢
    rw [hg, h]
  have h' := h
  rw [flagged_eq, Bool.or_eq_false_iff] at h'
  obtain ⟨hshort, hbad⟩ := h'
  have hall : has f.finFlx (FI_FRAG ||| FI_SHORT ||| FI_BAD) = has f.finFlx FI_FRAG := by
    rw [has_flags, has_flags, hshort, hbad, Bool.or_false, Bool.or_false]
  unfold checkv6sumAs ipfCheckv4sum ipfCheckl4sum sumBad
  dsimp only
  rw [hshort, hall]
  cases hfrag : has f.finFlx FI_FRAG with
  | true => exact hflagged _ rfl
  | false =>
    generalize sumOk b { f with finP := p } = ok
    cases ok with
    | none => exact hflagged _ rfl
    | some ok =>
      cases ok with
      | true => exact hflagged _ rfl
      | false =>
        -- the flag that is set is that of a bad packet
        change has (f.finFlx ||| FI_BAD) (FI_SHORT ||| FI_BAD) = true
        rw [has_or, show has FI_BAD (FI_SHORT ||| FI_BAD) = true by decide, Bool.or_true]

/-- **What TCP has in common**, for a header that starts here: when the packet is flagged, and when its checksum is looked
at. -/
theorem tcpcommon_spec (hoff : f.finOff = 0) (hshort : has f.finFlx FI_SHORT = false) :
    flagged (ipfPrTcpcommon b f).1 =
        (has f.finFlx FI_BAD || (pulls b f (tcpMin f) && (tcpTlen b f.finDp < 20 || tcpBad b f.finDp))) ∧
      ((ipfPrTcpcommon b f).2 = 0 ↔ flagged (ipfPrTcpcommon b f).1 = false ∧ pulls b f (tcpMin f) = true ∧
        (tcpTlen b f.finDp = 20 ∨ pulls b f (tcpTlen b f.finDp) = true)) ∧
      has (ipfPrTcpcommon b f).1.finFlx FI_FRAG = has f.finFlx FI_FRAG := by
  have hflagged : flagged f = has f.finFlx FI_BAD := by rw [flagged_eq, hshort, Bool.false_or]
  have htcpudp : ∀ m, has FI_TCPUDP m = false → has (f.flag FI_TCPUDP).finFlx m = has f.finFlx m := by
    intro m hm
    rw [has_flag, hm, Bool.or_false]
  have hflagged' : flagged (f.flag FI_TCPUDP) = has f.finFlx FI_BAD := (htcpudp _ (by decide)).trans hflagged
  have hpulls : ∀ m, pulls b (f.flag FI_TCPUDP) m = pulls b f m := fun _ => rfl
  have hmin : tcpMin (f.flag FI_TCPUDP) = tcpMin f := rfl
  unfold ipfPrTcpcommon
  dsimp only
  rw [if_neg (fun h => h hoff), hpulls, hmin]
  cases hp : pulls b f (tcpMin f) with
  | false =>
    rw [if_pos rfl, flagged_of_flx (pullup_flx _ _ _), pullup_flx, hflagged', htcpudp FI_FRAG (by decide)]
    simp
  | true =>
    obtain ⟨hflx, hdp, hports⟩ := ports_same b (f.flag FI_TCPUDP)
    have hgshort : has ((f.flag FI_TCPUDP).ports b).finFlx FI_SHORT = false := by
      rw [hflx, htcpudp FI_SHORT (by decide), hshort]
    rw [if_neg (by decide), hgshort, if_neg (by decide)]
    rw [← flagged_of_flx hflx] at hflagged'
    have hfrag : has ((f.flag FI_TCPUDP).ports b).finFlx FI_FRAG = has f.finFlx FI_FRAG := by
      rw [hflx, htcpudp FI_FRAG (by decide)]
    have hgbad : has ((f.flag FI_TCPUDP).ports b).finFlx FI_BAD = has f.finFlx FI_BAD := by
      rw [hflx, htcpudp FI_BAD (by decide)]
    change ((f.flag FI_TCPUDP).ports b).finDp = f.finDp at hdp
    generalize (f.flag FI_TCPUDP).ports b = g at hflagged' hfrag hgbad hdp hports ⊢
    rw [← hdp]
    have hself : has FI_BAD (FI_SHORT ||| FI_BAD) = true := by decide
    have hbadfrag : has FI_BAD FI_FRAG = false := by decide
    by_cases htlen : tcpTlen b g.finDp < 20
    · rw [if_pos htlen, flagged_flag, has_flag, hself, hbadfrag, hfrag, decide_eq_true htlen]
      simp
    rw [if_neg htlen, decide_eq_false htlen]
    -- the flags of TCP are put down, and do not matter here
    obtain ⟨hflags, hbads, hfrags, hpulls⟩ :
        flagged (({ g with finTcpf := b.byte (g.finDp + 13) } : FrInfo).flagIf (tcpBad b g.finDp) FI_BAD) =
            (has f.finFlx FI_BAD || tcpBad b g.finDp) ∧
          has (({ g with finTcpf := b.byte (g.finDp + 13) } : FrInfo).flagIf (tcpBad b g.finDp) FI_BAD).finFlx FI_BAD =
            (has f.finFlx FI_BAD || tcpBad b g.finDp) ∧
          has (({ g with finTcpf := b.byte (g.finDp + 13) } : FrInfo).flagIf (tcpBad b g.finDp) FI_BAD).finFlx FI_FRAG =
            has f.finFlx FI_FRAG ∧
          ∀ m, pulls b (({ g with finTcpf := b.byte (g.finDp + 13) } : FrInfo).flagIf (tcpBad b g.finDp) FI_BAD) m =
            pulls b f m := by
      refine ⟨?_, ?_, ?_, fun m => ?_⟩
      · rw [flagged_flagIf, hself, Bool.and_true, ← hflagged']
        rfl
      · rw [has_flagIf, show has FI_BAD FI_BAD = true by decide, Bool.and_true, ← hgbad]
      · rw [has_flagIf, hbadfrag, Bool.and_false, Bool.or_false, ← hfrag]
      · rw [← hpulls m, ← hports m]
        unfold FrInfo.flagIf
        split
        · rfl
        · rfl
    rw [hbads, Bool.true_and, Bool.false_or]
    cases hcond : has f.finFlx FI_BAD || tcpBad b g.finDp with
    | true =>
      rw [hcond] at hflags
      rw [if_pos rfl, hflags, hfrags]
      simp
    | false =>
      rw [hcond] at hflags
      rw [if_neg (by decide)]
      by_cases h20 : tcpTlen b g.finDp = 20
      · rw [if_pos h20, hflags, hfrags]
        simp [h20]
      · rw [if_neg h20, flagged_of_flx (pullup_flx _ _ _), pullup_flx, hflags, hfrags]
        unfold ipfPrPullup
        rw [hpulls]
        cases hpull : pulls b f (tcpTlen b g.finDp) with
        | true => simp
        | false => simp [h20]

/-- The checksum is about the place in the packet, and about whether it is a fragment. -/
theorem sumBad_congr (p : ℕ) (h : Stays f f') (hfrag : has f'.finFlx FI_FRAG = has f.finFlx FI_FRAG) :
    sumBad b p f' = sumBad b p f := by
  unfold sumBad
  rw [hfrag, sumOk_congr h.dp h.dlen]

/-- **TCP in IPv6**, for a header that starts here. -/
theorem tcp6_flagged (hoff : f.finOff = 0) (hshort : has f.finFlx FI_SHORT = false) :
    flagged (ipfPrTcp6 b f) = tcp6Flagged b f := by
  obtain ⟨hflags, hzero, hfrag⟩ := tcpcommon_spec (b := b) hoff hshort
  unfold ipfPrTcp6 tcp6Flagged
  dsimp only
  by_cases h0 : (ipfPrTcpcommon b f).2 = 0
  · obtain ⟨hclear, hmin, htlen⟩ := hzero.1 h0
    have htlen' : (decide (tcpTlen b f.finDp = 20) || pulls b f (tcpTlen b f.finDp)) = true := by
      rw [Bool.or_eq_true, decide_eq_true_eq]
      exact htlen
    rw [hflags, hmin, Bool.true_and, Bool.or_eq_false_iff, Bool.or_eq_false_iff] at hclear
    obtain ⟨hbad, hlt, htcp⟩ := hclear
    rw [if_pos h0, checkv6sumAs_flagged _ (hzero.1 h0).1, sumBad_congr _ (.tcpcommon b f) hfrag, hmin, hbad, hlt, htcp, htlen']
    rfl
  · -- no checksum is looked at
    have hno : ∀ bad min lt tcp eq all sum : Bool,
        ¬((bad || (min && (lt || tcp))) = false ∧ min = true ∧ (eq = true ∨ all = true)) →
          (bad || (min && (lt || tcp))) = (bad || (min && (lt || tcp || ((eq || all) && sum)))) := by decide
    rw [if_neg h0, hflags]
    apply hno
    rw [← hflags, decide_eq_true_eq]
    exact fun h => h0 (hzero.2 h)

/-- **What UDP has in common**, for a header that starts here: it is short if its bytes cannot be had. -/
theorem udpcommon_spec (hoff : f.finOff = 0) (hshort : has f.finFlx FI_SHORT = false) :
    (3 < f.finDlen ∧ pulls b f 8 = false ∧ flagged (ipfPrUdpcommon b f).1 = true ∧ (ipfPrUdpcommon b f).2 = 1) ∨
      (¬(3 < f.finDlen ∧ pulls b f 8 = false) ∧ flagged (ipfPrUdpcommon b f).1 = has f.finFlx FI_BAD ∧
        (ipfPrUdpcommon b f).2 = 0 ∧
        has (ipfPrUdpcommon b f).1.finFlx FI_FRAG = has f.finFlx FI_FRAG) := by
  have hflagged : flagged (f.flag FI_TCPUDP) = has f.finFlx FI_BAD := by
    rw [flagged_flag, flagged_eq, hshort, show has FI_TCPUDP (FI_SHORT ||| FI_BAD) =
      false by decide, Bool.false_or, Bool.or_false]
  have hfrag : has (f.flag FI_TCPUDP).finFlx FI_FRAG = has f.finFlx FI_FRAG := by
    rw [has_flag, show has FI_TCPUDP FI_FRAG = false by decide, Bool.or_false]
  unfold ipfPrUdpcommon
  dsimp only
  by_cases hlen : 3 < f.finDlen
  · have hcond : (f.flag FI_TCPUDP).finOff = 0 ∧ (f.flag FI_TCPUDP).finDlen > 3 := ⟨hoff, hlen⟩
    rw [if_pos hcond]
    unfold ipfPrPullup
    rw [show pulls b (f.flag FI_TCPUDP) 8 = pulls b f 8 from rfl]
    cases hpull : pulls b f 8 with
    | true =>
      obtain ⟨hflx, -, -⟩ := ports_same b (f.flag FI_TCPUDP)
      refine .inr ⟨fun h => absurd h.2 (by decide), (flagged_of_flx hflx).trans hflagged, rfl, ?_⟩
      change has ((f.flag FI_TCPUDP).ports b).finFlx FI_FRAG = _
      rw [hflx, hfrag]
    | false =>
      refine .inl ⟨hlen, rfl, ?_, rfl⟩
      change flagged (FrInfo.flag _ FI_SHORT) = true
      rw [flagged_flag, show has FI_SHORT (FI_SHORT ||| FI_BAD) = true by decide, Bool.or_true]
  · have hcond : ¬((f.flag FI_TCPUDP).finOff = 0 ∧ (f.flag FI_TCPUDP).finDlen > 3) := fun h => hlen h.2
    rw [if_neg hcond]
    exact .inr ⟨fun h => hlen h.1, hflagged, rfl, hfrag⟩

/-- **UDP in IPv6**, for a header that starts here. -/
theorem udp6_flagged (hoff : f.finOff = 0) (hshort : has f.finFlx FI_SHORT = false) :
    flagged (ipfPrUdp6 b f) = udp6Flagged b f := by
  unfold ipfPrUdp6 udp6Flagged
  dsimp only
  obtain ⟨hlen, hpull, hflags, hone⟩ | ⟨hroom, hflags, hzero, hfrag⟩ := udpcommon_spec (b := b) hoff hshort
  · rw [if_neg (by rw [hone]; decide), hflags, decide_eq_true hlen, hpull]
    simp
  · rw [if_pos hzero]
    have hroom' : (decide (3 < f.finDlen) && !pulls b f 8) = false := by
      rw [Bool.and_eq_false_iff, decide_eq_false_iff_not, Bool.not_eq_false', ← Bool.not_eq_false]
      exact Classical.not_and_iff_not_or_not.1 hroom
    rw [hroom', Bool.or_false]
    cases hbad : has f.finFlx FI_BAD with
    | true =>
      rw [hbad] at hflags
      exact (Stays.checkv6sumAs b _ _).flagged hflags
    | false =>
      rw [hbad] at hflags
      rw [checkv6sumAs_flagged _ hflags, sumBad_congr _ (.udpcommon b f) hfrag, Bool.false_or]

/-- What the analysis of IPv6 tells about a header of TCP or UDP. -/
def flagged6 (b : Buf) (p : ℕ) (f : FrInfo) : Bool := if p = IPPROTO_TCP then tcp6Flagged b f else udp6Flagged b f

/-- **In IPv6** the flags are those of TCP and UDP, whatever the length is. -/
theorem makefrip6_short {hlen : ℕ} {ps : List ℕ} (hs : Steps b (start6 b hlen f) ps s) (hm : s.more = true)
    (hp : s.p = IPPROTO_TCP ∨ s.p = IPPROTO_UDP) (hoff : s.fin.finOff = 0) (hn : payload b / 8 + 2 ≤ n) :
    ∃ r, ipfMakefrip6 b n hlen f = some r ∧ r.finOff = 0 ∧ r.finDp = s.fin.finDp ∧ r.finDlen = s.fin.finDlen ∧
      flagged r = flagged6 b s.p s.fin := by
  have hshort : has s.fin.finFlx FI_SHORT = false := by
    unfold Walk.more at hm
    rw [Bool.and_eq_true, Bool.and_eq_true, Bool.not_eq_true'] at hm
    exact hm.1.2
  obtain ⟨g, hswitch, hstays, hflags⟩ : ∃ g, s.switch b = s.last g ∧ Stays s.fin g ∧
      flagged g = flagged6 b s.p s.fin := by
    unfold Walk.switch
    obtain hp | hp := hp
    · rw [hp]
      exact ⟨_, rfl, .tcp6 b s.fin, tcp6_flagged hoff hshort⟩
    · rw [hp]
      exact ⟨_, rfl, .udp6 b s.fin, udp6_flagged hoff hshort⟩
  have hgo : (s.switch b).go = false := by
    rw [hswitch]
    rfl
  have hrun := makefrip6_last hs hm (step_last hgo).2 hn
  obtain ⟨hfinish, hflx⟩ := finish_last hgo
  rw [(step_last hgo).1] at hrun
  rw [hswitch] at hrun hfinish hflx
  refine ⟨_, hrun, ?_, ?_, ?_, (flagged_of_flx hflx).trans hflags⟩
  · exact hfinish.off.trans (hstays.off.trans hoff)
  · exact hfinish.dp.trans hstays.dp
  · exact hfinish.dlen.trans hstays.dlen

/-! ## Both -/

/-- **A header of TCP or UDP that is cut short** is flagged in every IPv4 packet. In IPv6 it is, exactly where the packet is bad
already, bytes of the header cannot be had, or what is in memory behind the data makes no header or has another checksum; in a
first fragment the checksum is not looked at. -/
theorem short_header_iff (b : Buf) (f : FrInfo) :
    (∀ minmtu hlen r, ipfMakefrip4 b minmtu hlen f = some r →
        proto4 b hlen f = IPPROTO_TCP ∨ proto4 b hlen f = IPPROTO_UDP → r.finOff = 0 →
          r.finDlen < minHeader (proto4 b hlen f) → flagged r = true) ∧
      ∀ hlen ps s, Steps b (start6 b hlen f) ps s → s.more = true → s.p = IPPROTO_TCP ∨ s.p = IPPROTO_UDP →
        s.fin.finOff = 0 →
        s.fin.finDlen < minHeader s.p → ∀ n, payload b / 8 + 2 ≤ n →
          ∃ r, ipfMakefrip6 b n hlen f = some r ∧ r.finOff = 0 ∧ r.finDp = s.fin.finDp ∧ r.finDlen = s.fin.finDlen ∧
            (flagged r = true ↔ flagged6 b s.p s.fin = true) := by
  constructor
  · intro minmtu hlen r hr hp hoff hlt
    exact makefrip4_short hr hp hoff hlt
  · intro hlen ps s hs hm hp hoff _ n hn
    obtain ⟨r, hr, hroff, hdp, hdlen, hflags⟩ := makefrip6_short hs hm hp hoff hn
    exact ⟨r, hr, hroff, hdp, hdlen, by rw [hflags]⟩

/-- The first 4 bytes of a UDP header in IPv4, and of a TCP header in IPv6 with zeros behind. -/
theorem short_header_v4 :
    (∃ r, ipfMakefrip4 (ipv4 17 0 [] [0, 7, 0, 9]) 68 20 .zero = some r ∧ flagged r = true) ∧
      ∃ r, ipfMakefrip6 (ipv6 6 [0, 7, 0, 9]) 2 40 .zero = some r ∧ flagged r = true := by
  obtain ⟨h4, h6⟩ := short_header_iff (ipv4 17 0 [] [0, 7, 0, 9]) .zero
  have hrun : ∃ r, ipfMakefrip4 (ipv4 17 0 [] [0, 7, 0, 9]) 68 20 .zero = some r ∧ r.finOff = 0 ∧ r.finDlen = 4 :=
    ⟨_, rfl, rfl, rfl⟩
  obtain ⟨r, hr, hoff, hdlen⟩ := hrun
  have hlt : r.finDlen < minHeader (proto4 (ipv4 17 0 [] [0, 7, 0, 9]) 20 .zero) := by
    rw [hdlen]
    decide
  obtain ⟨-, h6⟩ := short_header_iff (ipv6 6 [0, 7, 0, 9]) .zero
  obtain ⟨r', hr', -, -, -, hflags⟩ := h6 40 [] _ .start rfl (.inl rfl) rfl (by decide) 2 (by decide)
  exact ⟨⟨r, hr, h4 68 20 r hr (.inr rfl) hoff hlt⟩, r', hr', hflags.2 (by decide)⟩

/-- The first 3 bytes of a UDP header behind a fragment header are not flagged in IPv6: nothing is pulled up for them. -/
theorem short_header_first :
    ∃ r, ipfMakefrip6 (ipv6 44 [17, 0, 0, 0, 0, 0, 0, 1, 0, 7, 0]) 3 40 .zero = some r ∧ r.finP = IPPROTO_UDP ∧
      r.finOff = 0 ∧
      r.finDlen = 3 ∧ flagged r = false :=
  ⟨_, rfl, rfl, rfl, rfl, by decide⟩

end Ipfilter.Makefrip
