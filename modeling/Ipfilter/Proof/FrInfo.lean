import Ipfilter.Spec.Ipv4hdr

/-!
# What the analysis of a layer 4 header leaves alone

* `Stays` — the place in the packet stays where it is, and no flag goes;
* `Stays` of every function for TCP, UDP, ICMP, ESP and GRE.
-/

namespace Ipfilter.Makefrip

open Masks Tcp

variable {b : Buf} {f f' f'' : FrInfo} {m m' : Flags}

/-! ## Flags -/

@[simp] theorem has_flag (f : FrInfo) (m m' : Flags) : has (f.flag m).finFlx m' = (has f.finFlx m' || has m m') :=
  has_or _ _ _

@[simp] theorem has_flagIf (f : FrInfo) (c : Bool) (m m' : Flags) :
    has (f.flagIf c m).finFlx m' = (has f.finFlx m' || (c && has m m')) := by
  unfold FrInfo.flagIf
  split
  · rename_i h
    rw [has_flag, h, Bool.true_and]
  · rename_i h
    rw [Bool.eq_false_iff.2 h, Bool.false_and, Bool.or_false]

/-! ## The place in the packet -/

/-- The place in the packet stays where it is, and no flag goes. -/
structure Stays (f f' : FrInfo) : Prop where
  dp : f'.finDp = f.finDp
  dlen : f'.finDlen = f.finDlen
  plen : f'.finPlen = f.finPlen
  hlen : f'.finHlen = f.finHlen
  off : f'.finOff = f.finOff
  depth : f'.finDepth = f.finDepth
  optmsk : f'.finOptmsk = f.finOptmsk
  flx : ∀ m, has f.finFlx m = true → has f'.finFlx m = true

theorem Stays.refl (f : FrInfo) : Stays f f := ⟨rfl, rfl, rfl, rfl, rfl, rfl, rfl, fun _ h => h⟩

theorem Stays.trans (h : Stays f f') (h' : Stays f' f'') : Stays f f'' where
  dp := h'.dp.trans h.dp
  dlen := h'.dlen.trans h.dlen
  plen := h'.plen.trans h.plen
  hlen := h'.hlen.trans h.hlen
  off := h'.off.trans h.off
  depth := h'.depth.trans h.depth
  optmsk := h'.optmsk.trans h.optmsk
  flx m hm := h'.flx m (h.flx m hm)

/-- `f'` is of the same header as `f`, at the same depth. -/
structure SameHeader (f f' : FrInfo) : Prop where
  hlen : f'.finHlen = f.finHlen
  plen : f'.finPlen = f.finPlen
  depth : f'.finDepth = f.finDepth
  optmsk : f'.finOptmsk = f.finOptmsk

theorem Stays.header (h : Stays f f') : SameHeader f f' := ⟨h.hlen, h.plen, h.depth, h.optmsk⟩

theorem SameHeader.trans (h : SameHeader f f') (h' : SameHeader f' f'') : SameHeader f f'' where
  hlen := h'.hlen.trans h.hlen
  plen := h'.plen.trans h.plen
  depth := h'.depth.trans h.depth
  optmsk := h'.optmsk.trans h.optmsk

theorem Stays.flag (f : FrInfo) (m : Flags) : Stays f (f.flag m) := by
  refine ⟨rfl, rfl, rfl, rfl, rfl, rfl, rfl, fun m' h => ?_⟩
  rw [has_flag, h, Bool.true_or]

theorem Stays.flagIf (f : FrInfo) (c : Bool) (m : Flags) : Stays f (f.flagIf c m) := by
  unfold FrInfo.flagIf
  split
  · exact .flag f m
  · exact .refl f

theorem Stays.pullup (b : Buf) (f : FrInfo) (n : ℕ) : Stays f (ipfPrPullup b f n).1 := by
  unfold ipfPrPullup
  split
  · exact .refl f
  · exact ⟨rfl, rfl, rfl, rfl, rfl, rfl, rfl, fun _ h => h⟩

/-! ## Checksums -/

theorem Stays.checkl4sum (b : Buf) (f : FrInfo) : Stays f (ipfCheckl4sum b f).1 := by
  unfold ipfCheckl4sum
  split
  · exact .refl f
  · split
    · exact .refl f
    · exact ⟨rfl, rfl, rfl, rfl, rfl, rfl, rfl, fun _ h => h⟩
    · exact ⟨rfl, rfl, rfl, rfl, rfl, rfl, rfl, fun _ h => h⟩

theorem Stays.checkv4sum (b : Buf) (f : FrInfo) : Stays f (ipfCheckv4sum b f) := by
  unfold ipfCheckv4sum
  split
  · exact .refl f
  · exact (Stays.checkl4sum b f).trans (.flagIf _ _ _)

theorem Stays.checkv6sumAs (b : Buf) (p : ℕ) (f : FrInfo) : Stays f (checkv6sumAs b p f) := by
  have h := Stays.checkv4sum b { f with finP := p }
  exact ⟨h.dp, h.dlen, h.plen, h.hlen, h.off, h.depth, h.optmsk, h.flx⟩

/-! ## TCP and UDP -/

theorem Stays.ports (b : Buf) (f : FrInfo) : Stays f (f.ports b) := by
  unfold FrInfo.ports
  split
  · exact ⟨rfl, rfl, rfl, rfl, rfl, rfl, rfl, fun _ h => h⟩
  · exact .refl f

theorem Stays.tcpcommon (b : Buf) (f : FrInfo) : Stays f (ipfPrTcpcommon b f).1 := by
  unfold ipfPrTcpcommon
  dsimp only
  apply (Stays.flag f FI_TCPUDP).trans
  generalize f.flag FI_TCPUDP = g
  split
  · exact .refl g
  split
  · apply Stays.pullup
  apply (Stays.ports b g).trans
  generalize g.ports b = g
  split
  · exact .refl g
  split
  · apply Stays.flag
  have htcpf : Stays g { g with finTcpf := b.byte (g.finDp + 13) } := ⟨rfl, rfl, rfl, rfl, rfl, rfl, rfl, fun _ h => h⟩
  apply htcpf.trans
  apply (Stays.flagIf _ (tcpBad b g.finDp) FI_BAD).trans
  split
  · apply Stays.refl
  split
  · apply Stays.refl
  · apply Stays.pullup

theorem Stays.udpcommon (b : Buf) (f : FrInfo) : Stays f (ipfPrUdpcommon b f).1 := by
  unfold ipfPrUdpcommon
  dsimp only
  apply (Stays.flag f FI_TCPUDP).trans
  generalize f.flag FI_TCPUDP = g
  split
  · split
    · exact (Stays.pullup b g 8).trans (.ports _ _)
    · exact (Stays.pullup b g 8).trans (.flag _ _)
  · exact .refl g

theorem Stays.udp6 (b : Buf) (f : FrInfo) : Stays f (ipfPrUdp6 b f) := by
  unfold ipfPrUdp6
  dsimp only
  split
  · exact (Stays.udpcommon b f).trans (.checkv6sumAs _ _ _)
  · exact .udpcommon b f

theorem Stays.tcp6 (b : Buf) (f : FrInfo) : Stays f (ipfPrTcp6 b f) := by
  unfold ipfPrTcp6
  dsimp only
  split
  · exact (Stays.tcpcommon b f).trans (.checkv6sumAs _ _ _)
  · exact .tcpcommon b f

theorem Stays.short (f : FrInfo) (n : ℕ) : Stays f (ipfPrShort f n) := .flagIf _ _ _

theorem Stays.short6 (f : FrInfo) (n : ℤ) : Stays f (ipfPrShort6 f n) := .flagIf _ _ _

theorem Stays.tcp (b : Buf) (f : FrInfo) : Stays f (ipfPrTcp b f) := by
  unfold ipfPrTcp
  dsimp only
  apply (Stays.short f 20).trans
  split
  · exact (Stays.tcpcommon b _).trans (.checkv4sum _ _)
  · exact .tcpcommon b _

theorem Stays.udp (b : Buf) (f : FrInfo) : Stays f (ipfPrUdp b f) := by
  unfold ipfPrUdp
  dsimp only
  apply (Stays.short f 8).trans
  split
  · exact (Stays.udpcommon b _).trans (.checkv4sum _ _)
  · exact .udpcommon b _

/-! ## ICMP -/

theorem Stays.icmp6Type (b : Buf) (f : FrInfo) : Stays f (icmp6Type b f).1 := by
  unfold Makefrip.icmp6Type
  dsimp only
  split
  · split
    · exact ⟨rfl, rfl, rfl, rfl, rfl, rfl, rfl, fun _ h => h⟩
    · exact .refl f
  split
  · apply (Stays.flag f FI_ICMPERR).trans
    split
    · apply Stays.refl
    split
    · apply Stays.pullup
    · apply Stays.flagIf
  · exact .refl f

theorem Stays.icmp6Start (b : Buf) (f : FrInfo) : Stays f (icmp6Start b f).1 := by
  have hdata : Stays f { f with finData := Function.update f.finData false (b.raw16 f.finDp) } :=
    ⟨rfl, rfl, rfl, rfl, rfl, rfl, rfl, fun _ h => h⟩
  unfold Makefrip.icmp6Start
  split
  · exact (hdata.trans (.flagIf _ _ _)).trans (.icmp6Type _ _)
  · exact .refl f

theorem Stays.icmp6 (b : Buf) (f : FrInfo) : Stays f (ipfPrIcmp6 b f) := by
  unfold ipfPrIcmp6
  split
  · apply Stays.pullup
  · apply (Stays.icmp6Start b f).trans
    generalize Makefrip.icmp6Start b f = r
    dsimp only
    split
    · apply Stays.refl
    · apply (Stays.short6 _ _).trans
      split
      · apply Stays.refl
      · apply Stays.checkv6sumAs

theorem Stays.icmpType (b : Buf) (n : ℕ) (f : FrInfo) : Stays f (icmpType b n f).1 := by
  unfold Makefrip.icmpType
  dsimp only
  split
  · apply Stays.flag
  split
  · apply Stays.flag
  split
  · apply Stays.flag
  split
  · apply (Stays.flagIf f _ FI_BAD).trans
    apply (Stays.flag _ FI_ICMPERR).trans
    split
    · apply Stays.refl
    · apply Stays.flagIf
  · exact .refl f

theorem Stays.icmp (b : Buf) (n : ℕ) (f : FrInfo) : Stays f (ipfPrIcmp b n f) := by
  unfold ipfPrIcmp
  dsimp only
  apply (Stays.short f 8).trans
  generalize ipfPrShort f 8 = g
  have hdata : Stays g { g with finData := fun i => if i then b.raw16 (g.finDp + 4) else b.raw16 g.finDp } :=
    ⟨rfl, rfl, rfl, rfl, rfl, rfl, rfl, fun _ h => h⟩
  split
  · exact .refl g
  split
  · apply Stays.pullup
  · apply hdata.trans
    apply (Stays.icmpType b n _).trans
    split
    · apply Stays.refl
    · exact (Stays.short _ _).trans (.checkv4sum _ _)

/-! ## ESP and GRE -/

theorem Stays.esp6 (b : Buf) (f : FrInfo) : Stays f (ipfPrEsp6 b f) := by
  unfold ipfPrEsp6
  split
  · apply Stays.pullup
  · exact .refl f

theorem Stays.esp (b : Buf) (f : FrInfo) : Stays f (ipfPrEsp b f) := by
  unfold ipfPrEsp
  split
  · exact (Stays.short f 8).trans (.pullup _ _ _)
  · exact .refl f

theorem Stays.greCall (b : Buf) (f : FrInfo) : Stays f (f.greCall b) := by
  unfold FrInfo.greCall
  split
  · exact ⟨rfl, rfl, rfl, rfl, rfl, rfl, rfl, fun _ h => h⟩
  · exact .refl f

theorem Stays.gre6 (b : Buf) (f : FrInfo) : Stays f (ipfPrGre6 b f) := by
  unfold ipfPrGre6
  split
  · apply Stays.greCall
  · apply Stays.pullup

theorem Stays.gre (b : Buf) (f : FrInfo) : Stays f (ipfPrGre b f) := by
  unfold ipfPrGre
  dsimp only
  apply (Stays.short f 8).trans
  split
  · apply Stays.refl
  split
  · apply Stays.greCall
  · apply Stays.pullup

theorem Stays.layer4 (b : Buf) (n p : ℕ) (f : FrInfo) : Stays f (layer4 b n p f) := by
  unfold Makefrip.layer4
  split
  · apply Stays.udp
  split
  · apply Stays.tcp
  split
  · apply Stays.icmp
  split
  · apply Stays.esp
  split
  · apply Stays.gre
  · exact .refl f

end Ipfilter.Makefrip
