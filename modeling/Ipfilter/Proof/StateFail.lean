import Ipfilter.Proof.StateWild

/-!
# Packets that do not match

* `match_fails_iff` — **a packet that does not match leaves the entry and `iss_wild` alone** exactly if `ipf_matchsrcdst` does
  not get as far as to fill in a missing address: flags, options and the clone are looked at after that.
-/

namespace Ipfilter.State

open Chain Queue Masks Option

variable {w w' : Softs} {e : ℕ} {M : Machine} {fin : FrInfo} {i : Ipstate} {flags cmask : Flags} {rev tcp : Bool}
  {src dst : I6addr} {room : Room}

/-! ## The missing address -/

/-- The address of the packet that stands for the one that is missing. -/
def FrInfo.missing (fin : FrInfo) (flags : Flags) (rev : Bool) : I6addr :=
  if flags &&& SI_W_SADDR ≠ 0 then (if rev then fin.finDst else fin.finSrc) else if rev then fin.finSrc else fin.finDst

/-- An address is filled in: one is missing, and that of the packet is no IPv6 multicast address. -/
def fills (M : Machine) (fin : FrInfo) (i : Ipstate) (flags : Flags) (rev : Bool) : Bool :=
  flags &&& SI_WILDA ≠ 0 ∧ ¬(i.isV = 6 ∧ M.multicast6 (fin.missing flags rev))

/-- The packet gets to the block of `ipf_matchsrcdst` that fills in an address, and one is filled in. -/
def reachesAddr (M : Machine) (fin : FrInfo) (w : Softs) (e : ℕ) (src dst : I6addr) (tcp : Bool) : Bool :=
  let rev := matchRev M fin (w.is e) dst tcp
  w.tq.tqeIfq e ≠ some .delete ∧ matchIfp fin (w.is e) rev ∧ matchBoth M fin (w.is e) src dst tcp rev ∧
    fills M fin (w.is e) (matchFlags (w.is e) tcp) rev

theorem wilda_eq_zero {x : Flags} : x &&& SI_WILDA = 0 ↔ x &&& SI_W_SADDR = 0 ∧ x &&& SI_W_DADDR = 0 := by
  unfold SI_WILDA
  rw [BitVec.and_or_distrib_left]
  exact BitVec.or_eq_zero_iff

/-- The flags that `ipf_matchsrcdst` works with are some of those of the entry. -/
theorem fillAddr_eq_iff (h : ∀ m, flags &&& m ≠ 0 → i.isFlags &&& m ≠ 0) :
    fillAddr M fin i flags rev = i ↔ fills M fin i flags rev = false := by
  unfold fillAddr fills FrInfo.missing
  rw [decide_eq_false_iff_not]
  dsimp only
  by_cases hs : flags &&& SI_W_SADDR ≠ 0
  · have hany : flags &&& SI_WILDA ≠ 0 := fun h0 => hs (wilda_eq_zero.1 h0).1
    rw [if_pos hs, if_pos hs]
    generalize (if rev then fin.finDst else fin.finSrc) = a
    split
    · rename_i hmc
      simp [hmc]
    · rename_i hmc
      refine iff_of_false (fun heq => ?_) (not_not.2 ⟨hany, hmc⟩)
      exact and_not_ne (h _ hs) (congrArg Ipstate.isFlags heq)
  · rw [if_neg hs, if_neg hs]
    by_cases hd : flags &&& SI_W_DADDR ≠ 0
    · have hany : flags &&& SI_WILDA ≠ 0 := fun h0 => hd (wilda_eq_zero.1 h0).2
      rw [if_pos hd]
      generalize (if rev then fin.finSrc else fin.finDst) = a
      split
      · rename_i hmc
        simp [hmc]
      · rename_i hmc
        refine iff_of_false (fun heq => ?_) (not_not.2 ⟨hany, hmc⟩)
        exact and_not_ne (h _ hd) (congrArg Ipstate.isFlags heq)
    · rw [if_neg hd]
      have hnone : flags &&& SI_WILDA = 0 := wilda_eq_zero.2 ⟨not_not.1 hs, not_not.1 hd⟩
      simp [hnone]

/-- An entry that still misses its address is still wild. -/
theorem still_wild (h : ∀ m, flags &&& m ≠ 0 → i.isFlags &&& m ≠ 0) :
    ¬(flags &&& SI_WILDA ≠ 0 ∧ i.isFlags &&& (SI_WILDA ||| SI_WILDP) = 0) := by
  rintro ⟨hflags, hzero⟩
  have hsub : (SI_WILDA ||| SI_WILDP) &&& SI_WILDA = SI_WILDA := by decide
  exact and_ne_zero_of_sub hsub (h _ hflags) hzero

/-! ## What a failed match leaves -/

/-- A clone that the table refuses leaves the entry alone. -/
theorem clone_fails {c : ℕ} (hc : c ≠ e) {full : Bool} {t : ℕ} (h : ipfStateClone w e c rev full t = some (w', false)) :
    w'.is e = w.is e ∧ w'.wild = w.wild := by
  unfold ipfStateClone ipfStateInsert at h
  dsimp only at h
  cases full with
  | true =>
    cases h
    refine ⟨?_, rfl⟩
    apply (Function.update_of_ne hc.symm _ _).trans
    exact Function.update_of_ne hc.symm _ _
  | false =>
    simp only [Bool.false_eq_true, if_false, bind_eq_bind, bind_eq_some_iff, map_eq_some_iff] at h
    obtain ⟨-, ⟨w₁, -, rfl⟩, hret⟩ := h
    cases hret

/-- A port that cannot be filled in, since no clone can be made, leaves the entry alone. -/
theorem takePort_fails (hclone : ∀ c, room.clone = some c → c ≠ e)
    (h : takePort M fin w e flags rev tcp room = some (w', none)) : w'.is e = w.is e ∧ w'.wild = w.wild := by
  unfold takePort at h
  split at h
  · cases h
  · split at h
    · split at h
      · cases h
        exact ⟨rfl, rfl⟩
      · rename_i c hc
        simp only [bind_eq_bind, bind_eq_some_iff] at h
        obtain ⟨⟨w₁, ok⟩, hcn, hret⟩ := h
        cases ok with
        | true => cases hret
        | false =>
          cases hret
          exact clone_fails (hclone c hc) hcn
    · cases h

/-- What a failed match leaves: nothing if it fails before the missing address is filled in, and that address otherwise. -/
theorem match_fails_cases (hclone : ∀ c, room.clone = some c → c ≠ e)
    (h : ipfMatchsrcdst M fin w e src dst tcp cmask room = some (w', none)) :
    (w' = w ∧ (w.tq.tqeIfq e = some .delete ∨ matchIfp fin (w.is e) (matchRev M fin (w.is e) dst tcp) = false ∨
        matchBoth M fin (w.is e) src dst tcp (matchRev M fin (w.is e) dst tcp) = false)) ∨
      (reachesAddr M fin w e src dst tcp = fills M fin (w.is e) (matchFlags (w.is e) tcp) (matchRev M fin (w.is e) dst tcp) ∧
        w'.is e = fillAddr M fin (w.is e) (matchFlags (w.is e) tcp) (matchRev M fin (w.is e) dst tcp) ∧
        w'.wild = if matchFlags (w.is e) tcp &&& SI_WILDA ≠ 0 ∧ (w'.is e).isFlags &&& (SI_WILDA ||| SI_WILDP) = 0
          then w.wild - 1 else w.wild) := by
  unfold ipfMatchsrcdst at h
  unfold reachesAddr
  dsimp only at h ⊢
  generalize matchRev M fin (w.is e) dst tcp = rev at h ⊢
  generalize fillAddr M fin (w.is e) (matchFlags (w.is e) tcp) rev = i' at h ⊢
  split at h
  · rename_i hdel
    cases h
    exact .inl ⟨rfl, .inl hdel⟩
  split at h
  · rename_i hno
    cases h
    exact .inl ⟨rfl, .inr hno⟩
  rename_i hdel hmatch
  rw [not_or, Bool.not_eq_false, Bool.not_eq_false] at hmatch
  right
  refine ⟨by simp [hdel, hmatch], ?_⟩
  have hself := upd_is_self w (e := e) fun _ => i'
  split at h
  · cases h
    exact ⟨hself, by rw [hself]⟩
  split at h
  · cases h
  · simp only [bind_eq_bind, bind_eq_some_iff] at h
    obtain ⟨⟨w₁, found⟩, hport, hret⟩ := h
    cases found with
    | some x => cases hret
    | none =>
      cases hret
      obtain ⟨his, hwild⟩ := takePort_fails hclone hport
      have his' : w₁.is e = i' := his.trans hself
      exact ⟨his', by rw [his', hwild]⟩

/-- **A packet that does not match leaves the entry and `iss_wild` alone** exactly if no address was filled in for it. -/
theorem match_fails_iff (M : Machine) (fin : FrInfo) (w w' : Softs) (e : ℕ) (src dst : I6addr) (tcp : Bool) (cmask : Flags)
    (room : Room) (hclone : ∀ c, room.clone = some c → c ≠ e)
    (h : ipfMatchsrcdst M fin w e src dst tcp cmask room = some (w', none)) :
    (w'.is e = w.is e ∧ w'.wild = w.wild) ↔ reachesAddr M fin w e src dst tcp = false := by
  have hsub : ∀ m, matchFlags (w.is e) tcp &&& m ≠ 0 → (w.is e).isFlags &&& m ≠ 0 := fun m => matchFlags_sub _ _ m
  obtain ⟨rfl, hearly⟩ | ⟨hreach, his, hwild⟩ := match_fails_cases hclone h
  · refine iff_of_true ⟨rfl, rfl⟩ (Bool.eq_false_iff.2 fun hr => ?_)
    unfold reachesAddr at hr
    obtain ⟨hdel, hifp, hboth, -⟩ := of_decide_eq_true hr
    obtain h | h | h := hearly
    · exact hdel h
    · rw [h] at hifp
      cases hifp
    · rw [h] at hboth
      cases hboth
  · rw [hreach, ← fillAddr_eq_iff hsub, ← his]
    constructor
    · intro hsame
      exact hsame.1
    · intro hsame
      refine ⟨hsame, ?_⟩
      rw [hwild, hsame, if_neg (still_wild hsub)]

/-- An entry for TCP from any address to 10.0.0.2, port 22, of packets that are authenticated or of those that are not. -/
def anySource : Ipstate :=
  { portless SI_W_SADDR with
    isSrc := I6addr.zero
    isP := IPPROTO_TCP
    isSport := 0x5802
    isDport := 0x1600
    isAuthmsk := 0xffff }

/-- A packet that is authenticated. -/
def authPacket : FrInfo := { portPacket with finP := 6, finData := fun rev => if rev then 22 else 600, finAuth := 1 }

theorem match_fails_iff_source :
    ∃ w w', step (fun _ => 0) eightBuckets
      (.insert 0 { anySource with isFlags := 0, isSrc := authPacket.finSrc } false false 0) =
        some w ∧
      ipfMatchsrcdst ⟨true, 0⟩ authPacket w 0 authPacket.finSrc authPacket.finDst true FI_CMP ⟨none, false, 0⟩ =
        some (w', none) ∧
      w'.is 0 = w.is 0 ∧ w'.wild = w.wild := by
  refine ⟨_, _, rfl, rfl, ?_⟩
  exact (match_fails_iff ⟨true, 0⟩ authPacket _ _ 0 authPacket.finSrc authPacket.finDst true FI_CMP ⟨none, false, 0⟩
    (fun c hc => by cases hc) rfl).2 (by decide)

/-- **A packet that does not match takes the place of the missing source.** -/
theorem match_fails_fills :
    ∃ w w', step (fun _ => 0) eightBuckets (.insert 0 anySource false false 0) = some w ∧
      ipfMatchsrcdst ⟨true, 0⟩ authPacket w 0 authPacket.finSrc authPacket.finDst true FI_CMP ⟨none, false, 0⟩ =
        some (w', none) ∧
      (w.is 0).isSrc = I6addr.zero ∧ (w'.is 0).isSrc = authPacket.finSrc ∧ (w'.is 0).isFlags = 0 ∧
      w.wild = 1 ∧ w'.wild = 0 :=
  ⟨_, _, rfl, rfl, by decide, by decide, by decide, by decide, by decide⟩

end Ipfilter.State
