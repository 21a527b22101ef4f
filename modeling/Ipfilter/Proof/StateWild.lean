import Ipfilter.Spec.StateMatch
import Ipfilter.Proof.StateTable

/-!
# The count of wildcard entries

`Wilded` says that `iss_wild` is the number of entries with a wildcard flag.

* `Wilded.upd`: an entry changes, with its part in the count.
* `packet_wild`: `ipf_matchsrcdst`.
* `traffic_wild`: whole runs.
-/

namespace Ipfilter.State

open Chain Queue Masks List Option

variable {w w' : Softs} {A : List ℕ} {H : ℕ → List ℕ} {e : ℕ} {dead : ℕ → Prop}

/-! ## The flags -/

/-- The entry has a wildcard flag. -/
def Ipstate.isWild (i : Ipstate) : Bool := i.isFlags &&& (SI_WILDP ||| SI_WILDA) ≠ 0

theorem isWild_iff (i : Ipstate) : i.isWild = true ↔ i.isFlags &&& (SI_WILDP ||| SI_WILDA) ≠ 0 := by
  simp [Ipstate.isWild]

/-- A flag that is set is still there under a wider mask. -/
theorem and_ne_zero_of_sub {x m m' : Flags} (hm : m' &&& m = m) (h : x &&& m ≠ 0) : x &&& m' ≠ 0 := by
  intro h'
  apply h
  rw [← hm, ← BitVec.and_assoc, h']
  exact BitVec.zero_and

/-- Clearing flags outside a mask. -/
theorem and_not_and {x c m m' : Flags} (hm : ~~~c &&& m = m') : x &&& ~~~c &&& m = x &&& m' := by
  rw [BitVec.and_assoc, hm]

/-- **Filling in an address**: nothing happens, or one of the two wildcards goes. -/
theorem fillAddr_cases (M : Machine) (fin : FrInfo) (i : Ipstate) (flags : Flags) (rev : Bool) :
    fillAddr M fin i flags rev = i ∨ (flags &&& SI_WILDA ≠ 0 ∧ ∃ a, fillAddr M fin i flags rev =
        { i with isSrc := a, isFlags := i.isFlags &&& ~~~SI_W_SADDR }) ∨
      (flags &&& SI_WILDA ≠ 0 ∧ ∃ a, fillAddr M fin i flags rev =
        { i with isDst := a, isFlags := i.isFlags &&& ~~~SI_W_DADDR }) := by
  unfold fillAddr
  generalize (if rev then fin.finDst else fin.finSrc) = a
  generalize (if rev then fin.finSrc else fin.finDst) = b
  dsimp only
  have hs : SI_WILDA &&& SI_W_SADDR = SI_W_SADDR := by decide
  have hd : SI_WILDA &&& SI_W_DADDR = SI_W_DADDR := by decide
  split
  · rename_i h
    split
    · exact .inl rfl
    · exact .inr (.inl ⟨and_ne_zero_of_sub hs h, a, rfl⟩)
  · split
    · rename_i h
      split
      · exact .inl rfl
      · exact .inr (.inr ⟨and_ne_zero_of_sub hd h, b, rfl⟩)
    · exact .inl rfl

/-- What filling in an address does to the flags. -/
theorem fillAddr_flags (M : Machine) (fin : FrInfo) (i : Ipstate) (flags : Flags) (rev : Bool) :
    (fillAddr M fin i flags rev).isFlags &&& SI_WILDP = i.isFlags &&& SI_WILDP ∧
      (fillAddr M fin i flags rev).isHv = i.isHv ∧ (flags &&& SI_WILDA = 0 → fillAddr M fin i flags rev = i) := by
  have hs : ~~~SI_W_SADDR &&& SI_WILDP = SI_WILDP := by decide
  have hd : ~~~SI_W_DADDR &&& SI_WILDP = SI_WILDP := by decide
  rcases fillAddr_cases M fin i flags rev with h | ⟨hf, a, h⟩ | ⟨hf, a, h⟩
  · rw [h]
    exact ⟨rfl, rfl, fun _ => rfl⟩
  · rw [h]
    exact ⟨and_not_and hs, rfl, fun h0 => absurd h0 hf⟩
  · rw [h]
    exact ⟨and_not_and hd, rfl, fun h0 => absurd h0 hf⟩

theorem fillPort_flags (M : Machine) (fin : FrInfo) (i : Ipstate) (flags : Flags) (rev tcp : Bool) :
    (fillPort M fin i flags rev tcp).isFlags = i.isFlags &&& ~~~SI_WILDP ∧
      (fillPort M fin i flags rev tcp).isHv = i.isHv := by
  unfold fillPort
  dsimp only
  split
  · exact ⟨rfl, rfl⟩
  · split <;> exact ⟨rfl, rfl⟩

/-- Without its port wildcards an entry is wild for an address only. -/
theorem fillPort_isWild (M : Machine) (fin : FrInfo) (i : Ipstate) (flags : Flags) (rev tcp : Bool) :
    (fillPort M fin i flags rev tcp).isWild = true ↔ i.isFlags &&& SI_WILDA ≠ 0 := by
  have h : ~~~SI_WILDP &&& (SI_WILDP ||| SI_WILDA) = SI_WILDA := by decide
  rw [isWild_iff, (fillPort_flags M fin i flags rev tcp).1, and_not_and h]

theorem fillRest_same (fin : FrInfo) (i : Ipstate) (cmask : Flags) (rev : Bool) :
    (fillRest fin i cmask rev).isFlags = i.isFlags ∧ (fillRest fin i cmask rev).isHv = i.isHv := by
  have hflx : (fillFlx fin i cmask rev).isFlags = i.isFlags ∧ (fillFlx fin i cmask rev).isHv = i.isHv := by
    unfold fillFlx
    split <;> exact ⟨rfl, rfl⟩
  unfold fillRest fillIfp
  split <;> exact hflx

/-! ## The count -/

/-- How many of the entries have a wildcard flag. -/
def wilds (w : Softs) (A : List ℕ) : ℤ := A.countP fun e => (w.is e).isWild

/-- 1 for an entry with a wildcard flag. -/
def Ipstate.wildOne (i : Ipstate) : ℤ := if i.isWild then 1 else 0

theorem wilds_congr (h : ∀ x ∈ A, (w'.is x).isFlags = (w.is x).isFlags) : wilds w' A = wilds w A := by
  unfold wilds
  congr 1
  refine countP_congr fun x hx => ?_
  rw [isWild_iff, isWild_iff, h x hx]

theorem wilds_cons (w : Softs) (e : ℕ) (A : List ℕ) : wilds w (e :: A) = wilds w A + (w.is e).wildOne := by
  unfold wilds Ipstate.wildOne
  rw [countP_cons]
  push_cast
  rfl

/-- One entry changes. -/
theorem wilds_change (hA : A.Nodup) (he : e ∈ A) {w' : Softs} (h : ∀ x ≠ e, w'.is x = w.is x) :
    wilds w' A = wilds w A - (w.is e).wildOne + (w'.is e).wildOne ∧
      wilds w' (A.filter (· ≠ e)) = wilds w A - (w.is e).wildOne := by
  obtain ⟨l₁, l₂, rfl⟩ := append_of_mem he
  obtain ⟨hout, -⟩ := List.nodup_cons.1 (List.nodup_middle.1 hA)
  rw [mem_append, not_or] at hout
  have hsame : ∀ l : List ℕ, e ∉ l → wilds w' l = wilds w l := fun l hl =>
    wilds_congr fun x hx => by rw [h x fun hxe => hl (hxe ▸ hx)]
  have happ : ∀ (w : Softs) (l l' : List ℕ), wilds w (l ++ l') = wilds w l + wilds w l' := by
    intro w l l'
    unfold wilds
    rw [countP_append]
    push_cast
    rfl
  rw [filter_middle hA]
  simp only [happ, wilds_cons, hsame l₁ hout.1, hsame l₂ hout.2]
  constructor <;> ring

/-- **`iss_wild` counts the entries with a wildcard flag.** -/
structure Wilded (dead : ℕ → Prop) (w : Softs) (A : List ℕ) (H : ℕ → List ℕ) : Prop
    extends Good dead w A H where
  queued : Queued w
  wild : w.wild = wilds w A

/-- An entry changes, and the count with it. -/
theorem Wilded.upd (h : Wilded dead w A H) (he : e ∈ A) {f : Ipstate → Ipstate}
    (hv : ∀ i, (f i).isHv = i.isHv) {n : ℤ} (hn : n = w.wild - (w.is e).wildOne + (f (w.is e)).wildOne) :
    Wilded dead { w.upd e f with wild := n } A H := by
  have hs := same_upd w e f hv
  have hs' : Same w { w.upd e f with wild := n } :=
    ⟨hs.list, hs.table, hs.size, hs.bucketlen, hs.inuse, hs.active, hs.alloc, hs.hv⟩
  refine ⟨h.toGood.same hs', h.queued, ?_⟩
  have his : ∀ x ≠ e, ({ w.upd e f with wild := n } : Softs).is x = w.is x :=
    fun x hx => upd_is_ne w f hx
  have hc := (wilds_change h.toAcc.nodup he his).1
  have hself : (w.upd e f).is e = f (w.is e) := upd_is_self w f
  change n = wilds { w.upd e f with wild := n } A
  rw [hc, hn, h.wild]
  change _ = _ - _ + ((w.upd e f).is e).wildOne
  rw [hself]

theorem wildOne_eq {i j : Ipstate} (h : i.isWild = true ↔ j.isWild = true) : i.wildOne = j.wildOne := by
  simp only [Ipstate.wildOne, h]

theorem wildOne_of_flags {i j : Ipstate} (h : i.isFlags = j.isFlags) : i.wildOne = j.wildOne :=
  wildOne_eq (by rw [isWild_iff, isWild_iff, h])

/-! ## Inserting and deleting -/

/-- A new entry is counted. -/
theorem insert_wild (h : Wilded dead w A H) (he : w.alloc e = false) (i : Ipstate) (rev : Bool) (t : ℕ) :
    ∃ w' H', ipfStateInsert (w.malloc e i) e rev false t = some (w', true) ∧
      Wilded (fun x => x ≠ e ∧ dead x) w' (e :: A) H' ∧ (w'.is e).isFlags = i.isFlags := by
  obtain ⟨w', H', hins, hent, hgood, hq⟩ := insert_entered h.toGood h.queued he i rev t
  have heA := (h.toGood.new h.queued he).1
  refine ⟨w', H', hins, ⟨hgood, hq, ?_⟩, by rw [hent.self]⟩
  have hone : (w'.is e).wildOne = if i.isFlags &&& (SI_WILDP ||| SI_WILDA) ≠ 0 then 1 else 0 := by
    rw [hent.self]
    simp only [Ipstate.wildOne, isWild_iff]
  rw [hent.wild, wilds_cons, hone, wilds_congr (w := w) fun x hx => by
    rw [hent.is x fun hxe => heA (hxe ▸ hx)], h.wild]
  split
  · rfl
  · ring

/-- A new entry that is refused is not. -/
theorem refused_wild (h : Wilded dead w A H) (he : w.alloc e = false) (i : Ipstate) (rev : Bool) (t : ℕ) :
    ∃ w', ipfStateInsert (w.malloc e i) e rev true t = some (w', false) ∧
      Wilded dead { w' with alloc := Function.update w'.alloc e false } A H := by
  obtain ⟨w', hins, hent, hgood, hq⟩ := insert_refused h.toGood h.queued he i rev t
  have heA := (h.toGood.new h.queued he).1
  refine ⟨w', hins, hgood, hq, ?_⟩
  change w'.wild = wilds w' A
  rw [hent.wild, h.wild]
  exact (wilds_congr fun x hx => by rw [hent.is x fun hxe => heA (hxe ▸ hx)]).symm

/-- **`ipf_state_del`** of an entry that is no clone, or has no wildcard. -/
theorem del_wild (h : Wilded dead w A H) (he : e ∈ A)
    (hc : (w.is e).isFlags &&& (SI_WILDP ||| SI_WILDA) = 0 ∨ (w.is e).isFlags &&& SI_CLONED = 0) :
    ∃ w' n A' H', ipfStateDel w e = some (w', n) ∧ Wilded (fun x => x = e ∨ dead x) w' A' H' := by
  obtain ⟨r, L, hok, hifq⟩ := h.queued
  obtain ⟨w', n, H', L', hdel, -, hgood, -, -, hd⟩ := del_spec h.toGood hok he
  obtain ⟨w'', n', A'', H'', hdel', -, hq⟩ := del_good h.toGood h.queued he
  rw [hdel] at hdel'
  cases hdel'
  refine ⟨w', n, _, H', hdel, hgood, hq, ?_⟩
  have hcount : (w.is e).wildCount = (w.is e).wildOne := by
    unfold Ipstate.wildCount Ipstate.wildOne
    simp only [isWild_iff]
    by_cases hw : (w.is e).isFlags &&& (SI_WILDP ||| SI_WILDA) = 0
    · rw [if_neg fun h0 => h0.1 hw, if_neg fun h0 => h0 hw]
    · rw [if_pos ⟨hw, hc.resolve_left hw⟩, if_pos hw]
  have hzero : (w'.is e).wildOne = 0 := by
    unfold Ipstate.wildOne
    rw [if_neg]
    rw [isWild_iff]
    exact fun h0 => h0 hd.flags
  obtain ⟨hstay, hfree⟩ := wilds_change h.toAcc.nodup he hd.is
  rw [hd.wild, hcount, h.wild]
  split
  · rw [hstay, hzero]
    ring
  · rw [hfree]

/-! ## A packet -/

/-- **A clone that is made**: it has the wildcards of its entry. -/
theorem clone_wild (h : Wilded dead w A H) {c : ℕ} (hc : w.alloc c = false) (e : ℕ) (rev : Bool) (t : ℕ) :
    ∃ w' H', ipfStateClone w e c rev false t = some (w', true) ∧ Wilded (fun x => x ≠ c ∧ dead x) w' (c :: A) H' ∧
      (w'.is c).isFlags = ((w.is e).isFlags &&& ~~~SI_CLONE) ||| SI_CLONED := by
  obtain ⟨w', H', hins, hw', hflags⟩ := insert_wild h hc { w.is e with
    isState := fun _ => 0
    isFlags := ((w.is e).isFlags &&& ~~~SI_CLONE) ||| SI_CLONED } rev t
  refine ⟨w'.upd c fun i => { i with isRef := 1 }, H', ?_, ?_, ?_⟩
  · simp only [ipfStateClone, hins, bind_eq_bind, bind_some]
    rfl
  · have hone : ({ w'.is c with isRef := 1 } : Ipstate).wildOne = (w'.is c).wildOne := wildOne_of_flags rfl
    refine hw'.upd mem_cons_self (f := fun i => { i with isRef := 1 }) (fun _ => rfl) (n := w'.wild) ?_
    rw [hone]
    ring
  · rw [upd_is_self]
    exact hflags

/-- A clone that the table refuses is given back. -/
theorem clone_refused_wild (h : Wilded dead w A H) {c : ℕ} (hc : w.alloc c = false) (e : ℕ) (rev : Bool) (t : ℕ) :
    ∃ w', ipfStateClone w e c rev true t = some (w', false) ∧ Wilded dead w' A H := by
  obtain ⟨w', hins, hw'⟩ := refused_wild h hc { w.is e with
    isState := fun _ => 0
    isFlags := ((w.is e).isFlags &&& ~~~SI_CLONE) ||| SI_CLONED } rev t
  refine ⟨_, ?_, hw'⟩
  simp only [ipfStateClone, hins, bind_eq_bind, bind_some]
  rfl

/-- **The port block** of `ipf_matchsrcdst`. -/
theorem takePort_wild (h : Wilded dead w A H) (he : e ∈ A) (M : Machine) (fin : FrInfo) {flags : Flags}
    (rev tcp : Bool) {room : Room} (hroom : ∀ c, room.clone = some c → w.alloc c = false)
    (hf : flags &&& SI_WILDP ≠ 0 → (w.is e).isFlags &&& SI_WILDP ≠ 0)
    (hk : flags &&& SI_WILDP ≠ 0 → if flags &&& SI_CLONE = 0 then (w.is e).isFlags &&& SI_WILDA = 0
      else room.clone = none ∨ room.full = true ∨ (w.is e).isFlags &&& SI_WILDA ≠ 0) :
    ∃ w' o dead' A' H', takePort M fin w e flags rev tcp room = some (w', o) ∧
      Wilded dead' w' A' H' ∧ ∀ x, o = some x → x ∈ A' := by
  have hsubP : (SI_WILDP ||| SI_WILDA) &&& SI_WILDP = SI_WILDP := by decide
  have hsubA : (SI_WILDP ||| SI_WILDA) &&& SI_WILDA = SI_WILDA := by decide
  unfold takePort
  by_cases hp : flags &&& SI_WILDP = 0
  · rw [if_pos hp]
    exact ⟨w, some e, dead, A, H, rfl, h, fun x hx => by cases hx; exact he⟩
  · have hport := hf hp
    have hkeep := hk hp
    rw [if_neg hp]
    by_cases hc : flags &&& SI_CLONE = 0
    · -- the port goes, and it was the last wildcard
      rw [if_pos hc] at hkeep
      rw [if_neg (not_not.2 hc)]
      have hbefore : (w.is e).wildOne = 1 := by
        unfold Ipstate.wildOne
        rw [if_pos ((isWild_iff _).2 (and_ne_zero_of_sub hsubP hport))]
      have hafter : (fillPort M fin (w.is e) flags rev tcp).wildOne = 0 := by
        unfold Ipstate.wildOne
        rw [if_neg]
        rw [fillPort_isWild]
        exact not_not.2 hkeep
      refine ⟨_, some e, dead, A, H, rfl, ?_, fun x hx => by cases hx; exact he⟩
      refine h.upd he (f := fun i => fillPort M fin i flags rev tcp)
        (fun i => (fillPort_flags M fin i flags rev tcp).2) ?_
      rw [hbefore, hafter]
      change w.wild - 1 = _
      ring
    · rw [if_neg hc] at hkeep
      rw [if_pos hc]
      cases hcl : room.clone with
      | none => exact ⟨w, none, dead, A, H, rfl, h, fun x hx => absurd hx (by simp)⟩
      | some c =>
        have hca := hroom c hcl
        have hkeep' := hkeep.resolve_left (by rw [hcl]; simp)
        cases hfull : room.full with
        | true =>
          obtain ⟨w', hcn, hw'⟩ := clone_refused_wild h hca e fin.finRev room.ticks
          refine ⟨w', none, dead, A, H, ?_, hw', fun x hx => absurd hx (by simp)⟩
          simp only [hcn, bind_eq_bind, bind_some]
          rfl
        | false =>
          -- the clone has an address wildcard, with its port and without
          have haddr := hkeep'.resolve_left (by rw [hfull]; simp)
          obtain ⟨w', H', hcn, hw', hflags⟩ := clone_wild h hca e fin.finRev room.ticks
          have hmem : c ∈ c :: A := mem_cons_self
          have hclone : ~~~SI_CLONE &&& SI_WILDA = SI_WILDA := by decide
          have hcloned : SI_CLONED &&& SI_WILDA = 0 := by decide
          have hcA : (w'.is c).isFlags &&& SI_WILDA ≠ 0 := by
            rw [hflags, BitVec.and_or_distrib_right, and_not_and hclone, hcloned]
            simpa using haddr
          have hone : (w'.is c).wildOne = (fillPort M fin (w'.is c) flags rev tcp).wildOne := by
            refine wildOne_eq ?_
            rw [fillPort_isWild, isWild_iff]
            exact ⟨fun _ => hcA, fun _ => and_ne_zero_of_sub hsubA hcA⟩
          refine ⟨_, some c, _, c :: A, H', ?_, hw'.upd hmem (f := fun i => fillPort M fin i flags rev tcp)
            (fun i => (fillPort_flags M fin i flags rev tcp).2) (n := w'.wild) ?_,
            fun x hx => by cases hx; exact hmem⟩
          · simp only [hcn, bind_eq_bind, bind_some]
            rfl
          · rw [hone]
            ring

/-- The flags that `ipf_matchsrcdst` works with are those of the entry, or some of them. -/
theorem matchFlags_sub (i : Ipstate) (tcp : Bool) (m : Flags) (h : matchFlags i tcp &&& m ≠ 0) :
    i.isFlags &&& m ≠ 0 := by
  unfold matchFlags at h
  split at h
  · exact h
  · intro h0
    apply h
    rw [BitVec.and_assoc, BitVec.and_comm _ m, ← BitVec.and_assoc, h0]
    exact BitVec.zero_and

/-- **The address block**: the count goes down with the last wildcard. -/
theorem fillAddr_wild (h : Wilded dead w A H) (he : e ∈ A) (M : Machine) (fin : FrInfo) (rev tcp : Bool)
    {i : Ipstate} (hi : i = fillAddr M fin (w.is e) (matchFlags (w.is e) tcp) rev) :
    Wilded dead { w.upd e fun _ => i with
      wild := if matchFlags (w.is e) tcp &&& SI_WILDA ≠ 0 ∧ i.isFlags &&& (SI_WILDA ||| SI_WILDP) = 0
        then w.wild - 1 else w.wild } A H := by
  have hsubA : (SI_WILDP ||| SI_WILDA) &&& SI_WILDA = SI_WILDA := by decide
  have hfill := fillAddr_flags M fin (w.is e) (matchFlags (w.is e) tcp) rev
  rw [← hi] at hfill
  have hcomm : i.isFlags &&& (SI_WILDA ||| SI_WILDP) = 0 ↔ ¬i.isWild = true := by
    rw [isWild_iff, not_not, BitVec.or_comm]
  have hupd : w.upd e (fun _ => i) = w.upd e fun j => { i with isHv := j.isHv } := by
    unfold Softs.upd
    dsimp only
    rw [← hfill.2.1]
  rw [hupd]
  refine h.upd he (f := fun j => { i with isHv := j.isHv }) (fun _ => rfl) ?_
  have hone : ({ i with isHv := (w.is e).isHv } : Ipstate).wildOne = i.wildOne := wildOne_of_flags rfl
  rw [hone]
  simp only [hcomm]
  by_cases hA : matchFlags (w.is e) tcp &&& SI_WILDA = 0
  · -- no address is missing, and the entry stays as it is
    rw [if_neg fun h0 => h0.1 hA, hfill.2.2 hA]
    ring
  · have hbefore : (w.is e).wildOne = 1 := by
      unfold Ipstate.wildOne
      rw [if_pos ((isWild_iff _).2 (and_ne_zero_of_sub hsubA (matchFlags_sub _ _ _ hA)))]
    rw [hbefore]
    unfold Ipstate.wildOne
    by_cases hw : i.isWild = true
    · rw [if_pos hw, if_neg fun h0 => h0.2 hw]
      ring
    · rw [if_neg hw, if_pos ⟨hA, hw⟩]
      ring

/-- **`ipf_matchsrcdst`**: the count is right whatever the packet fills in. -/
theorem packet_wild (h : Wilded dead w A H) (he : e ∈ A) (M : Machine) (fin : FrInfo) (src dst : I6addr)
    (tcp : Bool) (cmask : Flags) (room : Room) (hroom : ∀ c, room.clone = some c → w.alloc c = false)
    (hk : Traffic.Keeps M w (.packet fin e src dst tcp cmask room)) :
    ∃ w' o dead' A' H', ipfMatchsrcdst M fin w e src dst tcp cmask room = some (w', o) ∧ Wilded dead' w' A' H' := by
  unfold ipfMatchsrcdst
  dsimp only
  generalize hrev : matchRev M fin (w.is e) dst tcp = rev
  generalize hi : fillAddr M fin (w.is e) (matchFlags (w.is e) tcp) rev = i
  have hw₁ := fillAddr_wild h he M fin rev tcp hi.symm
  generalize hW : ({ w.upd e fun _ => i with
    wild := if matchFlags (w.is e) tcp &&& SI_WILDA ≠ 0 ∧ i.isFlags &&& (SI_WILDA ||| SI_WILDP) = 0
      then w.wild - 1 else w.wild } : Softs) = w₁ at hw₁ ⊢
  by_cases hdel : w.tq.tqeIfq e = some .delete
  · rw [if_pos hdel]
    exact ⟨w, none, dead, A, H, rfl, h⟩
  rw [if_neg hdel]
  by_cases hmatch : matchIfp fin (w.is e) rev = false ∨ matchBoth M fin (w.is e) src dst tcp rev = false
  · rw [if_pos hmatch]
    exact ⟨w, none, dead, A, H, rfl, h⟩
  rw [if_neg hmatch]
  rw [not_or, Bool.not_eq_false, Bool.not_eq_false] at hmatch
  by_cases hopts : matchOpts fin i cmask rev = false
  · rw [if_pos hopts]
    exact ⟨w₁, none, dead, A, H, rfl, hw₁⟩
  rw [if_neg hopts]
  by_cases hign : fin.finFlx &&& FI_IGNORE = 0
  · rw [if_neg (not_not.2 hign)]
    have hself : w₁.is e = i := by
      rw [← hW]
      exact upd_is_self w fun _ => i
    have halloc : w₁.alloc = w.alloc := by rw [← hW]; rfl
    have hfill := fillAddr_flags M fin (w.is e) (matchFlags (w.is e) tcp) rev
    rw [hi] at hfill
    have hport : matchFlags (w.is e) tcp &&& SI_WILDP ≠ 0 → (w₁.is e).isFlags &&& SI_WILDP ≠ 0 := by
      intro hp
      rw [hself, hfill.1]
      exact matchFlags_sub _ _ _ hp
    have hkeep : matchFlags (w.is e) tcp &&& SI_WILDP ≠ 0 → if matchFlags (w.is e) tcp &&& SI_CLONE = 0 then
        (w₁.is e).isFlags &&& SI_WILDA = 0
        else room.clone = none ∨ room.full = true ∨ (w₁.is e).isFlags &&& SI_WILDA ≠ 0 := by
      intro hp
      rw [hself, ← hi, ← hrev]
      apply hk
      unfold reachesPort
      dsimp only
      rw [hrev, hi]
      simpa using ⟨hdel, hmatch.1, hmatch.2, by simpa using hopts, hign, hp⟩
    obtain ⟨w₂, o, dead', A', H', hport', hw₂, ho⟩ := takePort_wild hw₁ he M fin rev tcp
      (by rw [halloc]; exact hroom) hport hkeep
    rw [hport']
    cases o with
    | none => exact ⟨w₂, none, dead', A', H', rfl, hw₂⟩
    | some x =>
      have hrest := fillRest_same fin (w₂.is x) cmask rev
      refine ⟨_, some (x, rev), dead', A', H', rfl, ?_⟩
      refine hw₂.upd (ho x rfl) (f := fun i => fillRest fin i cmask rev)
        (fun i => (fillRest_same fin i cmask rev).2) (n := w₂.wild) ?_
      rw [wildOne_of_flags hrest.1]
      ring
  · rw [if_pos hign]
    exact ⟨w₁, some (e, rev), dead, A, H, rfl, hw₁⟩

/-! ## Runs -/

/-- The same entries with the same flags. -/
theorem Wilded.move (h : Wilded dead w A H) {A' : List ℕ} {H' : ℕ → List ℕ} {dead' : ℕ → Prop}
    (hg : Good dead' w' A' H') (hq : Queued w') (halloc : w'.alloc = w.alloc) (hwild : w'.wild = w.wild)
    (hf : ∀ x, (w'.is x).isFlags = (w.is x).isFlags) : Wilded dead' w' A' H' := by
  refine ⟨hg, hq, ?_⟩
  have hperm : A.Perm A' := (perm_ext_iff_of_nodup h.toAcc.nodup hg.toAcc.nodup).2 fun x => by
    rw [← h.alloc, ← hg.alloc, halloc]
  rw [hwild, h.wild, ← wilds_congr fun x _ => hf x]
  unfold wilds
  rw [hperm.countP_eq]

/-- `ipf_ipsmove` changes the hash value only. -/
theorem ipsmove_flags {seed : ℕ → ℕ} {hv : ℕ} (h : ipfIpsmove w seed e hv = some w') :
    w'.alloc = w.alloc ∧ w'.wild = w.wild ∧ ∀ x, (w'.is x).isFlags = (w.is x).isFlags := by
  unfold ipfIpsmove at h
  cases hp : w.table.pnext e with
  | none => simp [hp] at h
  | some k =>
    simp only [hp, bind_eq_bind, bind_some] at h
    cases h
    refine ⟨rfl, rfl, fun x => ?_⟩
    by_cases hx : x = e
    · subst hx
      simp [Softs.upd]
    · simp [Softs.upd, hx]

/-- **One call.** -/
theorem traffic_step (h : Wilded dead w A H) (M : Machine) (seed : ℕ → ℕ) {c : Traffic} (hl : c.Legal w)
    (hk : c.Keeps M w) : ∃ w' dead' A' H', c.run M seed w = some w' ∧ Wilded dead' w' A' H' := by
  cases c with
  | add e i rev full t =>
    cases full with
    | false =>
      obtain ⟨w', H', hins, hw', -⟩ := insert_wild h hl i rev t
      exact ⟨w', _, _, H', by simp [Traffic.run, step, hins], hw'⟩
    | true =>
      obtain ⟨w', hins, hw'⟩ := refused_wild h hl i rev t
      exact ⟨_, _, _, _, by simp [Traffic.run, step, hins], hw'⟩
  | packet fin e src dst tcp cmask room =>
    obtain ⟨w', o, dead', A', H', heq, hw'⟩ :=
      packet_wild h ((h.alloc e).1 hl.1) M fin src dst tcp cmask room hl.2.2 hk
    exact ⟨w', dead', A', H', by simp [Traffic.run, heq], hw'⟩
  | move e hv =>
    obtain ⟨w', A', H', heq, hgood, hq⟩ :=
      move_good h.toGood h.queued ((h.alloc e).1 hl.1) hl.2 seed hv
    obtain ⟨halloc, hwild, hflags⟩ := ipsmove_flags heq
    exact ⟨w', _, A', H', by simp [Traffic.run, step, heq], h.move hgood hq halloc hwild hflags⟩
  | del e =>
    obtain ⟨w', n, A', H', heq, hw'⟩ := del_wild h ((h.alloc e).1 hl) hk
    exact ⟨w', _, A', H', by simp [Traffic.run, step, heq], hw'⟩
  | hold e =>
    have hone : ({ w.is e with isRef := (w.is e).isRef + 1 } : Ipstate).wildOne = (w.is e).wildOne :=
      wildOne_of_flags rfl
    refine ⟨_, dead, A, H, rfl, h.upd ((h.alloc e).1 hl) (f := fun i => { i with isRef := i.isRef + 1 })
      (fun _ => rfl) (n := w.wild) ?_⟩
    rw [hone]
    ring
  | deref e =>
    have ha : w.alloc e = true := hl
    simp only [Traffic.run, step, ipfStateDeref, ha, Bool.true_eq_false, if_false]
    by_cases href : (w.is e).isRef > 1
    · have hone : ({ w.is e with isRef := (w.is e).isRef - 1 } : Ipstate).wildOne = (w.is e).wildOne :=
        wildOne_of_flags rfl
      rw [if_pos href]
      refine ⟨_, dead, A, H, rfl, h.upd ((h.alloc e).1 hl) (f := fun i => { i with isRef := i.isRef - 1 })
        (fun _ => rfl) (n := w.wild) ?_⟩
      rw [hone]
      ring
    · rw [if_neg href]
      obtain ⟨w', n, A', H', heq, hw'⟩ := del_wild h ((h.alloc e).1 ha) (hk (by omega))
      exact ⟨w', _, A', H', by simp [heq], hw'⟩

theorem traffics_wilded {M : Machine} {seed : ℕ → ℕ} {ttl flags : Tqid → ℕ} {ref : Tqid → ℤ}
    {is : ℕ → Ipstate} {size : ℕ} (hs : 0 < size)
    (hrun : Traffics M seed (Traffic.Keeps M) (Softs.init size is (Tq.init ttl flags ref)) w) :
    ∃ dead A H, Wilded dead w A H := by
  induction hrun with
  | init =>
    refine ⟨fun _ => False, [], fun _ => [], init_good hs is _, ⟨ref, fun _ => [], init_ok ttl flags ref, ?_⟩,
      rfl⟩
    simp [Softs.init, Tq.init]
  | step c _ hl hk hstep ih =>
    obtain ⟨dead, A, H, hw⟩ := ih
    obtain ⟨w', dead', A', H', hstep', hw'⟩ := traffic_step hw M seed hl hk
    rw [hstep] at hstep'
    cases hstep'
    exact ⟨dead', A', H', hw'⟩

/-- **`iss_wild` is the number of entries in the table that have a wildcard flag.** -/
def WildCounted (w : Softs) : Prop :=
  ∃ A, Rep w.list (fun _ => A) ∧ (∀ e, w.alloc e = true ↔ e ∈ A) ∧ w.wild = wilds w A

/-- **The count is right in every run** that fills in a port after every address, and clones an entry
before; it is not negative, it is not zero while an entry has a wildcard, and no call of such a run
fails. -/
theorem traffic_wild (M : Machine) (seed : ℕ → ℕ) (ttl flags : Tqid → ℕ) (ref : Tqid → ℤ)
    (is : ℕ → Ipstate) {size : ℕ} (hs : 0 < size)
    (hrun : Traffics M seed (Traffic.Keeps M) (Softs.init size is (Tq.init ttl flags ref)) w) :
    WildCounted w ∧ 0 ≤ w.wild ∧ (∀ e, w.alloc e = true → (w.is e).isWild = true → w.wild ≠ 0) ∧
      ∀ c : Traffic, c.Legal w → c.Keeps M w → (c.run M seed w).isSome := by
  obtain ⟨dead, A, H, hw⟩ := traffics_wilded hs hrun
  refine ⟨⟨A, hw.list, hw.alloc, hw.wild⟩, ?_, fun e he hwild h0 => ?_, fun c hl hk => ?_⟩
  · rw [hw.wild]
    exact Int.natCast_nonneg _
  · rw [hw.wild] at h0
    have hnone := List.countP_eq_zero.1 (Int.ofNat_eq_zero.1 h0) e ((hw.alloc e).1 he)
    exact hnone hwild
  · obtain ⟨w', -, -, -, hstep, -⟩ := traffic_step hw M seed hl hk
    rw [hstep]
    rfl

/-- An entry for a UDP service at 10.0.0.2, port 111, that waits for its source port. -/
def portless (flags : Flags) : Ipstate :=
  { Ipstate.zero with
    isSrc := ⟨0x0100000a, 0, 0, 0⟩
    isDst := ⟨0x0200000a, 0, 0, 0⟩
    isV := 4
    isP := 17
    isDport := 0x6f00
    isFlags := flags
    isRef := 1 }

/-- A packet from 10.0.0.1, port 600. -/
def portPacket : FrInfo where
  finV := 4
  finP := 17
  finSrc := ⟨0x0100000a, 0, 0, 0⟩
  finDst := ⟨0x0200000a, 0, 0, 0⟩
  finOut := false
  finRev := false
  finFlx := 0
  finIfp := none
  finIfname := []
  finData rev := if rev then 111 else 600
  finOptmsk := 0
  finSecmsk := 0
  finAuth := 0
  icmpType := 0
  icmpId := 0

/-- The packet meets entry 0. Entry 1 is free for a clone. -/
def portTraffic : Traffic :=
  .packet portPacket 0 portPacket.finSrc portPacket.finDst true 0 ⟨some 1, false, 0⟩

theorem traffic_wild_port :
    ∃ w, Traffics ⟨true, 0⟩ (fun _ => 0) (Traffic.Keeps ⟨true, 0⟩) eightBuckets w ∧
      (w.is 0).isSport = 0x5802 ∧ w.wild = 0 ∧ WildCounted w := by
  have h₁ : Traffics ⟨true, 0⟩ (fun _ => 0) (Traffic.Keeps ⟨true, 0⟩) eightBuckets _ :=
    Traffics.step (.add 0 (portless SI_W_SPORT) false false 0) .init rfl trivial rfl
  have h₂ := Traffics.step portTraffic h₁ ⟨rfl, by decide, fun c hc => ?_⟩ ?_ rfl
  · exact ⟨_, h₂, by decide, by decide, (traffic_wild _ _ _ _ _ _ (by decide) h₂).1⟩
  · cases hc
    rfl
  · intro _
    decide

/-- Two entries, one of them wild, and a count of two. -/
theorem not_wildCounted (halloc : w.alloc = Function.update (Function.update (fun _ => false) 0 true) 1 true)
    (h₀ : (w.is 0).isWild = true) (h₁ : (w.is 1).isWild = false) (hw : w.wild = 2) : ¬WildCounted w := by
  rintro ⟨A, hrep, hmem, hwild⟩
  have hperm : A.Perm [1, 0] := by
    refine (perm_ext_iff_of_nodup (hrep.nodup ()) (by decide)).2 fun x => ?_
    rw [← hmem, halloc]
    by_cases hx : x = 1
    · simp [hx]
    · rw [Function.update_of_ne hx]
      by_cases hx' : x = 0
      · simp [hx']
      · simp [hx, hx']
  unfold wilds at hwild
  rw [hperm.countP_eq, hw] at hwild
  simp [h₀, h₁] at hwild

/-- **A clone is counted for a port that it has.** The packet of a program that has just asked the
portmapper makes the clone, and fills in its port. -/
theorem traffic_not_wild :
    ∃ w, Traffics ⟨true, 0⟩ (fun _ => 0) (fun _ _ => True) eightBuckets w ∧ ¬WildCounted w := by
  have h₁ : Traffics ⟨true, 0⟩ (fun _ => 0) (fun _ _ => True) eightBuckets _ :=
    Traffics.step (.add 0 (portless (SI_W_SPORT ||| SI_CLONE)) false false 0) .init rfl trivial rfl
  have h₂ := Traffics.step portTraffic h₁ ⟨rfl, by decide, fun c hc => ?_⟩ trivial rfl
  · exact ⟨_, h₂, not_wildCounted rfl (by decide) (by decide) (by decide)⟩
  · cases hc
    rfl

end Ipfilter.State
