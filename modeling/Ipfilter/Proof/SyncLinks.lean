import Ipfilter.Proof.SyncTable

/-!
# Entries, their links and their slots

* `Slots`: an entry with an index owns the slot of that index, which nobody has read yet, and such a slot its entry.
* `Numbers`: the numbers of the entries that were made here.
* `Slots.read`, `Numbers.enter`: what reading does to the slots, and a new entry to the numbers.
-/

namespace Ipfilter.Sync

open Chain BitVec
open Masks (Word Machine)
open Function (update_of_ne update_self)
open BitVec (ofNat toNat)

variable {A : Abi} {s s' : Softs} {L L' : Tab × ℕ → List ℕ} {t t' : Tab} {b i o o' e e' sl : ℕ}

/-! ## Slots -/

/-- **Entries and slots** that nobody has read yet belong together. -/
structure Slots (s : Softs) (L : Tab × ℕ → List ℕ) : Prop where
  tail : s.suTail ≤ s.suIdx
  size : s.suIdx ≤ s.ipfSyncLogSz
  slot : ∀ p, ∀ e ∈ L p, ∀ i, (s.ent e).slIdx = some i → s.suTail ≤ i ∧ i < s.suIdx ∧
    (s.syncupd i).supSl = some e
  back : ∀ i, s.suTail ≤ i → i < s.suIdx → ∀ e, (s.syncupd i).supSl = some e → (∃ p, e ∈ L p) ∧
    (s.ent e).slIdx = some i

theorem Slots.congr (h : Slots s L) (ht : s'.suTail = s.suTail) (hi : s'.suIdx = s.suIdx)
    (hz : s'.ipfSyncLogSz = s.ipfSyncLogSz) (he : ∀ p, ∀ e ∈ L p, (s'.ent e).slIdx = (s.ent e).slIdx)
    (hu : ∀ i, (s'.syncupd i).supSl = (s.syncupd i).supSl) : Slots s' L where
  tail := by rw [ht, hi]; exact h.tail
  size := by rw [hi, hz]; exact h.size
  slot p e hm i hx := by
    rw [he p e hm] at hx
    rw [ht, hi, hu]
    exact h.slot p e hm i hx
  back i h1 h2 e hx := by
    rw [ht] at h1
    rw [hi] at h2
    rw [hu] at hx
    obtain ⟨⟨p, hp⟩, hx'⟩ := h.back i h1 h2 e hx
    exact ⟨⟨p, hp⟩, by rw [he p e hp]; exact hx'⟩

/-- **An entry without a slot takes the next one.** -/
theorem Slots.take (h : Slots s L) {p : Tab × ℕ} (hp : sl ∈ L p) (hnone : (s.ent sl).slIdx = none)
    (hroom : s.suIdx < s.ipfSyncLogSz) (ht : s'.suTail = s.suTail) (hi : s'.suIdx = s.suIdx + 1)
    (hz : s'.ipfSyncLogSz = s.ipfSyncLogSz)
    (he : ∀ e, (s'.ent e).slIdx = if e = sl then some s.suIdx else (s.ent e).slIdx)
    (hu : ∀ i, (s'.syncupd i).supSl = if i = s.suIdx then some sl else (s.syncupd i).supSl) : Slots s' L where
  tail := by have := h.tail; omega
  size := by omega
  slot q e hm i hx := by
    rw [he] at hx
    rw [ht, hi, hu]
    split at hx
    · rename_i hsl
      cases hx
      refine ⟨h.tail, Nat.lt_succ_self _, ?_⟩
      rw [if_pos rfl, hsl]
    · obtain ⟨h1, h2, h3⟩ := h.slot q e hm i hx
      exact ⟨h1, by omega, by rw [if_neg (by omega)]; exact h3⟩
  back i h1 h2 e hx := by
    rw [ht] at h1
    rw [hi] at h2
    rw [hu] at hx
    rw [he]
    split at hx
    · rename_i hi'
      cases hx
      rw [if_pos rfl, hi']
      exact ⟨⟨p, hp⟩, rfl⟩
    · obtain ⟨h3, h4⟩ := h.back i h1 (by omega) e hx
      refine ⟨h3, ?_⟩
      rw [if_neg, h4]
      rintro rfl
      rw [hnone] at h4
      cases h4

/-- **Entries come in** without a slot. -/
theorem Slots.enter (h : Slots s L) (hsub : ∀ q, ∀ x ∈ L q, x ∈ L' q)
    (hnew : ∀ q, ∀ x ∈ L' q, x ∈ L q ∨ (s'.ent x).slIdx = none)
    (hold : ∀ q, ∀ x ∈ L q, (s'.ent x).slIdx = (s.ent x).slIdx) (ht : s'.suTail = s.suTail) (hi : s'.suIdx = s.suIdx)
    (hz : s'.ipfSyncLogSz = s.ipfSyncLogSz) (hu : s'.syncupd = s.syncupd) : Slots s' L' where
  tail := by rw [ht, hi]; exact h.tail
  size := by rw [hi, hz]; exact h.size
  slot p e hm i hx := by
    rcases hnew p e hm with hm' | hnone
    · rw [hold p e hm'] at hx
      rw [ht, hi, hu]
      exact h.slot p e hm' i hx
    · rw [hnone] at hx
      cases hx
  back i h1 h2 e hx := by
    rw [ht] at h1
    rw [hi] at h2
    rw [hu] at hx
    obtain ⟨⟨p, hp⟩, hx'⟩ := h.back i h1 h2 e hx
    exact ⟨⟨p, hsub p e hp⟩, by rw [hold p e hp]; exact hx'⟩

/-- **A slot is read,** and its entry has none any more. -/
theorem Slots.next (h : Slots s L) (hlt : s.suTail < s.suIdx) (ht : s'.suTail = s.suTail + 1) (hi : s'.suIdx = s.suIdx)
    (hz : s'.ipfSyncLogSz = s.ipfSyncLogSz)
    (he : ∀ e, (s'.ent e).slIdx = if (s.syncupd s.suTail).supSl = some e then none else (s.ent e).slIdx)
    (hu : ∀ i, (s'.syncupd i).supSl = (s.syncupd i).supSl) : Slots s' L where
  tail := by omega
  size := by rw [hi, hz]; exact h.size
  slot p e hm i hx := by
    rw [he] at hx
    split at hx
    · cases hx
    · rename_i hne
      obtain ⟨h1, h2, h3⟩ := h.slot p e hm i hx
      rw [ht, hi, hu]
      have hit : i ≠ s.suTail := by
        rintro rfl
        exact hne h3
      exact ⟨by omega, h2, h3⟩
  back i h1 h2 e hx := by
    rw [ht] at h1
    rw [hi] at h2
    rw [hu] at hx
    obtain ⟨h3, h4⟩ := h.back i (by omega) h2 e hx
    refine ⟨h3, ?_⟩
    rw [he, if_neg, h4]
    intro hc
    have h5 := (h.back s.suTail le_rfl hlt e hc).2
    rw [h4, Option.some.injEq] at h5
    omega

/-- **An entry goes,** and its slot forgets it. -/
theorem Slots.forget (h : Slots s L) {p : Tab × ℕ} (hp : sl ∈ L p)
    (hmem : ∀ q x, x ∈ L' q ↔ x ∈ L q ∧ x ≠ sl) :
    Slots (s.forget sl).1 L' := by
  unfold Softs.forget
  cases hidx : (s.ent sl).slIdx with
  | none =>
    refine ⟨h.tail, h.size, fun q e he => h.slot q e ((hmem q e).1 he).1, fun i h1 h2 e hx => ?_⟩
    obtain ⟨⟨q, hq⟩, h4⟩ := h.back i h1 h2 e hx
    refine ⟨⟨q, (hmem q e).2 ⟨hq, ?_⟩⟩, h4⟩
    rintro rfl
    rw [hidx] at h4
    cases h4
  | some j =>
    obtain ⟨-, -, hj⟩ := h.slot p sl hp j hidx
    have hu : ∀ i, ((s.updSlot j fun slu => { slu with supSl := none }).syncupd i).supSl =
        if i = j then none else (s.syncupd i).supSl := by
      intro i
      change (Function.update s.syncupd j _ i).supSl = _
      by_cases hij : i = j
      · rw [if_pos hij, hij, update_self]
      · rw [if_neg hij, update_of_ne hij]
    refine ⟨h.tail, h.size, fun q e he i hx => ?_, fun i h1 h2 e hx => ?_⟩
    · obtain ⟨he, hne⟩ := (hmem q e).1 he
      obtain ⟨h1, h2, h3⟩ := h.slot q e he i hx
      refine ⟨h1, h2, ?_⟩
      rw [hu, if_neg, h3]
      rintro rfl
      rw [hj] at h3
      cases h3
      exact hne rfl
    · rw [hu] at hx
      split at hx
      · cases hx
      · rename_i hij
        obtain ⟨⟨q, hq⟩, h4⟩ := h.back i h1 h2 e hx
        refine ⟨⟨q, (hmem q e).2 ⟨hq, ?_⟩⟩, h4⟩
        rintro rfl
        rw [hidx] at h4
        cases h4
        exact hij rfl

/-- When no slot is left that knows an entry, all may be counted from the start again. -/
theorem Slots.restart (h : Slots s L) (hnone : ∀ i, s.suTail ≤ i → i < s.suIdx → (s.syncupd i).supSl = none)
    (ht : s'.suTail = 0) (hi : s'.suIdx = 0) (he : ∀ e, (s'.ent e).slIdx = (s.ent e).slIdx) : Slots s' L where
  tail := by omega
  size := by omega
  slot p e hm i hx := by
    rw [he] at hx
    obtain ⟨h1, h2, h3⟩ := h.slot p e hm i hx
    rw [hnone i h1 h2] at h3
    cases h3
  back i _ h2 := by omega

/-! ## Updates and reading -/

theorem update_quiet (fin : FrInfo) (x : Option ℕ) (ticks : Word) : Quiet s (ipfSyncUpdate A s t fin x ticks).1 := by
  unfold ipfSyncUpdate
  cases x with
  | none => exact .refl s
  | some sl =>
    dsimp only
    split
    · exact .refl s
    · obtain ⟨n, w, hw⟩ := wakeup_eq (if fin.finP = IPPROTO_TCP then _ else _) ticks
      rw [hw]
      cases hidx : (s.ent sl).slIdx with
      | some i =>
        dsimp only
        split
        · exact ⟨rfl, rfl, rfl, rfl, fun _ => rfl, fun _ => rfl, rfl, rfl, rfl⟩
        · exact ⟨rfl, rfl, rfl, rfl, fun _ => rfl, fun _ => rfl, rfl, rfl, rfl⟩
      | none =>
        have hent : ∀ e, (Function.update s.ent sl { s.ent sl with slIdx := some s.suIdx } e).slHdr = (s.ent e).slHdr ∧
            (Function.update s.ent sl { s.ent sl with slIdx := some s.suIdx } e).slPtr = (s.ent e).slPtr := by
          intro e
          by_cases he : e = sl
          · rw [he, update_self]
            exact ⟨rfl, rfl⟩
          · rw [update_of_ne he]
            exact ⟨rfl, rfl⟩
        dsimp only [Softs.updEnt, Option.getD_none]
        split
        · exact ⟨rfl, rfl, rfl, rfl, fun e => (hent e).1, fun e => (hent e).2, rfl, rfl, rfl⟩
        · exact ⟨rfl, rfl, rfl, rfl, fun e => (hent e).1, fun e => (hent e).2, rfl, rfl, rfl⟩

theorem Slots.update (h : Slots s L) (fin : FrInfo) {x : Option ℕ} (ticks : Word)
    (hx : ∀ sl, x = some sl → ∃ p, sl ∈ L p)
    (hroom : ∀ sl, x = some sl → fin.finOut = true → (s.ent sl).slIdx = none → s.suIdx < s.ipfSyncLogSz) :
    Slots (ipfSyncUpdate A s t fin x ticks).1 L := by
  unfold ipfSyncUpdate
  cases x with
  | none => exact h
  | some sl =>
    obtain ⟨p, hp⟩ := hx sl rfl
    dsimp only
    split
    · exact h
    · rename_i hout
      obtain ⟨n, w, hw⟩ := wakeup_eq (if fin.finP = IPPROTO_TCP then _ else _) ticks
      rw [hw]
      cases hidx : (s.ent sl).slIdx with
      | some i =>
        dsimp only [Option.getD_some]
        split
        · refine h.congr rfl rfl rfl (fun _ _ _ => rfl) fun j => ?_
          change (Function.update s.syncupd i _ j).supSl = _
          by_cases hj : j = i
          · rw [hj, update_self]
          · rw [update_of_ne hj]
        · exact h.congr rfl rfl rfl (fun _ _ _ => rfl) fun _ => rfl
      | none =>
        have hlt := hroom sl rfl (by simpa using hout) hidx
        dsimp only [Option.getD_none]
        have hent : ∀ e, (Function.update s.ent sl { s.ent sl with slIdx := some s.suIdx } e).slIdx =
            if e = sl then some s.suIdx else (s.ent e).slIdx := by
          intro e
          by_cases he : e = sl
          · rw [he, update_self, if_pos rfl]
          · rw [update_of_ne he, if_neg he]
        split
        · refine h.take hp hidx hlt rfl rfl rfl hent fun j => ?_
          dsimp only [Softs.updSlot]
          by_cases hj : j = s.suIdx
          · rw [hj, update_self, update_self, if_pos rfl]
          · rw [update_of_ne hj, update_of_ne hj, if_neg hj]
        · refine h.take hp hidx hlt rfl rfl rfl hent fun j => ?_
          dsimp only
          by_cases hj : j = s.suIdx
          · rw [hj, update_self, if_pos rfl]
          · rw [update_of_ne hj, if_neg hj]

/-- Reading the log only moves its tail. -/
theorem readLog_eq : ∀ (n : ℕ) (s : Softs) (u : Uio), ∃ k, (readLog A n s u).1 = { s with slTail := k } ∧
    ∀ v, (readLog A n s u).2.1 = some v → v.fault = u.fault
  | 0, s, u => ⟨s.slTail, rfl, fun v hv => by cases hv; rfl⟩
  | n + 1, s, u => by
    unfold readLog Uio.move
    by_cases hlt : s.slTail < s.slIdx ∧ A.logSize < u.resid
    · rw [if_pos hlt]
      by_cases hf : u.fault = some (.log s.slTail)
      · rw [if_pos hf]
        exact ⟨s.slTail + 1, rfl, fun v hv => by cases hv⟩
      · rw [if_neg hf]
        obtain ⟨k, h1, h2⟩ := readLog_eq n { s with slTail := s.slTail + 1 }
          { u with
            resid := u.resid - (A.logBytes (s.synclog s.slTail)).length
            out := u.out ++ A.logBytes (s.synclog s.slTail) }
        exact ⟨k, h1, h2⟩
    · rw [if_neg hlt]
      exact ⟨s.slTail, rfl, fun v hv => by cases hv; rfl⟩

theorem untie_ent (s : Softs) (su : Syncupdent) (e : ℕ) :
    ((s.untie su).ent e).slHdr = (s.ent e).slHdr ∧ ((s.untie su).ent e).slPtr = (s.ent e).slPtr ∧
      ((s.untie su).ent e).slIdx = if su.supSl = some e then none else (s.ent e).slIdx := by
  unfold Softs.untie
  cases hsl : su.supSl with
  | none => simp
  | some sl =>
    change (Function.update s.ent sl _ e).slHdr = _ ∧ (Function.update s.ent sl _ e).slPtr = _ ∧
      (Function.update s.ent sl _ e).slIdx = _
    by_cases he : e = sl
    · rw [he, update_self]
      simp
    · rw [update_of_ne he, if_neg (by simpa using Ne.symm he)]
      exact ⟨rfl, rfl, rfl⟩

theorem untie_eq (s : Softs) (su : Syncupdent) : s.untie su = { s with ent := (s.untie su).ent } := by
  unfold Softs.untie
  cases su.supSl <;> rfl

/-- One slot is read, or cannot be copied out. -/
theorem readUpd_succ (n : ℕ) (s : Softs) (u : Uio) : (readUpd A (n + 1) s u).1 =
      if s.suTail < s.suIdx ∧ A.updSize < u.resid then
        match u.move (.upd s.suTail) (A.updBytes (s.syncupd s.suTail)) with
        | none => { s with suTail := s.suTail + 1 }
        | some v => (readUpd A n ({ s with suTail := s.suTail + 1 }.untie (s.syncupd s.suTail)) v).1
      else s := by
  rw [readUpd]
  split
  · dsimp only
    cases u.move (.upd s.suTail) (A.updBytes (s.syncupd s.suTail)) <;> rfl
  · rfl

/-- **Reading updates** keeps slots and entries together, unless a slot is lost. -/
theorem Slots.readUpd : ∀ (n : ℕ) {s : Softs} (u : Uio), Slots s L →
    (∀ i, u.fault = some (.upd i) → s.suTail ≤ i → i < s.suIdx → (s.syncupd i).supSl = none) →
    Slots (readUpd A n s u).1 L ∧ Quiet s (readUpd A n s u).1
  | 0, s, u, h, _ => ⟨h, .refl s⟩
  | n + 1, s, u, h, hfault => by
    rw [readUpd_succ]
    split
    · rename_i hlt
      unfold Uio.move
      by_cases hf : u.fault = some (.upd s.suTail)
      · rw [if_pos hf]
        have hnone := hfault _ hf le_rfl hlt.1
        refine ⟨h.next hlt.1 rfl rfl rfl (fun e => ?_) fun _ => rfl, rfl, rfl, rfl, rfl, fun _ => rfl, fun _ => rfl, rfl,
          rfl, rfl⟩
        rw [hnone, if_neg (by simp)]
      · rw [if_neg hf]
        dsimp only
        have hent := untie_ent { s with suTail := s.suTail + 1 } (s.syncupd s.suTail)
        have heq := untie_eq { s with suTail := s.suTail + 1 } (s.syncupd s.suTail)
        generalize ({ s with suTail := s.suTail + 1 } : Softs).untie (s.syncupd s.suTail) = s₁ at hent heq ⊢
        have hs₁ : Slots s₁ L := by
          apply h.next hlt.1
          · rw [heq]
          · rw [heq]
          · rw [heq]
          · exact fun e => (hent e).2.2
          · rw [heq]
            exact fun _ => rfl
        have hq₁ : Quiet s s₁ := by
          refine ⟨?_, ?_, ?_, ?_, fun e => (hent e).1, fun e => (hent e).2.1, ?_, ?_, ?_⟩ <;> rw [heq]
        have hrest : ∀ i, u.fault = some (.upd i) → s₁.suTail ≤ i → i < s₁.suIdx →
            (s₁.syncupd i).supSl = none := by
          intro i hi hti hli
          rw [heq] at hti hli ⊢
          exact hfault i hi (Nat.le_of_succ_le hti) hli
        obtain ⟨h1, h2⟩ := Slots.readUpd n { u with
          resid := u.resid - (A.updBytes (s.syncupd s.suTail)).length
          out := u.out ++ A.updBytes (s.syncupd s.suTail) } hs₁ hrest
        exact ⟨h1, hq₁.trans h2⟩
    · exact ⟨h, .refl s⟩

/-- Each of the two pairs of indices goes back or stays. -/
theorem rewind_rule {P : Softs → Prop} (h : P s) (hl : s.slTail = s.slIdx → P { s with slTail := 0, slIdx := 0 })
    (hu : ∀ s₁, P s₁ → s₁.suTail = s₁.suIdx → P { s₁ with suTail := 0, suIdx := 0 }) : P s.rewind := by
  have h₁ : P (if s.slTail = s.slIdx then { s with slTail := 0, slIdx := 0 } else s) := iteInduction hl fun _ => h
  exact iteInduction (hu _ h₁) fun _ => h₁

theorem Slots.rewind (h : Slots s L) : Slots s.rewind L ∧ Quiet s s.rewind :=
  rewind_rule (P := fun s₁ => Slots s₁ L ∧ Quiet s s₁) ⟨h, .refl s⟩
    (fun _ => ⟨h.congr rfl rfl rfl (fun _ _ _ => rfl) fun _ => rfl, rfl, rfl, rfl, rfl, fun _ => rfl, fun _ => rfl, rfl,
      rfl, rfl⟩)
    fun _ ⟨hs, hq⟩ heq => ⟨hs.restart (fun i h1 h2 => by omega) rfl rfl fun _ => rfl,
      hq.chain, hq.alloc, hq.ips, hq.ipn, hq.hdr, hq.ptr, hq.num, hq.wrap, hq.size⟩

/-- **A read** keeps slots and entries together, unless a slot is lost. -/
theorem Slots.read (h : Slots s L) (u : Uio)
    (hfault : ∀ i, u.fault = some (.upd i) → s.suTail ≤ i → i < s.suIdx → (s.syncupd i).supSl = none) :
    Slots (ipfSyncRead A s u).1 L ∧ Quiet s (ipfSyncRead A s u).1 := by
  unfold ipfSyncRead
  split
  · exact ⟨h, .refl s⟩
  · split
    · exact ⟨h, .refl s⟩
    · obtain ⟨k, hk, hv⟩ := readLog_eq (A := A) (s.slIdx - s.slTail) s u
      have hlog : Slots (readLog A (s.slIdx - s.slTail) s u).1 L := by
        rw [hk]
        exact h.congr rfl rfl rfl (fun _ _ _ => rfl) fun _ => rfl
      have hquiet : Quiet s (readLog A (s.slIdx - s.slTail) s u).1 := by
        rw [hk]
        exact ⟨rfl, rfl, rfl, rfl, fun _ => rfl, fun _ => rfl, rfl, rfl, rfl⟩
      dsimp only
      cases hl : (readLog A (s.slIdx - s.slTail) s u).2.1 with
      | none => exact ⟨hlog, hquiet⟩
      | some v =>
        have hfault' := hv v hl
        obtain ⟨hupd, hquiet'⟩ := hlog.readUpd (A := A) (s.suIdx - s.suTail) v (by
          intro i hi
          rw [hk]
          exact hfault i (hfault' ▸ hi))
        dsimp only
        split
        · exact ⟨hupd, hquiet.trans hquiet'⟩
        · obtain ⟨h1, h2⟩ := hupd.rewind
          exact ⟨h1, (hquiet.trans hquiet').trans h2⟩

/-! ## Numbers -/

/-- `sm_num` of an entry -/
def Softs.num (s : Softs) (e : ℕ) : Word := (s.ent e).slHdr.smNum

/-- **The numbers of the entries `loc`** that were made here. -/
structure Numbers (s : Softs) (loc : List ℕ) (L : Tab × ℕ → List ℕ) : Prop where
  place : ∀ t b, ∀ e ∈ L (t, b), e ∈ loc → b = bucket (s.num e)
  pos : ∀ p, ∀ e ∈ L p, e ∈ loc → s.num e ≠ 0
  below : s.ipfSyncWrap = 0 → ∀ p, ∀ e ∈ L p, e ∈ loc → (s.num e).toNat ≤ s.ipfSyncNum.toNat
  apart : ∀ t b b', ∀ e ∈ L (t, b), ∀ e' ∈ L (t, b'), e ∈ loc → e' ∈ loc → s.num e = s.num e' → e = e'

theorem Numbers.less {loc loc' : List ℕ} (h : Numbers s loc L)
    (hsub : ∀ p, ∀ e ∈ L' p, e ∈ loc' → e ∈ L p ∧ e ∈ loc ∧ s'.num e = s.num e)
    (hn : s'.ipfSyncNum = s.ipfSyncNum) (hw : s'.ipfSyncWrap = s.ipfSyncWrap) : Numbers s' loc' L' where
  place t b e he hl := by
    obtain ⟨h1, h2, h3⟩ := hsub _ e he hl
    rw [h3]
    exact h.place t b e h1 h2
  pos p e he hl := by
    obtain ⟨h1, h2, h3⟩ := hsub _ e he hl
    rw [h3]
    exact h.pos p e h1 h2
  below hw0 p e he hl := by
    obtain ⟨h1, h2, h3⟩ := hsub _ e he hl
    rw [h3, hn]
    exact h.below (hw ▸ hw0) p e h1 h2
  apart t b b' e he e' he' hl hl' hnum := by
    obtain ⟨h1, h2, h3⟩ := hsub _ e he hl
    obtain ⟨h1', h2', h3'⟩ := hsub _ e' he' hl'
    rw [h3, h3'] at hnum
    exact h.apart t b b' e h1 e' h1' h2 h2' hnum

/-- The loop over numbers stops at the first one that is free. -/
theorem freeNum_spec (s : Softs) (t : Tab) : ∀ (n : ℕ) (num : Word) (k : ℕ), k < n →
    s.search t (bucket (num + ofNat 32 k)) (num + ofNat 32 k) = none → ∃ j ≤ k, s.freeNum t n num = num + ofNat 32 j ∧
      s.search t (bucket (num + ofNat 32 j)) (num + ofNat 32 j) = none
  | 0, _, _, hk, _ => absurd hk (Nat.not_lt_zero _)
  | n + 1, num, k, hk, hfree => by
    have hzero : num + ofNat 32 0 = num := by simp
    unfold Softs.freeNum
    split
    · rename_i hnone
      exact ⟨0, Nat.zero_le _, hzero.symm, by rw [hzero]; exact hnone⟩
    · rename_i hused
      cases k with
      | zero =>
        rw [hzero] at hfree
        exact absurd hfree hused
      | succ k =>
        have hshift : ∀ j : ℕ, num + ofNat 32 (j + 1) = num + 1 + ofNat 32 j := by
          intro j
          rw [BitVec.add_assoc]
          congr 1
          apply eq_of_toNat_eq
          simp [add_comm]
        rw [hshift] at hfree
        obtain ⟨j, hj, h1, h2⟩ := freeNum_spec s t n (num + 1) k (by omega) hfree
        exact ⟨j + 1, by omega, by rw [hshift]; exact h1, by rw [hshift]; exact h2⟩

/-- **A number is left** for a new entry: the count of wraps does not wrap itself, and when numbers may be in use again, one of
those that come before 0 is not. -/
def Softs.spare (s : Softs) (t : Tab) : Prop :=
  (s.ipfSyncNum + 1 = 0 → s.ipfSyncWrap + 1 ≠ 0) ∧
    (s.nextWrap ≠ 0 → ∃ k : ℕ, s.nextNum.toNat + k < 2 ^ 32 ∧
      s.search t (bucket (s.nextNum + ofNat 32 k)) (s.nextNum + ofNat 32 k) = none)

theorem nextNum_pos (s : Softs) : 0 < s.nextNum.toNat := by
  unfold Softs.nextNum
  split
  · decide
  · rename_i hne
    by_contra hc
    apply hne
    apply eq_of_toNat_eq
    simpa using hc

/-- The number of a new entry. -/
theorem newNum_spec (hs : s.spare t) : s.newNum t ≠ 0 ∧
    (s.nextWrap = 0 → s.ipfSyncWrap = 0 ∧ (s.newNum t).toNat = s.ipfSyncNum.toNat + 1) ∧
    (s.nextWrap ≠ 0 → s.search t (bucket (s.newNum t)) (s.newNum t) = none) := by
  have hpos := nextNum_pos s
  by_cases hw : s.nextWrap = 0
  · have hnum : s.newNum t = s.nextNum := if_neg (not_not.2 hw)
    have hne : s.ipfSyncNum + 1 ≠ 0 := by
      intro hc
      refine hs.1 hc ?_
      rw [← hw]
      exact (if_pos hc).symm
    have hnext : s.nextNum = s.ipfSyncNum + 1 := if_neg hne
    have hwrap : s.nextWrap = s.ipfSyncWrap := if_neg hne
    have hplus : (s.ipfSyncNum + 1).toNat = s.ipfSyncNum.toNat + 1 := by
      rw [toNat_add]
      have hlt := s.ipfSyncNum.isLt
      have hone : (1 : Word).toNat = 1 := rfl
      rw [hone]
      by_cases hmax : s.ipfSyncNum.toNat + 1 < 2 ^ 32
      · exact Nat.mod_eq_of_lt hmax
      · exfalso
        apply hne
        apply eq_of_toNat_eq
        have he : s.ipfSyncNum.toNat + 1 = 2 ^ 32 := by omega
        rw [toNat_add, hone, he]
        rfl
    refine ⟨?_, fun _ => ⟨hwrap ▸ hw, ?_⟩, fun hc => absurd hw hc⟩
    · rw [hnum, hnext]
      exact hne
    · rw [hnum, hnext, hplus]
  · have hnum : s.newNum t = s.freeNum t (2 ^ 32) s.nextNum := if_pos hw
    obtain ⟨k, hk, hfree⟩ := hs.2 hw
    obtain ⟨j, hj, h1, h2⟩ := freeNum_spec s t (2 ^ 32) s.nextNum k (by omega) hfree
    refine ⟨?_, fun hc => absurd hc hw, fun _ => by rw [hnum, h1]; exact h2⟩
    rw [hnum, h1]
    intro hc
    have hc' := congrArg toNat hc
    rw [toNat_add, toNat_ofNat, Nat.mod_eq_of_lt (by omega : j < 2 ^ 32), Nat.mod_eq_of_lt (by omega)] at hc'
    have hz : (0 : Word).toNat = 0 := rfl
    omega

/-- **A new number** is unlike those of the other entries of its table. -/
theorem Numbers.enter {loc : List ℕ} (h : Numbers s loc L) (hb : Base s L) (hs : s.spare t) (hsl : ∀ p, sl ∉ L p)
    (hnum : s'.num sl = s.newNum t) (hold : ∀ e, e ≠ sl → s'.num e = s.num e) (hn : s'.ipfSyncNum = s.newNum t)
    (hw : s'.ipfSyncWrap = s.nextWrap) :
    Numbers s' (sl :: loc) (Function.update L (t, bucket (s.newNum t)) ([] ++ sl :: L (t, bucket (s.newNum t)))) := by
  obtain ⟨h1, h2, h3⟩ := newNum_spec hs
  have hmem := fun {x : ℕ} {g : Tab × ℕ} => mem_added (n := sl) (x := x) (g := g)
    (List.nil_append (L (t, bucket (s.newNum t)))).symm
  have hne : ∀ {p e}, e ∈ L p → e ≠ sl := by
    rintro p e he rfl
    exact hsl p he
  have hloc : ∀ {e}, e ≠ sl → e ∈ sl :: loc → e ∈ loc := fun he hl => (List.mem_cons.1 hl).resolve_left he
  -- no other entry of the table has the number
  have hfree : ∀ b, ∀ e ∈ L (t, b), e ∈ loc → s.num e ≠ s.newNum t := by
    intro b e he hl hc
    by_cases hw0 : s.nextWrap = 0
    · obtain ⟨h4, h5⟩ := h2 hw0
      have h6 := h.below h4 _ e he hl
      rw [hc] at h6
      omega
    · have h4 := (hb.search_none (bucket_lt _) _).1 (h3 hw0)
      have h5 := h.place t b e he hl
      rw [hc] at h5
      exact h4 e (h5 ▸ he) hc
  refine ⟨?_, ?_, ?_, ?_⟩
  · intro t' b e he hl
    rcases hmem.1 he with he | ⟨rfl, hp⟩
    · rw [hold e (hne he)]
      exact h.place t' b e he (hloc (hne he) hl)
    · cases hp
      rw [hnum]
  · intro p e he hl
    rcases hmem.1 he with he | ⟨rfl, -⟩
    · rw [hold e (hne he)]
      exact h.pos p e he (hloc (hne he) hl)
    · rw [hnum]
      exact h1
  · intro hw0 p e he hl
    rw [hw] at hw0
    obtain ⟨h4, h5⟩ := h2 hw0
    rw [hn]
    rcases hmem.1 he with he | ⟨rfl, -⟩
    · rw [hold e (hne he)]
      have h6 := h.below h4 p e he (hloc (hne he) hl)
      omega
    · exact le_of_eq (congrArg toNat hnum)
  · intro t' b b' e he e' he' hl hl' hee
    rcases hmem.1 he with hx | ⟨hx, hp⟩
    · rcases hmem.1 he' with hx' | ⟨hx', hp'⟩
      · rw [hold e (hne hx), hold e' (hne hx')] at hee
        exact h.apart t' b b' e hx e' hx' (hloc (hne hx) hl) (hloc (hne hx') hl') hee
      · cases hp'
        rw [hx', hold e (hne hx), hnum] at hee
        exact absurd hee (hfree b e hx (hloc (hne hx) hl))
    · rcases hmem.1 he' with hx' | ⟨hx', hp'⟩
      · cases hp
        rw [hx, hold e' (hne hx'), hnum] at hee
        exact absurd hee.symm (hfree b' e' hx' (hloc (hne hx') hl'))
      · rw [hx, hx']

end Ipfilter.Sync
