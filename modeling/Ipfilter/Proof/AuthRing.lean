import Ipfilter.Spec.Auth

/-!
# The slots of the authentication ring

* `Ring`: what is in use is counted, and is between start and end.
* `Ring.step`: every call keeps it, but for answers to the wrong slot and packets that cannot be sent in again.
* `Filled.step`: if answers are used in order and nothing expires, all slots between start and end are in use.
* `run_ring`: whole runs. A packet is refused only if all slots but one are between start and end.
-/

namespace Ipfilter.Auth

open Cyclic Nat

variable {C : Type} {s s' : Softa C} {i j m : ℕ} {fin : FrInfo C}

/-! ## The invariant -/

/-- **The slots in use** are counted, are between start and end, and hold a packet unless they are answered. -/
structure Ring (s : Softa C) : Prop where
  start : s.start < s.size
  stop : s.stop < s.size
  next : s.next < s.size
  index : ∀ i < s.size, (s.auth i).index = -1 ∨ (s.auth i).index = -2 ∨ (s.auth i).index = i
  pkts : ∀ i < s.size, (s.pkts i).isSome = true ↔ 0 ≤ (s.auth i).index
  outside : ∀ i < s.size, i ∉ arc s.size s.start s.stop → (s.auth i).index = -1
  used : s.used = tally s.size fun i => decide ((s.auth i).index ≠ -1)

/-- **The answers are counted.** -/
def Softa.Replied (s : Softa C) : Prop := s.replies = tally s.size fun i => decide ((s.auth i).index = -2)

theorem Ring.mem (h : Ring s) (hi : i < s.size) (hin : (s.auth i).index ≠ -1) : i ∈ arc s.size s.start s.stop := by
  by_contra hno
  exact hin (h.outside i hi hno)

/-- **One slot changes.** -/
theorem Ring.set (h : Ring s) (hi : i < s.size) (hsize : s'.size = s.size) (hstart : s'.start < s.size)
    (hstop : s'.stop < s.size) (hnext : s'.next < s.size)
    (hother : ∀ j, j ≠ i → (s'.auth j).index = (s.auth j).index ∧ s'.pkts j = s.pkts j)
    (hindex : (s'.auth i).index = -1 ∨ (s'.auth i).index = -2 ∨ (s'.auth i).index = i)
    (hpkts : (s'.pkts i).isSome = true ↔ 0 ≤ (s'.auth i).index)
    (hout : ∀ j < s.size, j ∉ arc s.size s'.start s'.stop → (s'.auth j).index = -1)
    (hused : s'.used + (if (s.auth i).index ≠ -1 then 1 else 0) = s.used + if (s'.auth i).index ≠ -1 then 1 else 0) :
    Ring s' := by
  refine ⟨by rwa [hsize], by rwa [hsize], by rwa [hsize], fun j hj => ?_, fun j hj => ?_, fun j hj hno => ?_, ?_⟩
  · by_cases hji : j = i
    · rw [hji]
      exact hindex
    · rw [(hother j hji).1]
      exact h.index j (hsize ▸ hj)
  · by_cases hji : j = i
    · rw [hji]
      exact hpkts
    · rw [(hother j hji).1, (hother j hji).2]
      exact h.pkts j (hsize ▸ hj)
  · rw [hsize] at hj hno
    exact hout j hj hno
  · have htally := tally_change (p := fun i => decide ((s.auth i).index ≠ -1))
      (q := fun i => decide ((s'.auth i).index ≠ -1)) hi fun j hj => by rw [(hother j hj).1]
    have hold := h.used
    simp only [decide_eq_true_eq] at htally
    rw [hsize]
    split_ifs at htally hused <;> omega

/-- What one slot changes in the count of the answers. -/
theorem Softa.Replied.set (h : s.Replied) (hi : i < s.size) (hsize : s'.size = s.size)
    (hother : ∀ j, j ≠ i → (s'.auth j).index = (s.auth j).index)
    (hreplies : s'.replies + (if (s.auth i).index = -2 then 1 else 0) = s.replies + if (s'.auth i).index = -2 then 1 else 0) :
    s'.Replied := by
  have htally := tally_change (p := fun i => decide ((s.auth i).index = -2))
    (q := fun i => decide ((s'.auth i).index = -2)) hi fun j hj => by rw [hother j hj]
  unfold Softa.Replied at h ⊢
  simp only [decide_eq_true_eq] at htally
  rw [hsize]
  split_ifs at htally hreplies <;> omega

/-! ## The start moves on -/

theorem advance_keeps (s : Softa C) (p : ℕ → Bool) (i : ℕ) : s.advance p i =
    { s with start := (s.advance p i).start, stop := (s.advance p i).stop, next := (s.advance p i).next } := by
  unfold Softa.advance
  split
  · dsimp only
    split <;> rfl
  · rfl

/-- Start, end and next do not matter for the counts. -/
theorem Ring.bounds (h : Ring s) {a b c : ℕ} (ha : a < s.size) (hb : b < s.size) (hc : c < s.size)
    (hout : ∀ j < s.size, j ∉ arc s.size a b → (s.auth j).index = -1) :
    Ring { s with start := a, stop := b, next := c } :=
  ⟨ha, hb, hc, h.index, h.pkts, hout, h.used⟩

/-- **The start moves over free slots.** -/
theorem Ring.advance (h : Ring s) (hi : i ∈ arc s.size s.start s.stop) : Ring (s.advance s.free i) := by
  unfold Softa.advance
  by_cases his : i = s.start
  · rw [if_pos his]
    dsimp only
    have hne : s.start ≠ s.stop := by
      intro heq
      rw [heq, arc_self] at hi
      cases hi
    obtain ⟨hend, hall⟩ := skip_spec (p := s.free) h.stop s.size h.start hne (le_of_lt (gap_le h.start h.stop))
    rw [his]
    set st := skip s.size s.stop s.free s.size s.start
    have hst : st ∈ arc s.size s.start s.stop ∨ st = s.stop := by
      rcases hend with hs | ⟨hs, -⟩
      · exact .inr hs
      · exact .inl hs
    have hsplit := arc_split h.start h.stop hst
    -- what was passed is free
    have hpass : ∀ j < s.size, j ∉ arc s.size st s.stop → (s.auth j).index = -1 := by
      intro j hj hno
      by_cases hjin : j ∈ arc s.size s.start s.stop
      · rw [hsplit, List.mem_append] at hjin
        have hfree := hall j (hjin.resolve_right hno)
        simpa [Softa.free] using hfree
      · exact h.outside j hj hjin
    split
    · rename_i hstop
      have hzero : 0 < s.size := lt_of_le_of_lt (zero_le _) h.start
      refine h.bounds hzero hzero hzero fun j hj _ => hpass j hj ?_
      rw [hstop, arc_self]
      simp
    · rename_i hstop
      exact h.bounds (((mem_arc h.start h.stop).1 (hst.resolve_right hstop)).1) h.stop h.next hpass
  · rw [if_neg his]
    exact h

theorem Softa.Replied.advance (h : s.Replied) (p : ℕ → Bool) (i : ℕ) : (s.advance p i).Replied := by
  rw [advance_keeps]
  exact h

/-! ## The calls -/

theorem mod_inc {n b : ℕ} (hb : b < n) : (b + 1) % n = inc n b := by
  unfold inc
  split
  · rename_i h
    rw [h, mod_self]
  · exact mod_eq_of_lt (by omega)

/-- **`ipf_auth_new`** refuses a packet, or puts it at the end. -/
theorem Ring.new_cases (h : Ring s) (m : ℕ) (fin : FrInfo C) :
    ipfAuthNew s m fin = (s, false) ∧ (s.lock = true ∨ inc s.size s.stop = s.start) ∨
      s.lock = false ∧ inc s.size s.stop ≠ s.start ∧ (ipfAuthNew s m fin).2 = true := by
  unfold ipfAuthNew
  by_cases hlock : s.lock = true
  · rw [if_pos hlock]
    exact .inl ⟨rfl, .inl hlock⟩
  rw [if_neg hlock, mod_inc h.stop]
  by_cases hfull : inc s.size s.stop = s.start
  · rw [if_pos hfull]
    exact .inl ⟨rfl, .inr hfull⟩
  · rw [if_neg hfull]
    exact .inr ⟨by simpa using hlock, hfull, rfl⟩

/-- The ring with one packet more. -/
theorem Ring.put (h : Ring s) (hlock : s.lock = false) (hfull : inc s.size s.stop ≠ s.start) (m : ℕ) (fin : FrInfo C) :
    Ring (ipfAuthNew s m fin).1 ∧ (s.Replied → (ipfAuthNew s m fin).1.Replied) := by
  have hfree : (s.auth s.stop).index = -1 := h.outside _ h.stop (notMem_arc_end h.start h.stop)
  unfold ipfAuthNew
  rw [if_neg (by simp [hlock]), mod_inc h.stop, if_neg hfull]
  dsimp only
  constructor
  · refine h.set (i := s.stop) h.stop rfl h.start (inc_lt h.stop) h.next (fun j hj => ?_) ?_ ?_ (fun j hj hno => ?_) ?_
    · simp [Softa.setAuth, Softa.setPkt, hj]
    · simp [Softa.setAuth, Softa.setPkt]
    · simp [Softa.setAuth, Softa.setPkt]
    · have hno' : j ∉ arc s.size s.start (inc s.size s.stop) := hno
      rw [arc_concat h.start h.stop hfull, List.mem_append, List.mem_singleton, not_or] at hno'
      simpa [Softa.setAuth, Softa.setPkt, hno'.2] using h.outside j hj hno'.1
    · simp [Softa.setAuth, Softa.setPkt, hfree]
  · intro hr
    refine hr.set (i := s.stop) h.stop rfl (fun j hj => ?_) ?_
    · simp [Softa.setAuth, Softa.setPkt, hj]
    · simp [Softa.setAuth, Softa.setPkt, hfree]

variable {ipId : BitVec 16} {new : Option ℕ} {inobj outobj copy inject : Bool} {au : Reply} {fuel : ℕ}

/-- The slot that a reply is for, if it is accepted. -/
def Softa.accepts (s : Softa C) (inobj : Bool) (au : Reply) : Option ℕ :=
  if inobj = true ∧ 0 ≤ au.index ∧ au.index < s.size ∧ (s.auth au.index.toNat).info.finId = au.id then
    some au.index.toNat
  else none

/-- A slot after an answer. -/
def Softa.answered (s : Softa C) (i : ℕ) (pass : Flags) : Softa C :=
  { s with
    auth := Function.update s.auth i { s.auth i with index := -2, pass := pass }
    pkts := Function.update s.pkts i none
    replies := s.replies + 1 }

/-- **`ipf_auth_reply`** does nothing, or answers a slot. -/
theorem reply_cases (s : Softa C) (inobj : Bool) (au : Reply) (inject : Bool) :
    s.accepts inobj au = none ∧ (ipfAuthReply s inobj au inject).1 = s ∨
      ∃ i, s.accepts inobj au = some i ∧ i < s.size ∧
        ((s.pkts i = none ∨ inject = true) ∧ (ipfAuthReply s inobj au inject).1 = s.answered i au.pass ∨
          s.pkts i ≠ none ∧ inject = false ∧ ∃ s₁, s₁ = { s.answered i au.pass with
              used := s.used - 1, auth := Function.update s.auth i { s.auth i with index := -1, pass := 0 } } ∧
            (ipfAuthReply s inobj au inject).1 = s₁.advance (fun _ => true) i) := by
  unfold Softa.accepts ipfAuthReply
  by_cases hin : inobj = true
  swap
  · rw [if_neg (fun h => hin h.1), if_pos (by simpa using hin)]
    exact .inl ⟨rfl, rfl⟩
  rw [if_neg (show ¬(!inobj) = true by simp [hin])]
  by_cases hrange : au.index < 0 ∨ s.size ≤ au.index
  · rw [if_neg (by omega), if_pos hrange]
    exact .inl ⟨rfl, rfl⟩
  rw [if_neg hrange]
  dsimp only
  by_cases hid : (s.auth au.index.toNat).info.finId = au.id
  swap
  · rw [if_neg (fun h => hid h.2.2.2), if_pos hid]
    exact .inl ⟨rfl, rfl⟩
  rw [if_pos ⟨hin, by omega, by omega, hid⟩, if_neg (by simpa using hid)]
  refine .inr ⟨_, rfl, by omega, ?_⟩
  by_cases hfail : ((s.pkts au.index.toNat).isSome && !inject) = true
  · right
    rw [if_pos hfail]
    rw [Bool.and_eq_true] at hfail
    refine ⟨fun hnone => by simp [hnone] at hfail, by simpa using hfail.2, _, rfl, ?_⟩
    simp [Softa.setAuth, Softa.setPkt, Softa.answered, Softa.free]
  · left
    rw [if_neg hfail]
    refine ⟨?_, rfl⟩
    cases hp : s.pkts au.index.toNat with
    | none => exact .inl rfl
    | some m => exact .inr (by simpa [hp] using hfail)

/-- An answer to a slot that waits. -/
theorem Ring.answered (h : Ring s) (hi : i < s.size) (hwait : 0 ≤ (s.auth i).index) (pass : Flags) :
    Ring (s.answered i pass) ∧ (s.Replied → (s.answered i pass).Replied) := by
  have hmem := h.mem hi (by omega)
  constructor
  · refine h.set hi rfl h.start h.stop h.next (fun j hj => ?_) ?_ ?_ (fun j hj hno => ?_) ?_
    · simp [Softa.answered, hj]
    · simp [Softa.answered]
    · simp [Softa.answered]
    · have hji : j ≠ i := fun hji => hno (hji ▸ hmem)
      simpa [Softa.answered, hji] using h.outside j hj hno
    · have hne : (s.auth i).index ≠ -1 := by omega
      simp [Softa.answered, hne]
  · intro hr
    have hne : (s.auth i).index ≠ -2 := by omega
    refine hr.set hi rfl (fun j hj => ?_) ?_
    · simp [Softa.answered, hj]
    · simp [Softa.answered, hne]

theorem expireSlot_size (s : Softa C) (i : ℕ) : (expireSlot s i).size = s.size := by
  unfold expireSlot
  dsimp only
  split
  · split
    · rfl
    · split <;> rfl
  · rfl

/-- **One slot grows older.** -/
theorem Ring.expireSlot (h : Ring s) (hi : i < s.size) :
    Ring (expireSlot s i) ∧ (s.Replied → (Auth.expireSlot s i).Replied) := by
  have hindex := h.index i hi
  have hpkts := h.pkts i hi
  unfold Auth.expireSlot
  dsimp only
  split
  · -- its time is over
    rename_i hexp
    have hne : (s.auth i).index ≠ -1 := by simpa [Softa.setAuth] using hexp.2
    have hmem := h.mem hi hne
    cases hp : s.pkts i with
    | some m =>
      have hp' : (s.setAuth i fun a => { a with age := a.age - 1 }).pkts i = some m := hp
      rw [hp']
      have hpos : 0 ≤ (s.auth i).index := by simpa [hp] using hpkts
      have hne' : (s.auth i).index ≠ -2 := by omega
      dsimp only
      constructor
      · refine h.set hi rfl h.start h.stop h.next (fun j hj => ?_) ?_ ?_ (fun j hj hno => ?_) ?_
        · simp [Softa.setAuth, Softa.setPkt, hj]
        · simp [Softa.setAuth, Softa.setPkt]
        · simp [Softa.setAuth, Softa.setPkt]
        · have hji : j ≠ i := fun hji => hno (hji ▸ hmem)
          simpa [Softa.setAuth, Softa.setPkt, hji] using h.outside j hj hno
        · simp [Softa.setAuth, Softa.setPkt, hne]
      · intro hr
        refine hr.set hi rfl (fun j hj => ?_) ?_
        · simp [Softa.setAuth, Softa.setPkt, hj]
        · simp [Softa.setAuth, Softa.setPkt, hne']
    | none =>
      have hp' : (s.setAuth i fun a => { a with age := a.age - 1 }).pkts i = none := hp
      rw [hp']
      have hans : (s.auth i).index = -2 := by
        have hneg : ¬0 ≤ (s.auth i).index := by simpa [hp] using hpkts
        omega
      dsimp only
      rw [if_pos (by simpa [Softa.setAuth] using hans)]
      constructor
      · refine h.set hi rfl h.start h.stop h.next (fun j hj => ?_) ?_ ?_ (fun j hj hno => ?_) ?_
        · simp [Softa.setAuth, hj]
        · simp [Softa.setAuth]
        · simp [Softa.setAuth, hp]
        · have hji : j ≠ i := fun hji => hno (hji ▸ hmem)
          simpa [Softa.setAuth, hji] using h.outside j hj hno
        · simp [Softa.setAuth, hne]
      · intro hr
        refine hr.set hi rfl (fun j hj => ?_) ?_
        · simp [Softa.setAuth, hj]
        · simp [Softa.setAuth, hans]
  · have hsame : ∀ j, ((s.setAuth i fun a => { a with age := a.age - 1 }).auth j).index = (s.auth j).index := by
      intro j
      by_cases hj : j = i
      · rw [hj]
        simp [Softa.setAuth]
      · simp [Softa.setAuth, hj]
    constructor
    · refine ⟨h.start, h.stop, h.next, fun j hj => ?_, fun j hj => ?_, fun j hj hno => ?_, ?_⟩
      · rw [hsame]
        exact h.index j hj
      · rw [hsame]
        exact h.pkts j hj
      · rw [hsame]
        exact h.outside j hj hno
      · simp only [hsame]
        exact h.used
    · intro hr
      unfold Softa.Replied
      simp only [hsame]
      exact hr

/-- **All slots grow older.** -/
theorem expire_fold : ∀ (l : List ℕ) (s : Softa C), l.Nodup → let s' := l.foldl Auth.expireSlot s
    (s'.size = s.size ∧ s'.start = s.start ∧ s'.stop = s.stop ∧ s'.next = s.next ∧ s'.defaultage = s.defaultage) ∧
      ∀ i, (s'.auth i).age = (if i ∈ l then (s.auth i).age - 1 else (s.auth i).age) ∧
        (s'.auth i).index = (if i ∈ l ∧ (s.auth i).age = 1 ∧ (s.auth i).index ≠ -1 then -1 else (s.auth i).index) ∧
        (s'.auth i).info = (s.auth i).info ∧ (s'.auth i).pass = (s.auth i).pass ∧
        s'.pkts i = if i ∈ l ∧ (s.auth i).age = 1 ∧ (s.auth i).index ≠ -1 then none else s.pkts i
  | [], s, _ => by simp
  | j :: l, s, hnd => by
    rw [List.nodup_cons] at hnd
    have hslot : (((Auth.expireSlot s j).size = s.size ∧ (Auth.expireSlot s j).start = s.start ∧
        (Auth.expireSlot s j).stop = s.stop ∧ (Auth.expireSlot s j).next = s.next ∧
        (Auth.expireSlot s j).defaultage = s.defaultage) ∧
        (∀ i, i ≠ j → (Auth.expireSlot s j).auth i = s.auth i ∧ (Auth.expireSlot s j).pkts i = s.pkts i)) ∧
        ((Auth.expireSlot s j).auth j).age = (s.auth j).age - 1 ∧
        ((Auth.expireSlot s j).auth j).index =
        (if (s.auth j).age = 1 ∧ (s.auth j).index ≠ -1 then -1 else (s.auth j).index) ∧
        ((Auth.expireSlot s j).auth j).info = (s.auth j).info ∧ ((Auth.expireSlot s j).auth j).pass = (s.auth j).pass ∧
        (Auth.expireSlot s j).pkts j = if (s.auth j).age = 1 ∧ (s.auth j).index ≠ -1 then none else s.pkts j := by
      unfold Auth.expireSlot
      dsimp only
      have hiff : (((s.setAuth j fun a => { a with age := a.age - 1 }).auth j).age = 0 ∧
          ((s.setAuth j fun a => { a with age := a.age - 1 }).auth j).index ≠ -1) ↔
          (s.auth j).age = 1 ∧ (s.auth j).index ≠ -1 := by
        simp only [Softa.setAuth, Function.update_self]
        omega
      by_cases hexp : (s.auth j).age = 1 ∧ (s.auth j).index ≠ -1
      · rw [if_pos (hiff.2 hexp), if_pos hexp, if_pos hexp]
        cases hp : s.pkts j with
        | some m =>
          have hp' : (s.setAuth j fun a => { a with age := a.age - 1 }).pkts j = some m := hp
          rw [hp']
          refine ⟨⟨⟨rfl, rfl, rfl, rfl, rfl⟩, fun i hi => ?_⟩, ?_, ?_, ?_, ?_, ?_⟩ <;>
            simp_all [Softa.setAuth, Softa.setPkt]
        | none =>
          have hp' : (s.setAuth j fun a => { a with age := a.age - 1 }).pkts j = none := hp
          rw [hp']
          dsimp only
          split
          · refine ⟨⟨⟨rfl, rfl, rfl, rfl, rfl⟩, fun i hi => ?_⟩, ?_, ?_, ?_, ?_, ?_⟩ <;> simp_all [Softa.setAuth]
          · refine ⟨⟨⟨rfl, rfl, rfl, rfl, rfl⟩, fun i hi => ?_⟩, ?_, ?_, ?_, ?_, ?_⟩ <;> simp_all [Softa.setAuth]
      · rw [if_neg (hiff.not.2 hexp), if_neg hexp, if_neg hexp]
        refine ⟨⟨⟨rfl, rfl, rfl, rfl, rfl⟩, fun i hi => ?_⟩, ?_, ?_, ?_, ?_, ?_⟩ <;> simp_all [Softa.setAuth]
    obtain ⟨⟨⟨g1, g2, g3, g4, g5⟩, hother⟩, hself⟩ := hslot
    obtain ⟨⟨h1, h2, h3, h4, h5⟩, hall⟩ := expire_fold l (Auth.expireSlot s j) hnd.2
    rw [List.foldl_cons]
    refine ⟨⟨h1.trans g1, h2.trans g2, h3.trans g3, h4.trans g4, h5.trans g5⟩, fun i => ?_⟩
    obtain ⟨ha, hb, hc, hd, he⟩ := hall i
    by_cases hij : i = j
    · subst hij
      rw [ha, hb, hc, hd, he]
      simp only [hnd.1, if_false, false_and, List.mem_cons, true_or, if_true, true_and]
      exact hself
    · obtain ⟨hx, hy⟩ := hother i hij
      rw [ha, hb, hc, hd, he, hx, hy]
      simp [hij]

theorem expire_lock (l : List ℕ) (s : Softa C) : (l.foldl expireSlot s).lock = s.lock := by
  induction l generalizing s with
  | nil => rfl
  | cons i l ih =>
    rw [List.foldl_cons, ih]
    unfold expireSlot
    dsimp only
    split
    · split
      · rfl
      · split <;> rfl
    · rfl

/-- **`ipf_auth_expire`.** -/
theorem Ring.expire (h : Ring s) : Ring (ipfAuthExpire s) ∧ (s.Replied → (ipfAuthExpire s).Replied) := by
  -- the loop over the slots
  have hfold : ∀ (l : List ℕ) {s : Softa C}, Ring s → (∀ i ∈ l, i < s.size) → Ring (l.foldl Auth.expireSlot s) ∧
      (s.Replied → (l.foldl Auth.expireSlot s).Replied) := by
    intro l
    induction l with
    | nil => exact fun h _ => ⟨h, id⟩
    | cons i l ih =>
      intro s h hl
      obtain ⟨hring, hrep⟩ := h.expireSlot (hl i (by simp))
      obtain ⟨hring', hrep'⟩ := ih hring fun j hj => by
        rw [expireSlot_size]
        exact hl j (by simp [hj])
      exact ⟨hring', fun hr => hrep' (hrep hr)⟩
  unfold ipfAuthExpire
  split
  · exact ⟨h, id⟩
  · obtain ⟨hring, hrep⟩ := hfold (List.range s.size) h fun i hi => List.mem_range.1 hi
    exact ⟨⟨hring.start, hring.stop, hring.next, hring.index, hring.pkts, hring.outside, hring.used⟩, hrep⟩

theorem flush_fold : ∀ (l : List ℕ) (s : Softa C), (l.foldl flushSlot s).size = s.size ∧
    ∀ i, ((l.foldl flushSlot s).auth i).index = (if i ∈ l then -1 else (s.auth i).index) ∧
      (l.foldl flushSlot s).pkts i = if i ∈ l ∧ (s.auth i).index ≠ -1 then none else s.pkts i
  | [], s => ⟨rfl, fun i => by simp⟩
  | j :: l, s => by
    obtain ⟨hsize, hall⟩ := flush_fold l (flushSlot s j)
    have hslot : (flushSlot s j).size = s.size ∧ ∀ i, ((flushSlot s j).auth i).index =
        (if i = j then -1 else (s.auth i).index) ∧
        (flushSlot s j).pkts i = if i = j ∧ (s.auth i).index ≠ -1 then none else s.pkts i := by
      unfold flushSlot
      split
      · rename_i hne
        refine ⟨rfl, fun i => ?_⟩
        by_cases hij : i = j
        · subst hij
          simp [Softa.setAuth, Softa.setPkt, hne]
        · simp [Softa.setAuth, Softa.setPkt, hij]
      · rename_i heq
        refine ⟨rfl, fun i => ?_⟩
        by_cases hij : i = j
        · subst hij
          simp only [ne_eq, not_not] at heq
          simp [heq]
        · simp [hij]
    rw [List.foldl_cons]
    refine ⟨hsize.trans hslot.1, fun i => ?_⟩
    rw [(hall i).1, (hall i).2, (hslot.2 i).1, (hslot.2 i).2]
    by_cases hij : i = j
    · simp [hij]
    · simp [hij]

theorem flush_lock (l : List ℕ) (s : Softa C) : (l.foldl flushSlot s).lock = s.lock := by
  induction l generalizing s with
  | nil => rfl
  | cons i l ih =>
    rw [List.foldl_cons, ih]
    unfold flushSlot
    split <;> rfl

/-- `ipf_auth_flush` of a ring in which free slots hold no packets. -/
theorem flush_ring (hzero : 0 < s.size) (hlock : s.lock = false)
    (hnone : ∀ i < s.size, (s.auth i).index = -1 → s.pkts i = none) :
    Ring (ipfAuthFlush s) ∧ (ipfAuthFlush s).Replied := by
  unfold ipfAuthFlush
  rw [if_neg (by simp [hlock])]
  obtain ⟨hsize, hall⟩ := flush_fold (List.range s.size) s
  have hindex : ∀ i < s.size, (((List.range s.size).foldl flushSlot s).auth i).index = -1 := fun i hi => by
    rw [(hall i).1, if_pos (List.mem_range.2 hi)]
  have hpkts : ∀ i < s.size, ((List.range s.size).foldl flushSlot s).pkts i = none := fun i hi => by
    rw [(hall i).2]
    split
    · rfl
    · rename_i hno
      refine hnone i hi ?_
      by_contra hne
      exact hno ⟨List.mem_range.2 hi, hne⟩
  constructor
  · refine ⟨by rwa [hsize], by rwa [hsize], by rwa [hsize], fun i hi => .inl (hindex i (hsize ▸ hi)), fun i hi => ?_,
      fun i hi _ => hindex i (hsize ▸ hi), ?_⟩
    · have hi' : i < s.size := hsize ▸ hi
      simp [hindex i hi', hpkts i hi']
    · simp only [hsize]
      rw [tally_zero fun i hi => by simp [hindex i hi]]
      rfl
  · unfold Softa.Replied
    simp only [hsize]
    rw [tally_zero fun i hi => by simp [hindex i hi]]
    rfl

/-- **`ipf_auth_flush`.** -/
theorem Ring.flush (h : Ring s) : Ring (ipfAuthFlush s) ∧ (s.Replied → (ipfAuthFlush s).Replied) := by
  by_cases hlock : s.lock = true
  · rw [ipfAuthFlush, if_pos hlock]
    exact ⟨h, id⟩
  · obtain ⟨hring, hrep⟩ := flush_ring (lt_of_le_of_lt (zero_le _) h.start) (by simpa using hlock) fun i hi hfree => by
      have := h.pkts i hi
      rw [hfree] at this
      simpa using this
    exact ⟨hring, fun _ => hrep⟩

/-- **`ipf_auth_wait`** changes `ipf_auth_next` only. -/
theorem wait_cases {r : Softa C × Waited} (heq : ipfAuthWait fuel s inobj outobj copy = some r) :
    r = (s, .error) ∨ r = (s, .sleeps) ∨ ∃ i, hunt s.size (fun i => (s.pkts i).isSome) fuel s.next = some i ∧
        (r = ({ s with next := i }, .error) ∨ r = ({ s with next := inc s.size i }, .handed i)) := by
  unfold ipfAuthWait at heq
  by_cases hin : (!inobj) = true
  · rw [if_pos hin] at heq
    exact .inl (Option.some.inj heq).symm
  rw [if_neg hin] at heq
  by_cases hused : 0 < s.used
  swap
  · rw [if_neg hused] at heq
    exact .inr (.inl (Option.some.inj heq).symm)
  rw [if_pos hused] at heq
  cases hh : hunt s.size (fun i => (s.pkts i).isSome) fuel s.next with
  | none =>
    rw [hh] at heq
    cases heq
  | some i =>
    rw [hh] at heq
    dsimp only at heq
    refine .inr (.inr ⟨i, rfl, ?_⟩)
    split at heq
    · exact .inl (Option.some.inj heq).symm
    · exact .inr (Option.some.inj heq).symm

theorem hunt_lt {n : ℕ} {p : ℕ → Bool} : ∀ {fuel a : ℕ}, a < n → hunt n p fuel a = some i → i < n
  | 0, a, ha, h => by cases h
  | fuel + 1, a, ha, h => by
    rw [hunt] at h
    split at h
    · exact Option.some.inj h ▸ ha
    · exact hunt_lt (inc_lt ha) h

theorem Ring.wait (h : Ring s) {r : Softa C × Waited} (heq : ipfAuthWait fuel s inobj outobj copy = some r) :
    Ring r.1 ∧ (s.Replied → r.1.Replied) := by
  rcases wait_cases heq with rfl | rfl | ⟨i, hi, rfl | rfl⟩
  · exact ⟨h, id⟩
  · exact ⟨h, id⟩
  · exact ⟨⟨h.start, h.stop, hunt_lt h.next hi, h.index, h.pkts, h.outside, h.used⟩, id⟩
  · exact ⟨⟨h.start, h.stop, inc_lt (hunt_lt h.next hi), h.index, h.pkts, h.outside, h.used⟩, id⟩

/-- A slot after its answer was taken, before the start moves on. -/
def Softa.taken (s : Softa C) (i : ℕ) (rules : List ℕ) (frFlags : ℕ → Flags) (frRef : ℕ → ℤ) : Softa C :=
  { s with
    auth := Function.update s.auth i { s.auth i with index := -1 }
    used := s.used - 1, replies := s.replies - 1, rules := rules, frFlags := frFlags, frRef := frRef }

theorem Ring.taken (h : Ring s) (hi : i ∈ arc s.size s.start s.stop) (hans : (s.auth i).index = -2) (rules : List ℕ)
    (frFlags : ℕ → Flags) (frRef : ℕ → ℤ) :
    Ring (s.taken i rules frFlags frRef) ∧ (s.Replied → (s.taken i rules frFlags frRef).Replied) := by
  have hlt := ((mem_arc h.start h.stop).1 hi).1
  have hpkt : (s.pkts i).isSome = false := by
    have := h.pkts i hlt
    rw [hans] at this
    simpa using this
  constructor
  · refine h.set hlt rfl h.start h.stop h.next (fun j hj => ?_) ?_ ?_ (fun j hj hno => ?_) ?_
    · simp [Softa.taken, hj]
    · simp [Softa.taken]
    · simp [Softa.taken, hpkt]
    · have hji : j ≠ i := fun hji => hno (hji ▸ hi)
      simpa [Softa.taken, hji] using h.outside j hj hno
    · simp [Softa.taken, hans]
  · intro hr
    refine hr.set hlt rfl (fun j hj => ?_) ?_
    · simp [Softa.taken, hj]
    · simp [Softa.taken, hans]

theorem ring_ring {size : ℕ} (hsize : 0 < size) (defaultage : ℤ) (zero : C) (frFlags : ℕ → Flags)
    (frRef : ℕ → ℤ) :
    Ring (ring size defaultage zero frFlags frRef) ∧ (ring size defaultage zero frFlags frRef).Replied :=
  flush_ring hsize rfl fun _ _ _ => rfl

/-- **No free slot between start and end.** -/
structure Filled (s : Softa C) : Prop where
  lock : s.lock = false
  busy : ∀ i ∈ arc s.size s.start s.stop, (s.auth i).index ≠ -1

/-- The start moves on from a slot that has become free. -/
theorem Filled.advance (h : Ring s) (hlock : s.lock = false) (hne : s.start ≠ s.stop) (hfree : (s.auth s.start).index = -1)
    (hbusy : ∀ i ∈ arc s.size s.start s.stop, i ≠ s.start → (s.auth i).index ≠ -1) :
      Filled (s.advance s.free s.start) := by
  unfold Softa.advance
  rw [if_pos rfl]
  dsimp only
  obtain ⟨hend, -⟩ := skip_spec (p := s.free) h.stop s.size h.start hne (le_of_lt (gap_le h.start h.stop))
  set st := skip s.size s.stop s.free s.size s.start
  split
  · exact ⟨hlock, fun i hi => by rw [arc_self] at hi; cases hi⟩
  · rename_i hstop
    obtain ⟨hmem, hst⟩ := hend.resolve_left hstop
    refine ⟨hlock, fun i hi => hbusy i (mem_of_mem_arc h.start h.stop (.inl hmem) hi) fun his => ?_⟩
    -- the old start lies before the new one
    have hnd := nodup_arc h.start h.stop
    have hsts : s.start ≠ st := fun heq => by
      rw [← heq] at hst
      simp [Softa.free, hfree] at hst
    have hstlt := ((mem_arc h.start h.stop).1 hmem).1
    rw [arc_split h.start h.stop (.inl hmem), List.nodup_append', arc_cons h.start hstlt hsts] at hnd
    exact hnd.2.2 List.mem_cons_self (his ▸ hi)

/-- If all slots but one are in use, one is free. -/
theorem Filled.tally_le (hf : Filled s) (h : Ring s) (hfull : inc s.size s.stop = s.start) :
    tally s.size (fun i => decide ((s.auth i).index = -1)) < 2 := by
  have hother : ∀ i < s.size, i ≠ s.stop → (s.auth i).index ≠ -1 := fun i hi hne =>
    hf.busy i (mem_arc_full h.start h.stop hfull hi hne)
  have hchange := tally_change (p := fun i => decide (i = s.stop ∧ (s.auth i).index = -1)) (q := fun _ => false) h.stop
    fun j hj => by simp [hj]
  have hnone : tally s.size (fun _ => false) = 0 := tally_zero fun _ _ => rfl
  have hsame : tally s.size (fun i => decide ((s.auth i).index = -1)) =
      tally s.size fun i => decide (i = s.stop ∧ (s.auth i).index = -1) := tally_congr fun i hi => by
    by_cases his : i = s.stop
    · simp [his]
    · simp [his, hother i hi his]
  rw [hsame]
  split_ifs at hchange <;> omega

variable [DecidableEq C]

/-- **`ipf_auth_check`** finds nothing, or takes an answer for the same packet. -/
theorem Ring.check_cases (h : Ring s) (fin : FrInfo C) (ipId : BitVec 16) (new : Option ℕ) :
    ipfAuthCheck s fin ipId new = ⟨s, fin, none, none, none⟩ ∨
      ∃ i rules frFlags frRef, i ∈ arc s.size s.start s.stop ∧ (s.auth i).index = -2 ∧
        same fin ipId (s.auth i).info = true ∧ (ipfAuthCheck s fin ipId new).pass = some (verdict (s.auth i).pass) ∧
        (ipfAuthCheck s fin ipId new).slot = some i ∧ (ipfAuthCheck s fin ipId new).softa =
          (s.taken i rules frFlags frRef).advance (s.taken i rules frFlags frRef).free i := by
  unfold ipfAuthCheck
  by_cases hskip : (s.lock || decide (s.used = 0)) = true
  · rw [if_pos hskip]
    exact .inl rfl
  rw [if_neg hskip]
  have hseek : s.answer fin ipId = (arc s.size s.start s.stop).find? fun i =>
      decide ((s.auth i).index = -2) && same fin ipId (s.auth i).info :=
    seek_eq h.stop s.size h.start (le_of_lt (gap_le h.start h.stop))
  cases hans : s.answer fin ipId with
  | none => exact .inl rfl
  | some i =>
    rw [hans] at hseek
    have hmem := List.mem_of_find?_eq_some hseek.symm
    have hprop := List.find?_some hseek.symm
    rw [Bool.and_eq_true, decide_eq_true_eq] at hprop
    right
    dsimp only
    generalize (if (has (verdict (s.auth i).pass) FR_KEEPSTATE || (has (verdict (s.auth i).pass) FR_KEEPFRAG &&
      has fin.finFlx FI_FRAG)) = true then new else none) = o
    cases o with
    | none => exact ⟨i, s.rules, s.frFlags, s.frRef, hmem, hprop.1, hprop.2, rfl, rfl, rfl⟩
    | some n => exact ⟨i, _, _, _, hmem, hprop.1, hprop.2, rfl, rfl, rfl⟩

/-- **`ipf_auth_check`.** -/
theorem Ring.check (h : Ring s) (fin : FrInfo C) (ipId : BitVec 16) (new : Option ℕ) :
    Ring (ipfAuthCheck s fin ipId new).softa ∧
    (s.Replied → (ipfAuthCheck s fin ipId new).softa.Replied) := by
  rcases h.check_cases fin ipId new with heq | ⟨i, rules, frFlags, frRef, hi, hans, -, -, -, heq⟩
  · rw [heq]
    exact ⟨h, id⟩
  · rw [heq]
    obtain ⟨hring, hrep⟩ := h.taken hi hans rules frFlags frRef
    exact ⟨hring.advance hi, fun hr => (hrep hr).advance _ _⟩

/-! ## Runs -/

/-- **Replies to packets that wait:** a reply that is accepted is for a slot that waits for it, and the packet can be sent
in again. -/
def Careful (s : Softa C) : Op C → Prop
  | .reply inobj au inject => ∀ i, s.accepts inobj au = some i → 0 ≤ (s.auth i).index ∧ inject = true
  | _ => True

/-- **Runs** in which every call satisfies `ok`. -/
inductive Run (ok : Softa C → Op C → Prop) (s₀ : Softa C) : Softa C → Prop
  | start : Run ok s₀ s₀
  | call {s s' : Softa C} (op : Op C) : Run ok s₀ s → ok s op → step s op = some s' → Run ok s₀ s'

theorem Run.mono {ok ok' : Softa C → Op C → Prop} (hok : ∀ s op, ok s op → ok' s op)
    {s₀ : Softa C} (hr : Run ok s₀ s) :
    Run ok' s₀ s := by
  induction hr with
  | start => exact .start
  | call op _ hc heq ih => exact .call op ih (hok _ _ hc) heq

/-- **Every call.** -/
theorem Ring.step (h : Ring s) (hr : s.Replied) {op : Op C} (hc : Careful s op) (heq : step s op = some s') :
    Ring s' ∧ s'.Replied := by
  cases op with
  | new m fin =>
    cases heq
    rcases h.new_cases m fin with ⟨heq, -⟩ | ⟨hlock, hfull, -⟩
    · rw [heq]
      exact ⟨h, hr⟩
    · obtain ⟨hring, hrep⟩ := h.put hlock hfull m fin
      exact ⟨hring, hrep hr⟩
  | wait fuel inobj outobj copy =>
    obtain ⟨r, hw, rfl⟩ := Option.map_eq_some_iff.1 heq
    obtain ⟨hring, hrep⟩ := h.wait hw
    exact ⟨hring, hrep hr⟩
  | reply inobj au inject =>
    cases heq
    rcases reply_cases s inobj au inject with ⟨-, heq⟩ | ⟨i, hacc, hi, ⟨-, heq⟩ | ⟨-, hinj, -⟩⟩
    · rw [heq]
      exact ⟨h, hr⟩
    · rw [heq]
      obtain ⟨hring, hrep⟩ := h.answered hi (hc i hacc).1 au.pass
      exact ⟨hring, hrep hr⟩
    · exact absurd (hinj.symm.trans (hc i hacc).2) (by simp)
  | check fin ipId new =>
    cases heq
    obtain ⟨hring, hrep⟩ := h.check fin ipId new
    exact ⟨hring, hrep hr⟩
  | expire =>
    cases heq
    obtain ⟨hring, hrep⟩ := h.expire
    exact ⟨hring, hrep hr⟩
  | flush =>
    cases heq
    obtain ⟨hring, hrep⟩ := h.flush
    exact ⟨hring, hrep hr⟩
  | setlock lock =>
    cases heq
    exact ⟨⟨h.start, h.stop, h.next, h.index, h.pkts, h.outside, h.used⟩, hr⟩

/-- **Answers in order:** also, a packet that comes back for an answer comes back for the one at the start, no slot in use
reaches its time, and there is no lock. -/
def Orderly (s : Softa C) (op : Op C) : Prop :=
  Careful s op ∧ match op with
    | .check fin ipId _ =>
      ∀ i ∈ arc s.size s.start s.stop, (s.auth i).index = -2 → same fin ipId (s.auth i).info = true →
        (s.auth s.start).index = -2 ∧ same fin ipId (s.auth s.start).info = true
    | .expire => ∀ i < s.size, (s.auth i).index ≠ -1 → (s.auth i).age ≠ 1
    | .setlock lock => lock = false
    | _ => True

/-- The answer that is used is the one at the start, if that is for the same packet. -/
theorem Ring.check_start (h : Ring s) {fin : FrInfo C} {ipId : BitVec 16} {new : Option ℕ} (hne : s.start ≠ s.stop)
    (hans : (s.auth s.start).index = -2) (hsame : same fin ipId (s.auth s.start).info = true)
    (hslot : (ipfAuthCheck s fin ipId new).slot = some i) : i = s.start := by
  have hseek : s.answer fin ipId = some s.start := by
    refine (seek_eq h.stop s.size h.start (le_of_lt (gap_le h.start h.stop))).trans ?_
    rw [arc_cons h.start h.stop hne, List.find?_cons]
    simp [hans, hsame]
  unfold ipfAuthCheck at hslot
  split at hslot
  · cases hslot
  · rw [hseek] at hslot
    exact (Option.some.inj hslot).symm

/-- **Every call in order.** -/
theorem Filled.step (hf : Filled s) (h : Ring s) {op : Op C} (hc : Orderly s op) (heq : Auth.step s op = some s') :
    Filled s' := by
  obtain ⟨hcare, hop⟩ := hc
  cases op with
  | new m fin =>
    cases heq
    rcases h.new_cases m fin with ⟨heq, -⟩ | ⟨hlock, hfull, -⟩
    · rw [heq]
      exact hf
    · unfold ipfAuthNew
      rw [if_neg (by simp [hlock]), mod_inc h.stop, if_neg hfull]
      refine ⟨hlock, fun i hi => ?_⟩
      have hi' : i ∈ arc s.size s.start (inc s.size s.stop) := hi
      rw [arc_concat h.start h.stop hfull, List.mem_append, List.mem_singleton] at hi'
      by_cases his : i = s.stop
      · simp only [Softa.setPkt, Softa.setAuth, his, Function.update_self]
        omega
      · simpa [Softa.setAuth, Softa.setPkt, his] using hf.busy i (hi'.resolve_right his)
  | wait fuel inobj outobj copy =>
    obtain ⟨r, hw, rfl⟩ := Option.map_eq_some_iff.1 heq
    rcases wait_cases hw with rfl | rfl | ⟨i, -, rfl | rfl⟩ <;> exact ⟨hf.lock, hf.busy⟩
  | reply inobj au inject =>
    cases heq
    rcases reply_cases s inobj au inject with ⟨-, heq⟩ | ⟨i, hacc, -, ⟨-, heq⟩ | ⟨-, hinj, -⟩⟩
    · rw [heq]
      exact hf
    · rw [heq]
      refine ⟨hf.lock, fun j hj => ?_⟩
      by_cases hji : j = i
      · simp [Softa.answered, hji]
      · simpa [Softa.answered, hji] using hf.busy j hj
    · exact absurd (hinj.symm.trans (hcare i hacc).2) (by simp)
  | check fin ipId new =>
    cases heq
    rcases h.check_cases fin ipId new with heq | ⟨i, rules, frFlags, frRef, hi, hans, hsame, -, hslot, heq⟩
    · rw [heq]
      exact hf
    · have hne : s.start ≠ s.stop := fun hss => by
        rw [hss, arc_self] at hi
        cases hi
      obtain ⟨hans', hsame'⟩ := hop i hi hans hsame
      obtain rfl := h.check_start hne hans' hsame' hslot
      rw [heq]
      refine Filled.advance (h.taken hi hans rules frFlags frRef).1 hf.lock hne (by simp [Softa.taken]) fun j hj hjs => ?_
      have hjs' : j ≠ s.start := hjs
      simpa [Softa.taken, hjs'] using hf.busy j hj
  | expire =>
    cases heq
    unfold ipfAuthExpire
    rw [if_neg (by simp [hf.lock])]
    obtain ⟨⟨hsize, hstart, hstop, -, -⟩, hall⟩ := expire_fold (List.range s.size) s List.nodup_range
    refine ⟨(expire_lock _ s).trans hf.lock, fun i hi => ?_⟩
    simp only [hsize, hstart, hstop] at hi
    have hbusy := hf.busy i hi
    simp only [(hall i).2.1]
    rw [if_neg fun hexp => hop i ((mem_arc h.start h.stop).1 hi).1 hexp.2.2 hexp.2.1]
    exact hbusy
  | flush =>
    cases heq
    unfold ipfAuthFlush
    rw [if_neg (by simp [hf.lock])]
    refine ⟨(flush_lock _ s).trans hf.lock, fun i hi => ?_⟩
    rw [arc_self] at hi
    cases hi
  | setlock lock =>
    cases heq
    exact ⟨hop, hf.busy⟩

/-- **The ring** in every run with replies to packets that wait: the slots in use and the answers are counted, the other
slots are free, and a packet is refused only under a lock, or if the slots from start to end are all but one. If also answers
are used in order, nothing expires and there is no lock, a packet is refused only if less than two slots are free. -/
theorem run_ring {size : ℕ} (hsize : 0 < size) {defaultage : ℤ} {zero : C} {frFlags : ℕ → Flags} {frRef : ℕ → ℤ}
    (hr : Run Careful (ring size defaultage zero frFlags frRef) s) :
    s.used = tally s.size (fun i => decide ((s.auth i).index ≠ -1)) ∧
      s.replies = tally s.size (fun i => decide ((s.auth i).index = -2)) ∧
      (∀ i < s.size, i ∉ arc s.size s.start s.stop → (s.auth i).index = -1) ∧
      (∀ m fin, (ipfAuthNew s m fin).2 = false →
        s.lock = true ∨ ∀ i < s.size, i ≠ s.stop → i ∈ arc s.size s.start s.stop) ∧
      (Run Orderly (ring size defaultage zero frFlags frRef) s → ∀ m fin, (ipfAuthNew s m fin).2 = false →
        tally s.size (fun i => decide ((s.auth i).index = -1)) < 2) := by
  have hring : ∀ {s}, Run Careful (ring size defaultage zero frFlags frRef) s → Ring s ∧ s.Replied := fun {s} hr => by
    induction hr with
    | start => exact ring_ring hsize defaultage zero frFlags frRef
    | call op _ hc heq ih => exact ih.1.step ih.2 hc heq
  obtain ⟨h, hrep⟩ := hring hr
  refine ⟨h.used, hrep, h.outside, fun m fin hno => ?_, fun ho m fin hno => ?_⟩
  · rcases h.new_cases m fin with ⟨-, hlock | hfull⟩ | ⟨-, -, hyes⟩
    · exact .inl hlock
    · exact .inr fun i hi hne => mem_arc_full h.start h.stop hfull hi hne
    · exact absurd (hno.symm.trans hyes) (by simp)
  · have hfilled : Filled s := by
      clear h hrep hno hr
      induction ho with
      | start => exact ⟨flush_lock _ _, fun i hi => by
          rw [show (ring size defaultage zero frFlags frRef).start = (ring size defaultage zero frFlags frRef).stop from rfl,
            arc_self] at hi
          cases hi⟩
      | call op hr hc heq ih => exact ih.step (hring (hr.mono fun _ _ hc => hc.1)).1 hc heq
    rcases h.new_cases m fin with ⟨-, hlock | hfull⟩ | ⟨-, -, hyes⟩
    · exact absurd (hfilled.lock.symm.trans hlock) (by simp)
    · exact hfilled.tally_le h hfull
    · exact absurd (hno.symm.trans hyes) (by simp)

/-! ## A ring of four slots -/

/-- Four slots, all of them free. -/
def four : Softa Unit := ring 4 600 () (fun _ => 0) fun _ => 1

/-- A packet with an id. -/
def packet (id : BitVec 32) : FrInfo Unit := ⟨some 1, false, 0, (), id⟩

/-- The state after a call. -/
def after (s : Softa Unit) (op : Op Unit) : Softa Unit := (step s op).getD s

theorem step_after {s : Softa Unit} {op : Op Unit} (h : (step s op).isSome = true) : step s op = some (after s op) := by
  obtain ⟨r, hr⟩ := Option.isSome_iff_exists.1 h
  rw [after, hr]
  rfl

/-- Three packets wait. -/
def three : Softa Unit := after (after (after four (.new 0 (packet 1))) (.new 1 (packet 2))) (.new 2 (packet 3))

theorem three_run (ok : Softa Unit → Op Unit → Prop) (h : ∀ s m fin, ok s (.new m fin)) : Run ok four three :=
  .call _ (.call _ (.call _ .start (h _ _ _) (step_after (by decide))) (h _ _ _) (step_after (by decide))) (h _ _ _)
    (step_after (by decide))

/-- The second packet is answered, and comes back. -/
def second : Softa Unit := after (after three (.reply true ⟨1, 2, FR_PASS⟩ true)) (.check (packet 2) 2 none)

theorem second_run : Run Careful four second := by
  refine .call (.check (packet 2) 2 none) (.call (.reply true ⟨1, 2, FR_PASS⟩ true)
    (three_run Careful fun _ _ _ => trivial) ?_ (step_after (by decide))) trivial (step_after (by decide))
  intro i hi
  obtain rfl : i = 1 := Option.some.inj (hi.symm.trans (by decide))
  exact ⟨by decide, rfl⟩

/-- The first packet is answered and comes back, and a fourth one takes the last slot. -/
def again : Softa Unit :=
  after (after (after three (.reply true ⟨0, 1, FR_PASS⟩ true)) (.check (packet 1) 1 none)) (.new 3 (packet 4))

theorem again_run : Run Orderly four again := by
  refine .call (.new 3 (packet 4)) (.call (.check (packet 1) 1 none) (.call (.reply true ⟨0, 1, FR_PASS⟩ true)
    (three_run Orderly fun _ _ _ => ⟨trivial, trivial⟩) ⟨?_, trivial⟩ (step_after (by decide))) ⟨trivial, ?_⟩
    (step_after (by decide))) ⟨trivial, trivial⟩ (step_after (by decide))
  · intro i hi
    obtain rfl : i = 0 := Option.some.inj (hi.symm.trans (by decide))
    exact ⟨by decide, rfl⟩
  · exact fun _ _ _ _ => by decide

/-- Three packets wait again, and there is no room for another one. -/
theorem run_ring_again :
    Run Orderly four again ∧ again.used = tally again.size (fun i => decide ((again.auth i).index ≠ -1)) ∧
    again.used = 3 ∧ tally again.size (fun i => decide ((again.auth i).index = -1)) < 2 := by
  obtain ⟨hused, -, -, -, hroom⟩ := run_ring (by decide) (again_run.mono fun _ _ hc => hc.1)
  exact ⟨again_run, hused, by decide, hroom again_run 4 (packet 5) (by decide)⟩

/-- The third packet is answered too, and comes back. -/
def both : Softa Unit := after (after second (.reply true ⟨2, 3, FR_PASS⟩ true)) (.check (packet 3) 3 none)

/-- A ring of two slots, in which a packet waits for one tick. -/
def two : Softa Unit := ring 2 1 () (fun _ => 0) fun _ => 1

/-- The packet has expired. -/
def expired : Softa Unit := after (after two (.new 0 (packet 1))) .expire

/-- **Free slots are not used, and counts go wrong.** After answers to the second and the third of three packets, three of
four slots are free, but another packet is refused; and one is refused when all slots are free because the only packet has
expired. After `ipf_auth_soft_init` no slot is free. A reply to a slot that was never used makes it an answered one, which
`ipf_auth_used` does not count. If a packet cannot be sent in again, `ipf_auth_replies` still counts its answer, and the
slots that wait are no longer between start and end. -/
theorem slots_lost :
    (Run Careful four both ∧ tally 4 (fun i => decide ((both.auth i).index = -1)) = 3 ∧
      (ipfAuthNew both 3 (packet 4)).2 = false) ∧
    (Run Careful two expired ∧ tally 2 (fun i => decide ((expired.auth i).index = -1)) = 2 ∧ expired.lock = false ∧
      (ipfAuthNew expired 1 (packet 2)).2 = false) ∧
    ((ipfAuthSoftInit 4 600 () (fun _ => 0) fun _ => 1).used = 0 ∧
      tally 4 (fun i => decide (((ipfAuthSoftInit 4 600 () (fun _ => 0) fun _ => 1).auth i).index ≠ -1)) = 4) ∧
    (Run (fun _ _ => True) four (after four (.reply true ⟨0, 0, FR_PASS⟩ true)) ∧
      ((after four (.reply true ⟨0, 0, FR_PASS⟩ true)).auth 0).index = -2 ∧
      (after four (.reply true ⟨0, 0, FR_PASS⟩ true)).used = 0) ∧
    Run (fun _ _ => True) four (after three (.reply true ⟨0, 1, FR_PASS⟩ false)) ∧
      (after three (.reply true ⟨0, 1, FR_PASS⟩ false)).replies = 1 ∧
      tally 4 (fun i => decide (((after three (.reply true ⟨0, 1, FR_PASS⟩ false)).auth i).index = -2)) = 0 ∧
      arc 4 (after three (.reply true ⟨0, 1, FR_PASS⟩ false)).start
        (after three (.reply true ⟨0, 1, FR_PASS⟩ false)).stop = [] ∧
      ((after three (.reply true ⟨0, 1, FR_PASS⟩ false)).auth 1).index = 1 := by
  refine ⟨⟨?_, by decide, by decide⟩,
    ⟨.call .expire (.call (.new 0 (packet 1)) .start trivial (step_after (by decide))) trivial (step_after (by decide)),
      by decide, by decide, by decide⟩, ⟨rfl, by decide⟩,
    ⟨.call _ .start trivial (step_after (by decide)), by decide, by decide⟩,
    .call _ (three_run _ fun _ _ _ => trivial) trivial (step_after (by decide)), by decide, by decide, by decide, by decide⟩
  refine .call (.check (packet 3) 3 none) (.call (.reply true ⟨2, 3, FR_PASS⟩ true) second_run ?_ (step_after (by decide)))
    trivial (step_after (by decide))
  intro i hi
  obtain rfl : i = 2 := Option.some.inj (hi.symm.trans (by decide))
  exact ⟨by decide, rfl⟩

end Ipfilter.Auth
