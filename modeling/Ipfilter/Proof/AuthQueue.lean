import Ipfilter.Proof.AuthRing

/-!
# The queue of the authentication ring

The packets from `ipf_auth_next` to the end of the ring are a queue. In runs in which `ipf_auth_wait` is called when there is
a packet in it, and replies are for packets that were handed over, packets leave it one by one, from the front.

`Line` says what keeps it so, and one lemma for each call says what the call does to the queue.
-/

namespace Ipfilter.Auth

open Cyclic List

variable {C : Type} {s s' : Softa C} {i j m : ℕ} {fin : FrInfo C}

/-! ## The queue -/

/-- **The packets that have not been handed over.** -/
def Softa.queue (s : Softa C) : List ℕ := (arc s.size s.next s.stop).filterMap s.pkts

/-- **The ring with its queue:** packets in front of `ipf_auth_next` have been handed over. Slots grow old in order, and a
slot of the queue is free only if it has expired. -/
structure Line (s : Softa C) : Prop extends Ring s where
  within : s.next ∈ arc s.size s.start s.stop ∨ s.next = s.stop
  ages : (arc s.size s.start s.stop).Pairwise fun i j => (s.auth i).age ≤ (s.auth j).age
  young : ∀ i ∈ arc s.size s.start s.stop, (s.auth i).age ≤ s.defaultage
  live : ∀ i ∈ arc s.size s.start s.stop, (s.auth i).index ≠ -1 → 0 < (s.auth i).age
  gone : ∀ i ∈ arc s.size s.next s.stop, (s.auth i).index = -1 → (s.auth i).age ≤ 0
  asked : ∀ i ∈ arc s.size s.next s.stop, (s.auth i).index ≠ -2
  aging : 0 < s.defaultage

theorem Line.split (h : Line s) : arc s.size s.start s.stop = arc s.size s.start s.next ++ arc s.size s.next s.stop :=
  arc_split h.start h.stop h.within

theorem Line.mem_arc (h : Line s) (hi : i ∈ arc s.size s.next s.stop) : i ∈ arc s.size s.start s.stop :=
  mem_of_mem_arc h.start h.stop h.within hi

theorem Line.lt (h : Line s) (hi : i ∈ arc s.size s.start s.stop) : i < s.size := ((Cyclic.mem_arc h.start h.stop).1 hi).1

/-- A slot that has been handed over is not in the queue. -/
theorem Line.handed (h : Line s) (hi : i ∈ arc s.size s.start s.next) : i ∉ arc s.size s.next s.stop := by
  have hnd := nodup_arc h.start h.stop
  rw [h.split, nodup_append'] at hnd
  exact fun hi' => hnd.2.2 hi hi'

/-- A slot of the ring that is answered has been handed over. -/
theorem Line.answered_handed (h : Line s) (hi : i ∈ arc s.size s.start s.stop) (hans : (s.auth i).index = -2) :
    i ∈ arc s.size s.start s.next := by
  rw [h.split, mem_append] at hi
  exact hi.resolve_right fun hi' => h.asked i hi' hans

/-- The queue depends on the slots of the queue only. -/
theorem queue_congr (hsize : s'.size = s.size) (hnext : s'.next = s.next) (hstop : s'.stop = s.stop)
    (hpkts : ∀ i ∈ arc s.size s.next s.stop, s'.pkts i = s.pkts i) : s'.queue = s.queue := by
  unfold Softa.queue
  rw [hsize, hnext, hstop]
  exact filterMap_congr hpkts

/-! ## The calls -/

/-- What a new packet changes. -/
theorem put_fields (hstop : s.stop < s.size) (hlock : s.lock = false) (hfull : inc s.size s.stop ≠ s.start) (m : ℕ)
    (fin : FrInfo C) : let s' := (ipfAuthNew s m fin).1
    (s'.size = s.size ∧ s'.start = s.start ∧ s'.stop = inc s.size s.stop ∧ s'.next = s.next ∧
      s'.defaultage = s.defaultage) ∧
      (s'.auth s.stop).age = s.defaultage ∧ (s'.auth s.stop).index = s.stop ∧ (s'.auth s.stop).info = stored fin ∧
      s'.pkts s.stop = some m ∧ ∀ j, j ≠ s.stop → s'.auth j = s.auth j ∧ s'.pkts j = s.pkts j := by
  unfold ipfAuthNew
  rw [if_neg (by simp [hlock]), mod_inc hstop, if_neg hfull]
  refine ⟨⟨rfl, rfl, rfl, rfl, rfl⟩, ?_, ?_, ?_, ?_, fun j hj => ⟨?_, ?_⟩⟩ <;> simp [Softa.setAuth, Softa.setPkt]
  · simp [hj]
  · simp [hj]

/-- **A packet joins the queue.** -/
theorem Line.put (h : Line s) (hlock : s.lock = false) (hfull : inc s.size s.stop ≠ s.start) (m : ℕ) (fin : FrInfo C) :
    Line (ipfAuthNew s m fin).1 ∧ (ipfAuthNew s m fin).1.queue = s.queue ++ [m] := by
  have hring := (h.toRing.put hlock hfull m fin).1
  have hnext := inc_end_ne h.start h.stop hfull h.within
  have hfields := put_fields h.stop hlock hfull m fin
  generalize (ipfAuthNew s m fin).1 = s' at hring hfields ⊢
  obtain ⟨⟨hsize, hstart, hstop, hnext', hdef⟩, hage, hindex, -, hpkt, hother⟩ := hfields
  have harc : arc s.size s.start (inc s.size s.stop) = arc s.size s.start s.stop ++ [s.stop] :=
    arc_concat h.start h.stop hfull
  have hqueue : arc s.size s.next (inc s.size s.stop) = arc s.size s.next s.stop ++ [s.stop] :=
    arc_concat h.next h.stop hnext
  have hne : ∀ j ∈ arc s.size s.start s.stop, j ≠ s.stop := fun j hj hjs =>
    notMem_arc_end h.start h.stop (hjs ▸ hj)
  have hneq : ∀ j ∈ arc s.size s.next s.stop, j ≠ s.stop := fun j hj => hne j (h.mem_arc hj)
  refine ⟨⟨hring, ?_, ?_, ?_, ?_, ?_, ?_, ?_⟩, ?_⟩
  · rw [hsize, hstart, hstop, hnext', harc]
    rcases h.within with hw | hw
    · exact .inl (mem_append_left _ hw)
    · exact .inl (by rw [hw]; simp)
  · rw [hsize, hstart, hstop, harc, pairwise_append]
    refine ⟨?_, pairwise_singleton _ _, fun i hi j hj => ?_⟩
    · refine List.Pairwise.imp_of_mem (fun {i j} hi hj hle => ?_) h.ages
      rw [(hother i (hne i hi)).1, (hother j (hne j hj)).1]
      exact hle
    · rw [mem_singleton] at hj
      rw [hj, hage, (hother i (hne i hi)).1]
      exact h.young i hi
  · rw [hsize, hstart, hstop, harc, hdef]
    intro i hi
    rcases mem_append.1 hi with hi | hi
    · rw [(hother i (hne i hi)).1]
      exact h.young i hi
    · rw [mem_singleton.1 hi]
      exact Int.le_of_eq hage
  · rw [hsize, hstart, hstop, harc]
    intro i hi hin
    rcases mem_append.1 hi with hi | hi
    · rw [(hother i (hne i hi)).1] at hin ⊢
      exact h.live i hi hin
    · rw [mem_singleton.1 hi, hage]
      exact h.aging
  · rw [hsize, hnext', hstop, hqueue]
    intro i hi hin
    rcases mem_append.1 hi with hi | hi
    · rw [(hother i (hneq i hi)).1] at hin ⊢
      exact h.gone i hi hin
    · rw [mem_singleton.1 hi, hindex] at hin
      omega
  · rw [hsize, hnext', hstop, hqueue]
    intro i hi
    rcases mem_append.1 hi with hi | hi
    · rw [(hother i (hneq i hi)).1]
      exact h.asked i hi
    · rw [mem_singleton.1 hi, hindex]
      omega
  · rw [hdef]
    exact h.aging
  · unfold Softa.queue
    rw [hsize, hnext', hstop, hqueue, filterMap_append]
    congr 1
    · exact filterMap_congr fun i hi => (hother i (hneq i hi)).2
    · simp [hpkt]

/-- The search of `ipf_auth_wait`: it finds the first packet of the queue. -/
theorem Line.hunt (h : Line s) (hne : s.queue ≠ []) : ∃ i ∈ arc s.size s.next s.stop, (s.pkts i).isSome = true ∧
    (∀ j ∈ arc s.size s.next i, s.pkts j = none) ∧
    (∃ fuel, Cyclic.hunt s.size (fun i => (s.pkts i).isSome) fuel s.next = some i) ∧
    ∀ fuel k, Cyclic.hunt s.size (fun i => (s.pkts i).isSome) fuel s.next = some k → k = i := by
  have hsome : ((arc s.size s.next s.stop).find? fun i => (s.pkts i).isSome).isSome = true := by
    rw [find?_isSome]
    by_contra hno
    apply hne
    rw [Softa.queue, filterMap_eq_nil_iff]
    intro j hj
    cases hp : s.pkts j with
    | none => rfl
    | some m => exact absurd ⟨j, hj, by simp [hp]⟩ hno
  obtain ⟨i, hi⟩ := Option.isSome_iff_exists.1 hsome
  have hmem := mem_of_find?_eq_some hi
  have hhunt := hunt_eq h.stop s.size h.next (le_of_lt (gap_le h.next h.stop)) hi
  have hfirst : (s.pkts i).isSome = true := by simpa using find?_some hi
  refine ⟨i, hmem, hfirst, fun j hj => ?_, ⟨s.size, hhunt⟩, fun fuel k hk => ?_⟩
  · -- `i` is the first one
    have hilt := ((Cyclic.mem_arc h.next h.stop).1 hmem).1
    rw [arc_split h.next h.stop (.inl hmem)] at hi
    cases hp : s.pkts j with
    | none => rfl
    | some m =>
      have hfound : ((arc s.size s.next i).find? fun i => (s.pkts i).isSome).isSome = true := by
        rw [find?_isSome]
        exact ⟨j, hj, by simp [hp]⟩
      obtain ⟨k, hk⟩ := Option.isSome_iff_exists.1 hfound
      rw [find?_append, hk] at hi
      obtain rfl : k = i := Option.some.inj hi
      exact absurd (mem_of_find?_eq_some hk) (notMem_arc_end h.next hilt)
  · have h1 := hunt_mono hhunt (le_max_left s.size fuel)
    have h2 := hunt_mono hk (le_max_right s.size fuel)
    exact Option.mem_unique h2 h1

/-- `ipf_auth_next` moves on within the queue. -/
theorem Line.move (h : Line s) {c : ℕ} (hc : c ∈ arc s.size s.next s.stop ∨ c = s.stop) : Line { s with next := c } := by
  have hsub : ∀ i ∈ arc s.size c s.stop, i ∈ arc s.size s.next s.stop := fun i hi => mem_of_mem_arc h.next h.stop hc hi
  have hlt : c < s.size := by
    rcases hc with hc | hc
    · exact ((Cyclic.mem_arc h.next h.stop).1 hc).1
    · rw [hc]
      exact h.stop
  refine ⟨⟨h.start, h.stop, hlt, h.index, h.pkts, h.outside, h.used⟩, ?_, h.ages, h.young, h.live,
    fun i hi => h.gone i (hsub i hi), fun i hi => h.asked i (hsub i hi), h.aging⟩
  rcases hc with hc | hc
  · exact .inl (h.mem_arc hc)
  · exact .inr hc

variable {inobj outobj copy inject : Bool} {au : Reply} {fuel : ℕ}

/-- **A packet is handed over:** the first one of the queue, or none. -/
theorem Line.wait (h : Line s) (hne : inobj = true → 0 < s.used → s.queue ≠ []) {r : Softa C × Waited}
    (heq : ipfAuthWait fuel s inobj outobj copy = some r) : Line r.1 ∧ ((∀ i, r.2 ≠ .handed i) ∧ r.1.queue = s.queue ∨
        ∃ i m, r.2 = .handed i ∧ s.pkts i = some m ∧ s.queue = m :: r.1.queue) := by
  unfold ipfAuthWait at heq
  by_cases hin : (!inobj) = true
  · rw [if_pos hin] at heq
    cases heq
    exact ⟨h, .inl ⟨fun i => by simp, rfl⟩⟩
  rw [if_neg hin] at heq
  by_cases hused : 0 < s.used
  swap
  · rw [if_neg hused] at heq
    cases heq
    exact ⟨h, .inl ⟨fun i => by simp, rfl⟩⟩
  rw [if_pos hused] at heq
  obtain ⟨i, hi, hsome, hbefore, -, huniq⟩ := h.hunt (hne (by simpa using hin) hused)
  cases hh : Cyclic.hunt s.size (fun i => (s.pkts i).isSome) fuel s.next with
  | none =>
    rw [hh] at heq
    cases heq
  | some k =>
    obtain rfl := huniq fuel k hh
    rw [hh] at heq
    dsimp only at heq
    have hklt := h.lt (h.mem_arc hi)
    have hks : k ≠ s.stop := fun hks => notMem_arc_end h.next h.stop (hks ▸ hi)
    have hskip : (arc s.size s.next k).filterMap s.pkts = [] := by
      rw [filterMap_eq_nil_iff]
      exact hbefore
    have hqueue : s.queue = (arc s.size k s.stop).filterMap s.pkts := by
      rw [Softa.queue, arc_split h.next h.stop (.inl hi), filterMap_append, hskip, nil_append]
    split at heq
    · cases heq
      exact ⟨h.move (.inl hi), .inl ⟨fun i => by simp, hqueue.symm⟩⟩
    · cases heq
      refine ⟨h.move (inc_mem h.next h.stop hi), .inr ?_⟩
      obtain ⟨m, hm⟩ := Option.isSome_iff_exists.1 hsome
      refine ⟨k, m, rfl, hm, ?_⟩
      rw [hqueue, arc_cons hklt h.stop hks, filterMap_cons, hm]
      rfl

/-- **A packet that was handed over is answered.** -/
theorem Line.answered (h : Line s) (hi : i ∈ arc s.size s.start s.next) (hwait : 0 ≤ (s.auth i).index) (pass : Flags) :
    Line (s.answered i pass) ∧ (s.answered i pass).queue = s.queue := by
  have hin : i ∈ arc s.size s.start s.stop := by
    rw [h.split]
    exact mem_append_left _ hi
  have hlt := h.lt hin
  have hring := (h.toRing.answered hlt hwait pass).1
  have hage : ∀ j, ((s.answered i pass).auth j).age = (s.auth j).age := fun j => by
    by_cases hj : j = i <;> simp [Softa.answered, hj]
  have hindex : ∀ j, j ≠ i → ((s.answered i pass).auth j).index = (s.auth j).index := fun j hj => by
    simp [Softa.answered, hj]
  have hqne : ∀ j ∈ arc s.size s.next s.stop, j ≠ i := fun j hj hji => h.handed hi (hji ▸ hj)
  refine ⟨⟨hring, h.within, ?_, fun j hj => ?_, fun j hj hin' => ?_, fun j hj hfree => ?_, fun j hj => ?_, h.aging⟩, ?_⟩
  · simp only [hage]
    exact h.ages
  · rw [hage]
    exact h.young j hj
  · rw [hage]
    by_cases hji : j = i
    · rw [hji]
      exact h.live i hin (by omega)
    · rw [hindex j hji] at hin'
      exact h.live j hj hin'
  · rw [hindex j (hqne j hj)] at hfree
    rw [hage]
    exact h.gone j hj hfree
  · rw [hindex j (hqne j hj)]
    exact h.asked j hj
  · refine queue_congr rfl rfl rfl fun j hj => ?_
    simp [Softa.answered, hqne j hj]

/-- A slot that was handed over becomes free, before the start moves on. -/
theorem Line.free (h : Line s) (hring : Ring s') (hi : i ∈ arc s.size s.start s.next)
    (hrest : s'.size = s.size ∧ s'.start = s.start ∧ s'.stop = s.stop ∧ s'.next = s.next ∧ s'.defaultage = s.defaultage)
    (hself : (s'.auth i).index = -1 ∧ (s'.auth i).age = (s.auth i).age)
    (hother : ∀ j, j ≠ i → s'.auth j = s.auth j ∧ s'.pkts j = s.pkts j) : Line s' ∧ s'.queue = s.queue := by
  obtain ⟨hsize, hstart, hstop, hnext, hdef⟩ := hrest
  have hage : ∀ j, (s'.auth j).age = (s.auth j).age := fun j => by
    by_cases hj : j = i
    · rw [hj, hself.2]
    · rw [(hother j hj).1]
  have hqne : ∀ j ∈ arc s.size s.next s.stop, j ≠ i := fun j hj hji => h.handed hi (hji ▸ hj)
  refine ⟨⟨hring, ?_, ?_, ?_, ?_, ?_, ?_, by rw [hdef]; exact h.aging⟩, ?_⟩
  · rw [hsize, hstart, hstop, hnext]
    exact h.within
  · rw [hsize, hstart, hstop]
    simp only [hage]
    exact h.ages
  · rw [hsize, hstart, hstop, hdef]
    simp only [hage]
    exact h.young
  · rw [hsize, hstart, hstop]
    intro j hj hin
    rw [hage]
    by_cases hji : j = i
    · rw [hji] at hin
      exact absurd hself.1 hin
    · rw [(hother j hji).1] at hin
      exact h.live j hj hin
  · rw [hsize, hnext, hstop]
    intro j hj hfree
    rw [(hother j (hqne j hj)).1] at hfree ⊢
    exact h.gone j hj hfree
  · rw [hsize, hnext, hstop]
    intro j hj
    rw [(hother j (hqne j hj)).1]
    exact h.asked j hj
  · exact queue_congr hsize hnext hstop fun j hj => (hother j (hqne j hj)).2

/-- An empty ring. -/
theorem Line.reset (h : Line s) (hfree : ∀ j < s.size, (s.auth j).index = -1) :
    Line { s with start := 0, stop := 0, next := 0 } ∧ ({ s with start := 0, stop := 0, next := 0 } : Softa C).queue = [] ∧
      s.queue = [] := by
  have hzero : 0 < s.size := Nat.lt_of_le_of_lt (Nat.zero_le _) h.start
  have hring := h.toRing.bounds hzero hzero hzero fun j hj _ => hfree j hj
  refine ⟨⟨hring, .inr rfl, ?_, ?_, ?_, ?_, ?_, h.aging⟩, ?_, ?_⟩
  · simp [arc_self]
  · simp [arc_self]
  · simp [arc_self]
  · simp [arc_self]
  · simp [arc_self]
  · simp [Softa.queue, arc_self]
  · rw [Softa.queue, filterMap_eq_nil_iff]
    intro j hj
    have hlt := h.lt (h.mem_arc hj)
    have hno := h.pkts j hlt
    rw [hfree j hlt] at hno
    simpa using hno

/-- **The start moves on** over the slots that were handed over and are free. A slot that waits is not passed, because it is
younger than the one that was answered. -/
theorem Line.advance (h : Line s) (hi : i ∈ arc s.size s.start s.next) (hyoung : 0 < (s.auth i).age) :
    Line (s.advance s.free i) ∧ (s.advance s.free i).queue = s.queue := by
  have hin : i ∈ arc s.size s.start s.stop := by
    rw [h.split]
    exact mem_append_left _ hi
  have hring := h.toRing.advance hin
  unfold Softa.advance at hring ⊢
  by_cases his : i = s.start
  swap
  · rw [if_neg his]
    exact ⟨h, rfl⟩
  rw [if_pos his] at hring ⊢
  dsimp only at hring ⊢
  have hne : s.start ≠ s.stop := by
    intro heq
    rw [heq, arc_self] at hin
    cases hin
  obtain ⟨hend, hall⟩ := skip_spec (p := s.free) h.stop s.size h.start hne (le_of_lt (gap_le h.start h.stop))
  rw [his] at hring hyoung ⊢
  set st := skip s.size s.stop s.free s.size s.start
  have hst : st ∈ arc s.size s.start s.stop ∨ st = s.stop := by
    rcases hend with hs | ⟨hs, -⟩
    · exact .inr hs
    · exact .inl hs
  have hsplit := arc_split h.start h.stop hst
  -- the slots of the queue are younger than the start, so none of them is free
  have hbusy : ∀ j ∈ arc s.size s.next s.stop, (s.auth j).index ≠ -1 := by
    intro j hj hjfree
    have hages := h.ages
    rw [arc_cons h.start h.stop hne, pairwise_cons] at hages
    have hjin := h.mem_arc hj
    rw [arc_cons h.start h.stop hne, mem_cons] at hjin
    rcases hjin with hjs | hjin
    · have := h.gone j hj hjfree
      rw [hjs] at this
      omega
    · have := hages.1 j hjin
      have := h.gone j hj hjfree
      omega
  have hpast : s.next ∉ arc s.size s.start st ∨ s.next = s.stop := by
    by_cases hns : s.next = s.stop
    · exact .inr hns
    · left
      intro hmem
      have hfr := hall s.next hmem
      have hmem' : s.next ∈ arc s.size s.next s.stop := by
        rw [arc_cons h.next h.stop hns]
        exact mem_cons_self
      exact hbusy s.next hmem' (by simpa [Softa.free] using hfr)
  split at hring
  · rename_i hstop
    -- the ring is empty
    rw [if_pos hstop]
    have hallfree : ∀ j < s.size, (s.auth j).index = -1 := by
      intro j hj
      by_cases hjin : j ∈ arc s.size s.start s.stop
      · have := hall j (by rw [hstop]; exact hjin)
        simpa [Softa.free] using this
      · exact h.outside j hj hjin
    obtain ⟨hline, hq, hq'⟩ := h.reset hallfree
    exact ⟨hline, hq.trans hq'.symm⟩
  · rename_i hstop
    rw [if_neg hstop]
    have hsub : ∀ j ∈ arc s.size st s.stop, j ∈ arc s.size s.start s.stop :=
      fun j hj => mem_of_mem_arc h.start h.stop hst hj
    refine ⟨⟨hring, ?_, ?_, fun j hj => h.young j (hsub j hj), fun j hj => h.live j (hsub j hj), h.gone, h.asked,
      h.aging⟩, rfl⟩
    · rcases h.within with hw | hw
      · rcases hpast with hp | hp
        · left
          rw [hsplit, mem_append] at hw
          exact hw.resolve_left hp
        · exact .inr hp
      · exact .inr hw
    · have hages := h.ages
      rw [hsplit, pairwise_append] at hages
      exact hages.2.1

/-- **`ipf_auth_expire`:** packets leave the queue when their time is over. -/
theorem Line.expire (h : Line s) : Line (ipfAuthExpire s) ∧
    (s.lock = true ∧ ipfAuthExpire s = s ∨ (ipfAuthExpire s).queue =
      (arc s.size s.next s.stop).filterMap fun i => if (s.auth i).age = 1 then none else s.pkts i) := by
  have hring := h.toRing.expire.1
  unfold ipfAuthExpire at hring ⊢
  by_cases hlock : s.lock = true
  · rw [if_pos hlock]
    exact ⟨h, .inl ⟨hlock, rfl⟩⟩
  rw [if_neg hlock] at hring ⊢
  dsimp only at hring ⊢
  obtain ⟨⟨hsize, hstart, hstop, hnext, hdef⟩, hall⟩ := expire_fold (range s.size) s nodup_range
  generalize (range s.size).foldl Auth.expireSlot s = s₁ at hring hsize hstart hstop hnext hdef hall ⊢
  have hslot : ∀ i ∈ arc s.size s.start s.stop, (s₁.auth i).age = (s.auth i).age - 1 ∧
      (s₁.auth i).index = (if (s.auth i).age = 1 ∧ (s.auth i).index ≠ -1 then -1 else (s.auth i).index) ∧
      s₁.pkts i = if (s.auth i).age = 1 ∧ (s.auth i).index ≠ -1 then none else s.pkts i := by
    intro i hi
    have hmem : i ∈ range s.size := mem_range.2 (h.lt hi)
    obtain ⟨ha, hb, -, -, he⟩ := hall i
    simp only [hmem, if_true, true_and] at ha hb he
    exact ⟨ha, hb, he⟩
  refine ⟨⟨hring, ?_, ?_, ?_, ?_, ?_, ?_, ?_⟩, .inr ?_⟩
  · simp only [hsize, hstart, hstop, hnext]
    exact h.within
  · simp only [hsize, hstart, hstop]
    refine List.Pairwise.imp_of_mem (fun {i j} hi hj hle => ?_) h.ages
    rw [(hslot i hi).1, (hslot j hj).1]
    omega
  · simp only [hsize, hstart, hstop, hdef]
    intro i hi
    rw [(hslot i hi).1]
    have := h.young i hi
    omega
  · simp only [hsize, hstart, hstop]
    intro i hi hin
    obtain ⟨ha, hb, -⟩ := hslot i hi
    rw [ha]
    rw [hb] at hin
    split at hin
    · exact absurd rfl hin
    · have := h.live i hi hin
      omega
  · simp only [hsize, hnext, hstop]
    intro i hi hfree
    obtain ⟨ha, hb, -⟩ := hslot i (h.mem_arc hi)
    rw [ha]
    rw [hb] at hfree
    split at hfree
    · omega
    · have := h.gone i hi hfree
      omega
  · simp only [hsize, hnext, hstop]
    intro i hi
    obtain ⟨-, hb, -⟩ := hslot i (h.mem_arc hi)
    rw [hb]
    split
    · omega
    · exact h.asked i hi
  · simp only [hdef]
    exact h.aging
  · unfold Softa.queue
    simp only [hsize, hnext, hstop]
    refine filterMap_congr fun i hi => ?_
    obtain ⟨-, -, he⟩ := hslot i (h.mem_arc hi)
    rw [he]
    by_cases hage : (s.auth i).age = 1
    · by_cases hin : (s.auth i).index = -1
      · -- a free slot holds no packet
        have hno := h.pkts i (h.lt (h.mem_arc hi))
        rw [hin] at hno
        simpa [hage, hin] using hno
      · simp [hage, hin]
    · simp [hage]

/-- **`ipf_auth_flush`.** -/
theorem Line.flush (h : Line s) : Line (ipfAuthFlush s) ∧
    (s.lock = true ∧ ipfAuthFlush s = s ∨ (ipfAuthFlush s).queue = []) := by
  have hring := h.toRing.flush.1
  have hdef : (ipfAuthFlush s).defaultage = s.defaultage := by
    have hfold : ∀ (l : List ℕ) (s : Softa C), (l.foldl flushSlot s).defaultage = s.defaultage := by
      intro l
      induction l with
      | nil => exact fun s => rfl
      | cons i l ih =>
        intro s
        rw [foldl_cons, ih]
        unfold flushSlot
        split <;> rfl
    unfold ipfAuthFlush
    split
    · rfl
    · exact hfold _ _
  by_cases hlock : s.lock = true
  · have heq : ipfAuthFlush s = s := by rw [ipfAuthFlush, if_pos hlock]
    rw [heq]
    exact ⟨h, .inl ⟨hlock, rfl⟩⟩
  · have hzero : (ipfAuthFlush s).start = 0 ∧ (ipfAuthFlush s).stop = 0 ∧ (ipfAuthFlush s).next = 0 := by
      rw [ipfAuthFlush, if_neg hlock]
      exact ⟨rfl, rfl, rfl⟩
    generalize ipfAuthFlush s = s' at hring hdef hzero ⊢
    obtain ⟨hstart, hstop, hnext⟩ := hzero
    have hnil : ∀ n, arc n s'.start s'.stop = [] := fun n => by rw [hstart, hstop, arc_self]
    have hnil' : ∀ n, arc n s'.next s'.stop = [] := fun n => by rw [hnext, hstop, arc_self]
    refine ⟨⟨hring, .inr (hnext.trans hstop.symm), ?_, ?_, ?_, ?_, ?_, by rw [hdef]; exact h.aging⟩, .inr ?_⟩
    · simp [hnil]
    · simp [hnil]
    · simp [hnil]
    · simp [hnil']
    · simp [hnil']
    · simp [Softa.queue, hnil']

/-- **A reply** to a packet that was handed over. If the packet cannot be sent in again and its slot is the start, no other
slot may be in use: the start moves to the end of the ring. -/
def Softa.Fits (s : Softa C) (i : ℕ) (inject : Bool) : Prop :=
  i ∈ arc s.size s.start s.next ∧ 0 ≤ (s.auth i).index ∧
    (inject = true ∨ i ≠ s.start ∨ ∀ j ∈ arc s.size s.start s.stop, j ≠ i → (s.auth j).index = -1)

theorem Line.reply (h : Line s) (hfit : ∀ i, s.accepts inobj au = some i → s.Fits i inject) :
    Line (ipfAuthReply s inobj au inject).1 ∧ (ipfAuthReply s inobj au inject).1.queue = s.queue := by
  rcases reply_cases s inobj au inject with ⟨-, heq⟩ | ⟨i, hacc, hi, ⟨-, heq⟩ | ⟨hpkt, hinj, s₁, hs₁, heq⟩⟩
  · rw [heq]
    exact ⟨h, rfl⟩
  · obtain ⟨hin, hwait, -⟩ := hfit i hacc
    rw [heq]
    exact h.answered hin hwait au.pass
  · -- the packet is lost, and its slot is free again
    obtain ⟨hin, hwait, hlast⟩ := hfit i hacc
    have hmem : i ∈ arc s.size s.start s.stop := by
      rw [h.split]
      exact mem_append_left _ hin
    have hself : (s₁.auth i).index = -1 ∧ (s₁.auth i).age = (s.auth i).age := by
      rw [hs₁]
      simp
    have hother : ∀ j, j ≠ i → s₁.auth j = s.auth j ∧ s₁.pkts j = s.pkts j := fun j hj => by
      rw [hs₁]
      simp [Softa.answered, hj]
    have hring : Ring s₁ := by
      rw [hs₁]
      refine h.toRing.set hi rfl h.start h.stop h.next (fun j hj => ?_) ?_ ?_ (fun j hj hno => ?_) ?_
      · simp [Softa.answered, hj]
      · simp
      · simp [Softa.answered]
      · have hji : j ≠ i := fun hji => hno (hji ▸ hmem)
        simpa [Softa.answered, hji] using h.outside j hj hno
      · have hne : (s.auth i).index ≠ -1 := by omega
        simp [hne]
    have hrest : s₁.size = s.size ∧ s₁.start = s.start ∧ s₁.stop = s.stop ∧ s₁.next = s.next ∧
        s₁.defaultage = s.defaultage := by
      rw [hs₁]
      exact ⟨rfl, rfl, rfl, rfl, rfl⟩
    obtain ⟨hline, hqueue⟩ := h.free hring hin hrest hself hother
    obtain ⟨hsize, hstart, hstop, -, -⟩ := hrest
    rw [heq]
    unfold Softa.advance
    by_cases his : i = s₁.start
    · rw [if_pos his]
      dsimp only
      have hne : s₁.start ≠ s₁.stop := by
        rw [hstart, hstop]
        intro heq'
        rw [heq', arc_self] at hmem
        cases hmem
      obtain ⟨hend, -⟩ := skip_spec (p := fun _ => true) hline.stop s₁.size hline.start hne
        (le_of_lt (gap_le hline.start hline.stop))
      have hskip : skip s₁.size s₁.stop (fun _ => true) s₁.size i = s₁.stop := by
        rw [his]
        exact hend.resolve_right fun hr => absurd hr.2 (by simp)
      rw [if_pos hskip]
      have hothers : ∀ j ∈ arc s.size s.start s.stop, j ≠ i → (s.auth j).index = -1 := by
        rcases hlast with h1 | h1 | h1
        · exact absurd (hinj.symm.trans h1) (by simp)
        · exact absurd (his.trans hstart) h1
        · exact h1
      obtain ⟨hline', hq, hq'⟩ := hline.reset fun j hj => by
        by_cases hji : j = i
        · rw [hji]
          exact hself.1
        · rw [(hother j hji).1]
          by_cases hjin : j ∈ arc s.size s.start s.stop
          · exact hothers j hjin hji
          · exact h.outside j (hsize ▸ hj) hjin
      exact ⟨hline', by rw [hq, ← hqueue, hq']⟩
    · rw [if_neg his]
      exact ⟨hline, hqueue⟩

variable [DecidableEq C] {ipId : BitVec 16} {new : Option ℕ}

/-- **An answer is used.** -/
theorem Line.check (h : Line s) (fin : FrInfo C) (ipId : BitVec 16) (new : Option ℕ) :
    Line (ipfAuthCheck s fin ipId new).softa ∧
    (ipfAuthCheck s fin ipId new).softa.queue = s.queue := by
  rcases h.toRing.check_cases fin ipId new with heq | ⟨i, rules, frFlags, frRef, hi, hans, -, -, -, heq⟩
  · rw [heq]
    exact ⟨h, rfl⟩
  · have hin := h.answered_handed hi hans
    have hring := (h.toRing.taken hi hans rules frFlags frRef).1
    obtain ⟨hline, hqueue⟩ := h.free hring hin ⟨rfl, rfl, rfl, rfl, rfl⟩ (by simp [Softa.taken]) fun j hj => by
      simp [Softa.taken, hj]
    have hage : 0 < ((s.taken i rules frFlags frRef).auth i).age := by
      have := h.live i hi (by omega)
      simpa [Softa.taken] using this
    obtain ⟨hline', hqueue'⟩ := hline.advance hin hage
    rw [heq]
    exact ⟨hline', hqueue'.trans hqueue⟩

end Ipfilter.Auth
