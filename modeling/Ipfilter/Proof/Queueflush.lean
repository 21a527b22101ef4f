import Ipfilter.Spec.Queueflush

/-!
# Flushing the timeout queues

* `sweep_spec`, `sweepAll_spec` — a loop removes entries and counts them, and none that it would stop at;
* `Good` — what holds of the window at the start of every turn; `Good.next`, `flushLoop_spec`;
* `queueflush_iff` — **the flush ends, and takes no entry that was touched lately** but for those of closed connections. It
  returns the number of entries that are gone, unless it gives up early in the life of the machine after it has removed some;
  `queueflush_idle` — a flush that does; `queueflush_early` — one that does not.
-/

namespace Ipfilter.Queueflush

open Tcp List BitVec

variable {σ ι : Type} {del : Deletefn σ ι} {active : σ → BitVec 32} {size low : BitVec 32} {ticks : Ulong}

/-! ## Loops over queues -/

/-- What a loop leaves of a queue: entries are gone, but none of those in `p`. -/
structure Leaves (p : Tqent ι → Bool) (q q' : List (Tqent ι)) : Prop where
  sub : q'.Sublist q
  keeps : q'.filter p = q.filter p

theorem Leaves.refl (p : Tqent ι → Bool) (q : List (Tqent ι)) : Leaves p q q := ⟨.refl q, rfl⟩

theorem Leaves.trans {p : Tqent ι → Bool} {q q' q'' : List (Tqent ι)} (h : Leaves p q q') (h' : Leaves p q' q'') :
    Leaves p q q'' :=
  ⟨h'.sub.trans h.sub, h'.keeps.trans h.keeps⟩

/-- **A loop over one queue** counts the entries that it removes, and removes none that it stops at. -/
theorem sweep_spec (del : Deletefn σ ι) {stop : Tqent ι → Bool} (p : Tqent ι → Bool)
    (hstop : ∀ e, p e = true → stop e = true) :
    ∀ (q : List (Tqent ι)) (w : σ) (m : ℕ),
      Leaves p q (sweep del stop q w m).queue ∧ (sweep del stop q w m).removed + (sweep del stop q w m).queue.length =
        m + q.length := by
  intro q
  induction q with
  | nil =>
    intro w m
    exact ⟨.refl p [], rfl⟩
  | cons e q ih =>
    intro w m
    unfold sweep
    by_cases hs : stop e = true
    · rw [if_pos hs]
      exact ⟨.refl p _, rfl⟩
    · have hp : p e = false := by
        rw [← Bool.not_eq_true]
        exact fun h => hs (hstop e h)
      rw [if_neg hs]
      dsimp only
      split
      · obtain ⟨hleaves, hcount⟩ := ih (del w e.tqeParent).1 (m + 1)
        refine ⟨⟨hleaves.sub.cons e, ?_⟩, ?_⟩
        · rw [hleaves.keeps, filter_cons_of_neg (by simp [hp])]
        · rw [hcount, length_cons]
          omega
      · obtain ⟨hleaves, hcount⟩ := ih (del w e.tqeParent).1 m
        refine ⟨⟨hleaves.sub.cons_cons e, ?_⟩, ?_⟩
        · rw [filter_cons_of_neg (by simp [hp]), filter_cons_of_neg (by simp [hp]), hleaves.keeps]
        · dsimp only
          rw [length_cons, length_cons]
          omega

/-- The number of entries of several queues. -/
def total (qs : List (List (Tqent ι))) : ℕ := (qs.map length).sum

/-- **A loop over several queues.** -/
theorem sweepAll_spec (del : Deletefn σ ι) {stop : Tqent ι → Bool} (p : Tqent ι → Bool)
    (hstop : ∀ e, p e = true → stop e = true) :
    ∀ (qs : List (List (Tqent ι))) (w : σ) (m : ℕ),
      (∀ i, Leaves p (qs.getD i []) ((sweepAll del stop qs w m).queue.getD i [])) ∧
        (sweepAll del stop qs w m).removed + total (sweepAll del stop qs w m).queue = m + total qs := by
  intro qs
  induction qs with
  | nil =>
    intro w m
    exact ⟨fun i => .refl p _, rfl⟩
  | cons q qs ih =>
    intro w m
    obtain ⟨hleaves, hcount⟩ := sweep_spec del p hstop q w m
    obtain ⟨hall, hcountAll⟩ := ih (sweep del stop q w m).rest (sweep del stop q w m).removed
    unfold sweepAll
    constructor
    · intro i
      cases i with
      | zero => exact hleaves
      | succ i => exact hall i
    · unfold total at hcountAll ⊢
      simp only [map_cons, sum_cons]
      omega

/-- One of several queues has got shorter. -/
theorem total_set {q' : List (Tqent ι)} : ∀ {qs : List (List (Tqent ι))} {i : ℕ}, q'.length ≤ (qs.getD i []).length →
    total (qs.set i q') + (qs.getD i []).length = total qs + q'.length := by
  intro qs
  induction qs with
  | nil =>
    intro i h
    rw [getD_nil, length_nil] at h ⊢
    rw [set_nil]
    omega
  | cons q qs ih =>
    intro i h
    unfold total at ih ⊢
    cases i with
    | zero =>
      simp only [set_cons_zero, getD_cons_zero, map_cons, sum_cons]
      omega
    | succ i =>
      have hrest := ih (i := i) h
      simp only [set_cons_succ, getD_cons_succ, map_cons, sum_cons]
      omega

/-! ## Steps of the flush -/

/-- An entry that was touched less than 30 seconds ago. -/
def recent (ticks : Ulong) (e : Tqent ι) : Bool := ticks.toNat < e.tqeTouched.toNat + (IPF_TTLVAL 30).toNat

/-- What the flush may do: of the queues, but those of closed connections, no recent entry is gone, and those that are gone are
counted. -/
structure Spares (ticks : Ulong) (f f' : Flush σ ι) : Prop where
  ipfqs : ∀ i, i ≠ IPF_TCPS_CLOSED → i ≠ IPF_TCPS_TIME_WAIT →
    Leaves (recent ticks) (f.ipfqs.getD i []) (f'.ipfqs.getD i [])
  userqs : ∀ i, Leaves (recent ticks) (f.userqs.getD i []) (f'.userqs.getD i [])
  count : f'.removed + (total f'.ipfqs + total f'.userqs) = f.removed + (total f.ipfqs + total f.userqs)

theorem Spares.refl (ticks : Ulong) (f : Flush σ ι) : Spares ticks f f :=
  ⟨fun _ _ _ => .refl _ _, fun _ => .refl _ _, rfl⟩

theorem Spares.trans {f f' f'' : Flush σ ι} (h : Spares ticks f f') (h' : Spares ticks f' f'') : Spares ticks f f'' where
  ipfqs i hc ht := (h.ipfqs i hc ht).trans (h'.ipfqs i hc ht)
  userqs i := (h.userqs i).trans (h'.userqs i)
  count := h'.count.trans h.count

theorem clear_spares {i : ℕ} (hi : i = IPF_TCPS_CLOSED ∨ i = IPF_TCPS_TIME_WAIT) (f : Flush σ ι) :
    Spares ticks f (f.clear del i) := by
  obtain ⟨hleaves, hcount⟩ := sweep_spec del (fun _ => false) (fun _ h => h) (f.ipfqs.getD i []) f.rest f.removed
  have htotal := total_set hleaves.sub.length_le
  refine ⟨fun j hc ht => ?_, fun j => .refl _ _, ?_⟩
  · have hj : i ≠ j := by
      rintro rfl
      exact hi.elim hc ht
    have hsame : (f.clear del i).ipfqs.getD j [] = f.ipfqs.getD j [] := by
      unfold Flush.clear
      rw [getD_eq_getElem?_getD, getElem?_set_ne hj, ← getD_eq_getElem?_getD]
    rw [hsame]
    exact .refl _ _
  · unfold Flush.clear
    dsimp only
    omega

theorem closed_spares (f : Flush σ ι) : Spares ticks f (f.closed del active size low) := by
  unfold Flush.closed
  dsimp only
  split
  · exact (clear_spares (.inl rfl) f).trans (clear_spares (.inr rfl) _)
  · exact clear_spares (.inl rfl) f

/-- **A turn of the loop** spares recent entries if its window does. -/
theorem turn_spares (del : Deletefn σ ι) {since : Ulong} (h : since.toNat + (IPF_TTLVAL 30).toNat ≤ ticks.toNat)
    (f : Flush σ ι) :
    Spares ticks f (f.turn del since) := by
  have hstop : ∀ e : Tqent ι, recent ticks e = true → decide (since < e.tqeTouched.zeroExtend 64) = true := by
    intro e he
    have hrecent := of_decide_eq_true he
    have hlt := e.tqeTouched.isLt
    apply decide_eq_true
    rw [lt_def, BitVec.zeroExtend, toNat_setWidth, Nat.mod_eq_of_lt (by omega)]
    omega
  obtain ⟨hleaves, hcount⟩ := sweepAll_spec del (recent ticks) hstop f.ipfqs f.rest f.removed
  obtain ⟨hleaves', hcount'⟩ := sweepAll_spec del (recent ticks) hstop f.userqs
    (sweepAll del (fun e => since < e.tqeTouched.zeroExtend 64) f.ipfqs f.rest f.removed).rest
    (sweepAll del (fun e => since < e.tqeTouched.zeroExtend 64) f.ipfqs f.rest f.removed).removed
  unfold Flush.turn
  refine ⟨fun i _ _ => hleaves i, hleaves', ?_⟩
  dsimp only
  omega

/-! ## The window -/

theorem ttlval_half : (IPF_TTLVAL 30).toNat = 60 := rfl

theorem ttlval_hour : (IPF_TTLVAL 1800).toNat = 3600 := rfl

theorem ttlval_day : (IPF_TTLVAL 43200).toNat = 86400 := rfl

/-- **The window at the start of a turn:** it starts a number of intervals ago, at least one, and no longer ago than the machine
has been running; it ends one interval ago. -/
structure Good (ticks : Ulong) (w : Window) : Prop where
  interval : w.interval = IPF_TTLVAL 43200 ∨ w.interval = IPF_TTLVAL 1800 ∨ w.interval = IPF_TTLVAL 30
  dvd : w.interval.toNat ∣ w.istart.toNat
  pos : w.interval.toNat ≤ w.istart.toNat
  le : w.istart.toNat ≤ ticks.toNat
  iend : w.iend.toNat = ticks.toNat - w.interval.toNat

/-- No interval is shorter than half a minute. -/
theorem Good.half {w : Window} (h : Good ticks w) : 60 ≤ w.interval.toNat := by
  obtain h | h | h := h.interval
  · rw [h, ttlval_day]
    omega
  · rw [h, ttlval_hour]
    omega
  · rw [h]
    exact le_of_eq ttlval_half.symm

/-- The window starts with the longest intervals that fit the time that there has been. -/
theorem Good.first {istart interval : Ulong} (h : firstStart ticks = some (istart, interval)) :
    Good ticks (.first ticks istart interval) ∧ (Window.first ticks istart interval).istart.toNat ≤ 691200 := by
  -- in each case the time is longer than the interval, and the window starts a number of intervals ago
  obtain ⟨hinterval, hlt, hdvd, hpos, hmax⟩ :
      (interval = IPF_TTLVAL 43200 ∨ interval = IPF_TTLVAL 1800 ∨ interval = IPF_TTLVAL 30) ∧
      interval.toNat < ticks.toNat ∧ interval.toNat ∣ istart.toNat ∧ interval.toNat ≤ istart.toNat ∧
        istart.toNat ≤ 691200 := by
    unfold firstStart at h
    split at h
    · rename_i hticks
      rw [gt_iff_lt, lt_def, show (IPF_TTLVAL (43200 * 15 / 10)).toNat = 129600 from rfl] at hticks
      cases h
      refine ⟨.inl rfl, ?_, by decide, by decide, by decide⟩
      rw [ttlval_day]
      omega
    split at h
    · rename_i hticks
      rw [gt_iff_lt, lt_def, show (IPF_TTLVAL (1800 * 15 / 10)).toNat = 5400 from rfl] at hticks
      cases h
      refine ⟨.inr (.inl rfl), ?_, by decide, by decide, by decide⟩
      rw [ttlval_hour]
      omega
    split at h
    · rename_i hticks
      rw [gt_iff_lt, lt_def, show (IPF_TTLVAL (30 * 15 / 10)).toNat = 90 from rfl] at hticks
      cases h
      refine ⟨.inr (.inr rfl), ?_, by decide, by decide, by decide⟩
      rw [ttlval_half]
      omega
    · cases h
  have hiend : (ticks - interval).toNat = ticks.toNat - interval.toNat := toNat_sub_of_le (le_of_lt hlt)
  unfold Window.first
  split
  · rename_i hstart
    rw [gt_iff_lt, lt_def] at hstart
    split
    · exact ⟨⟨hinterval, Nat.dvd_refl _, le_rfl, le_of_lt hlt, hiend⟩, le_trans hpos hmax⟩
    · have hle := Nat.div_mul_le_self ticks.toNat interval.toNat
      have hticks := ticks.isLt
      have hdiv : (ticks / interval * interval).toNat = ticks.toNat / interval.toNat * interval.toNat := by
        rw [toNat_mul, toNat_udiv, Nat.mod_eq_of_lt (lt_of_le_of_lt hle hticks)]
      refine ⟨⟨hinterval, ?_, ?_, ?_, hiend⟩, ?_⟩
      · change interval.toNat ∣ (ticks / interval * interval).toNat
        rw [hdiv]
        exact Nat.dvd_mul_left _ _
      · change interval.toNat ≤ (ticks / interval * interval).toNat
        have hone : 1 ≤ ticks.toNat / interval.toNat := (Nat.one_le_div_iff (by
          obtain h | h | h := hinterval
          · rw [h]; decide
          · rw [h]; decide
          · rw [h]; decide)).2 (le_of_lt hlt)
        rw [hdiv]
        exact Nat.le_mul_of_pos_left _ hone
      · change (ticks / interval * interval).toNat ≤ ticks.toNat
        rw [hdiv]
        exact hle
      · change (ticks / interval * interval).toNat ≤ 691200
        rw [hdiv]
        omega
  · rename_i hstart
    rw [gt_iff_lt, lt_def] at hstart
    exact ⟨⟨hinterval, hdvd, hpos, Nat.le_of_not_lt hstart, hiend⟩, hmax⟩

/-- **One turn:** the window moves on by half a minute at least. -/
theorem Good.next {w w' : Window} (h : Good ticks w) (hnext : w.next ticks = some w') :
    Good ticks w' ∧ w'.istart.toNat + 60 ≤ w.istart.toNat := by
  have hpos := h.pos
  have hle := h.le
  have hdvd := h.dvd
  have hiend := h.iend
  have hhalf := h.half
  have htry : (ticks - w.istart).toNat = ticks.toNat - w.istart.toNat := toNat_sub_of_le hle
  unfold Window.next at hnext
  by_cases hend : ticks - w.istart ≥ w.iend
  · rw [if_pos hend] at hnext
    rw [ge_iff_le, le_def, htry] at hend
    have hlast : w.istart.toNat = w.interval.toNat := by omega
    -- the next smaller interval is a part of this one
    obtain ⟨interval, hsmaller, hinterval, hpart, hshort⟩ : ∃ interval, smaller w.interval = some interval ∧
        (interval = IPF_TTLVAL 1800 ∨ interval = IPF_TTLVAL 30) ∧ interval.toNat ∣ w.interval.toNat ∧
        2 * interval.toNat ≤ w.interval.toNat := by
      obtain hi | hi | hi := h.interval
      · rw [hi]
        exact ⟨_, rfl, .inl rfl, by decide, by decide⟩
      · rw [hi]
        exact ⟨_, rfl, .inr rfl, by decide, by decide⟩
      · rw [hi] at hnext
        cases hnext
    have hhalf' : 60 ≤ interval.toNat := by
      obtain hi | hi := hinterval
      · rw [hi, ttlval_hour]
        omega
      · rw [hi]
        exact le_of_eq ttlval_half.symm
    have hsub : (w.istart - interval).toNat = w.interval.toNat - interval.toNat := by
      rw [toNat_sub_of_le (by rw [le_def]; omega), hlast]
    rw [hsmaller] at hnext
    dsimp only at hnext
    split at hnext
    · cases hnext
    · cases hnext
      refine ⟨⟨.inr hinterval, ?_, ?_, ?_, ?_⟩, ?_⟩
      · change interval.toNat ∣ (w.istart - interval).toNat
        rw [hsub]
        exact Nat.dvd_sub hpart (Nat.dvd_refl _)
      · change interval.toNat ≤ (w.istart - interval).toNat
        omega
      · change (w.istart - interval).toNat ≤ ticks.toNat
        omega
      · apply toNat_sub_of_le
        rw [le_def]
        omega
      · change (w.istart - interval).toNat + 60 ≤ w.istart.toNat
        omega
  · rw [if_neg hend] at hnext
    cases hnext
    rw [ge_iff_le, le_def, htry] at hend
    have hsub : (w.istart - w.interval).toNat = w.istart.toNat - w.interval.toNat := toNat_sub_of_le hpos
    have hsub' : w.interval.toNat ∣ w.istart.toNat - w.interval.toNat := Nat.dvd_sub hdvd (Nat.dvd_refl _)
    refine ⟨⟨h.interval, ?_, ?_, ?_, hiend⟩, ?_⟩
    · change w.interval.toNat ∣ (w.istart - w.interval).toNat
      rw [hsub]
      exact hsub'
    · change w.interval.toNat ≤ (w.istart - w.interval).toNat
      rw [hsub]
      exact Nat.le_of_dvd (by omega) hsub'
    · change (w.istart - w.interval).toNat ≤ _
      omega
    · change (w.istart - w.interval).toNat + 60 ≤ _
      omega

/-- **The loop ends**, and what it does it may do. -/
theorem flushLoop_spec (del : Deletefn σ ι) (active : σ → BitVec 32) (size low : BitVec 32) :
    ∀ {n : ℕ} {w : Window}, Good ticks w → w.istart.toNat ≤ 60 * n → ∀ f : Flush σ ι,
    ∃ f', flushLoop del active size low ticks n w f = some f' ∧ Spares ticks f f' := by
  intro n
  induction n with
  | zero =>
    intro w hgood hn f
    have hpos := hgood.pos
    have hhalf := hgood.half
    omega
  | succ n ih =>
    intro w hgood hn f
    have hsince : (ticks - w.istart).toNat + (IPF_TTLVAL 30).toNat ≤ ticks.toNat := by
      have hle := hgood.le
      have hpos := hgood.pos
      have hhalf := hgood.half
      rw [toNat_sub_of_le hle, ttlval_half]
      omega
    have hturn := turn_spares del hsince f
    unfold flushLoop
    split
    · dsimp only
      cases hnext : w.next ticks with
      | none => exact ⟨_, rfl, hturn⟩
      | some w' =>
        obtain ⟨hgood', hmoves⟩ := hgood.next hnext
        obtain ⟨f', hf', hspares⟩ := ih hgood' (by omega) (f.turn del (ticks - w.istart))
        exact ⟨f', hf', hturn.trans hspares⟩
    · exact ⟨f, rfl, .refl ticks f⟩

/-! ## The flush -/

/-- Step 2 is for a machine that has been up for 45 seconds. -/
theorem firstStart_none : firstStart ticks = none ↔ ¬IPF_TTLVAL (30 * 15 / 10) < ticks := by
  have hday : IPF_TTLVAL (43200 * 15 / 10) < ticks → IPF_TTLVAL (30 * 15 / 10) < ticks := BitVec.lt_trans (by decide)
  have hhour : IPF_TTLVAL (1800 * 15 / 10) < ticks → IPF_TTLVAL (30 * 15 / 10) < ticks := BitVec.lt_trans (by decide)
  unfold firstStart
  split
  · rename_i h
    simp [hday h]
  split
  · rename_i h
    simp [hhour h]
  split
  · rename_i h
    simp [gt_iff_lt.1 h]
  · rename_i h
    simp [h]

/-- **`ipf_queueflush`** ends, whatever the delete function does. Of every queue, but those of the states CLOSED and TIME_WAIT,
it takes only entries that were touched half a minute ago or earlier. What it returns is the number of entries that are gone, if
and only if the machine has been up for more than 45 seconds, or what it deleted in these two queues was enough, or nothing. -/
theorem queueflush_iff (del : Deletefn σ ι) (active : σ → BitVec 32) (size low : BitVec 32) (ticks : Ulong)
    (ipfqs userqs : List (List (Tqent ι))) (rest : σ) (n : ℕ) (hn : 11520 ≤ n) :
    ∃ f r, ipfQueueflush del active size low ticks n ipfqs userqs rest = some (f, r) ∧
      (∀ i, i ≠ IPF_TCPS_CLOSED → i ≠ IPF_TCPS_TIME_WAIT →
        Leaves (recent ticks) (ipfqs.getD i []) (f.ipfqs.getD i [])) ∧
      (∀ i, Leaves (recent ticks) (userqs.getD i []) (f.userqs.getD i [])) ∧
      (r + (total f.ipfqs + total f.userqs) = total ipfqs + total userqs ↔
        IPF_TTLVAL (30 * 15 / 10) < ticks ∨
          (Flush.closed del active size low ⟨ipfqs, userqs, rest, 0⟩).over active size low = false ∨
          (Flush.closed del active size low ⟨ipfqs, userqs, rest, 0⟩).removed = 0) := by
  have hclosed : Spares ticks ⟨ipfqs, userqs, rest, 0⟩ (Flush.closed del active size low ⟨ipfqs, userqs, rest, 0⟩) :=
    closed_spares _
  unfold ipfQueueflush
  dsimp only
  generalize Flush.closed del active size low ⟨ipfqs, userqs, rest, 0⟩ = f at hclosed ⊢
  have hcount := hclosed.count
  dsimp only at hcount
  cases hover : f.over active size low with
  | false =>
    refine ⟨f, f.removed, rfl, hclosed.ipfqs, hclosed.userqs, ?_⟩
    simp only [true_or, or_true, iff_true]
    omega
  | true =>
    rw [if_pos rfl]
    cases hfirst : firstStart ticks with
    | none =>
      have hearly := firstStart_none.1 hfirst
      refine ⟨f, 0, rfl, hclosed.ipfqs, hclosed.userqs, ?_⟩
      simp only [hearly, false_or, Bool.true_eq_false]
      omega
    | some w =>
      have hlate : IPF_TTLVAL (30 * 15 / 10) < ticks := by
        by_contra h
        rw [firstStart_none.2 h] at hfirst
        cases hfirst
      obtain ⟨istart, interval⟩ := w
      obtain ⟨hgood, hmax⟩ := Good.first hfirst
      have hroom : (Window.first ticks istart interval).istart.toNat ≤ 60 * n := by omega
      obtain ⟨f', hf', hspares⟩ := flushLoop_spec del active size low hgood hroom f
      have hall := hclosed.trans hspares
      have hcount' := hall.count
      dsimp only at hcount'
      refine ⟨f', f'.removed, ?_, hall.ipfqs, hall.userqs, ?_⟩
      · dsimp only
        rw [hf']
        rfl
      · simp only [hlate, true_or, iff_true]
        omega

/-- The queues of the TCP states, with entries in ESTABLISHED and in CLOSED. -/
def queues (established closed : List (Tqent Unit)) : List (List (Tqent Unit)) :=
  replicate 4 [] ++ [established] ++ replicate 6 [] ++ [closed]

/-- Of two idle connections one was in use lately. -/
theorem queueflush_idle :
    ∃ f r, ipfQueueflush (fun w _ => (w - 1, true)) id 2 0 1000 11520 (queues [⟨100, ()⟩, ⟨990, ()⟩] []) [] 2 =
      some (f, r) ∧
      [⟨990, ()⟩] ⊆ f.ipfqs.getD IPF_TCPS_ESTABLISHED [] ∧ r + (total f.ipfqs + total f.userqs) = 2 := by
  obtain ⟨f, r, hf, hipfqs, -, hcount⟩ := queueflush_iff (fun w _ => (w - 1, true)) id 2 0 1000
    (queues [⟨100, ()⟩, ⟨990, ()⟩] []) [] (2 : BitVec 32) 11520 (Nat.le_refl _)
  have hleaves := hipfqs IPF_TCPS_ESTABLISHED (by decide) (by decide)
  have hkept : (f.ipfqs.getD IPF_TCPS_ESTABLISHED []).filter (recent 1000) = [⟨990, ()⟩] := hleaves.keeps.trans (by decide)
  refine ⟨f, r, hf, ?_, hcount.2 (.inl (by decide))⟩
  rw [← hkept]
  exact filter_subset_self _

/-- After 5 seconds, a closed connection is deleted, and 0 is returned. -/
theorem queueflush_early :
    ∃ f, ipfQueueflush (fun w _ => (w - 1, true)) id 2 0 10 11520 (queues [⟨1, ()⟩] [⟨1, ()⟩]) [] (2 : BitVec 32) =
      some (f, 0) ∧
      total f.ipfqs = 1 ∧ total (queues [⟨1, ()⟩] [⟨1, ()⟩]) = 2 :=
  ⟨_, rfl, rfl, rfl⟩

end Ipfilter.Queueflush
