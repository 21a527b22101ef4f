import Ipfilter.Proof.Queue

/-!
# A new timeout for a queue

`ipf_apply_timeout` is to move the time at which each entry of a queue dies. `retimed_iff` says when it does: the difference of
the timeouts is taken the wrong way round, so that a longer timeout makes the entries die earlier.
-/

namespace Ipfilter.Queue

open Chain

variable {Q E : Type} [DecidableEq E]

/-- **The loop** moves the entries of the list, and nothing else. -/
theorem applyLoop_eq {m : Mem Q E} (delta : ℤ) :
    ∀ {l : List E} {k : Link Q E} {fuel : ℕ} (die : E → ℕ), Seg m k l → l.Nodup → l.length ≤ fuel →
      ∀ e, applyLoop m delta fuel (m.get k) die e = if e ∈ l then ((die e + delta) % 2 ^ 32).toNat else die e := by
  intro l
  induction l with
  | nil =>
    intro k fuel die hl _ _ e
    have hnone : m.get k = none := hl.head?
    rw [hnone, if_neg List.not_mem_nil]
    cases fuel <;> rfl
  | cons x l ih =>
    intro k fuel die hl hnd hlen e
    obtain ⟨hx, -, hrest⟩ := (seg_cons _).1 hl
    rw [List.nodup_cons] at hnd
    obtain ⟨n, rfl⟩ : ∃ n, fuel = n + 1 := ⟨fuel - 1, by simp at hlen; omega⟩
    rw [hx, applyLoop, ← next_get, ih _ hrest hnd.2 (by simpa using hlen)]
    by_cases he : e = x
    · subst he
      rw [if_neg hnd.1, Function.update_self, if_pos List.mem_cons_self]
    · have hmem : e ∈ x :: l ↔ e ∈ l := by simp [he]
      rw [Function.update_of_ne he, if_congr hmem rfl rfl]

/-! ## One number -/

section Shift

variable {d d' t o n : ℕ} {e e' : E}

/-- The time to die, moved the wrong way, is right if the two timeouts are the same or half the range apart. -/
theorem shift_right (ho : o < 2 ^ 32) (hn : n < 2 ^ 32) (hd : d = u32 (t + o))
    (hd' : (d' : ℤ) = (d + ((o : ℤ) - n)) % 2 ^ 32) : d' = u32 (t + n) ↔ o = n ∨ (n + 2 ^ 31) % 2 ^ 32 = o := by
  unfold u32 at *
  constructor
  · intro h
    omega
  · rintro (h | h)
    · omega
    · omega

/-- A shift by half the range turns the order of two numbers round if it is not the same half that they are in. -/
theorem shift_order {a b a' b' : ℕ} (ha : a < 2 ^ 32) (hb : b < 2 ^ 32) (ha' : a' = (a + 2 ^ 31) % 2 ^ 32)
    (hb' : b' = (b + 2 ^ 31) % 2 ^ 32) : ((a' ≤ b' ↔ a ≤ b) ∧ (b' ≤ a' ↔ b ≤ a)) ↔
    (a < 2 ^ 31 ↔ b < 2 ^ 31) := by
  constructor
  · rintro ⟨h1, h2⟩
    omega
  · intro h
    omega

end Shift

/-! ## The queue -/

variable [DecidableEq Q] {s s' : Tq Q E} {L : Q → List E} {q : Q} {fuel : ℕ}

/-- When an entry of the queue dies afterwards. -/
theorem applyTimeout_die (hr : Rep s.mem L) (hfuel : (L q).length ≤ fuel) (seconds : ℕ) {e : E} (he : e ∈ L q) :
    ((ipfApplyTimeout s fuel q seconds).tqeDie e : ℤ) =
      (s.tqeDie e + ((s.ifqTtl q : ℤ) - IPF_TTLVAL seconds)) % 2 ^ 32 := by
  have hloop := applyLoop_eq (((s.ifqTtl q : ℤ) - IPF_TTLVAL seconds).bmod (2 ^ 32)) s.tqeDie (hr q) (hr.nodup q) hfuel e
  rw [if_pos he] at hloop
  change ((applyLoop s.mem _ fuel (s.mem.get (.head q)) s.tqeDie e : ℕ) : ℤ) = _
  have hpos := Int.emod_nonneg (s.tqeDie e + ((s.ifqTtl q : ℤ) - IPF_TTLVAL seconds).bmod (2 ^ 32)) (b := 2 ^ 32) (by decide)
  rw [hloop, Int.toNat_of_nonneg hpos, Int.add_emod]
  have hmod : ((s.ifqTtl q : ℤ) - IPF_TTLVAL seconds).bmod (2 ^ 32) % 2 ^ 32 =
      ((s.ifqTtl q : ℤ) - IPF_TTLVAL seconds) % 2 ^ 32 :=
    Int.bmod_emod
  rw [hmod, ← Int.add_emod]

/-- Each entry of a queue dies its timeout after it was touched. -/
def Timely (s : Tq Q E) (q : Q) (l : List E) : Prop := ∀ e ∈ l, s.tqeDie e = u32 (s.tqeTouched e + s.ifqTtl q)

/-- **What a new timeout should do:** the queue has the same entries in the same order, each dies the new timeout after it was
touched, and of any two the same one dies first. -/
structure Retimed (s s' : Tq Q E) (L : Q → List E) (q : Q) : Prop where
  rep : Rep s'.mem L
  timely : Timely s' q (L q)
  order : ∀ e ∈ L q, ∀ e' ∈ L q, s'.tqeDie e ≤ s'.tqeDie e' ↔ s.tqeDie e ≤ s.tqeDie e'

/-- **A new timeout does what it should** exactly for an empty queue, for the timeout that the queue has, and for one that is
half the range of a `u_int` away from it if the entries die in the same half. -/
theorem retimed_iff (hr : Rep s.mem L) (hfuel : (L q).length ≤ fuel) (httl : s.ifqTtl q < 2 ^ 32) (ht : Timely s q (L q))
    (seconds : ℕ) : Retimed s (ipfApplyTimeout s fuel q seconds) L q ↔
      L q = [] ∨ IPF_TTLVAL seconds = s.ifqTtl q ∨ (IPF_TTLVAL seconds + 2 ^ 31) % 2 ^ 32 = s.ifqTtl q ∧
        ∀ e ∈ L q, ∀ e' ∈ L q, s.tqeDie e < 2 ^ 31 ↔ s.tqeDie e' < 2 ^ 31 := by
  have hn : IPF_TTLVAL seconds < 2 ^ 32 := Nat.mod_lt _ (by decide)
  have hnew : (ipfApplyTimeout s fuel q seconds).ifqTtl q = IPF_TTLVAL seconds := Function.update_self _ _ _
  have hlt : ∀ e ∈ L q, s.tqeDie e < 2 ^ 32 := by
    intro e he
    rw [ht e he]
    exact Nat.mod_lt _ (by decide)
  have hright : ∀ e ∈ L q, (ipfApplyTimeout s fuel q seconds).tqeDie e = u32 (s.tqeTouched e + IPF_TTLVAL seconds) ↔
      s.ifqTtl q = IPF_TTLVAL seconds ∨ (IPF_TTLVAL seconds + 2 ^ 31) % 2 ^ 32 = s.ifqTtl q := fun e he =>
    shift_right httl hn (ht e he) (applyTimeout_die hr hfuel seconds he)
  -- half the range away, a time to die goes to the other half
  have hhalf : (IPF_TTLVAL seconds + 2 ^ 31) % 2 ^ 32 = s.ifqTtl q → ∀ e ∈ L q,
      (ipfApplyTimeout s fuel q seconds).tqeDie e = (s.tqeDie e + 2 ^ 31) % 2 ^ 32 := by
    intro h e he
    have hdie := applyTimeout_die hr hfuel seconds he
    omega
  constructor
  · intro h
    cases hl : L q with
    | nil => exact .inl rfl
    | cons x l =>
      rw [← hl]
      right
      have hx : x ∈ L q := by rw [hl]; exact List.mem_cons_self
      have htimely := h.timely x hx
      rw [hnew] at htimely
      rcases (hright x hx).1 htimely with heq | heq
      · exact .inl heq.symm
      · refine .inr ⟨heq, fun e he e' he' => ?_⟩
        apply (shift_order (hlt e he) (hlt e' he') (hhalf heq e he) (hhalf heq e' he')).1
        exact ⟨h.order e he e' he', h.order e' he' e he⟩
  · intro h
    refine ⟨hr, fun e he => ?_, fun e he e' he' => ?_⟩
    · rw [hnew]
      apply (hright e he).2
      rcases h with hnil | heq | ⟨heq, -⟩
      · rw [hnil] at he
        cases he
      · exact .inl heq.symm
      · exact .inr heq
    · rcases h with hnil | heq | ⟨heq, hsame⟩
      · rw [hnil] at he
        cases he
      · -- the same timeout
        have hdie := applyTimeout_die hr hfuel seconds he
        have hdie' := applyTimeout_die hr hfuel seconds he'
        have h1 := hlt e he
        have h2 := hlt e' he'
        omega
      · exact ((shift_order (hlt e he) (hlt e' he') (hhalf heq e he) (hhalf heq e' he')).2 (hsame e he e' he')).1

/-- A queue of ten minutes with an entry that was touched at tick 7. -/
def touchedSeven : Tq Unit Bool := ipfQueueappend (Tq.init (fun _ => 1200) (fun _ => 0) fun _ => 1) 7 true () 0

theorem touchedSeven_rep : Rep touchedSeven.mem fun _ => [true] := by
  intro _
  exact ⟨⟨rfl, rfl, trivial⟩, rfl⟩

theorem touchedSeven_timely : Timely touchedSeven () [true] := by
  intro e he
  rw [List.mem_singleton.1 he]
  decide

/-- Another entry that was touched at tick 9. -/
def touchedNine : Tq Unit Bool := ipfQueueappend touchedSeven 9 false () 0

theorem touchedNine_rep : Rep touchedNine.mem fun _ => [true, false] := by
  intro _
  exact ⟨⟨rfl, rfl, rfl, rfl, trivial⟩, rfl⟩

theorem touchedNine_timely : Timely touchedNine () [true, false] := by
  intro e _
  cases e <;> decide

/-- The timeout that it has, again. -/
theorem retimed_iff_same : Retimed touchedNine (ipfApplyTimeout touchedNine 2 () 600) (fun _ => [true, false]) () :=
  (retimed_iff touchedNine_rep (Nat.le_refl _) (by decide) touchedNine_timely 600).2 (.inr (.inl (by decide)))

/-- **Twice the timeout.** The entry that was touched at tick 7 should die at 2407; it dies at 7. -/
theorem longer_dies_earlier : ¬∀ (s : Tq Unit Bool) (L : Unit → List Bool) (fuel seconds : ℕ), Rep s.mem L →
    (L ()).length ≤ fuel → s.ifqTtl () < 2 ^ 32 → Timely s () (L ()) →
      Retimed s (ipfApplyTimeout s fuel () seconds) L () := by
  intro hall
  have h := hall touchedSeven (fun _ => [true]) 1 1200 touchedSeven_rep (Nat.le_refl _) (by decide) touchedSeven_timely
  have hdie := h.timely true (by decide)
  revert hdie
  decide

end Ipfilter.Queue
