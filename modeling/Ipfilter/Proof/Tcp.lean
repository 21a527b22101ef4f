import Ipfilter.Spec.Tcp
import Ipfilter.Proof.Queue
import Mathlib.Tactic.IntervalCases

/-!
# What the TCP state machine keeps

* `fsm_spec`: what one pass through the switch can do, state by state.
* `Above`: the invariant of every run; a side is above `ESTABLISHED` only when a FIN or RST was seen.
* `Closing`: the invariant of the runs whose packets are all `Proper`: once a FIN or RST was seen,
  either both sides are above `ESTABLISHED`, or one waits in `FIN_WAIT_1` for the other.
* `run_ages`: what holds at every packet of a run.
-/

namespace Ipfilter.Tcp

open Queue Chain
open Function (update)

/-! ## The switch -/

theorem fin_of_ackmask : ∀ f : ThFlags, f &&& TH_ACKMASK = TH_ACK → f &&& TH_FIN = 0 :=
  fun _ h => (and_part h (by decide)).trans (by decide)

theorem fin_of_bare : ∀ f : ThFlags, f &&& (TH_SYN ||| TH_FIN ||| TH_ACK) = TH_ACK → f &&& TH_FIN = 0 :=
  fun _ h => (and_part h (by decide)).trans (by decide)

theorem fin_of_syn : ∀ f : ThFlags, f &&& ~~~(TH_ECN ||| TH_CWR) = TH_SYN → f &&& TH_FIN = 0 :=
  fun _ h => (and_part h (by decide)).trans (by decide)

theorem fin_of_opening : ∀ f : ThFlags, f &&& ~~~(TH_ECN ||| TH_CWR) = TH_OPENING → f &&& TH_FIN = 0 :=
  fun _ h => (and_part h (by decide)).trans (by decide)

/-- An ACK with neither SYN nor FIN. -/
def Call.bare (c : Call) : Prop := c.thFlags &&& (TH_SYN ||| TH_FIN ||| TH_ACK) = TH_ACK

theorem sets_eq_false {c : Call} {f : ThFlags} (h : c.thFlags &&& f = 0) : c.sets f = false := by
  simp [Call.sets, h]

/-- What the switch makes of a side in state `n` whose packet is `c`, with the other side in state
`o`: `n'` is the new state and `rval` the verdict. -/
structure Turn (c : Call) (o n n' rval : ℕ) : Prop where
  bound : n' ≤ 11
  above : 4 < n → 4 < n'
  raised : n ≤ 4 → 4 < n' → c.sets TH_FIN = true ∨ o = 6
  fin : 0 < n → n ≤ 4 → c.sets TH_FIN = true → rval = 1 ∧ (n' = 6 ∨ (n' = 7 ∧ o = 6))
  waits : n = 6 → o ≤ 4 → n' = 6
  estab : n' = 4 → rval = 1 → ((n = 1 ∨ n = 2) ∧ c.bare) ∨ ((n = 0 ∨ n = 3) ∧ o ≤ 4) ∨
    (n = 4 ∧ c.sets TH_FIN = false ∧ (c.sets TH_ACK = false ∨ o ≠ 6))

section Turns

variable {c : Call} {o n n' rval : ℕ}

/-- A side above `ESTABLISHED` stays there. -/
theorem Turn.of_above (hn : 4 < n) (h' : 4 < n') (hb : n' ≤ 11) (hw : n = 6 → o ≤ 4 → n' = 6) :
    Turn c o n n' rval where
  bound := hb
  above _ := h'
  raised h := by omega
  fin _ h := by omega
  waits := hw
  estab h := by omega

/-- A side that sends no FIN, or refuses it in `LISTEN`, and does not reach `ESTABLISHED`. -/
theorem Turn.of_below (hn : n ≤ 3) (h' : n' ≤ 3) (hf : n = 0 ∨ c.sets TH_FIN = false) : Turn c o n n' rval where
  bound := by omega
  above h := by omega
  raised _ h := by omega
  fin h0 _ hfin := by
    rcases hf with hf | hf
    · omega
    · rw [hf] at hfin
      exact absurd hfin (by simp)
  waits h := by omega
  estab h := by omega

/-- A side that reaches `ESTABLISHED`, or stays there. -/
theorem Turn.of_estab (hn : n ≤ 4) (hf : c.sets TH_FIN = false)
    (he : ((n = 1 ∨ n = 2) ∧ c.bare) ∨ ((n = 0 ∨ n = 3) ∧ o ≤ 4) ∨
      (n = 4 ∧ c.sets TH_FIN = false ∧ (c.sets TH_ACK = false ∨ o ≠ 6))) : Turn c o n 4 rval where
  bound := by omega
  above h := by omega
  raised _ h := by omega
  fin _ _ hfin := by
    rw [hf] at hfin
    exact absurd hfin (by simp)
  waits h := by omega
  estab _ _ := he

/-- A side that closes with a FIN. -/
theorem Turn.of_fin (hn : n ≤ 4) (hf : c.sets TH_FIN = true) (h' : n' = 6 ∨ (n' = 7 ∧ o = 6)) : Turn c o n n' 1 where
  bound := by omega
  above _ := by omega
  raised _ _ := .inl hf
  fin _ _ _ := ⟨rfl, h'⟩
  waits h := by omega
  estab h := by omega

theorem turn_listen (c : Call) (o : ℕ) : Turn c o 0 (fsm c o 0).1 (fsm c o 0).2 := by
  rw [fsm]
  split
  next h =>
    have hfin := sets_eq_false (fin_of_ackmask _ h.2)
    split
    · exact Turn.of_below (by omega) (by decide) (.inl rfl)
    split
    next ho => exact Turn.of_estab (by omega) hfin (.inr (.inl ⟨.inl rfl, by
      simp only [IPF_TCPS_HALF_ESTAB, IPF_TCPS_ESTABLISHED] at ho; omega⟩))
    split
    · exact Turn.of_below (by omega) (by decide) (.inl rfl)
    split <;> exact Turn.of_below (by omega) (by decide) (.inl rfl)
  next =>
    split
    · exact Turn.of_below (by omega) (by decide) (.inl rfl)
    split <;> exact Turn.of_below (by omega) (by decide) (.inl rfl)

theorem turn_syn_sent (c : Call) (o : ℕ) : Turn c o 1 (fsm c o 1).1 (fsm c o 1).2 := by
  rw [fsm]
  split
  next h => exact Turn.of_below (by omega) (by omega) (.inr (sets_eq_false (fin_of_syn _ h)))
  split
  next h =>
    exact Turn.of_estab (by omega) (sets_eq_false (fin_of_bare _ h)) (.inl ⟨.inl rfl, h⟩)
  split
  next h => exact Turn.of_fin (by omega) h (.inl rfl)
  next h =>
    split <;> exact Turn.of_below (by omega) (by decide) (.inr (by simpa using h))

theorem turn_syn_received (c : Call) (o : ℕ) : Turn c o 2 (fsm c o 2).1 (fsm c o 2).2 := by
  rw [fsm]
  split
  next h =>
    exact Turn.of_estab (by omega) (sets_eq_false (fin_of_bare _ h)) (.inl ⟨.inr rfl, h⟩)
  split
  next h => exact Turn.of_below (by omega) (by omega) (.inr (sets_eq_false (fin_of_opening _ h)))
  split
  next h => exact Turn.of_fin (by omega) h (.inl rfl)
  next h => exact Turn.of_below (by omega) (by omega) (.inr (by simpa using h))

theorem turn_half_estab (c : Call) (o : ℕ) : Turn c o 3 (fsm c o 3).1 (fsm c o 3).2 := by
  rw [fsm]
  split
  next h => exact Turn.of_fin (by omega) h (.inl rfl)
  next h =>
    have hfin : c.sets TH_FIN = false := by simpa using h
    split
    · split
      · exact Turn.of_below (by omega) (by omega) (.inr hfin)
      split
      next ho => exact Turn.of_estab (by omega) hfin (.inr (.inl ⟨.inr rfl, by
        simp only [IPF_TCPS_HALF_ESTAB, IPF_TCPS_ESTABLISHED] at ho; omega⟩))
      · exact Turn.of_below (by omega) (by omega) (.inr hfin)
    · exact Turn.of_below (by omega) (by omega) (.inr hfin)

theorem turn_established (c : Call) (o : ℕ) : Turn c o 4 (fsm c o 4).1 (fsm c o 4).2 := by
  rw [fsm]
  split
  next h =>
    split
    next ho => exact Turn.of_fin (by omega) h (.inr ⟨rfl, ho⟩)
    · exact Turn.of_fin (by omega) h (.inl rfl)
  next h =>
    have hfin : c.sets TH_FIN = false := by simpa using h
    split
    · split
      next ho =>
        -- the other side waits for the ACK of its FIN
        exact ⟨by decide, by omega, fun _ _ => .inr ho, fun _ _ hf => absurd hf h, by omega,
          fun h => absurd h (by decide)⟩
      next ho =>
        split <;> exact Turn.of_estab (by omega) hfin (.inr (.inr ⟨rfl, hfin, .inr ho⟩))
    next hack =>
      exact Turn.of_estab (by omega) hfin (.inr (.inr ⟨rfl, hfin, .inl (by simpa using hack)⟩))

theorem turn_above (c : Call) (o : ℕ) (hn : 4 < n) (hn' : n ≤ 11) : Turn c o n (fsm c o n).1 (fsm c o n).2 := by
  interval_cases n
  -- CLOSE_WAIT
  · rw [fsm]
    split <;> exact Turn.of_above (by omega) (by decide) (by decide) (by omega)
  -- FIN_WAIT_1
  · rw [fsm]
    split
    next h =>
      have ho : o > 5 := h.2
      exact Turn.of_above (by omega) (by decide) (by decide) (by omega)
    · exact Turn.of_above (by omega) (by decide) (by decide) (fun _ _ => rfl)
  -- CLOSING
  · rw [fsm]
    split <;> exact Turn.of_above (by omega) (by decide) (by decide) (by omega)
  -- LAST_ACK
  · rw [fsm]
    split <;> exact Turn.of_above (by omega) (by decide) (by decide) (by omega)
  -- FIN_WAIT_2
  · rw [fsm_fin_wait_2]
    exact Turn.of_above (by omega) (by decide) (by decide) (by omega)
  -- TIME_WAIT
  · rw [fsm]
    split <;> exact Turn.of_above (by omega) (by decide) (by decide) (by omega)
  -- CLOSED
  · rw [fsm_closed]
    exact Turn.of_above (by omega) (by decide) (by decide) (by omega)

/-- **One pass through the switch.** -/
theorem fsm_spec (c : Call) (o : ℕ) (hn : n ≤ 11) : Turn c o n (fsm c o n).1 (fsm c o n).2 := by
  by_cases h4 : 4 < n
  · exact turn_above c o h4 hn
  · interval_cases n
    · exact turn_listen c o
    · exact turn_syn_sent c o
    · exact turn_syn_received c o
    · exact turn_half_estab c o
    · exact turn_established c o

end Turns

/-! ## One packet -/

section Packets

variable {Q E : Type} {n : Entry Q E} {w w' : World Q E} {c : Call} {cs : List Call} {t : ℕ}

/-- The states once a packet is accepted that takes its side to `t`: a RST also takes down the
other side. -/
def turned (w : World Q E) (c : Call) (t : ℕ) : Bool → ℕ :=
  update
    (if c.sets TH_RST = true ∧ w.state (!c.finRev) ≤ 4 then
      update w.state (!c.finRev) 5 else w.state) c.finRev t

/-- An accepted packet that takes its side to state `t`. -/
structure Accepted (n : Entry Q E) (w : World Q E) (c : Call) (w' : World Q E) (t : ℕ) : Prop where
  state : w'.state = turned w c t
  queue : n.tqeFlags &&& TQE_RULEBASED = 0 → w'.tq.tqeIfq n.tqe = some (n.tqtab t)
  ruled : n.tqeFlags &&& TQE_RULEBASED ≠ 0 → w'.tq = w.tq
  target : (c.sets TH_RST = true ∧ (t = 5 ∨ t = 11)) ∨
    (c.sets TH_RST = false ∧ fsm c (w.state !c.finRev) (w.state c.finRev) = (t, 1))

/-! ## What a packet keeps -/

/-- A FIN or a RST is among the packets `cs`. -/
def Seen (cs : List Call) : Prop := ∃ c ∈ cs, c.sets TH_FIN = true ∨ c.sets TH_RST = true

theorem seen_concat : Seen (cs ++ [c]) ↔ Seen cs ∨ c.sets TH_FIN = true ∨ c.sets TH_RST = true := by
  simp [Seen, or_and_right, exists_or]

/-- The invariant of every run: the states are in range, and before any FIN or RST both sides are
still below `ESTABLISHED`, or (of a closed entry) both above it. -/
structure Above (cs : List Call) (s : Bool → ℕ) : Prop where
  bound : ∀ d, s d ≤ 11
  level : ¬Seen cs → (∀ d, s d ≤ 4) ∨ ∀ d, 4 < s d

theorem turned_sender (t : ℕ) : turned w c t c.finRev = t := by simp [turned]

theorem turned_other (t : ℕ) : turned w c t (!c.finRev) =
    if c.sets TH_RST = true ∧ w.state (!c.finRev) ≤ 4 then 5 else w.state (!c.finRev) := by
  rw [turned, Function.update_of_ne (by simp)]
  split
  · rw [Function.update_self]
  · rfl

theorem forall_side {P : Bool → Prop} (d : Bool) : (∀ d', P d') ↔ P d ∧ P (!d) := by
  cases d <;> simp [and_comm]

theorem Accepted.bound (h : Accepted n w c w' t) (hb : ∀ d, w.state d ≤ 11) : t ≤ 11 := by
  rcases h.target with ⟨-, h5 | h11⟩ | ⟨-, hf⟩
  · omega
  · omega
  · have := (fsm_spec c (w.state !c.finRev) (hb c.finRev)).bound
    rw [hf] at this
    exact this

/-- A side above `ESTABLISHED` stays above it. -/
theorem Accepted.above (h : Accepted n w c w' t) (hb : ∀ d, w.state d ≤ 11) (d : Bool)
    (hd : 4 < w.state d) : 4 < w'.state d := by
  have hside := (forall_side (P := fun d => 4 < w.state d → 4 < w'.state d) c.finRev).2
  refine hside ⟨fun hs => ?_, fun ho => ?_⟩ d hd
  · rw [h.state, turned_sender]
    rcases h.target with ⟨-, h5 | h11⟩ | ⟨-, hf⟩
    · omega
    · omega
    · have := (fsm_spec c (w.state !c.finRev) (hb c.finRev)).above hs
      rw [hf] at this
      exact this
  · rw [h.state, turned_other]
    split
    · omega
    · exact ho

/-- Without a FIN or a RST no side rises, unless the other one waits in `FIN_WAIT_1`. -/
theorem Accepted.level (h : Accepted n w c w' t) (hb : ∀ d, w.state d ≤ 11)
    (hfin : c.sets TH_FIN = false) (hrst : c.sets TH_RST = false) (h4 : ∀ d, w.state d ≤ 4) :
    ∀ d, w'.state d ≤ 4 := by
  rw [forall_side c.finRev, h.state, turned_sender, turned_other]
  constructor
  · rcases h.target with ⟨hr, -⟩ | ⟨-, hf⟩
    · rw [hrst] at hr
      exact absurd hr (by simp)
    · by_contra hlt
      have hup := (fsm_spec c (w.state !c.finRev) (hb c.finRev)).raised (h4 _)
      rw [hf] at hup
      rcases hup (by omega) with hf' | h6
      · rw [hfin] at hf'
        exact absurd hf' (by simp)
      · have := h4 (!c.finRev)
        omega
  · rw [hrst]
    simpa using h4 (!c.finRev)

theorem Accepted.keeps (h : Accepted n w c w' t) (ha : Above cs w.state) : Above (cs ++ [c]) w'.state := by
  refine ⟨?_, fun hno => ?_⟩
  · rw [forall_side c.finRev, h.state, turned_sender, turned_other]
    refine ⟨h.bound ha.bound, ?_⟩
    split
    · omega
    · exact ha.bound _
  · rw [seen_concat, not_or, not_or, Bool.not_eq_true, Bool.not_eq_true] at hno
    obtain ⟨hcs, hfin, hrst⟩ := hno
    rcases ha.level hcs with h4 | h4
    · exact .inl (h.level ha.bound hfin hrst h4)
    · exact .inr fun d => h.above ha.bound d (h4 d)

/-! ## The packets that keep an entry off the long queue -/

/-- The packets the state machine places as it should. A packet without RST is improper

* if it has a FIN and its side is in `LISTEN`: the FIN does not close that side;
* if it is an ACK with neither SYN nor FIN, its side is in `SYN_SENT` or `SYN_RECEIVED` and the
  other side is above `ESTABLISHED`: the switch does not look at the other side there;
* if it has neither FIN nor ACK, its side is in `ESTABLISHED` and the other side is above. -/
def Proper (s : Bool → ℕ) (c : Call) : Prop :=
  c.sets TH_RST = false →
    (s c.finRev = IPF_TCPS_LISTEN → c.sets TH_FIN = false) ∧
    (IPF_TCPS_ESTABLISHED < s (!c.finRev) →
      (s c.finRev = IPF_TCPS_SYN_SENT ∨ s c.finRev = IPF_TCPS_SYN_RECEIVED → ¬c.bare) ∧
      (s c.finRev = IPF_TCPS_ESTABLISHED → c.sets TH_FIN = true ∨ c.sets TH_ACK = true))

/-- The invariant of the runs of proper packets. -/
def Closing (cs : List Call) (s : Bool → ℕ) : Prop :=
  (∀ d, 4 < s d) ∨ (¬Seen cs ∧ ∀ d, s d ≤ 4) ∨ (Seen cs ∧ ∃ d, s d = 6 ∧ s (!d) ≤ 4)

/-- **An accepted packet that is proper** keeps the invariant, and does not lead to `ESTABLISHED`
once a FIN or RST was seen. -/
theorem Accepted.closing (h : Accepted n w c w' t)
    (hb : ∀ d, w.state d ≤ 11) (hp : Proper w.state c) (hc : Closing cs w.state) :
    Closing (cs ++ [c]) w'.state ∧ (Seen (cs ++ [c]) → t ≠ 4) := by
  have hs' : w'.state c.finRev = t := by rw [h.state, turned_sender]
  have ho' := turned_other (w := w) (c := c) t
  rw [← h.state] at ho'
  rcases h.target with ⟨hrst, ht⟩ | ⟨hrst, hf⟩
  · -- a RST takes both sides above `ESTABLISHED`
    refine ⟨.inl ?_, fun _ => by omega⟩
    rw [forall_side c.finRev, hs', ho']
    refine ⟨by omega, ?_⟩
    split <;> simp_all
  · have hturn := fsm_spec c (w.state !c.finRev) (hb c.finRev)
    rw [hf] at hturn
    have ho : w'.state (!c.finRev) = w.state (!c.finRev) := by
      rw [ho', if_neg (fun hh => by rw [hrst] at hh; exact absurd hh.1 (by simp))]
    obtain ⟨hlisten, hclosed⟩ := hp hrst
    have hseen : Seen (cs ++ [c]) ↔ Seen cs ∨ c.sets TH_FIN = true := by
      rw [seen_concat, hrst]
      simp
    rcases hc with h4 | ⟨hno, h4⟩ | ⟨hyes, d, h6, h4⟩
    · have h4' : ∀ d, 4 < w'.state d := fun d => h.above hb d (h4 d)
      exact ⟨.inl h4', fun _ => by have := h4' c.finRev; omega⟩
    · by_cases hfin : c.sets TH_FIN = true
      · -- the FIN closes its side
        have h0 : 0 < w.state c.finRev := by
          rcases eq_zero_or_pos (w.state c.finRev) with h0 | h0
          · rw [hlisten h0] at hfin
            exact absurd hfin (by simp)
          · exact h0
        have h6 := (hturn.fin h0 (h4 _) hfin).2
        have ho4 := h4 (!c.finRev)
        refine ⟨.inr (.inr ⟨hseen.2 (.inr hfin), c.finRev, ?_, ?_⟩), fun _ => ?_⟩ <;> omega
      · have hfin' : c.sets TH_FIN = false := by simpa using hfin
        have hns : ¬Seen (cs ++ [c]) := by
          rw [hseen, hfin']
          simpa using hno
        exact ⟨.inr (.inl ⟨hns, h.level hb hfin' hrst h4⟩), fun hs => absurd hs hns⟩
    · have hsc := hseen.2 (.inl hyes)
      have hd : d = c.finRev ∨ d = !c.finRev := by cases d <;> cases c.finRev <;> simp
      rcases hd with rfl | rfl
      · -- the side that waits sends more
        have hw := hturn.waits h6 h4
        refine ⟨.inr (.inr ⟨hsc, c.finRev, ?_, ?_⟩), fun _ => ?_⟩ <;> omega
      · rw [Bool.not_not] at h4
        have hest : t ≠ 4 := by
          intro ht
          obtain ⟨hsyn, hack⟩ := hclosed (by rw [h6]; decide)
          rcases hturn.estab ht rfl with ⟨hn, hbare⟩ | ⟨-, ho4⟩ | ⟨hn, hnf, hna⟩
          · exact hsyn hn hbare
          · omega
          · rcases hack hn with hf' | ha'
            · rw [hnf] at hf'
              exact absurd hf' (by simp)
            · rcases hna with hna | hna
              · rw [hna] at ha'
                exact absurd ha' (by simp)
              · exact hna h6
        refine ⟨?_, fun _ => hest⟩
        by_cases ht : t ≤ 4
        · exact .inr (.inr ⟨hsc, !c.finRev, by omega, by rw [Bool.not_not]; omega⟩)
        · refine .inl ?_
          rw [forall_side c.finRev]
          omega

/-- A proper packet that changes nothing keeps the invariant too. -/
theorem Closing.idle (hb : ∀ d, w.state d ≤ 11) (hp : Proper w.state c)
    (hrst : c.sets TH_RST = false) (hf : (fsm c (w.state !c.finRev) (w.state c.finRev)).2 ≠ 1)
    (hc : Closing cs w.state) : Closing (cs ++ [c]) w.state := by
  have hseen : Seen (cs ++ [c]) ↔ Seen cs ∨ c.sets TH_FIN = true := by
    rw [seen_concat, hrst]
    simp
  rcases hc with h4 | ⟨hno, h4⟩ | ⟨hyes, hd⟩
  · exact .inl h4
  · refine .inr (.inl ⟨?_, h4⟩)
    rw [hseen, not_or]
    refine ⟨hno, fun hfin => ?_⟩
    have h0 : 0 < w.state c.finRev := by
      rcases eq_zero_or_pos (w.state c.finRev) with h0 | h0
      · rw [(hp hrst).1 h0] at hfin
        exact absurd hfin (by simp)
      · exact h0
    exact hf ((fsm_spec c (w.state !c.finRev) (hb c.finRev)).fin h0 (h4 _) hfin).1
  · exact .inr (.inr ⟨hseen.2 (.inl hyes), hd⟩)

end Packets

/-! ## Runs -/

section Runs

variable {Q E : Type} [DecidableEq Q] [DecidableEq E] {r : Q → ℤ} {L : Q → List E}
variable {n : Entry Q E} {w : World Q E} {c : Call}

/-- `ipf_movequeue` of a queued entry succeeds and leaves it on the new queue. -/
theorem movequeue_queued {s : Tq Q E} {e : E} {q : Q} (h : Ok r s L) (he : s.tqeIfq e = some q) (nq : Q) (t : ℕ) :
    ∃ s' L', ipfMovequeue s t e q nq = some s' ∧ Ok r s' L' ∧ s'.tqeIfq e = some nq := by
  obtain ⟨l₁, l₂, hl, hp, -⟩ := h.split he
  obtain ⟨s', hs', -, hcases⟩ := movequeue_ok h nq he hl t
  have hifq : s'.tqeIfq e = some nq := by
    unfold ipfMovequeue at hs'
    split at hs'
    next hsame =>
      rw [← Option.some.inj hs', he, hsame.1]
    dsimp only at hs'
    split at hs'
    next hsame =>
      rw [← Option.some.inj hs', ← hsame.1]
      exact he
    have hp' : (s.stamp t e nq).mem.pnext e = some (lastLink (.head q) l₁) := hp
    rw [hp'] at hs'
    simp only [Option.bind_eq_bind, Option.bind_some, Option.pure_def, Option.some.injEq] at hs'
    rw [← hs']
    by_cases hq : q = nq
    · subst hq
      simp [Tq.linkTail, Tq.unlink, Tq.stamp, he]
    · simp [hq, Tq.linkTail]
  rcases hcases with rfl | ⟨-, hok, -⟩ | ⟨hok, -⟩
  · exact ⟨_, L, hs', h, hifq⟩
  · exact ⟨s', L, hs', hok, hifq⟩
  · exact ⟨s', _, hs', hok, hifq⟩

/-- **One packet**: nothing changes, or the packet is accepted with a new state. -/
theorem age_cases (hq : Ok r w.tq L) (he : w.tq.tqeIfq n.tqe ≠ none) (hok : c.ok ≠ 0) :
    ∃ w' v L', ipfTcpAge n w c = some (w', v) ∧ Ok r w'.tq L' ∧ w'.tq.tqeIfq n.tqe ≠ none ∧
      ((w' = w ∧ c.sets TH_RST = false ∧ (fsm c (w.state !c.finRev) (w.state c.finRev)).2 ≠ 1) ∨
        (v = 1 ∧ ∃ t, Accepted n w c w' t)) := by
  -- the tail of the function, for a verdict of 1
  have htail : ∀ t, ((c.sets TH_RST = true ∧ (t = 5 ∨ t = 11)) ∨
      (c.sets TH_RST = false ∧ fsm c (w.state !c.finRev) (w.state c.finRev) = (t, 1))) →
      ∃ w' L', (if n.tqeFlags &&& TQE_RULEBASED = 0 then do
          let oifq ← w.tq.tqeIfq n.tqe
          let tq ← ipfMovequeue w.tq c.ticks n.tqe oifq (n.tqtab t)
          return ((⟨turned w c t, tq⟩ : World Q E), 1)
        else some ({ w with state := turned w c t }, 1)) = some (w', 1) ∧ Ok r w'.tq L' ∧
        w'.tq.tqeIfq n.tqe ≠ none ∧ Accepted n w c w' t := by
    intro t ht
    by_cases hr : n.tqeFlags &&& TQE_RULEBASED = 0
    · obtain ⟨q, hq'⟩ := Option.ne_none_iff_exists'.1 he
      obtain ⟨tq, L', hmove, hok', hifq⟩ := movequeue_queued hq hq' (n.tqtab t) c.ticks
      refine ⟨⟨turned w c t, tq⟩, L', ?_, hok', by rw [hifq]; simp,
        ⟨rfl, fun _ => hifq, fun h => absurd hr h, ht⟩⟩
      rw [if_pos hr, hq']
      simp [hmove]
    · refine ⟨{ w with state := turned w c t }, L, if_neg hr, hq, he,
        ⟨rfl, fun h => absurd h hr, fun _ => rfl, ht⟩⟩
  unfold ipfTcpAge
  by_cases hrst : c.sets TH_RST = true
  · have hturn : ∀ t, turned w c t = update
        (if w.state (!c.finRev) ≤ IPF_TCPS_ESTABLISHED then
          update w.state (!c.finRev) IPF_TCPS_CLOSE_WAIT else w.state) c.finRev t := by
      intro t
      by_cases ho : w.state (!c.finRev) ≤ 4
      · rw [turned, if_pos ⟨hrst, ho⟩, if_pos (show _ ≤ IPF_TCPS_ESTABLISHED from ho)]
        rfl
      · rw [turned, if_neg (fun h => ho h.2), if_neg (show ¬_ ≤ IPF_TCPS_ESTABLISHED from ho)]
    by_cases hp : ¬c.sets TH_PUSH ∧ c.dlen = 0
    · obtain ⟨w', L', h1, h2, h3, h4⟩ := htail IPF_TCPS_CLOSED (.inl ⟨hrst, .inr rfl⟩)
      refine ⟨w', 1, L', ?_, h2, h3, .inr ⟨rfl, _, h4⟩⟩
      rw [← h1]
      simp [hrst, hok, hp, hturn]
    · obtain ⟨w', L', h1, h2, h3, h4⟩ := htail IPF_TCPS_CLOSE_WAIT (.inl ⟨hrst, .inl rfl⟩)
      refine ⟨w', 1, L', ?_, h2, h3, .inr ⟨rfl, _, h4⟩⟩
      rw [← h1]
      simp only [hrst, if_true, if_neg hp, hturn]
      simp [hok]
  · have hrst' : c.sets TH_RST = false := by simpa using hrst
    rcases hf : fsm c (w.state !c.finRev) (w.state c.finRev) with ⟨t, v⟩
    simp only [hrst', Bool.false_eq_true, if_false, hf]
    by_cases hv2 : v = 2
    · exact ⟨w, 1, L, by simp [hv2], hq, he, .inl ⟨rfl, trivial, by simp [hv2]⟩⟩
    by_cases hv1 : v = 1
    · obtain ⟨w', L', h1, h2, h3, h4⟩ := htail t (.inr ⟨hrst', by rw [hf, hv1]⟩)
      refine ⟨w', 1, L', ?_, h2, h3, .inr ⟨rfl, t, h4⟩⟩
      rw [← h1]
      simp [hv1, hok, turned, hrst']
    · exact ⟨w, v, L, by simp [hv1, hv2], hq, he, .inl ⟨rfl, trivial, by simpa using hv1⟩⟩

/-- What holds when the packet `c` follows the packets `cs` and takes `w` to `w'` with the verdict
`v`. -/
structure Safe (cs : List Call) (w : World Q E) (c : Call) (w' : World Q E) (v : ℕ) : Prop where
  range : ∀ d, w'.state d ≤ IPF_TCPS_CLOSED
  refused : v = 0 → w' = w
  raised : ∀ d, w.state d ≤ IPF_TCPS_ESTABLISHED → IPF_TCPS_ESTABLISHED < w'.state d →
    Seen (cs ++ [c])
  stays : ∀ d, IPF_TCPS_ESTABLISHED < w.state d → IPF_TCPS_ESTABLISHED < w'.state d

/-- Once a FIN or RST was seen, the packet `c` does not put an entry without rule timeouts on the
queue of `ESTABLISHED`. -/
def Quiet (n : Entry Q E) (cs : List Call) (w : World Q E) (c : Call) (w' : World Q E) : Prop :=
  n.tqeFlags &&& TQE_RULEBASED = 0 → Seen (cs ++ [c]) →
    w'.tq.tqeIfq n.tqe = some (n.tqtab IPF_TCPS_ESTABLISHED) → w'.tq = w.tq

/-- **One packet of a run.** -/
theorem age_safe {cs : List Call} (hq : Ok r w.tq L) (he : w.tq.tqeIfq n.tqe ≠ none)
    (hok : c.ok ≠ 0) (ha : Above cs w.state) :
    ∃ w' v L', ipfTcpAge n w c = some (w', v) ∧ Ok r w'.tq L' ∧ w'.tq.tqeIfq n.tqe ≠ none ∧
      Above (cs ++ [c]) w'.state ∧ Safe cs w c w' v ∧ (Proper w.state c → Closing cs w.state →
        Closing (cs ++ [c]) w'.state ∧ Quiet n cs w c w') := by
  obtain ⟨w', v, L', h1, h2, h3, hcases⟩ := age_cases hq he hok
  refine ⟨w', v, L', h1, h2, h3, ?_⟩
  rcases hcases with ⟨rfl, hrst, hf⟩ | ⟨rfl, t, hacc⟩
  · refine ⟨⟨ha.bound, fun hno => ha.level fun hs => hno (seen_concat.2 (.inl hs))⟩,
      ⟨ha.bound, fun _ => rfl, fun d h4 h5 => ?_, fun _ => id⟩,
      fun hp hc => ⟨hc.idle ha.bound hp hrst hf, fun _ _ _ => rfl⟩⟩
    exact absurd h5 (not_lt.2 h4)
  · have hkeep := hacc.keeps ha
    refine ⟨hkeep, ⟨hkeep.bound, fun hv => absurd hv (by omega), fun d h4 h5 => ?_,
      hacc.above ha.bound⟩, fun hp hc => ?_⟩
    · -- a side that rises without a FIN or RST would contradict the invariant
      by_contra hno
      rw [seen_concat, not_or, not_or, Bool.not_eq_true, Bool.not_eq_true] at hno
      rcases ha.level hno.1 with hl | hl
      · exact absurd (hacc.level ha.bound hno.2.1 hno.2.2 hl d) (not_le.2 h5)
      · exact absurd (hl d) (not_lt.2 h4)
    · obtain ⟨hclosing, hne⟩ := hacc.closing ha.bound hp hc
      refine ⟨hclosing, fun hr hseen hifq => ?_⟩
      rw [hacc.queue hr] at hifq
      exact absurd (n.tqtab_inj (Option.some.inj hifq)) (hne hseen)

/-- All packets of `cs` are proper where they are seen. -/
def Propers (n : Entry Q E) : World Q E → List Call → Prop
  | _, [] => True
  | w, c :: cs => Proper w.state c ∧ ∀ w' v, ipfTcpAge n w c = some (w', v) → Propers n w' cs

/-- Every packet of a run that follows the packets `pre`. -/
theorem run_steps {pre cs : List Call} (hq : Ok r w.tq L) (he : w.tq.tqeIfq n.tqe ≠ none)
    (hok : ∀ c ∈ cs, c.ok ≠ 0) (ha : Above pre w.state) :
    ∀ done c, done ++ [c] <+: cs → ∃ w₁ w₂ v, run n w done = some w₁ ∧
      ipfTcpAge n w₁ c = some (w₂, v) ∧ Safe (pre ++ done) w₁ c w₂ v ∧
      (Closing pre w.state → Propers n w cs → Quiet n (pre ++ done) w₁ c w₂) := by
  induction cs generalizing pre w L with
  | nil =>
    intro done c hd
    exact absurd (List.prefix_nil.1 hd) (by simp)
  | cons c₀ cs ih =>
    intro done c hd
    obtain ⟨w', v, L', h1, h2, h3, h4, h5, h6⟩ :=
      age_safe (n := n) hq he (hok c₀ (by simp)) ha
    cases done with
    | nil =>
      obtain ⟨rfl, -⟩ := List.cons_prefix_cons.1 hd
      rw [List.append_nil]
      exact ⟨w, w', v, rfl, h1, h5, fun hc hp => (h6 hp.1 hc).2⟩
    | cons c₁ done =>
      obtain ⟨rfl, hrest⟩ := List.cons_prefix_cons.1 hd
      obtain ⟨w₁, w₂, v', hrun, hage, hsafe, hquiet⟩ :=
        ih h2 h3 (fun c hc => hok c (by simp [hc])) h4 done c hrest
      rw [List.append_assoc] at hsafe hquiet
      refine ⟨w₁, w₂, v', ?_, hage, hsafe, fun hc hp => ?_⟩
      · rw [run, h1]
        exact hrun
      · exact hquiet (h6 hp.1 hc).1 (hp.2 w' v h1)

theorem proper_of_above {s : Bool → ℕ} (h : ∀ d, 4 < s d) : Proper s c := by
  have hs := h c.finRev
  intro _
  simp only [IPF_TCPS_LISTEN, IPF_TCPS_SYN_SENT, IPF_TCPS_SYN_RECEIVED, IPF_TCPS_ESTABLISHED]
  exact ⟨fun h0 => by omega, fun _ => ⟨fun h12 => by omega, fun h4 => by omega⟩⟩

/-- With both sides above `ESTABLISHED` every packet is proper, and both stay there. -/
theorem propers_of_above {cs : List Call} (hq : Ok r w.tq L) (he : w.tq.tqeIfq n.tqe ≠ none)
    (hok : ∀ c ∈ cs, c.ok ≠ 0) (hb : ∀ d, w.state d ≤ 11) (h : ∀ d, 4 < w.state d) : Propers n w cs := by
  induction cs generalizing w L with
  | nil => trivial
  | cons c cs ih =>
    refine ⟨proper_of_above h, fun w' v hage => ?_⟩
    have ha : Above [] w.state := ⟨hb, fun _ => .inr h⟩
    obtain ⟨w₁, v₁, L', h1, h2, h3, h4, h5, -⟩ := age_safe (n := n) hq he (hok c (by simp)) ha
    rw [h1, Option.some.injEq, Prod.mk.injEq] at hage
    obtain ⟨rfl, -⟩ := hage
    exact ih h2 h3 (fun c hc => hok c (by simp [hc])) h4.bound fun d => h5.stays d (h d)

/-- **Safety of the TCP state machine.** At every packet of every run of an entry that starts with
both sides in `LISTEN`, as a new entry does, or with both sides in `CLOSED`, the function returns
and the states are in range; a refused packet changes nothing; a side rises above `ESTABLISHED`
only after a FIN or RST, and stays above. If the run starts in `CLOSED`, or all its packets are
proper, no packet puts the entry on the long queue once a FIN or RST was seen. -/
theorem run_ages (n : Entry Q E) (w : World Q E) (hq : Ok r w.tq L)
    (he : w.tq.tqeIfq n.tqe ≠ none) (cs : List Call) (hok : ∀ c ∈ cs, c.ok ≠ 0)
    (hw : (∀ d, w.state d = IPF_TCPS_LISTEN) ∨ ∀ d, w.state d = IPF_TCPS_CLOSED) :
    ∀ done c, done ++ [c] <+: cs → ∃ w₁ w₂ v, run n w done = some w₁ ∧
      ipfTcpAge n w₁ c = some (w₂, v) ∧ Safe done w₁ c w₂ v ∧
      ((∀ d, w.state d = IPF_TCPS_CLOSED) ∨ Propers n w cs → Quiet n done w₁ c w₂) := by
  have hseen : ¬Seen [] := by simp [Seen]
  have hstart : Above [] w.state ∧ Closing [] w.state ∧
      ((∀ d, w.state d = IPF_TCPS_CLOSED) ∨ Propers n w cs → Propers n w cs) := by
    rcases hw with h0 | h11
    · have h4 : ∀ d, w.state d ≤ 4 := fun d => by rw [h0]; decide
      refine ⟨⟨fun d => by rw [h0]; decide, fun _ => .inl h4⟩, .inr (.inl ⟨hseen, h4⟩), ?_⟩
      rintro (h11 | hp)
      · have := (h0 false).symm.trans (h11 false)
        exact absurd this (by decide)
      · exact hp
    · have h4 : ∀ d, 4 < w.state d := fun d => by rw [h11]; decide
      have hb : ∀ d, w.state d ≤ 11 := fun d => by rw [h11]; decide
      exact ⟨⟨hb, fun _ => .inr h4⟩, .inl h4, fun _ => propers_of_above hq he hok hb h4⟩
  obtain ⟨habove, hclosing, hpropers⟩ := hstart
  intro done c hd
  obtain ⟨w₁, w₂, v, hrun, hage, hsafe, hquiet⟩ := run_steps hq he hok habove done c hd
  exact ⟨w₁, w₂, v, hrun, hage, hsafe, fun h => hquiet hclosing (hpropers h)⟩

end Runs

/-! ## A half-closed connection on the long queue -/

/-- One entry, on the queue of `LISTEN`. -/
def entry : Entry ℕ Unit := ⟨(), 0, id, fun _ _ h => h⟩

def fresh : World ℕ Unit :=
  ⟨fun _ => IPF_TCPS_LISTEN, ipfQueueappend (Tq.init (fun _ => 10) (fun _ => 0) (fun _ => 1)) 0 () 0 0⟩

theorem fresh_ok : Ok (fun _ => 1) fresh.tq (update (fun _ => []) 0 [()]) :=
  queueappend_ok (init_ok _ _ _) rfl 0 0

/-- A packet of 40 bytes with no payload. -/
def packet (rev : Bool) (f : ThFlags) : Call := ⟨rev, f, 20, 5, 0, 1, 0⟩

theorem Propers.cons {n : Entry ℕ Unit} {w w' : World ℕ Unit} {c : Call} {cs : List Call} {v : ℕ}
    (hp : Proper w.state c) (h : ipfTcpAge n w c = some (w', v)) (hcs : Propers n w' cs) : Propers n w (c :: cs) := by
  refine ⟨hp, fun w'' v' h' => ?_⟩
  rw [h, Option.some.injEq, Prod.mk.injEq] at h'
  rw [← h'.1]
  exact hcs

/-- A connection that is opened, closed from the first side, and answered. -/
theorem run_ages_close :
    let cs := [packet false TH_SYN, packet true TH_OPENING, packet false TH_ACK,
      packet true TH_ACK, packet false (TH_FIN ||| TH_ACK), packet true TH_ACK]
    Propers entry fresh cs ∧ ∃ w₁ w₂ v,
      run entry fresh (cs.take 5) = some w₁ ∧ ipfTcpAge entry w₁ (packet true TH_ACK) = some (w₂, v) ∧
      Safe (cs.take 5) w₁ (packet true TH_ACK) w₂ v ∧
      Quiet entry (cs.take 5) w₁ (packet true TH_ACK) w₂ := by
  intro cs
  have hp : Propers entry fresh cs := by
    refine Propers.cons ?_ rfl (Propers.cons ?_ rfl (Propers.cons ?_ rfl (Propers.cons ?_ rfl
      (Propers.cons ?_ rfl (Propers.cons ?_ rfl trivial)))))
    all_goals
      unfold Proper Call.bare
      decide
  obtain ⟨w₁, w₂, v, hrun, hage, hsafe, hquiet⟩ := run_ages entry fresh fresh_ok (by decide) cs
    (by decide) (.inl fun _ => rfl) (cs.take 5) (packet true TH_ACK) (List.prefix_refl cs)
  exact ⟨hp, w₁, w₂, v, hrun, hage, hsafe, hquiet (.inr hp)⟩

/-- **A half-closed connection goes back to the long queue.** The first side closes before the
second one has sent more than its SYN-ACK; the ACK of the FIN then takes the second side from
`SYN_RECEIVED` to `ESTABLISHED`, and the entry to the queue of that state. -/
theorem run_not_quiet :
    let cs := [packet false TH_SYN, packet true TH_OPENING, packet false TH_ACK,
      packet false (TH_FIN ||| TH_ACK)]
    ∃ w₁ w₂ v, run entry fresh cs = some w₁ ∧
      ipfTcpAge entry w₁ (packet true TH_ACK) = some (w₂, v) ∧
      ¬Quiet entry cs w₁ (packet true TH_ACK) w₂ := by
  intro cs
  refine ⟨_, _, _, rfl, rfl, fun hq => ?_⟩
  have h := hq rfl ⟨packet false (TH_FIN ||| TH_ACK), by simp [cs], .inl (by decide)⟩ rfl
  have h' := congrArg (fun tq => tq.tqeIfq ()) h
  exact absurd h' (by decide)

end Ipfilter.Tcp
