import Ipfilter.Spec.DnsQueries
import Mathlib.Data.List.GetD
import Mathlib.Data.List.Perm.Lattice

/-!
# dns-proxy gives replies to the right client

* `checkAnswers_perm`, `modifyPacket_questions` — a reply that passes has the names of the questions of the query;
* `Turn` — the cursor of a forward rule, after the servers that were used; `Turn.advance` is one more;
* `Good`: the invariant of a run; `Good.again`, `Good.new` and `Good.free` are what steps do to it;
* `replies_right` — **in a run whose steps meet the condition, replies go to the right clients**; `same_newid` is a run of two
  queries with one id.
-/

namespace Ipfilter.DnsProxy

open Cyclic List Option

variable {c : Config} {w : World} {hist : History} {e : Event} {o : Output} {f : Forward} {cur : Cursor} {u : List Server}
  {recs recs' : List Qrec} {qip : Qinfo} {h : ℕ} {p : Passed}

/-! ## Questions -/

/-- The questions of a list of records. -/
def questionsOf (recs : List Qrec) : List Qrec := recs.filter fun qr => qr.qirQtype = .question

/-- One name fewer. -/
theorem markFirst_perm {name : List Byte} (hm : markFirst name recs = some recs') :
    ((questionsOf recs).map Qrec.qirName).Perm (name :: (questionsOf recs').map Qrec.qirName) := by
  induction recs generalizing recs' with
  | nil => cases hm
  | cons qra l ih =>
    rw [markFirst] at hm
    split at hm
    · rename_i hq
      cases hm
      simp [questionsOf, hq.1, hq.2]
    · obtain ⟨l', hl', rfl⟩ := Option.map_eq_some_iff.mp hm
      have hperm := ih hl'
      simp only [questionsOf, filter_cons] at hperm ⊢
      split
      · exact (hperm.cons qra.qirName).trans (.swap ..)
      · exact hperm

theorem answersLoop_perm {l : List Qrec} (ha : answersLoop l recs = some recs') :
    ((questionsOf recs).map Qrec.qirName).Perm ((questionsOf l).map Qrec.qirName ++ (questionsOf recs').map Qrec.qirName) := by
  induction l generalizing recs with
  | nil =>
    cases ha
    exact .refl _
  | cons qr l ih =>
    rw [answersLoop] at ha
    split at ha
    · rename_i hq
      have hl : questionsOf (qr :: l) = questionsOf l := by simp [questionsOf, hq]
      rw [hl]
      exact ih ha
    · rename_i hq
      rw [not_not] at hq
      have hl : questionsOf (qr :: l) = qr :: questionsOf l := by simp [questionsOf, hq]
      rw [hl]
      split at ha
      · cases ha
      · rename_i recs₁ hm
        exact (markFirst_perm hm).trans ((ih ha).cons _)

/-- **A reply that passes `check_answers`** has the names of the questions of the query. -/
theorem checkAnswers_perm (ha : checkAnswers recs qip ≠ .block) :
    (qip.questions.map Qrec.qirName).Perm ((questionsOf recs).map Qrec.qirName) := by
  unfold checkAnswers at ha
  split at ha
  · exact absurd rfl ha
  · rename_i recs' hl
    have hnone : questionsOf recs' = [] := by
      apply filter_eq_nil_iff.mpr
      intro qra hqra hq
      apply ha
      rw [if_pos (any_eq_true.mpr ⟨qra, hqra, hq⟩)]
    have hperm := answersLoop_perm hl
    rw [hnone, map_nil, append_nil] at hperm
    exact hperm.symm

theorem checkQuestions_named (hq : checkQuestions qip ≠ .block) {qr : Qrec} (hqr : qr ∈ qip.questions) :
    qr.qirName ≠ [] := by
  intro hn
  apply hq
  unfold checkQuestions
  obtain ⟨hm, ht⟩ := mem_filter.mp hqr
  split
  · rfl
  · rw [if_pos (any_eq_true.mpr ⟨qr, hm, by simpa [hn] using ht⟩)]

/-- A record is left alone, or its name is cleared. -/
theorem modifyApply_cases (m : Modify) (ptr : Bool) (qr : Qrec) :
    modifyApply m ptr qr = qr ∨ modifyApply m ptr qr = { qr with qirName := [] } := by
  unfold modifyApply
  split_ifs <;> simp

theorem modifyRec_cases (ms : List Modify) (ptr : Bool) (qr : Qrec) :
    modifyRec ms ptr qr = qr ∨ modifyRec ms ptr qr = { qr with qirName := [] } := by
  unfold modifyRec
  induction ms generalizing qr with
  | nil => exact .inl rfl
  | cons m ms ih =>
    rw [foldl_cons]
    split
    · rcases modifyApply_cases m ptr qr with h1 | h1
      · rw [h1]
        exact ih qr
      · rw [h1]
        -- what was cleared stays cleared
        rcases ih { qr with qirName := [] } with h2 | h2 <;> exact .inr h2
    · exact ih qr

/-- **Questions that still have their names** are those of the client. -/
theorem modifyPacket_questions (ptr : ℕ → Bool) (hn : ∀ qr ∈ questionsOf (modifyPacket c ptr recs), qr.qirName ≠ []) :
    questionsOf (modifyPacket c ptr recs) = questionsOf recs := by
  unfold modifyPacket at *
  induction recs generalizing ptr with
  | nil => rfl
  | cons qr recs ih =>
    rw [mapIdx_cons] at *
    have ih' := ih fun i => ptr (i + 1)
    simp only [questionsOf, filter_cons] at hn ih' ⊢
    rcases modifyRec_cases c.cModifies (ptr 0) qr with h1 | h1
    · rw [h1] at hn ⊢
      by_cases hq : qr.qirQtype = .question
      · simp only [hq, decide_true, if_true] at hn ⊢
        rw [ih' fun x hx => hn x (mem_cons_of_mem _ hx)]
      · simp only [hq, decide_false] at hn ⊢
        exact ih' hn
    · rw [h1] at hn ⊢
      by_cases hq : qr.qirQtype = .question
      · simp only [hq, decide_true, if_true] at hn
        exact absurd rfl (hn _ mem_cons_self)
      · simp only [hq, decide_false] at hn ⊢
        exact ih' hn

/-! ## Forward rules -/

theorem rows_length (c : Config) (f : Forward) : (c.rows f).length = f.fTo.length := length_map ..

theorem rows_getElem {i : ℕ} (hi : i < (c.rows f).length) :
    (c.rows f)[i] = (range (c.frServers (f.fTo.getD i 0)).length).map fun k => (f.fTo.getD i 0, k) := by
  have hi' : i < f.fTo.length := by rwa [rows_length] at hi
  rw [getD_eq_getElem _ _ hi']
  exact getElem_map ..

/-- Forwarders of a rule have servers. -/
theorem frServers_pos (hf : f ∈ c.cForwards) {i : ℕ} (hi : i < f.fTo.length) :
    0 < (c.frServers (f.fTo.getD i 0)).length := by
  rw [getD_eq_getElem _ _ hi]
  have hlt := (c.given f hf).2 _ (getElem_mem hi)
  unfold Config.frServers
  rw [getD_eq_getElem _ _ hlt]
  exact length_pos_of_ne_nil (c.served _ (getElem_mem hlt))

/-- **The cursor of a rule** when the servers `u` were used: at a server, the next one in turn. -/
structure Turn (c : Config) (f : Forward) (cur : Cursor) (u : List Server) : Prop where
  fwdr : cur.fFwdr < f.fTo.length
  fl : f.fTo.getD cur.fFwdr 0 = cur.fServer.1
  server : cur.fServer.2 < (c.frServers cur.fServer.1).length
  turn : place (c.rows f) cur.fFwdr cur.fServer.2 = u.length % (c.servers f).length
  rounds : Rounds (c.servers f) u

theorem Turn.start (hf : f ∈ c.cForwards) : Turn c f f.cursor [] where
  fwdr := length_pos_of_ne_nil (c.given f hf).1
  fl := rfl
  server := frServers_pos hf (length_pos_of_ne_nil (c.given f hf).1)
  turn := by rw [length_nil, Nat.zero_mod]; exact place_zero _
  rounds := rounds_nil

theorem Turn.row (h : Turn c f cur u) : ∃ hi : cur.fFwdr < (c.rows f).length,
    (c.rows f)[cur.fFwdr] = (range (c.frServers cur.fServer.1).length).map fun k => (cur.fServer.1, k) := by
  have hi : cur.fFwdr < (c.rows f).length := by
    rw [rows_length]
    exact h.fwdr
  exact ⟨hi, by rw [rows_getElem hi, h.fl]⟩

theorem Turn.sIpaddr (h : Turn c f cur u) : ∃ a, c.sIpaddr cur.fServer = some a :=
  ⟨_, getElem?_eq_getElem h.server⟩

/-- The server of the cursor is the next in turn. -/
theorem Turn.next (h : Turn c f cur u) : (c.servers f)[u.length % (c.servers f).length]? = some cur.fServer := by
  obtain ⟨hi, hrow⟩ := h.row
  have hk : cur.fServer.2 < (c.rows f)[cur.fFwdr].length := by
    rw [hrow, length_map, length_range]
    exact h.server
  rw [← h.turn, Config.servers, getElem?_place hi hk, hrow]
  simp [h.server]

/-- **`server_determine` goes to the next server in turn**, unless a forwarder that is done is followed by another one. -/
theorem Turn.advance (h : Turn c f cur u) (hf : f ∈ c.cForwards) (ht : c.Turns f cur) :
    Turn c f (c.advance f cur) (u ++ [cur.fServer]) := by
  have hrounds := h.rounds.snoc h.next
  obtain ⟨hi, hrow⟩ := h.row
  have hlen : (c.rows f)[cur.fFwdr].length = (c.frServers cur.fServer.1).length := by
    rw [hrow, length_map, length_range]
  have hplace := h.turn
  have hserver := h.server
  have hfwdr := h.fwdr
  by_cases hlast : cur.fServer.2 + 1 = (c.frServers cur.fServer.1).length
  · have hto := ht hlast
    -- the row ends here, and the next one starts
    have hend : place (c.rows f) (cur.fFwdr + 1) 0 = place (c.rows f) cur.fFwdr cur.fServer.2 + 1 := by
      rw [place_succ hi, hlen, ← hlast]
      rfl
    have hadv : c.advance f cur =
        ⟨if cur.fFwdr + 1 = f.fTo.length then 0 else cur.fFwdr + 1, (cur.fServer.1, 0)⟩ := by
      unfold Config.advance
      simp only [h.fl, hlast, and_self, if_true]
    rw [hadv]
    refine ⟨?_, hto, by dsimp only; omega, ?_, hrounds⟩
    · dsimp only
      split <;> omega
    · dsimp only
      rw [length_append, length_singleton]
      by_cases hwrap : cur.fFwdr + 1 = f.fTo.length
      · rw [if_pos hwrap, place_zero]
        apply succ_mod_last hplace
        rw [← hend, hwrap, ← rows_length c f, place_length]
        rfl
      · rw [if_neg hwrap, hend]
        apply succ_mod hplace
        have hi' : cur.fFwdr + 1 < (c.rows f).length := by
          rw [rows_length]
          omega
        rw [← hend]
        apply place_lt hi'
        rw [rows_getElem hi', length_map, length_range]
        apply frServers_pos hf
        omega
  · have hadv : c.advance f cur = { cur with fServer := (cur.fServer.1, cur.fServer.2 + 1) } := by
      unfold Config.advance
      simp only [h.fl, hlast, and_false, if_false]
    rw [hadv]
    have hk : cur.fServer.2 + 1 < (c.rows f)[cur.fFwdr].length := by omega
    have hlt := place_lt hi hk
    refine ⟨h.fwdr, h.fl, by dsimp only; omega, ?_, hrounds⟩
    dsimp only
    rw [length_append, length_singleton]
    exact succ_mod hplace hlt

/-! ## Histories -/

theorem made_concat (hist : History) (e : Event) (o : Output) : made (hist ++ [(e, o)]) = made hist ++ o.made.toList := by
  unfold made
  rw [filterMap_append]
  cases ho : o.made <;> simp [ho]

theorem freed_concat (hist : History) (e : Event) (o : Output) : freed (hist ++ [(e, o)]) = freed hist ++ o.freed := by
  simp [freed]

theorem passes_concat (hist : History) (e : Event) (o : Output) :
    passes (hist ++ [(e, o)]) = passes hist ++ o.passed.toList := by
  unfold passes
  rw [filterMap_append]
  cases ho : o.passed <;> simp [ho]

theorem mem_passes_concat : p ∈ passes (hist ++ [(e, o)]) ↔ p ∈ passes hist ∨ o.passed = some p := by
  rw [passes_concat, mem_append, mem_toList]

/-- A step that uses no server of the rule. -/
theorem used_concat_none {r : ℕ} (hr : ∀ p rs, o.passed = some p → p.rule = some rs → rs.1 ≠ r) :
    used r (hist ++ [(e, o)]) = used r hist := by
  unfold used
  rw [passes_concat, filterMap_append]
  cases ho : o.passed with
  | none => simp
  | some p =>
    cases hp : p.rule with
    | none => simp [hp]
    | some rs => simp [hp, hr p rs ho hp]

theorem used_concat_some {r : ℕ} {s : Server} (ho : o.passed = some p) (hp : p.rule = some (r, s)) :
    used r (hist ++ [(e, o)]) = used r hist ++ [s] := by
  unfold used
  rw [passes_concat, filterMap_append]
  simp [ho, hp]

theorem lastPassed_mem (hl : lastPassed hist h = some p) : p ∈ passes hist ∧ p.query = h := by
  have hm := mem_filter.mp (mem_of_getLast? hl)
  exact ⟨hm.1, of_decide_eq_true hm.2⟩

theorem lastPassed_ne (hne : ∀ p, o.passed = some p → p.query ≠ h) :
    lastPassed (hist ++ [(e, o)]) h = lastPassed hist h := by
  unfold lastPassed
  rw [passes_concat, filter_append]
  have hnil : (o.passed.toList.filter fun p => p.query = h) = [] := by
    apply filter_eq_nil_iff.mpr
    intro p hp
    simpa using hne p (Option.mem_toList.mp hp)
  rw [hnil, append_nil]

theorem lastPassed_self (ho : o.passed = some p) : lastPassed (hist ++ [(e, o)]) p.query = some p := by
  unfold lastPassed
  rw [passes_concat, filter_append, ho]
  simp

/-- The deliveries so far are right. -/
def Told (hist : History) : Prop := ∀ l e o l', hist = l ++ (e, o) :: l' → ∀ d, o.delivered = some d → Answered l e d

theorem Told.concat (ht : Told hist) (hd : ∀ d, o.delivered = some d → Answered hist e d) : Told (hist ++ [(e, o)]) := by
  intro l e' o' l' heq d hd'
  rcases eq_nil_or_concat l' with rfl | ⟨l'', x, rfl⟩
  · obtain ⟨rfl, hx⟩ := append_inj' heq rfl
    cases hx
    exact hd d hd'
  · rw [concat_eq_append, ← cons_append, ← append_assoc] at heq
    obtain ⟨rfl, -⟩ := append_inj' heq rfl
    exact ht l e' o' l'' rfl d hd'

/-! ## The invariant -/

/-- **What a query remembers** of how it was passed on. -/
structure Recorded (c : Config) (q : Query) (p : Passed) : Prop where
  port : p.port = q.qArrived
  client : p.client = q.qSrc
  dnsId : p.dnsId = q.qOrigid
  dst : p.dst = q.qDst
  newid : p.newid = q.qNewid
  info : ∃ ptr, q.qInfo = modifyPacket c ptr p.qip.qiRecs

/-- **What holds after every step:** the queries on `c_queries` are those that are live, and go to different addresses. -/
structure Good (c : Config) (w : World) (hist : History) : Prop where
  nodup : w.cQueries.Nodup
  perm : w.live.Perm w.cQueries
  apart : ∀ x ∈ w.cQueries, ∀ y ∈ w.cQueries, x ≠ y → (w.q x).qDst.sinAddr ≠ (w.q y).qDst.sinAddr
  recorded : ∀ x ∈ w.cQueries, ∃ p, lastPassed hist x = some p ∧ Recorded c (w.q x) p
  below : ∀ x ∈ made hist, x < w.next
  known : ∀ p ∈ passes hist, p.query ∈ made hist
  distinct : (made hist).Nodup
  once : (freed hist ++ w.cQueries).Perm (made hist)
  again : ∀ p ∈ passes hist, ∀ p' ∈ passes hist, p.query = p'.query → p.dst.sinAddr = p'.dst.sinAddr
  told : Told hist
  turn : ∀ r f, c.cForwards[r]? = some f → Turn c f (w.cursor r) (used r hist)

theorem Good.init (c : Config) : Good c (World.init c) [] where
  nodup := nodup_nil
  perm := .refl _
  apart _ hx := by cases hx
  recorded _ hx := by cases hx
  below _ hx := by cases hx
  known _ hp := by cases hp
  distinct := nodup_nil
  once := .refl _
  again _ hp := by cases hp
  told l _ _ _ heq := by simp at heq
  turn r f hf := by
    have hcur : (World.init c).cursor r = f.cursor := by
      have hget : c.cForwards.getD r ⟨[], []⟩ = f := by rw [getD_eq_getElem?_getD, hf, getD_some]
      exact congrArg Forward.cursor hget
    rw [hcur]
    exact .start (mem_of_getElem? hf)

theorem Good.mem_live (hg : Good c w hist) : ∀ x ∈ w.cQueries, x ∈ w.live := fun _ hx => hg.perm.mem_iff.mpr hx

theorem Good.mem_made (hg : Good c w hist) {x : ℕ} (hx : x ∈ w.cQueries) : x ∈ made hist :=
  hg.once.mem_iff.mp (mem_append_right _ hx)

theorem Good.next_not_mem (hg : Good c w hist) : w.next ∉ made hist := fun hm => Nat.lt_irrefl _ (hg.below _ hm)

/-- A query on the list was not freed. -/
theorem Good.not_freed (hg : Good c w hist) {x : ℕ} (hx : x ∈ w.cQueries) : x ∉ freed hist := by
  have hnd := hg.once.nodup_iff.mpr hg.distinct
  exact fun hf => (disjoint_of_nodup_append hnd) hf hx

theorem Good.right (hg : Good c w hist) : Right c w hist where
  sent x hx := by
    obtain ⟨p, hp, hrec⟩ := hg.recorded x hx
    exact ⟨p, hp, hrec.dst, hrec.newid⟩
  newids x hx y hy hne heq := absurd heq (hg.apart x hx y hy hne)
  delivered := hg.told
  again := hg.again
  rounds r f hf := (hg.turn r f hf).rounds
  live := hg.mem_live
  nodup := hg.distinct
  once := hg.once

/-- **Queries are freed** as they are taken off the list. -/
theorem Good.free (hg : Good c w hist) {a b live' : List ℕ} {dl : Option Delivery} (hp : w.cQueries.Perm (a ++ b))
    (hl : live'.Perm b) (hd : ∀ d, dl = some d → Answered hist e d) :
    Good c { w with cQueries := b, live := live' } (hist ++ [(e, { delivered := dl, freed := a })]) := by
  have hmade : made (hist ++ [(e, { delivered := dl, freed := a })]) = made hist := by simp [made_concat]
  have hpasses : passes (hist ++ [(e, { delivered := dl, freed := a })]) = passes hist := by simp [passes_concat]
  have hb : ∀ x ∈ b, x ∈ w.cQueries := fun x hx => hp.mem_iff.mpr (mem_append_right _ hx)
  refine ⟨?_, hl, ?_, ?_, ?_, ?_, ?_, ?_, ?_, hg.told.concat hd, ?_⟩
  · exact (nodup_append.mp (hp.nodup_iff.mp hg.nodup)).2.1
  · exact fun x hx y hy => hg.apart x (hb x hx) y (hb y hy)
  · intro x hx
    rw [lastPassed_ne fun p hp => by cases hp]
    exact hg.recorded x (hb x hx)
  · rw [hmade]
    exact hg.below
  · rw [hmade, hpasses]
    exact hg.known
  · rw [hmade]
    exact hg.distinct
  · rw [hmade, freed_concat, append_assoc]
    exact (hp.symm.append_left _).trans hg.once
  · rw [hpasses]
    exact hg.again
  · intro r f hf
    rw [used_concat_none fun p _ hp => by cases hp]
    exact hg.turn r f hf

/-- A step that does nothing. -/
theorem Good.same (hg : Good c w hist) : Good c w (hist ++ [(e, ({} : Output))]) :=
  hg.free (.refl _) hg.perm fun _ hd => by cases hd

/-- The list when a query is put at its end. -/
def World.pass (w : World) (x : ℕ) (q : Query) : World :=
  { w with cQueries := w.cQueries ++ [x], q := Function.update w.q x q }

theorem pass_self (w : World) (x : ℕ) (q : Query) : (w.pass x q).q x = q := Function.update_self ..

theorem pass_ne (w : World) {x y : ℕ} (q : Query) (hne : y ≠ x) : (w.pass x q).q y = w.q y := Function.update_of_ne hne ..

/-- **A query is passed on again**, to the same address. -/
theorem Good.again_pass (hg : Good c w hist) {x : ℕ} (hx : x ∈ w.cQueries) {q : Query} (hp : p.query = x)
    (hrec : Recorded c q p) (hdst : q.qDst.sinAddr = (w.q x).qDst.sinAddr) (hrule : p.rule = none) :
    Good c ({ w with cQueries := w.cQueries.erase x }.pass x q) (hist ++ [(e, { passed := some p })]) := by
  set w' := { w with cQueries := w.cQueries.erase x }.pass x q
  have hback : (w.cQueries.erase x ++ [x]).Perm ([x] ++ w.cQueries.erase x) := perm_append_comm
  have hperm : w'.cQueries.Perm w.cQueries := hback.trans (perm_cons_erase hx).symm
  have hmade : made (hist ++ [(e, { passed := some p })]) = made hist := by simp [made_concat]
  have haddr : ∀ y, (w'.q y).qDst.sinAddr = (w.q y).qDst.sinAddr := by
    intro y
    by_cases hy : y = x
    · rw [hy, pass_self, hdst]
    · rw [pass_ne _ q hy]
  have hthis : ∀ p' ∈ passes hist, p'.query = p.query → p'.dst.sinAddr = p.dst.sinAddr := by
    intro p' hp' hq
    obtain ⟨p₀, hl, hrec₀⟩ := hg.recorded x hx
    obtain ⟨hm, hq₀⟩ := lastPassed_mem hl
    rw [hg.again p' hp' p₀ hm (by rw [hq, hp, hq₀]), hrec₀.dst, hrec.dst, hdst]
  refine ⟨hperm.nodup_iff.mpr hg.nodup, hg.perm.trans hperm.symm, ?_, ?_, ?_, ?_, ?_, ?_, ?_, ?_, ?_⟩
  · intro y hy z hz hne
    rw [haddr, haddr]
    exact hg.apart y (hperm.mem_iff.mp hy) z (hperm.mem_iff.mp hz) hne
  · intro y hy
    by_cases hyx : y = x
    · subst hyx
      refine ⟨p, ?_, by rwa [pass_self]⟩
      rw [← hp]
      exact lastPassed_self rfl
    · rw [lastPassed_ne fun p' hp' => by cases hp'; rw [hp]; exact Ne.symm hyx, pass_ne _ q hyx]
      exact hg.recorded y (hperm.mem_iff.mp hy)
  · rw [hmade]
    exact hg.below
  · intro p' hp'
    rw [hmade]
    rcases mem_passes_concat.mp hp' with hp' | hp'
    · exact hg.known p' hp'
    · cases hp'
      rw [hp]
      exact hg.mem_made hx
  · rw [hmade]
    exact hg.distinct
  · rw [hmade, freed_concat, append_nil]
    exact (hperm.append_left _).trans hg.once
  · intro p₁ h1 p₂ h2 hq
    rcases mem_passes_concat.mp h1 with h1 | h1 <;> rcases mem_passes_concat.mp h2 with h2 | h2
    · exact hg.again p₁ h1 p₂ h2 hq
    · cases h2
      exact hthis p₁ h1 hq
    · cases h1
      exact (hthis p₂ h2 hq.symm).symm
    · cases h1
      cases h2
      rfl
  · exact hg.told.concat fun d hd => by cases hd
  · intro r f hf
    rw [used_concat_none fun p' rs hp' hrs => by cases hp'; rw [hrule] at hrs; cases hrs]
    exact hg.turn r f hf

/-- **A new query is passed on**, to an address that no outstanding query goes to. -/
theorem Good.new_pass (hg : Good c w hist) {q : Query} {cursor' : ℕ → Cursor} (hp : p.query = w.next)
    (hrec : Recorded c q p) (hfree : w.NotAsked q.qDst.sinAddr) (hturn : ∀ r f, c.cForwards[r]? = some f →
      Turn c f (cursor' r) (used r (hist ++ [(e, { made := some w.next, passed := some p })]))) :
    Good c ({ w with live := w.next :: w.live, next := w.next + 1, cursor := cursor' }.pass w.next q)
      (hist ++ [(e, { made := some w.next, passed := some p })]) := by
  set w' := { w with live := w.next :: w.live, next := w.next + 1, cursor := cursor' }.pass w.next q
  have hnew : w.next ∉ w.cQueries := fun hx => hg.next_not_mem (hg.mem_made hx)
  have hperm : w'.cQueries.Perm (w.next :: w.cQueries) := perm_append_comm
  have hmade : made (hist ++ [(e, { made := some w.next, passed := some p })]) = made hist ++ [w.next] := by
    simp [made_concat]
  have hmem : ∀ x, x ∈ w'.cQueries ↔ x = w.next ∨ x ∈ w.cQueries := fun x => hperm.mem_iff.trans mem_cons
  have hq : ∀ x ∈ w.cQueries, w'.q x = w.q x := fun x hx => pass_ne _ q fun hc => hnew (hc ▸ hx)
  have hself : w'.q w.next = q := pass_self ..
  -- the query is passed on for the first time
  have hthis : ∀ p' ∈ passes hist, p'.query ≠ p.query := by
    intro p' hp' hc
    have hk := hg.known p' hp'
    rw [hc, hp] at hk
    exact hg.next_not_mem hk
  refine ⟨?_, ?_, ?_, ?_, ?_, ?_, ?_, ?_, ?_, ?_, hturn⟩
  · rw [hperm.nodup_iff, nodup_cons]
    exact ⟨hnew, hg.nodup⟩
  · exact (hg.perm.cons w.next).trans hperm.symm
  · intro x hx y hy hne
    rcases (hmem x).mp hx with rfl | hx <;> rcases (hmem y).mp hy with rfl | hy
    · exact absurd rfl hne
    · rw [hself, hq y hy]
      exact (hfree y hy).symm
    · rw [hself, hq x hx]
      exact hfree x hx
    · rw [hq x hx, hq y hy]
      exact hg.apart x hx y hy hne
  · intro x hx
    rcases (hmem x).mp hx with rfl | hx
    · refine ⟨p, ?_, by rwa [hself]⟩
      rw [← hp]
      exact lastPassed_self rfl
    · rw [lastPassed_ne fun p' hp' => by cases hp'; rw [hp]; exact fun hc => hnew (hc ▸ hx), hq x hx]
      exact hg.recorded x hx
  · intro x hx
    have hnext : w'.next = w.next + 1 := rfl
    rw [hmade, mem_append, mem_singleton] at hx
    rcases hx with hx | hx
    · have := hg.below x hx
      omega
    · omega
  · intro p' hp'
    rw [hmade, mem_append, mem_singleton]
    rcases mem_passes_concat.mp hp' with hp' | hp'
    · exact .inl (hg.known p' hp')
    · cases hp'
      exact .inr hp
  · rw [hmade, nodup_append]
    refine ⟨hg.distinct, nodup_singleton _, ?_⟩
    intro a ha b hb hc
    rw [mem_singleton] at hb
    rw [hc, hb] at ha
    exact hg.next_not_mem ha
  · rw [hmade, freed_concat, append_nil]
    have hstep : (freed hist ++ (w.cQueries ++ [w.next])).Perm (made hist ++ [w.next]) := by
      rw [← append_assoc]
      exact hg.once.append_right _
    exact hstep
  · intro p₁ h1 p₂ h2 heq
    rcases mem_passes_concat.mp h1 with h1 | h1 <;> rcases mem_passes_concat.mp h2 with h2 | h2
    · exact hg.again p₁ h1 p₂ h2 heq
    · cases h2
      exact absurd heq (hthis p₁ h1)
    · cases h1
      exact absurd heq.symm (hthis p₂ h2)
    · cases h1
      cases h2
      rfl
  · exact hg.told.concat fun d hd => by cases hd

/-! ## Steps -/

/-- A search that reads live queries only. -/
theorem walk_eq (pr : Query → Bool) {l : List ℕ} (hl : ∀ x ∈ l, x ∈ w.live) :
    w.walk pr l = some (l.find? fun x => pr (w.q x)) := by
  induction l with
  | nil => rfl
  | cons x l ih =>
    rw [World.walk, if_pos (hl x mem_cons_self), find?_cons, ih fun y hy => hl y (mem_cons_of_mem _ hy)]
    cases pr (w.q x) <;> rfl

theorem insertTail_eq (hl : ∀ x ∈ w.cQueries, x ∈ w.live) (x : ℕ) :
    w.insertTail x = some { w with cQueries := w.cQueries ++ [x] } := by
  unfold World.insertTail
  rw [if_pos]
  rw [Option.all_eq_true]
  exact fun y hy => decide_eq_true (hl y (mem_of_getLast? hy))

/-- `add_query` when the packet says where it was going. -/
theorem addQueryTo_transparent {e : Packet} (hl : ∀ x ∈ w.cQueries, x ∈ w.live)
    {dst : Sockaddr} (hd : transparentDst c e = some dst) (again : Bool) (x : ℕ) :
      addQueryTo c e again w x = some (w.pass x { w.q x with
        qDies := e.now + 180, qDst := dst, qInfo := modifyPacket c e.ptr e.qip.qiRecs },
      { made := if again then none else some x
        passed := some ⟨x, again, e.port, e.sender, e.dnsId, e.qip, dst, (w.q x).qNewid, none⟩ }) := by
  unfold addQueryTo
  simp only [insertTail_eq (w := w.set x { w.q x with qDies := e.now + 180 }) hl x, hd]
  simp [World.set, World.pass]

/-- `add_query` when a forward rule says where to go. -/
theorem addQueryTo_rule {e : Packet} (hl : ∀ x ∈ w.cQueries, x ∈ w.live) (hd : transparentDst c e = none) {r : ℕ}
    (hr : c.rule = some r) {a : BitVec 32} (ha : c.sIpaddr (w.cursor r).fServer = some a) (x : ℕ) :
    addQueryTo c e false w x = some
      ({ w with cursor := Function.update w.cursor r (c.advance (c.cForwards.getD r ⟨[], []⟩) (w.cursor r)) }.pass x
        { w.q x with
          qDies := e.now + 180, qDst := ⟨a, 53⟩, qNewid := BitVec.ofNat 16 (w.sSends (w.cursor r).fServer)
          qInfo := modifyPacket c e.ptr e.qip.qiRecs },
      { made := some x
        passed := some ⟨x, false, e.port, e.sender, e.dnsId, e.qip, ⟨a, 53⟩,
          BitVec.ofNat 16 (w.sSends (w.cursor r).fServer), some (r, (w.cursor r).fServer)⟩ }) := by
  unfold addQueryTo serverDetermine
  simp only [insertTail_eq (w := w.set x { w.q x with qDies := e.now + 180 }) hl x, hd, hr, map_some]
  simp [World.set, World.pass, ha]

theorem set_pass (w : World) (x : ℕ) (q₀ q : Query) :
    (w.set x q₀).pass x q = w.pass x q := by simp [World.set, World.pass]

/-- The rule that `server_determine` stops at is one of the forward rules. -/
theorem rule_getElem? {r : ℕ} (hr : c.rule = some r) :
    c.cForwards[r]? = some (c.cForwards.getD r ⟨[], []⟩) ∧ c.cForwards.getD r ⟨[], []⟩ ∈ c.cForwards := by
  obtain ⟨hlt, -⟩ := findIdx?_eq_some_iff_getElem.mp hr
  rw [getD_eq_getElem _ _ hlt]
  exact ⟨getElem?_eq_getElem hlt, getElem_mem hlt⟩

/-- **A new query.** -/
theorem Good.new (hg : Good c w hist) {e : Packet} (hd : Destined c w e) :
    ∃ w' o, addQueryTo c e false ({ w with live := w.next :: w.live, next := w.next + 1 }.set w.next
        { Query.zero with qArrived := e.port, qOrigid := e.dnsId, qSrc := e.sender }) w.next = some (w', o) ∧
      Good c w' (hist ++ [(.query e, o)]) := by
  set q₀ : Query := { Query.zero with qArrived := e.port, qOrigid := e.dnsId, qSrc := e.sender }
  set w₁ := { w with live := w.next :: w.live, next := w.next + 1 }.set w.next q₀
  have hlive : ∀ x ∈ w₁.cQueries, x ∈ w₁.live := fun x hx => mem_cons_of_mem _ (hg.mem_live x hx)
  have hq₀ : w₁.q w.next = q₀ := Function.update_self ..
  unfold Destined at hd
  cases ht : transparentDst c e with
  | some dst =>
    rw [ht] at hd
    refine ⟨_, _, addQueryTo_transparent hlive ht false w.next, ?_⟩
    rw [set_pass, hq₀]
    refine hg.new_pass rfl ⟨rfl, rfl, rfl, rfl, rfl, e.ptr, rfl⟩ hd ?_
    intro r f hf
    rw [used_concat_none fun p rs hp hrs => by cases hp; cases hrs]
    exact hg.turn r f hf
  | none =>
    rw [ht] at hd
    obtain ⟨r, hr, hturns, hfree⟩ := hd
    obtain ⟨hget, hmem⟩ := rule_getElem? hr
    have hturn := hg.turn r _ hget
    obtain ⟨a, ha⟩ := hturn.sIpaddr
    refine ⟨_, _, addQueryTo_rule hlive ht hr ha w.next, ?_⟩
    have hpass : ∀ cur q, ({ w₁ with cursor := cur }).pass w.next q =
        { w with live := w.next :: w.live, next := w.next + 1, cursor := cur }.pass w.next q := by
      intro cur q
      exact set_pass { w with live := w.next :: w.live, next := w.next + 1, cursor := cur } w.next q₀ q
    rw [hpass, hq₀]
    refine hg.new_pass rfl ⟨rfl, rfl, rfl, rfl, rfl, e.ptr, rfl⟩ (hfree a ha) ?_
    intro r' f' hf'
    by_cases hne : r' = r
    · subst hne
      rw [hget] at hf'
      cases hf'
      rw [used_concat_some rfl rfl, Function.update_self]
      exact hturn.advance hmem hturns
    · rw [used_concat_none fun p rs hp hrs => by cases hp; cases hrs; exact Ne.symm hne, Function.update_of_ne hne]
      exact hg.turn r' f' hf'

theorem Good.query (hg : Good c w hist) {e : Packet} (hm : Meets c w (.query e))
    (hpass : checkQuery c.cAcls ⟨e.port, e.sender.sinAddr⟩ e.qip e.tm true = .forwarded) :
    ∃ w' o, addQuery c w e = some (w', o) ∧ Good c w' (hist ++ [(.query e, o)]) := by
  obtain ⟨hagain, hnew⟩ := hm hpass
  have hex : queryExists w e = some (w.cQueries.find? fun x =>
      decide (e.dnsId = (w.q x).qOrigid ∧ (w.q x).qArrived = e.port ∧ e.sender = (w.q x).qSrc)) := walk_eq _ hg.mem_live
  unfold addQuery
  rw [hex]
  cases hf : w.cQueries.find? fun x =>
      decide (e.dnsId = (w.q x).qOrigid ∧ (w.q x).qArrived = e.port ∧ e.sender = (w.q x).qSrc) with
  | some x =>
    -- a retransmission
    have hx := mem_of_find?_eq_some hf
    have hsame : e.SameAs (w.q x) := by
      unfold Packet.SameAs
      simpa using find?_some hf
    obtain ⟨dst, hd, haddr⟩ := hagain x hx hsame
    have hlive : ∀ y ∈ w.cQueries.erase x, y ∈ w.live := fun y hy => hg.mem_live y (mem_of_mem_erase hy)
    refine ⟨_, _, addQueryTo_transparent hlive hd true x, ?_⟩
    exact hg.again_pass hx rfl ⟨hsame.2.1.symm, hsame.2.2, hsame.1, rfl, rfl, e.ptr, rfl⟩ haddr rfl
  | none =>
    have hno : ∀ x ∈ w.cQueries, ¬e.SameAs (w.q x) := by
      intro x hx
      unfold Packet.SameAs
      simpa using find?_eq_none.mp hf x hx
    dsimp only
    by_cases hmem : e.memory
    · rw [if_pos hmem]
      exact hg.new (hnew hno hmem)
    · rw [if_neg hmem]
      exact ⟨_, _, rfl, hg.same⟩

/-- **A reply that passes** is for the client of the query. -/
theorem Good.answered (hg : Good c w hist) {e : Reply} {x : ℕ} (hx : x ∈ w.cQueries)
    (haddr : e.sender.sinAddr = (w.q x).qDst.sinAddr) (hid : (w.q x).qNewid = e.dnsId) (hq : e.qip = some qip)
    (hasks : (qip.questions.map Qrec.qirName).Perm ((w.q x).questions.map Qrec.qirName) →
      (qip.questions.map Qrec.asks).Perm ((w.q x).questions.map Qrec.asks))
    (hcq : checkQuestions qip ≠ .block) (hca : checkAnswers (w.q x).qInfo qip ≠ .block) :
    Answered hist (.reply e) ⟨x, (w.q x).qArrived, (w.q x).qSrc, (w.q x).qOrigid⟩ := by
  obtain ⟨p, hl, hrec⟩ := hg.recorded x hx
  have hnames := checkAnswers_perm hca
  obtain ⟨ptr, hinfo⟩ := hrec.info
  -- no question of the query has lost its name, so they are the questions that the client asked
  have hsame : (w.q x).questions = p.qip.questions := by
    have hquest : (w.q x).questions = questionsOf (modifyPacket c ptr p.qip.qiRecs) := by rw [← hinfo]; rfl
    rw [hquest]
    apply modifyPacket_questions
    intro qr hqr
    have hname : qr.qirName ∈ qip.questions.map Qrec.qirName := by
      rw [hnames.mem_iff, hinfo]
      exact mem_map_of_mem hqr
    obtain ⟨qr', hqr', heq⟩ := mem_map.mp hname
    rw [← heq]
    exact checkQuestions_named hcq hqr'
  refine ⟨e, qip, p, rfl, hq, hl, hg.not_freed hx, ?_, ?_, ?_, hrec.port.symm, hrec.client.symm, hrec.dnsId.symm⟩
  · rw [haddr, hrec.dst]
  · rw [← hid, hrec.newid]
  · rw [← hsame]
    exact hasks hnames

theorem Good.reply (hg : Good c w hist) {e : Reply} (hm : Meets c w (.reply e)) :
    ∃ w' o, addReply c w e = some (w', o) ∧ Good c w' (hist ++ [(.reply e, o)]) := by
  obtain ⟨⟨fr, hfr, hin⟩, hasks⟩ := hm
  have hknown : serverKnown c e = true := by
    unfold serverKnown
    rw [hfr]
    exact decide_eq_true hin
  have hfind : findQuery w e = some (w.cQueries.find? fun x =>
      decide (e.sender.sinAddr = (w.q x).qDst.sinAddr ∧ (w.q x).qNewid = e.dnsId)) := walk_eq _ hg.mem_live
  unfold addReply
  rw [if_pos hknown, hfind]
  cases hf : w.cQueries.find? fun x => decide (e.sender.sinAddr = (w.q x).qDst.sinAddr ∧ (w.q x).qNewid = e.dnsId) with
  | none => exact ⟨_, _, rfl, hg.same⟩
  | some x =>
    have hx := mem_of_find?_eq_some hf
    have hpair : e.sender.sinAddr = (w.q x).qDst.sinAddr ∧ (w.q x).qNewid = e.dnsId := by simpa using find?_some hf
    dsimp only
    split
    · exact ⟨_, _, rfl, hg.same⟩
    · rename_i hqr
      cases hq : e.qip with
      | none => exact ⟨_, _, rfl, hg.same⟩
      | some qip =>
        dsimp only
        unfold World.queryFree
        rw [if_pos (hg.mem_live x hx), map_some]
        refine ⟨_, _, rfl, hg.free (perm_cons_erase hx) (hg.perm.erase x) ?_⟩
        intro d hd
        split_ifs at hd with hcq hca
        cases hd
        have hsame := hasks x hx hpair.1.symm hpair.2 (by simpa using hqr) qip hq hcq
        exact hg.answered hx hpair.1 hpair.2 hq hsame hcq hca

/-- `expire_queries` frees the queries at the front of the list. -/
theorem expireLoop_eq (now : ℤ) {l : List ℕ} (hp : w.live.Perm l) :
    ∃ a b live', l = a ++ b ∧ live'.Perm b ∧ expireLoop now w l = some ({ w with cQueries := b, live := live' }, a) := by
  induction l generalizing w with
  | nil => exact ⟨[], [], w.live, rfl, hp, rfl⟩
  | cons x l ih =>
    unfold expireLoop
    rw [if_pos (hp.mem_iff.mpr mem_cons_self)]
    split
    · exact ⟨[], x :: l, w.live, rfl, hp, rfl⟩
    · have hp' : (w.live.erase x).Perm l := by
        have := hp.erase x
        rwa [erase_cons_head] at this
      obtain ⟨a, b, live', hl, hlive, heq⟩ := ih (w := { w with live := w.live.erase x }) hp'
      refine ⟨x :: a, b, live', by rw [hl, cons_append], hlive, ?_⟩
      rw [heq]
      rfl

theorem Good.tick (hg : Good c w hist) (now : ℤ) :
    ∃ w' o, expireQueries w now = some (w', o) ∧ Good c w' (hist ++ [(.tick now, o)]) := by
  obtain ⟨a, b, live', hl, hlive, heq⟩ := expireLoop_eq now hg.perm
  unfold expireQueries
  rw [heq]
  refine ⟨_, _, rfl, hg.free ?_ hlive fun d hd => by cases hd⟩
  rw [hl]

/-- **A step** that meets the condition is defined, and keeps the invariant. -/
theorem Good.step (hg : Good c w hist) (hm : Meets c w e) : ∃ w' o, step c w e = some (w', o) ∧
    Good c w' (hist ++ [(e, o)]) := by
  cases e with
  | query e =>
    rw [DnsProxy.step]
    split_ifs with hpass
    · exact hg.query hm hpass
    · exact ⟨_, _, rfl, hg.same⟩
  | reply e => exact hg.reply hm
  | tick now => exact hg.tick now

theorem Good.of_run (hr : Run c (Meets c) w hist) : Good c w hist := by
  induction hr with
  | init => exact .init c
  | step _ hm hs ih =>
    obtain ⟨w', o, hs', hg⟩ := ih.step hm
    rw [hs] at hs'
    cases hs'
    exact hg

/-- **Replies go to the right clients** in a run whose steps meet the condition, and every such step is defined. -/
theorem replies_right (hr : Run c (Meets c) w hist) :
    Right c w hist ∧ ∀ e, Meets c w e → ∃ w' o, DnsProxy.step c w e = some (w', o) := by
  have hg := Good.of_run hr
  refine ⟨hg.right, fun e hm => ?_⟩
  obtain ⟨w', o, hs, -⟩ := hg.step hm
  exact ⟨w', o, hs⟩

/-! ## Two clients and one server -/

/-- One port, one server for all queries, and an acl that allows everything. -/
def oneServer : Config where
  cAcls := [⟨[⟨0, 0⟩], [none], [⟨[⟨[0x2a#8], none⟩], .allow⟩], none, -1⟩]
  iTransparent _ := false
  cModifies := []
  cForwarders := [[0x0a000064#32]]
  cForwards := [⟨[none], [0]⟩]
  served := by decide
  given := by decide

/-- A question about a name, in a query or a reply. -/
def about (name : List Byte) : Qinfo := ⟨[⟨name, .question, 1⟩], 1, 1⟩

def Sockaddr.ask (client : Sockaddr) (dnsId : BitVec 16) : Packet :=
  ⟨0, client, dnsId, about [0x61#8], fun _ => false, ⟨0, 0, 0⟩, 0, none, true⟩

def serverReply : Reply := ⟨⟨0x0a000064#32, 53⟩, 0, true, some (about [0x61#8])⟩

/-- A query and its reply. -/
theorem replies_right_one : ∃ w hist, Run oneServer (Meets oneServer) w hist ∧ hist.length = 2 ∧
    Right oneServer w hist := by
  have hquery : Meets oneServer (World.init oneServer) (.query (Sockaddr.ask ⟨1, 1⟩ 7)) := by
    intro _
    constructor
    · intro h hh
      cases hh
    · refine fun _ _ => ⟨0, rfl, fun _ => rfl, ?_⟩
      intro a _ h hh
      cases hh
  have h1 := (Run.init (P := Meets oneServer)).step hquery rfl
  have h2 := h1.step (e := .reply serverReply) (by
    refine ⟨⟨_, rfl, by decide⟩, ?_⟩
    intro h hh _ _ _ qip hq _ _
    cases hq
    cases List.mem_singleton.mp hh
    exact .refl _) rfl
  exact ⟨_, _, h2, rfl, (replies_right h2).1⟩

/-- **Two outstanding queries have one id:** what a server is given is not counted, and ids are that count. -/
theorem same_newid : ¬∀ c w hist, Run c (fun _ _ => True) w hist → Right c w hist := by
  intro hright
  have h1 := (Run.init (c := oneServer) (P := fun _ _ => True)).step (e := .query (Sockaddr.ask ⟨1, 1⟩ 7)) trivial rfl
  have h2 := h1.step (e := .query (Sockaddr.ask ⟨2, 1⟩ 9)) trivial rfl
  have hids := (hright _ _ _ h2).newids
  exact hids 0 (by decide) 1 (by decide) (by decide) (by decide) (by decide)

end Ipfilter.DnsProxy
