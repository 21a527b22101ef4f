import Ipfilter.Spec.Scan
import Mathlib.Tactic.Set

/-!
# What a scan of rule lists returns

* `scanlistN_place`: the scan leaves the packet and `fin_depth` as they were.
* `loop_reaches`: over pass, block and count rules the loop ends at the last rule reached.
* `ipfScanlist_lastMatch`: the verdict is that of the last matching rule reached.
* `ipfScanlist_agrees`: verdict and `fin_fr` agree when no head that is reached meets the depth
  limit and the rule that ends the scan gets its state.
-/

namespace Ipfilter.Scan

open List

variable {B : Type} {E : Env B} {scan : Calls B} {inner : Fin B → Flags → Fin B × Flags} {pass : Flags}

/-! ## Packet and nesting counter -/

/-- What a scan puts back when it returns. -/
def Fin.place (fin : Fin B) : Pkt B × ℕ := (fin.pkt, fin.finDepth)

section Place

variable (hs : ∀ (fin : Fin B) pass, (scan.same fin pass).1.place = fin.place)

theorem logRule_place (fin : Fin B) (passt : Flags) : (logRule E fin passt).1.place = fin.place := by
  unfold logRule
  split_ifs <;> rfl

theorem scanQuick_place (fr : Rules) (passo : Flags) (fin : Fin B) (pass : Flags) :
    (scanQuick E fr passo fin pass).1.place = fin.place := by
  unfold scanQuick
  dsimp only
  split_ifs <;> rfl

include hs

theorem scanGroup_place (rulen : ℕ) (fr : Rules) (d : Fr) (passt : Flags) (fin : Fin B) (pass : Flags) :
    (scanGroup E scan rulen fr d passt fin pass).1.place = fin.place := by
  unfold scanGroup
  cases fr.grphead? with
  | none => rfl
  | some fg =>
    have hr : (scanFg E scan passt (fin.setFr fg) pass).1.place = fin.place := by
      unfold scanFg ipfDecaps
      split_ifs
      · split <;> rfl
      · exact hs _ _
    dsimp only
    split_ifs
    · exact hr
    · exact hr

theorem scanHit_place (rulen : ℕ) (fr : Rules) (d : Fr) (passt : Flags) (fin : Fin B) (pass : Flags) :
    (scanHit E scan rulen fr d passt fin pass).1.place = fin.place := by
  unfold scanHit
  dsimp only
  rw [scanQuick_place, scanGroup_place hs]
  exact logRule_place _ _

theorem grpmap_place (fin : Fin B) (fr : Fr) (pass : Flags) : (grpmap E scan fin fr pass).1.place = fin.place := by
  unfold grpmap
  split
  · rfl
  · exact hs _ _

theorem scanRule_place (rulen : ℕ) (fr : Rules) (d : Fr) (fin : Fin B) (pass : Flags) :
    (scanRule E scan rulen fr d fin pass).1.place = fin.place := by
  unfold scanRule
  split_ifs
  · rfl
  · dsimp only
    split
    · exact grpmap_place hs _ _ _
    · rw [scanHit_place hs, grpmap_place hs]
      rfl
  · exact scanHit_place hs _ _ _ _ _ _

theorem scanBody_place (rulen : ℕ) (fr : Rules) (d : Fr) (fin : Fin B) (pass : Flags) :
    (scanBody E scan rulen fr d fin pass).1.place = fin.place := by
  unfold scanBody
  split_ifs
  · rfl
  · dsimp only
    split
    · rfl
    · split_ifs
      · exact scanRule_place hs _ _ _ _ _
      · rfl
  · exact scanRule_place hs _ _ _ _ _
  · rfl

theorem scanBody_depth (rulen : ℕ) (fr : Rules) (d : Fr) (fin : Fin B) (pass : Flags) :
    (scanBody E scan rulen fr d fin pass).1.finDepth = fin.finDepth :=
  congrArg Prod.snd (scanBody_place hs rulen fr d fin pass)

theorem scanLoop_place (rs : Rules) : ∀ (rulen : ℕ) (fin : Fin B) (pass : Flags),
    (scanLoop E scan rs rulen fin pass).1.place = fin.place := by
  induction rs with
  | null => intro _ _ _; rfl
  | rule fr next ih | head fr fg next _ ih =>
    intro rulen fin pass
    unfold scanLoop
    dsimp only
    split_ifs
    · exact scanBody_place hs _ _ _ _ _
    · rw [ih, scanBody_place hs]

end Place

/-- **The scan leaves `fin_place` as it was.** -/
theorem scanlistN_place : ∀ (n : ℕ) (fin : Fin B) (pass : Flags), (scanlistN E inner n fin pass).1.place = fin.place
  | 0, _, _ => rfl
  | n + 1, fin, pass => by
    show (scanlist E ⟨scanlistN E inner n, inner⟩ fin pass).1.place = fin.place
    unfold scanlist
    split_ifs
    · rfl
    · rfl
    · have h := @scanLoop_place B E ⟨scanlistN E inner n, inner⟩ (scanlistN_place n) fin.finFr 0 fin.enter pass
      unfold Fin.place at h ⊢
      rw [Prod.mk.injEq] at h ⊢
      refine ⟨h.1, ?_⟩
      show (scanLoop E _ _ _ _ _).1.finDepth - 1 = _
      rw [h.2]
      rfl

theorem scanlistN_depth (n : ℕ) (fin : Fin B) (pass : Flags) :
    (scanlistN E inner n fin pass).1.finDepth = fin.finDepth := congrArg Prod.snd (scanlistN_place n fin pass)

/-! ## Pass, block and count rules -/

theorem settles_of_plain {d : Fr} (hp : Plain d) : settles d.frFlags = true ∧ isLog d.frFlags = false ∧
    isDecaps d.frFlags = false ∧ isAuth d.frFlags = false := by
  obtain ⟨hc, -, -⟩ := hp
  have hm : ∀ c : Flags, d.frFlags &&& FR_LOGMASK = c → d.frFlags &&& FR_CMDMASK = c &&& FR_CMDMASK := by
    rintro c rfl
    rw [BitVec.and_assoc]
    rfl
  have h1 : d.frFlags &&& FR_LOGMASK ≠ FR_LOG := by
    intro h
    have := hm _ h
    rcases hc with hc | hc | hc <;> rw [hc] at this <;> exact absurd this (by decide)
  have h2 : d.frFlags &&& FR_LOGMASK ≠ FR_DECAPSULATE := by
    intro h
    have := hm _ h
    rcases hc with hc | hc | hc <;> rw [hc] at this <;> exact absurd this (by decide)
  refine ⟨by simp [settles, h1, h2], by simp [isLog, h1], ?_, ?_⟩
  · unfold isDecaps
    rcases hc with hc | hc | hc <;> rw [hc] <;> decide
  · unfold isAuth
    rcases hc with hc | hc | hc <;> rw [hc] <;> decide

theorem verdict_append (pass : Flags) (l₁ l₂ : List Fr) :
    verdict pass (l₁ ++ l₂) = verdict (verdict pass l₁) l₂ := by
  unfold verdict
  rcases eq_nil_or_concat l₂ with rfl | ⟨l, a, rfl⟩
  · simp
  · simp [← append_assoc]

theorem verdict_cons (pass : Flags) (d : Fr) (l : List Fr) : verdict pass (d :: l) = verdict d.frFlags l :=
  verdict_append pass [d] l

/-- **What a scan that reaches the rules `l` has done**, from `fin` and `pass` on: the verdict
and `fin_fr` are those of the last one. State is only added, and the packet's flags only
change, with a rule that ends the scan. -/
structure Reaches (l : List Fr) (fin : Fin B) (pass : Flags) (r : Fin B × Flags) : Prop where
  verdict : r.2 = Scan.verdict pass l
  fr : l ≠ [] → r.1.finFr.fr? = l.getLast?
  frNil : l = [] → r.1.finFr = fin.finFr
  hits : r.1.hits = fin.hits ++ l
  pkt : r.1.pkt = fin.pkt
  flx : (r.1.finFlx = fin.finFlx ∧ r.1.adds = fin.adds) ∨ l ≠ [] ∧ has r.2 FR_QUICK = true

/-- State was added for a verdict that is quick and asks for it. -/
def Kept (r : Fin B × Flags) : Prop :=
  has r.2 FR_QUICK = true → has r.2 FR_KEEPSTATE = true → has r.1.finFlx FI_STATE = true

/-- The rule that ends a scan which reaches the rules `l` gets its state: if the last of them is
quick and keeps state, the packet has one or the `k`-th call of `ipf_state_add` succeeds. -/
def Adds (E : Env B) (k : ℕ) (flx : Flags) (l : List Fr) : Prop :=
  ∀ d, l.getLast? = some d → has d.frFlags FR_QUICK = true → has d.frFlags FR_KEEPSTATE = true →
    has flx FI_STATE = true ∨ (E.ipfStateAdd k).1 = true

/-- Only the last rule counts. -/
theorem Adds.suffix {k : ℕ} {flx : Flags} (l₁ : List Fr) {l₂ : List Fr} (h : Adds E k flx (l₁ ++ l₂)) :
    Adds E k flx l₂ := by
  intro d hd
  refine h d ?_
  rw [getLast?_append, hd]
  rfl

/-- A verdict that is not quick asks for nothing. -/
theorem Adds.of_verdict {k : ℕ} {flx x : Flags} {d : Fr} {l : List Fr}
    (h : has (verdict x (d :: l)) FR_QUICK = false) : Adds E k flx (d :: l) := by
  intro e he hq
  have hv : verdict x (d :: l) = e.frFlags := by
    unfold verdict
    rw [he]
    rfl
  rw [hv, hq] at h
  exact absurd h (by decide)

theorem has_or_state (x : Flags) : has (x ||| FI_STATE) FI_STATE = true := by
  have h : (x ||| FI_STATE) &&& FI_STATE = FI_STATE := by
    ext i
    simp only [BitVec.getElem_and, BitVec.getElem_or]
    cases x[i] <;> cases FI_STATE[i] <;> rfl
  unfold has
  rw [h]
  decide

theorem ipfStateAdd_ok {fin : Fin B} (h : (E.ipfStateAdd fin.adds).1 = true) :
    (ipfStateAdd E fin).2 = true ∧ has (ipfStateAdd E fin).1.finFlx FI_STATE = true := by
  refine ⟨h, ?_⟩
  unfold ipfStateAdd
  simp only [h, if_true]
  exact has_or_state _

/-- The verdict of rules that all have a property is `pass` or the flags of one of them. -/
theorem verdict_mem (pass : Flags) {l : List Fr} (hl : l ≠ []) : ∃ d ∈ l, verdict pass l = d.frFlags := by
  obtain ⟨l', a, rfl⟩ := (eq_nil_or_concat l).resolve_left hl
  exact ⟨a, by simp, by simp [verdict]⟩

/-- The end of the loop's body, after a rule and its group have reached `d :: l`. -/
theorem scanQuick_reaches {l : List Fr} {d : Fr} {fr : Rules} {fin : Fin B} {g : Fin B × Flags}
    (hd : fr.fr? = some d) (hg : Reaches (d :: l) fin pass g) (hP : ∀ e ∈ d :: l, Plain e)
    (hadd : Adds E fin.adds fin.finFlx (d :: l)) (hk : l ≠ [] → Kept g)
    (ha : l = [] → g.1.finFlx = fin.finFlx ∧ g.1.adds = fin.adds) :
    (scanQuick E fr pass g.1 g.2).2.2 = has (verdict pass (d :: l)) FR_QUICK ∧
      Reaches (d :: l) fin pass ((scanQuick E fr pass g.1 g.2).1, (scanQuick E fr pass g.1 g.2).2.1) ∧
      Kept ((scanQuick E fr pass g.1 g.2).1, (scanQuick E fr pass g.1 g.2).2.1) := by
  unfold scanQuick
  by_cases hq : has g.2 FR_QUICK = true
  · rw [if_pos hq]
    have hv : has (verdict pass (d :: l)) FR_QUICK = true := by rw [← hg.verdict]; exact hq
    by_cases hc : (has g.2 FR_KEEPSTATE && !isAuth g.2 && !has g.1.finFlx FI_STATE) = true
    · rw [if_pos hc, hv]
      simp only [Bool.and_eq_true, Bool.not_eq_true'] at hc
      obtain ⟨⟨hks, -⟩, hst⟩ := hc
      -- a group that decided would have added the state itself
      have hl : l = [] := by
        by_contra hl
        have := hk hl hq hks
        rw [hst] at this
        exact absurd this (by decide)
      subst hl
      have hgv : g.2 = d.frFlags := hg.verdict
      obtain ⟨hok, hfl⟩ : (ipfStateAdd E (g.1.setFr fr)).2 = true ∧
          has (ipfStateAdd E (g.1.setFr fr)).1.finFlx FI_STATE = true := by
        refine ipfStateAdd_ok ?_
        show (E.ipfStateAdd g.1.adds).1 = true
        obtain ⟨hflx, hadds⟩ := ha rfl
        rw [hflx] at hst
        rw [hadds]
        refine (hadd d rfl (hgv ▸ hq) (hgv ▸ hks)).resolve_left ?_
        rw [hst]
        decide
      dsimp only
      rw [if_pos hok]
      refine ⟨rfl, ⟨hg.verdict, fun _ => hd, fun h => absurd h (by simp), hg.hits, hg.pkt,
        .inr ⟨by simp, hq⟩⟩, fun _ _ => hfl⟩
    · rw [if_neg hc, hv]
      refine ⟨rfl, hg, fun _ hks => ?_⟩
      obtain ⟨e, he, hve⟩ := verdict_mem pass (l := d :: l) (by simp)
      have hna := (settles_of_plain (hP e he)).2.2.2
      rw [← hve, ← hg.verdict] at hna
      by_contra hst
      simp [hks, hna, hst] at hc
  · rw [if_neg hq]
    have hv : has (verdict pass (d :: l)) FR_QUICK = false := by
      rw [← hg.verdict]
      simpa using hq
    exact ⟨hv.symm, hg, fun h => absurd h hq⟩

/-- The body of the loop for a rule of a list; `l` is what its group reaches. -/
theorem scanBody_reaches (scan : Calls B) (rulen : ℕ) (fr : Rules) (d : Fr) (fin : Fin B) (pass : Flags) (l : List Fr)
    (hd : fr.fr? = some d) (hm : frMatches E fin.pkt fin.finFlx d = true) (hP : ∀ e ∈ d :: l, Plain e)
    (hadd : Adds E fin.adds fin.finFlx (d :: l)) (hno : fr.grphead? = none → l = [])
    (hfg : ∀ fg, fr.grphead? = some fg → ∀ fin₁ : Fin B, fin₁.finFr = fg → fin₁.pkt = fin.pkt →
      fin₁.finFlx = fin.finFlx → fin₁.adds = fin.adds → fin₁.finDepth = fin.finDepth →
      Reaches l (fin₁.setFr .null) d.frFlags (scan.same fin₁ d.frFlags) ∧
        (l ≠ [] → Kept (scan.same fin₁ d.frFlags))) :
    (scanBody E scan rulen fr d fin pass).2.2 = has (verdict pass (d :: l)) FR_QUICK ∧
      Reaches (d :: l) fin pass ((scanBody E scan rulen fr d fin pass).1, (scanBody E scan rulen fr d fin pass).2.1) ∧
      Kept ((scanBody E scan rulen fr d fin pass).1, (scanBody E scan rulen fr d fin pass).2.1) := by
  obtain ⟨-, hcall, hty⟩ := hP d mem_cons_self
  obtain ⟨hset, hlog, hdec, -⟩ := settles_of_plain (hP d mem_cons_self)
  unfold frMatches at hm
  simp only [Bool.and_eq_true] at hm
  obtain ⟨h1, h2, h3⟩ := hm
  have hbody : scanBody E scan rulen fr d fin pass = scanHit E scan rulen fr d d.frFlags fin pass := by
    unfold scanBody scanRule
    simp [h1, h2, h3, hcall, hty]
  rw [hbody]
  have hlr : logRule E (fin.setFr fr) d.frFlags = (fin.setFr fr, d.frFlags) := by
    unfold logRule
    simp [hlog]
  unfold scanHit
  simp only [hlr, hset, if_true]
  set X : Fin B := ((fin.setFr fr).count d).mark rulen d d.frFlags with hX
  set g := scanGroup E scan rulen fr d d.frFlags X d.frFlags with hgdef
  have hg : Reaches (d :: l) fin pass g ∧ (l ≠ [] → Kept g) ∧
      (l = [] → g.1.finFlx = fin.finFlx ∧ g.1.adds = fin.adds) := by
    -- a rule without a group decides itself
    cases hgr : fr.grphead? with
    | none =>
      have hl := hno hgr
      subst hl
      have hgv : g = (X, d.frFlags) := by
        rw [hgdef]
        unfold scanGroup
        simp only [hgr]
      rw [hgv]
      exact ⟨⟨rfl, fun _ => hd, fun h => absurd h (by simp), rfl, rfl, .inl ⟨rfl, rfl⟩⟩,
        fun h => absurd rfl h, fun _ => ⟨rfl, rfl⟩⟩
    | some fg =>
      obtain ⟨hr, hk⟩ := hfg fg hgr (X.setFr fg) rfl rfl rfl rfl rfl
      have hgv : g = if (scan.same (X.setFr fg) d.frFlags).1.finFr = .null
          then ((scan.same (X.setFr fg) d.frFlags).1.unmatched rulen fr d, d.frFlags)
          else scan.same (X.setFr fg) d.frFlags := by
        rw [hgdef]
        unfold scanGroup
        simp only [hgr]
        unfold scanFg
        simp only [hdec]
        rfl
      set r := scan.same (X.setFr fg) d.frFlags with hrdef
      have hv : verdict pass (d :: l) = verdict d.frFlags l := verdict_cons pass d l
      have hh : r.1.hits = fin.hits ++ (d :: l) := by
        rw [hr.hits]
        show (fin.hits ++ [d]) ++ l = _
        simp
      -- a group that reaches nothing leaves the verdict to its head
      rcases eq_nil_or_concat l with rfl | ⟨l', a, rfl⟩
      · have hnull : r.1.finFr = .null := hr.frNil rfl
        rw [hgv, if_pos hnull]
        have hflx : r.1.finFlx = fin.finFlx ∧ r.1.adds = fin.adds := by
          rcases hr.flx with h | ⟨h, -⟩
          · exact h
          · exact absurd rfl h
        exact ⟨⟨rfl, fun _ => hd, fun h => absurd h (by simp), hh, hr.pkt, .inl hflx⟩,
          fun h => absurd rfl h, fun _ => hflx⟩
      · have hne : l'.concat a ≠ [] := by simp
        have hfr := hr.fr hne
        have hnull : r.1.finFr ≠ .null := by
          intro h
          rw [h] at hfr
          simp [Rules.fr?] at hfr
        rw [hgv, if_neg hnull]
        refine ⟨⟨hr.verdict.trans hv.symm, fun _ => ?_, fun h => absurd h (by simp), hh, hr.pkt, ?_⟩,
          fun _ => hk hne, fun h => absurd h hne⟩
        · rw [hfr]
          simp [getLast?_cons]
        · rcases hr.flx with h | ⟨-, h⟩
          · exact .inl h
          · exact .inr ⟨by simp, h⟩
  exact scanQuick_reaches hd hg.1 hP hadd hg.2.1 hg.2.2

/-- A rule that does not match is passed over. -/
theorem scanBody_unmatched {rulen : ℕ} {fr : Rules} {d : Fr} {fin : Fin B} (hp : Plain d)
    (hm : frMatches E fin.pkt fin.finFlx d = false) : scanBody E scan rulen fr d fin pass = (fin, pass, false) := by
  obtain ⟨-, -, hty⟩ := hp
  unfold frMatches at hm
  unfold scanBody
  by_cases h1 : ifMatch fin.pkt d = true
  · rw [h1, Bool.true_and] at hm
    simp [h1, hty, hm]
  · simp [h1]

theorem Rules.All.imp {P Q : Fr → Prop} (h : ∀ d, P d → Q d) : ∀ {rs : Rules}, rs.All P → rs.All Q
  | .null, _ => trivial
  | .rule _ _, hr => ⟨h _ hr.1, hr.2.imp h⟩
  | .head _ _ _, hr => ⟨h _ hr.1, hr.2.1.imp h, hr.2.2.imp h⟩

/-- The rules that are reached are rules of the tree that match. -/
theorem reached_mem {m : Fr → Bool} {P : Fr → Prop} : ∀ {rs : Rules}, rs.All P →
    ∀ d ∈ reached m rs, P d ∧ m d = true := by
  intro rs
  induction rs with
  | null => intro _ d hd; simp [reached] at hd
  | rule fr next ih =>
    intro hP d hd
    unfold reached at hd
    split_ifs at hd with h1 h2
    · rw [mem_singleton.mp hd]
      exact ⟨hP.1, h1⟩
    · rcases mem_cons.mp hd with rfl | hd
      · exact ⟨hP.1, h1⟩
      · exact ih hP.2 d hd
    · exact ih hP.2 d hd
  | head fr fg next ihg ih =>
    intro hP d hd
    have hhead : m fr = true → d ∈ fr :: reached m fg → P d ∧ m d = true := by
      intro h1 hd
      rcases mem_cons.mp hd with rfl | hd
      · exact ⟨hP.1, h1⟩
      · exact ihg hP.2.1 d hd
    unfold reached at hd
    dsimp only at hd
    split_ifs at hd with h1 h2
    · exact hhead h1 hd
    · rcases mem_append.mp hd with hd | hd
      · exact hhead h1 hd
      · exact ih hP.2.2 d hd
    · exact ih hP.2.2 d hd

/-- What is reached after a rule that did not end the list. -/
theorem Reaches.append {l₁ l₂ : List Fr} {fin : Fin B} {r₁ r₂ : Fin B × Flags}
    (h₁ : Reaches l₁ fin pass r₁) (h₂ : Reaches l₂ r₁.1 r₁.2 r₂)
    (hf : r₁.1.finFlx = fin.finFlx ∧ r₁.1.adds = fin.adds) :
    Reaches (l₁ ++ l₂) fin pass r₂ := by
  refine ⟨?_, ?_, ?_, ?_, h₂.pkt.trans h₁.pkt, ?_⟩
  · rw [h₂.verdict, h₁.verdict, verdict_append]
  · intro hne
    rcases eq_nil_or_concat l₂ with rfl | ⟨l, a, rfl⟩
    · rw [append_nil] at hne ⊢
      rw [h₂.frNil rfl]
      exact h₁.fr hne
    · rw [h₂.fr (by simp)]
      simp [← append_assoc]
  · intro hnil
    obtain ⟨rfl, rfl⟩ := append_eq_nil_iff.mp hnil
    rw [h₂.frNil rfl]
    exact h₁.frNil rfl
  · rw [h₂.hits, h₁.hits, append_assoc]
  · rcases h₂.flx with h | ⟨hl, h⟩
    · exact .inl ⟨h.1.trans hf.1, h.2.trans hf.2⟩
    · exact .inr ⟨by simp [hl], h⟩

/-- One round of the loop at a matching rule, with `l` for what its group reaches and `l'`
for what the rest of the list reaches. -/
theorem loop_step {rulen : ℕ} {fr : Rules} (next : Rules) {d : Fr} {fin : Fin B} {l : List Fr} (l' : List Fr)
    (hb : (scanBody E scan rulen fr d fin pass).2.2 = has (verdict pass (d :: l)) FR_QUICK ∧
      Reaches (d :: l) fin pass ((scanBody E scan rulen fr d fin pass).1, (scanBody E scan rulen fr d fin pass).2.1) ∧
      Kept ((scanBody E scan rulen fr d fin pass).1, (scanBody E scan rulen fr d fin pass).2.1))
    (hn : ∀ (fin₁ : Fin B) (pass₁ : Flags), has (verdict d.frFlags l) FR_QUICK = false →
      fin₁.pkt = fin.pkt → fin₁.finFlx = fin.finFlx → fin₁.adds = fin.adds →
      fin₁.finDepth = (scanBody E scan rulen fr d fin pass).1.finDepth →
      Reaches l' fin₁ pass₁ (scanLoop E scan next (rulen + 1) fin₁ pass₁) ∧
      (l' ≠ [] → Kept (scanLoop E scan next (rulen + 1) fin₁ pass₁))) : let r := scanBody E scan rulen fr d fin pass
    let o := if r.2.2 then (r.1, r.2.1) else scanLoop E scan next (rulen + 1) r.1 r.2.1
    Reaches (if has (verdict d.frFlags (d :: l)) FR_QUICK then d :: l else d :: l ++ l') fin pass o ∧ Kept o := by
  intro r o
  obtain ⟨hstop, hr, hk⟩ := hb
  rw [verdict_cons] at hstop ⊢
  by_cases hq : has (verdict d.frFlags l) FR_QUICK = true
  · rw [hq] at hstop
    have ho : o = (r.1, r.2.1) := if_pos hstop
    rw [if_pos hq, ho]
    exact ⟨hr, hk⟩
  · have hq' : has (verdict d.frFlags l) FR_QUICK = false := by simpa using hq
    rw [hq'] at hstop
    have ho : o = scanLoop E scan next (rulen + 1) r.1 r.2.1 := if_neg (by rw [hstop]; decide)
    have hv : r.2.1 = verdict d.frFlags l := by rw [← verdict_cons pass]; exact hr.verdict
    have hflx : r.1.finFlx = fin.finFlx ∧ r.1.adds = fin.adds := by
      rcases hr.flx with h | ⟨-, h⟩
      · exact h
      · dsimp only at h
        rw [hv, hq'] at h
        exact absurd h (by decide)
    obtain ⟨hr', hk'⟩ := hn r.1 r.2.1 hq' hr.pkt hflx.1 hflx.2 rfl
    rw [if_neg hq, ho]
    refine ⟨hr.append hr' hflx, ?_⟩
    rcases eq_nil_or_concat l' with rfl | ⟨l₁, a, rfl⟩
    · intro hq₁
      rw [hr'.verdict, hv] at hq₁
      exact absurd hq₁ hq
    · exact hk' (by simp)

/-- A scan does its work on plain rules, if the groups it reaches are at most `n` inside each
other with its own list, the depth limit lets it enter them and the last rule gets its state. -/
def ScansAs (E : Env B) (scan : Fin B → Flags → Fin B × Flags) (n : ℕ) : Prop :=
  ∀ (fin : Fin B) (pass : Flags) (m : Fr → Bool), m = frMatches E fin.pkt fin.finFlx →
    fin.finFr.All Plain → Adds E fin.adds fin.finFlx (reached m fin.finFr) →
    fin.finFr = .null ∨ depth m fin.finFr + 1 ≤ n ∧ fin.finDepth + depth m fin.finFr ≤ 15 →
    Reaches (reached m fin.finFr) (fin.setFr .null) pass (scan fin pass) ∧
      (reached m fin.finFr ≠ [] → Kept (scan fin pass))

/-- **The loop ends at the last rule reached.** -/
theorem loop_reaches {n : ℕ} (hs : ∀ (fin : Fin B) pass, (scan.same fin pass).1.place = fin.place)
    (hscan : ScansAs E scan.same n) (m : Fr → Bool) (rs : Rules) :
    ∀ (rulen : ℕ) (fin : Fin B) (pass : Flags), m = frMatches E fin.pkt fin.finFlx → rs.All Plain →
      Adds E fin.adds fin.finFlx (reached m rs) → depth m rs ≤ n → fin.finDepth + depth m rs ≤ 16 →
      Reaches (reached m rs) fin pass (scanLoop E scan rs rulen fin pass) ∧
        (reached m rs ≠ [] → Kept (scanLoop E scan rs rulen fin pass)) := by
  induction rs with
  | null =>
    intro rulen fin pass _ _ _ _ _
    exact ⟨⟨rfl, fun h => absurd rfl h, fun _ => rfl, (append_nil _).symm, rfl, .inl ⟨rfl, rfl⟩⟩,
      fun h => absurd rfl h⟩
  | rule d next ih =>
    intro rulen fin pass hm hP hadd hn hdep
    by_cases hmd : m d = true
    · have hadd₁ : Adds E fin.adds fin.finFlx [d] := by
        by_cases hq : has d.frFlags FR_QUICK = true
        · rwa [reached, if_pos hmd, if_pos hq] at hadd
        · exact Adds.of_verdict (x := pass) (by simpa [verdict] using hq)
      have hb := scanBody_reaches scan rulen (.rule d next) d fin pass []
        rfl (hm ▸ hmd) (fun e he => by rw [mem_singleton.mp he]; exact hP.1) hadd₁
        (fun _ => rfl) (fun fg h => by simp [Rules.grphead?] at h)
      have := loop_step next (reached m next) hb (fun fin₁ pass₁ hq hp hf ha hd => by
        -- the scan goes on: the rest of the list is reached
        have hq' : ¬ has d.frFlags FR_QUICK = true := by simpa [verdict] using hq
        rw [reached, if_pos hmd, if_neg hq'] at hadd
        rw [depth, if_neg (fun h => hq' h.2)] at hn hdep
        refine ih (rulen + 1) fin₁ pass₁ (by rw [hp, hf]; exact hm) hP.2 ?_ hn ?_
        · rw [ha, hf]
          exact Adds.suffix [d] hadd
        · rw [hd, scanBody_depth hs]
          exact hdep)
      unfold scanLoop
      rw [reached, if_pos hmd]
      exact ⟨this.1, fun _ => this.2⟩
    · have hmd' : frMatches E fin.pkt fin.finFlx d = false := by rw [← hm]; simpa using hmd
      rw [reached, if_neg hmd] at hadd ⊢
      rw [depth, if_neg (fun h => hmd h.1)] at hn hdep
      unfold scanLoop
      rw [scanBody_unmatched hP.1 hmd']
      exact ih (rulen + 1) fin pass hm hP.2 hadd hn hdep
  | head d fg next _ ih =>
    intro rulen fin pass hm hP hadd hn hdep
    by_cases hmd : m d = true
    · -- the group is empty or counts for the nesting
      have hroom : fg = .null ∨ depth m fg + 1 ≤ depth m (.head d fg next) := by
        by_cases hfg : fg = .null
        · exact .inl hfg
        · refine .inr ?_
          rw [depth, if_pos hmd, if_neg hfg]
          dsimp only
          split_ifs
          · exact le_rfl
          · exact le_max_left _ _
      have hadd₁ : Adds E fin.adds fin.finFlx (d :: reached m fg) := by
        by_cases hq : has (verdict d.frFlags (d :: reached m fg)) FR_QUICK = true
        · rw [reached, if_pos hmd] at hadd
          dsimp only at hadd
          rwa [if_pos hq] at hadd
        · exact Adds.of_verdict (by simpa using hq)
      have hb := scanBody_reaches scan rulen (.head d fg next) d fin pass (reached m fg)
        rfl (hm ▸ hmd)
        (fun e he => by
          rcases mem_cons.mp he with rfl | he
          · exact hP.1
          · exact (reached_mem hP.2.1 e he).1)
        hadd₁ (fun h => by simp [Rules.grphead?] at h)
        (fun fg' h fin₁ hfr hp hf ha hd => by
          obtain rfl : fg = fg' := by simpa [Rules.grphead?] using h
          have := hscan fin₁ d.frFlags m (by rw [hp, hf]; exact hm) (by rw [hfr]; exact hP.2.1)
            (by rw [ha, hf, hfr]; exact Adds.suffix [d] hadd₁) (by
              rw [hfr, hd]
              rcases hroom with h | h
              · exact .inl h
              · exact .inr ⟨by omega, by omega⟩)
          rwa [hfr] at this)
      have := loop_step next (reached m next) hb (fun fin₁ pass₁ hq hp hf ha hd => by
        have hq' : ¬ has (verdict d.frFlags (reached m fg)) FR_QUICK = true := by simpa using hq
        have hnn : depth m next ≤ depth m (.head d fg next) := by
          rw [depth, if_pos hmd]
          dsimp only
          rw [if_neg hq']
          exact le_max_right _ _
        rw [reached, if_pos hmd] at hadd
        dsimp only at hadd
        rw [verdict_cons, if_neg hq'] at hadd
        refine ih (rulen + 1) fin₁ pass₁ (by rw [hp, hf]; exact hm) hP.2.2 ?_ (le_trans hnn hn) ?_
        · rw [ha, hf]
          exact Adds.suffix _ hadd
        · rw [hd, scanBody_depth hs]
          omega)
      unfold scanLoop
      rw [reached, if_pos hmd]
      exact ⟨this.1, fun _ => this.2⟩
    · have hmd' : frMatches E fin.pkt fin.finFlx d = false := by rw [← hm]; simpa using hmd
      rw [reached, if_neg hmd] at hadd ⊢
      rw [depth, if_neg hmd] at hn hdep
      unfold scanLoop
      rw [scanBody_unmatched hP.1 hmd']
      exact ih (rulen + 1) fin pass hm hP.2.2 hadd hn hdep

theorem scanlistN_scansAs : ∀ n : ℕ, ScansAs E (scanlistN E inner n) n
  | 0 => by
    intro fin pass m _ _ _ hroom
    have hnull : fin.finFr = .null := by
      rcases hroom with h | ⟨h, -⟩
      · exact h
      · omega
    rw [hnull]
    exact ⟨⟨rfl, fun h => absurd rfl h, fun _ => hnull, (append_nil _).symm, rfl, .inl ⟨rfl, rfl⟩⟩,
      fun h => absurd rfl h⟩
  | n + 1 => by
    intro fin pass m hm hP hadd hroom
    set scan : Calls B := ⟨scanlistN E inner n, inner⟩
    show Reaches _ _ pass (scanlist E scan fin pass) ∧ (_ → Kept (scanlist E scan fin pass))
    by_cases hnull : fin.finFr = .null
    · have he : scanlist E scan fin pass = (fin, pass) := by
        unfold scanlist
        rw [if_pos hnull]
        split_ifs <;> rfl
      rw [he, hnull]
      exact ⟨⟨rfl, fun h => absurd rfl h, fun _ => hnull, (append_nil _).symm, rfl, .inl ⟨rfl, rfl⟩⟩,
        fun h => absurd rfl h⟩
    · obtain ⟨hn, hd⟩ := hroom.resolve_left hnull
      have he : scanlist E scan fin pass =
          ((scanLoop E scan fin.finFr 0 fin.enter pass).1.leave, (scanLoop E scan fin.finFr 0 fin.enter pass).2) := by
        unfold scanlist
        rw [if_neg (by omega), if_neg hnull]
      have hscan : ScansAs E scan.same n := scanlistN_scansAs n
      obtain ⟨hr, hk⟩ := loop_reaches (scanlistN_place n) hscan m fin.finFr 0 fin.enter pass hm hP hadd
        (by omega) (by unfold Fin.enter; dsimp only; omega)
      rw [he]
      exact ⟨⟨hr.verdict, hr.fr, hr.frNil, hr.hits, hr.pkt, hr.flx⟩, hk⟩

/-! ## Whole scans -/

/-- The rules that are reached enter no more groups than there are inside each other. -/
theorem depth_le_nest (m : Fr → Bool) (rs : Rules) : depth m rs ≤ nest (fun _ => true) rs := by
  induction rs with
  | null => exact le_rfl
  | rule d next ih =>
    unfold depth
    split_ifs
    · exact Nat.zero_le _
    · exact ih
  | head d fg next ihg ih =>
    have hd : (if fg = .null then 0 else depth m fg + 1) ≤ nest (fun _ => true) (.head d fg next) := by
      by_cases hfg : fg = .null
      · rw [if_pos hfg]
        exact Nat.zero_le _
      · rw [if_neg hfg, nest, if_pos ⟨rfl, hfg⟩]
        exact le_trans (Nat.succ_le_succ ihg) (le_max_left _ _)
    have hnext : depth m next ≤ nest (fun _ => true) (.head d fg next) := le_trans ih (le_max_right _ _)
    unfold depth
    dsimp only
    split_ifs at hd ⊢ <;> omega

theorem ipfScanlist_eq (E : Env B) (layers : ℕ) (fin : Fin B) (pass : Flags) :
    ∃ inner, ipfScanlist E layers fin pass = scanlistN E inner (16 - fin.finDepth) fin pass := by
  cases layers with
  | zero => exact ⟨_, rfl⟩
  | succ layers => exact ⟨_, rfl⟩

/-- **Last match wins.** Over pass, block and count rules without functions and without keep
state, nested at most 15 deep from the top, the scan returns the flags of the last matching
rule that is reached, or the default, and leaves `fin_depth` alone. -/
theorem ipfScanlist_lastMatch (E : Env B) (layers : ℕ) (fin : Fin B) (pass : Flags)
    (hp : fin.finFr.All fun d => Plain d ∧ has d.frFlags FR_KEEPSTATE = false)
    (hn : fin.finDepth + nest (fun _ => true) fin.finFr ≤ 15) :
    (ipfScanlist E layers fin pass).2 = verdict pass (reached (frMatches E fin.pkt fin.finFlx) fin.finFr) ∧
      (ipfScanlist E layers fin pass).1.finDepth = fin.finDepth := by
  set m := frMatches E fin.pkt fin.finFlx with hm
  have hle := depth_le_nest m fin.finFr
  have hadd : Adds E fin.adds fin.finFlx (reached m fin.finFr) := by
    intro d hd _ hk
    have := (reached_mem hp d (mem_of_getLast? hd)).1.2
    rw [hk] at this
    exact absurd this (by decide)
  obtain ⟨inner, he⟩ := ipfScanlist_eq E layers fin pass
  rw [he]
  have := (@scanlistN_scansAs B E inner (16 - fin.finDepth)) fin pass m hm (hp.imp fun d hd => hd.1) hadd
    (Or.inr ⟨by omega, by omega⟩)
  exact ⟨this.1.verdict, scanlistN_depth _ _ _⟩

/-! ### Small configurations -/

/-- A rule that matches every packet of its interface. -/
def anyRule (id : ℕ) (flags : Flags) : Fr := ⟨id, flags, .none, 0, none, 0, 0, none, .none, 0⟩

/-- Rules are matched by their interface alone, the `n`-th state is added as `add` says. -/
def plainEnv (add : ℕ → Bool) : Env Unit :=
  ⟨fun _ _ _ => false, fun _ _ => true, fun _ _ => true, fun _ _ => true, fun _ _ _ => .null, fun _ _ => none,
    fun _ _ _ => none, fun _ => true, fun n => (add n, false)⟩

/-- A packet that came in on interface 1, about to be scanned against `rs`. -/
def incoming (rs : Rules) : Fin Unit := ⟨⟨0, 1, 4, none, ()⟩, 0, rs, 0, 0, [], 0, [], 0, 0⟩

theorem anyRule_plain (id : ℕ) {flags : Flags} (hf : has flags FR_CALLNOW = false)
    (hc : flags &&& FR_CMDMASK = FR_PASS ∨ flags &&& FR_CMDMASK = FR_BLOCK) : Plain (anyRule id flags) :=
  ⟨hc.imp_right .inl, hf, nofun⟩

theorem plain_pass (id : ℕ) : Plain (anyRule id FR_PASS) := anyRule_plain id (by decide) (by decide)

theorem plain_block (id : ℕ) : Plain (anyRule id FR_BLOCK) := anyRule_plain id (by decide) (by decide)

/-- A head that blocks and whose group passes: the rule of the group decides. -/
theorem ipfScanlist_lastMatch_group :
    (ipfScanlist (plainEnv fun _ => true) 0 (incoming
      (.head (anyRule 1 FR_BLOCK) (.rule (anyRule 2 FR_PASS) .null) .null)) FR_BLOCK).2 = FR_PASS :=
  (ipfScanlist_lastMatch (plainEnv fun _ => true) 0
    (incoming (.head (anyRule 1 FR_BLOCK) (.rule (anyRule 2 FR_PASS) .null) .null)) FR_BLOCK
    ⟨⟨plain_block 1, by decide⟩, ⟨⟨plain_pass 2, by decide⟩, trivial⟩, trivial⟩ (by decide)).1.trans (by decide)

/-- **Verdict and rule agree** over pass, block and count rules when the rule that ends the scan
gets its state, if it asks for one, and no head that is reached meets the depth limit:
either no rule matched and the verdict is the one given, or `fin_fr` is a rule that
matches and the verdict is its flags. -/
theorem ipfScanlist_agrees (E : Env B) (layers : ℕ) (fin : Fin B) (pass : Flags) (hp : fin.finFr.All Plain)
    (hadd : Adds E fin.adds fin.finFlx (reached (frMatches E fin.pkt fin.finFlx) fin.finFr))
    (hn : fin.finDepth + depth (frMatches E fin.pkt fin.finFlx) fin.finFr ≤ 15) :
    Agrees E fin pass (ipfScanlist E layers fin pass) := by
  obtain ⟨inner, he⟩ := ipfScanlist_eq E layers fin pass
  rw [he]
  obtain ⟨hr, -⟩ := (@scanlistN_scansAs B E inner (16 - fin.finDepth)) fin pass _ rfl hp hadd
    (Or.inr ⟨by omega, by omega⟩)
  by_cases hl : reached (frMatches E fin.pkt fin.finFlx) fin.finFr = []
  · refine Or.inl ⟨hr.frNil hl, ?_⟩
    have := hr.verdict
    rwa [hl] at this
  · obtain ⟨l, d, hld⟩ := (eq_nil_or_concat _).resolve_left hl
    refine Or.inr ⟨d, ?_, ?_, ?_⟩
    · refine (hr.fr hl).trans ?_
      rw [hld]
      simp
    · exact (reached_mem hp d (by rw [hld]; simp)).2
    · have := hr.verdict
      rw [hld] at this
      rw [this]
      simp [verdict]

/-- A quick rule that keeps state. -/
def keepRule (id : ℕ) : Fr := anyRule id (FR_PASS ||| FR_QUICK ||| FR_KEEPSTATE)

theorem plain_keep (id : ℕ) : Plain (keepRule id) := anyRule_plain id (by decide) (by decide)

/-- `n` heads inside each other that pass, around a rule for another interface that blocks. -/
def deep : ℕ → Rules
  | 0 => .rule { anyRule 0 FR_BLOCK with frIfa := some 2 } .null
  | n + 1 => .head (anyRule (n + 1) FR_PASS) (deep n) .null

theorem deep_plain : ∀ n, (deep n).All Plain
  | 0 => ⟨⟨.inr (.inl rfl), rfl, nofun⟩, trivial⟩
  | n + 1 => ⟨plain_pass _, deep_plain n, trivial⟩

/-- A quick rule that gets its state ends the scan before the 17 groups behind it. -/
theorem ipfScanlist_agrees_keep :
    Agrees (plainEnv fun _ => true) (incoming (.rule (keepRule 1) (deep 17))) FR_BLOCK
      (ipfScanlist (plainEnv fun _ => true) 0 (incoming (.rule (keepRule 1) (deep 17))) FR_BLOCK) :=
  ipfScanlist_agrees (plainEnv fun _ => true) 0 (incoming (.rule (keepRule 1) (deep 17))) FR_BLOCK
    ⟨plain_keep 1, deep_plain 17⟩ (fun _ _ _ _ => .inr rfl) (by decide)

/-- **Verdict and rule come apart** in two ways. When state cannot be added for a quick rule
the verdict is put back and `fin_fr` is not; and the group 16 levels down is refused after
`fin_fr` was set to its first rule, which then stands for the match although it is for
another interface. -/
theorem ipfScanlist_not_agrees :
    ((incoming (.rule (keepRule 1) .null)).finFr.All Plain ∧
      ¬ Agrees (plainEnv fun _ => false) (incoming (.rule (keepRule 1) .null)) FR_BLOCK
        (ipfScanlist (plainEnv fun _ => false) 0 (incoming (.rule (keepRule 1) .null)) FR_BLOCK)) ∧
    ((incoming (deep 16)).finFr.All Plain ∧
      ¬ Agrees (plainEnv fun _ => true) (incoming (deep 16)) FR_BLOCK
        (ipfScanlist (plainEnv fun _ => true) 0 (incoming (deep 16)) FR_BLOCK)) := by
  refine ⟨⟨⟨plain_keep 1, trivial⟩, ?_⟩, ⟨deep_plain 16, ?_⟩⟩
  · rintro (⟨h, -⟩ | ⟨d, hd, -, hv⟩)
    · exact absurd h (by decide)
    · have hk : d = keepRule 1 := by
        have : some (keepRule 1) = some d := hd
        exact (Option.some.inj this).symm
      subst hk
      exact absurd hv (by decide)
  · have hk : (ipfScanlist (plainEnv fun _ => true) 0 (incoming (deep 16)) FR_BLOCK).1.finFr.fr? =
        some { anyRule 0 FR_BLOCK with frIfa := some 2 } := by decide +kernel
    rintro (⟨h, -⟩ | ⟨d, hd, hm, -⟩)
    · rw [h] at hk
      exact absurd hk (by decide)
    · rw [hk, Option.some.injEq] at hd
      subst hd
      exact absurd hm (by decide)

end Ipfilter.Scan
