import Ipfilter.Proof.NatHeld

/-!
# What a new NAT session is made of

One lemma for each function that chooses the addresses and ports of a session: which references are held after it,
what it leaves alone, and which lookup of the NAT table came back empty before it chose.

* `Mild`: the edits that lookups and the counters of a rule make;
* `newmap_spec`, `newrdr_spec`, `newrewrite_spec`, `newdivert_spec`: the four functions.
-/

namespace Ipfilter.NatAdd

open Chain Masks NatTab Refs
open State hiding FrInfo
open Option (bind_eq_some_iff mem_unique some.inj)

variable {M : Machine} {proxyMatch : FrInfo → NatT → Bool} {s s' t : Sys} {xh xr : ℕ → ℕ} {n h : ℕ}
  {ifp : Option ℕ} {c : Call} {l : ℕ} {np np' : Ipnat} {m : Made}

/-! ## Lookups -/

/-- The two tables differ in the interfaces of entries only: some now have the interface `ifp`. -/
def Refaced (ifp : Option ℕ) (w w' : Softn) : Prop :=
  ∃ f : ℕ → Bool → Option ℕ, (∀ x i, f x i = (w.nat x).natIfps i ∨ f x i = ifp) ∧
    w' = { w with nat := fun x => { w.nat x with natIfps := f x } }

theorem Refaced.refl (w : Softn) : Refaced ifp w w := ⟨fun x => (w.nat x).natIfps, fun _ _ => .inl rfl, rfl⟩

theorem Refaced.trans {w w' w'' : Softn} (h : Refaced ifp w w') (h' : Refaced ifp w' w'') : Refaced ifp w w'' := by
  obtain ⟨f, hf, rfl⟩ := h
  obtain ⟨g, hg, rfl⟩ := h'
  refine ⟨g, fun x i => ?_, rfl⟩
  rcases hg x i with hgx | hgx
  · rw [hgx]
    exact hf x i
  · exact .inr hgx

theorem setIfp_ifps (nat : NatT) (i j : Bool) (ifp : Option ℕ) :
    (nat.setIfp i ifp).natIfps j = nat.natIfps j ∨ (nat.setIfp i ifp).natIfps j = ifp := by
  unfold NatT.setIfp
  split
  · by_cases hj : j = i
    · simp [hj]
    · simp [hj]
  · exact .inl rfl

theorem setIfp_eq (nat : NatT) (i : Bool) (ifp : Option ℕ) :
    nat.setIfp i ifp = { nat with natIfps := (nat.setIfp i ifp).natIfps } := by
  unfold NatT.setIfp
  split <;> rfl

theorem refaced_setIfp (w : Softn) (e : ℕ) (i : Bool) (ifp : Option ℕ) :
    Refaced ifp w (w.upd e fun nat => nat.setIfp i ifp) := by
  refine ⟨fun x => (if x = e then (w.nat x).setIfp i ifp else w.nat x).natIfps, fun x j => ?_, ?_⟩
  · dsimp only
    split
    · exact setIfp_ifps ..
    · exact .inl rfl
  have hnat : Function.update w.nat e ((w.nat e).setIfp i ifp) =
      fun x => { w.nat x with natIfps := (if x = e then (w.nat x).setIfp i ifp else w.nat x).natIfps } := by
    funext x
    by_cases hx : x = e
    · subst hx
      rw [Function.update_self, if_pos rfl]
      exact setIfp_eq ..
    · rw [Function.update_of_ne hx, if_neg hx]
  exact congrArg (fun nat => { w with nat := nat }) hnat

/-- A lookup for one connection, without wildcards. -/
def Lookup.Plain (l : Lookup) : Prop := has l.flags SI_WILDP = false ∧ has l.flags NAT_SEARCH = false

/-- **A plain lookup** returns what its first loop finds. -/
theorem lookup_cases {l : Lookup} (hl : Lookup.Plain l) {o : Option ℕ} (heq : s.lookup M proxyMatch l = some (s', o)) :
    o = exactFound M proxyMatch s.tab l ∧ (o = none → s' = s) ∧
      ∃ tab, s' = { s with tab := tab } ∧ Refaced l.fin.finIfp s.tab tab := by
  unfold Sys.lookup ipfNatLookup wildFound at heq
  rw [hl.1, hl.2] at heq
  simp only [Bool.false_eq_true, if_false, or_true, if_true] at heq
  cases hfound : exactFound M proxyMatch s.tab l with
  | none =>
    rw [hfound] at heq
    cases heq
    exact ⟨rfl, fun _ => rfl, s.tab, rfl, Refaced.refl _⟩
  | some e =>
    rw [hfound] at heq
    cases heq
    exact ⟨rfl, nofun, _, rfl, refaced_setIfp ..⟩

theorem probe_plain (c : Call) : has c.probeFlags SI_WILDP = false ∧ has c.probeFlags NAT_SEARCH = false := by
  unfold Call.probeFlags
  simp only [has_eq_false, BitVec.and_assoc]
  constructor
  · have hzero : ~~~(SI_WILDP ||| NAT_SEARCH) &&& SI_WILDP = 0#32 := by decide
    rw [hzero]
    exact BitVec.and_zero
  · have hzero : ~~~(SI_WILDP ||| NAT_SEARCH) &&& NAT_SEARCH = 0#32 := by decide
    rw [hzero]
    exact BitVec.and_zero

theorem known_plain (c : Call) (np : Ipnat) : Lookup.Plain (c.known np) := by
  unfold Lookup.Plain Call.known
  simp only [has_eq_false, BitVec.and_assoc]
  constructor
  · have hzero : NAT_FROMRULE &&& SI_WILDP = 0#32 := by decide
    rw [hzero, BitVec.and_zero]
    exact BitVec.and_zero
  · have hzero : NAT_FROMRULE &&& NAT_SEARCH = 0#32 := by decide
    rw [hzero, BitVec.and_zero]
    exact BitVec.and_zero

/-! ## Edits that keep references -/

/-- **Mild edits:** interfaces of entries, and the counters of rules. -/
structure Mild (ifp : Option ℕ) (s t : Sys) : Prop where
  tab : Refaced ifp s.tab t.tab
  maplist : t.maplist = s.maplist
  hm : t.hm = s.hm
  live : t.live = s.live
  fixed : ∀ x, (t.ipn x).fixed = (s.ipn x).fixed
  use : ∀ x, (t.ipn x).inUse = (s.ipn x).inUse

theorem Mild.refl (s : Sys) : Mild ifp s s := ⟨Refaced.refl _, rfl, rfl, rfl, fun _ => rfl, fun _ => rfl⟩

theorem Mild.trans {u : Sys} (h : Mild ifp s t) (h' : Mild ifp t u) : Mild ifp s u where
  tab := h.tab.trans h'.tab
  maplist := h'.maplist.trans h.maplist
  hm := h'.hm.trans h.hm
  live := h'.live.trans h.live
  fixed x := (h'.fixed x).trans (h.fixed x)
  use x := (h'.use x).trans (h.use x)

theorem mild_lookup {l : Lookup} (hl : Lookup.Plain l) {o : Option ℕ} (heq : s.lookup M proxyMatch l = some (s', o)) :
    Mild l.fin.finIfp s s' := by
  obtain ⟨-, -, tab, rfl, hface⟩ := lookup_cases hl heq
  exact ⟨hface, rfl, rfl, rfl, fun _ => rfl, fun _ => rfl⟩

theorem mild_updRule (s : Sys) (n : ℕ) {f : Ipnat → Ipnat} (hfixed : (f (s.ipn n)).fixed = (s.ipn n).fixed)
    (huse : (f (s.ipn n)).inUse = (s.ipn n).inUse) : Mild ifp s (s.updRule n f) := by
  refine ⟨Refaced.refl _, rfl, rfl, rfl, updRule_fixed s n hfixed, fun x => ?_⟩
  by_cases hx : x = n
  · simp [Sys.updRule, hx, huse]
  · simp [Sys.updRule, hx]

theorem Held.mild (hs : Held s xh xr) (hm : Mild ifp s t) : Held t xh xr := by
  obtain ⟨⟨f, -, htab⟩, hlist, hhm, hlive, -, huse⟩ := hm
  have hkeep : Held { s with tab := t.tab } xh xr :=
    hs.tab (by rw [htab]) fun e _ => by rw [htab]; exact ⟨rfl, rfl⟩
  obtain ⟨tab, maplist, hmf, ipn, live⟩ := t
  dsimp only at hlist hhm hlive huse hkeep
  subst hlist hhm hlive
  exact ⟨hkeep.finite, hkeep.nodup, hkeep.hm, hkeep.rule.congr (fun _ => Iff.rfl) (fun x _ => huse x) fun _ => rfl⟩

theorem rule?_some {np : Ipnat} : s.rule? n = some np ↔ s.live n = true ∧ np = s.ipn n := by
  unfold Sys.rule?
  by_cases hn : s.live n = true <;> simp [hn, eq_comm]

/-- **Quiet edits:** host maps and reference counts, too. -/
structure Quiet (ifp : Option ℕ) (s t : Sys) : Prop where
  tab : Refaced ifp s.tab t.tab
  fixed : ∀ x, (t.ipn x).fixed = (s.ipn x).fixed

theorem Mild.quiet (h : Mild ifp s t) : Quiet ifp s t := ⟨h.tab, h.fixed⟩

theorem Quiet.refl (s : Sys) : Quiet ifp s s := (Mild.refl s).quiet

theorem Quiet.trans {u : Sys} (h : Quiet ifp s t) (h' : Quiet ifp t u) : Quiet ifp s u :=
  ⟨h.tab.trans h'.tab, fun x => (h'.fixed x).trans (h.fixed x)⟩

theorem quiet_hostmap {np new o : Option ℕ} {src dst map port : Word}
    (heq : ipfNatHostmap s np src dst map port new = (s', o)) : Quiet ifp s s' ∧ s'.tab = s.tab := by
  rcases hostmap_cases s np src dst map port new with ⟨h, -, -, hr⟩ | ⟨-, ⟨n, h, -, -, hr⟩ | ⟨-, hr⟩⟩
  · cases heq.symm.trans hr
    exact ⟨⟨Refaced.refl _, fun _ => rfl⟩, rfl⟩
  · cases heq.symm.trans hr
    exact ⟨⟨Refaced.refl _, updRule_fixed s n (f := .addUse 1) rfl⟩, rfl⟩
  · cases heq.symm.trans hr
    exact ⟨Quiet.refl _, rfl⟩

/-- `ipf_nat_hostmap` changes nothing but the count of a host map that was there. -/
theorem hostmap_old {np new o : Option ℕ} {src dst map port : Word} (hx : x ∈ s.maplist)
    (hnew : ∀ h, new = some h → h ∉ s.maplist) (heq : ipfNatHostmap s np src dst map port new = (s', o)) :
    (s'.hm x).fixed = (s.hm x).fixed := by
  rcases hostmap_cases s np src dst map port new with ⟨h, -, -, hr⟩ | ⟨-, ⟨n, h, -, hh, hr⟩ | ⟨-, hr⟩⟩
  · cases heq.symm.trans hr
    exact updHm_fixed s h (f := .addRef 1) rfl x
  · cases heq.symm.trans hr
    have hne : x ≠ h := fun hxh => hnew h hh (hxh ▸ hx)
    simp [hne]
  · cases heq.symm.trans hr
    rfl

/-- A rule that something else holds exists. -/
theorem Held.live_of_pos (hs : Held s xh xr) (hn : 0 < xr n) : s.live n = true := by
  refine (hs.rule.pos n).2 ?_
  unfold Sys.ruleTotal
  omega

/-- Quiet edits that balance their references keep the set of host maps. -/
theorem Held.mem_iff (hs : Held s xh xr) (ht : Held t xh xr) (hq : Quiet ifp s t) : h ∈ t.maplist ↔ h ∈ s.maplist := by
  obtain ⟨f, -, htab⟩ := hq.tab
  have htotal : t.hmTotal xh h = s.hmTotal xh h := by
    unfold Sys.hmTotal Sys.entries
    rw [htab]
  rw [hs.hm.pos h, ht.hm.pos h, htotal]

/-! ## `ipf_nat_newmap` -/

theorem mapAddr_keeps {held : Bool} {addr addr' : Word} {port : BitVec 16}
    (h : mapAddr M np c l held addr = .ok (np', addr', port)) : np'.fixed = np.fixed ∧ np'.inUse = np.inUse := by
  unfold mapAddr at h
  dsimp only at h
  -- only the last branch but one changes the rule
  repeat' split at h
  all_goals cases h
  all_goals exact ⟨rfl, rfl⟩

theorem mapPort_keeps {port port' : BitVec 16}
    (h : mapPort M np c l port = .ok (np', port')) : np'.fixed = np.fixed ∧ np'.inUse = np.inUse := by
  unfold mapPort at h
  dsimp only at h
  repeat' split at h
  all_goals cases h
  all_goals exact ⟨rfl, rfl⟩

theorem mapWrap_keeps (np : Ipnat) : (mapWrap M np).fixed = np.fixed ∧ (mapWrap M np).inUse = np.inUse := by
  unfold mapWrap
  repeat' split
  all_goals exact ⟨rfl, rfl⟩

theorem mapPick_keeps {held : Bool} {addr addr' : Word} {port : BitVec 16}
    (h : mapPick M np c l held addr = .ok (np', addr', port)) : np'.fixed = np.fixed ∧ np'.inUse = np.inUse := by
  unfold mapPick at h
  cases ha : mapAddr M np c l held addr with
  | error _ =>
    rw [ha] at h
    exact absurd h (by simp [bind, Except.bind])
  | ok q =>
    obtain ⟨np₁, a, p⟩ := q
    rw [ha] at h
    change Except.bind (mapPort M np₁ c l p) _ = _ at h
    cases hp : mapPort M np₁ c l p with
    | error _ =>
      rw [hp] at h
      exact absurd h (by simp [Except.bind])
    | ok q =>
      obtain ⟨np₂, p'⟩ := q
      rw [hp] at h
      cases Except.ok.inj h
      obtain ⟨hf₁, hu₁⟩ := mapAddr_keeps ha
      obtain ⟨hf₂, hu₂⟩ := mapPort_keeps hp
      obtain ⟨hf₃, hu₃⟩ := mapWrap_keeps (M := M) np₂
      exact ⟨hf₃.trans (hf₂.trans hf₁), hu₃.trans (hu₂.trans hu₁)⟩

/-- The host map at the start of a round: `hm` is held before it, and what it returns after it. -/
theorem mapHm_spec {hm hm' : Option ℕ} {addr : Word} (hs : Held s (also xh hm) xr)
    (hl : l = 0 → hm = none ∧ ∀ x, c.hmNew false = some x → x ∉ s.maplist) (hnp : 0 < xr c.np)
    (heq : mapHm M s c l hm = some (s', hm', addr)) : Held s' (also xh hm') xr ∧ Quiet c.fin.finIfp s s' ∧
      ∀ x, (l = 0 → x ∈ s.maplist) → (s'.hm x).fixed = (s.hm x).fixed := by
  unfold mapHm at heq
  dsimp only at heq
  by_cases h0 : l = 0
  · obtain ⟨rfl, hnew⟩ := hl h0
    rw [if_pos h0] at heq
    cases hr : ipfNatHostmap s (some c.np) c.fin.finSaddr c.fin.finDaddr (M.htonl (s.ipn c.np).inSnip) 0
        (c.hmNew false) with
    | mk t o =>
      rw [hr] at heq
      cases heq
      rw [also_none] at hs
      exact ⟨hs.hostmap (fun n hn => some.inj hn ▸ hs.live_of_pos hnp) hnew hr, (quiet_hostmap hr).1,
        fun x hx => hostmap_old (hx h0) hnew hr⟩
  · rw [if_neg h0] at heq
    by_cases h1 : l = 1
    · rw [if_pos h1] at heq
      obtain ⟨t, ht, hheld, htab, -, hhm, hipn⟩ := hs.dropHm
      rw [ht] at heq
      cases heq
      rw [also_none]
      exact ⟨hheld, ⟨htab ▸ Refaced.refl _, hipn⟩, fun x _ => hhm x⟩
    · rw [if_neg h1] at heq
      cases heq
      exact ⟨hs, Quiet.refl _, fun _ _ => rfl⟩

/-- **The loop of `ipf_nat_newmap`.** By induction on the rounds: each holds one host map, or none, and leaves those that were
there alone but for their counts, and the last lookup found nothing. -/
theorem newmapLoop_spec {stIp : Word} {stPort : BitVec 16} (hnp : 0 < xr c.np) :
    ∀ {fuel l : ℕ} {s : Sys} {hm hm' : Option ℕ} {pick : Option (Word × BitVec 16)}, Held s (also xh hm) xr →
      (l = 0 → hm = none ∧ ∀ x, c.hmNew false = some x → x ∉ s.maplist) →
      newmapLoop M proxyMatch c stIp stPort fuel l s hm = some (s', hm', pick) →
      Held s' (also xh hm') xr ∧ Quiet c.fin.finIfp s s' ∧
        (∀ x, (l = 0 → x ∈ s.maplist) → (s'.hm x).fixed = (s.hm x).fixed) ∧
        ∀ a p, pick = some (a, p) → exactFound M proxyMatch s'.tab (mapProbe M c a p) = none := by
  intro fuel
  induction fuel with
  | zero => exact fun _ _ heq => absurd heq (by simp [newmapLoop])
  | succ fuel ih =>
    intro l s hm hm' pick hs hl heq
    rw [newmapLoop] at heq
    obtain ⟨⟨t, hm₁, addr⟩, hround, heq⟩ := bind_eq_some_iff.1 heq
    obtain ⟨ht, hquiet, hold⟩ := mapHm_spec hs hl hnp hround
    obtain ⟨np, hnpt, heq⟩ := bind_eq_some_iff.1 heq
    obtain ⟨-, rfl⟩ := rule?_some.1 hnpt
    cases hpick : mapPick M (t.ipn c.np) c l hm₁.isSome (M.ntohl addr) with
    | error e =>
      rw [hpick] at heq
      cases e with
      | fault => exact absurd heq (by simp)
      | refused =>
        cases heq
        exact ⟨ht, hquiet, hold, nofun⟩
    | ok q =>
      obtain ⟨np', a, p⟩ := q
      rw [hpick] at heq
      obtain ⟨hfixed, huse⟩ := mapPick_keeps hpick
      obtain ⟨⟨u, natl⟩, hlook, heq⟩ := bind_eq_some_iff.1 heq
      have hmild : Mild c.fin.finIfp t u :=
        (mild_updRule t c.np hfixed huse).trans (mild_lookup (l := mapProbe M c a p) (probe_plain c) hlook)
      have hu := ht.mild hmild
      have hqu := hquiet.trans hmild.quiet
      have holdu : ∀ x, (l = 0 → x ∈ s.maplist) → (u.hm x).fixed = (s.hm x).fixed :=
        fun x hx => by rw [hmild.hm, hold x hx]
      obtain ⟨hfound, hsame, -⟩ := lookup_cases (l := mapProbe M c a p) (probe_plain c) hlook
      cases natl with
      | none =>
        cases heq
        refine ⟨hu, hqu, holdu, fun a' p' hap => ?_⟩
        cases hap
        rw [hsame rfl]
        exact hfound.symm
      | some x =>
        dsimp only at heq
        split at heq
        · cases heq
          exact ⟨hu, hqu, holdu, nofun⟩
        · obtain ⟨hfin, hq, hlast, hprobe⟩ := ih hu (fun h0 => absurd h0 (Nat.succ_ne_zero l)) heq
          exact ⟨hfin, hqu.trans hq, fun x hx => (hlast x fun h0 => absurd h0 (Nat.succ_ne_zero l)).trans (holdu x hx),
            hprobe⟩

/-- What `ipf_nat_newmap` may assume of its call: the rule is held by a rule table, and new host maps are new. -/
structure Call.Fresh (c : Call) (s : Sys) (xr : ℕ → ℕ) : Prop where
  rule : 0 < xr c.np
  hm : ∀ i x, c.hmNew i = some x → x ∉ s.maplist

/-- **`ipf_nat_newmap`** -/
theorem newmap_spec {fuel : ℕ} (hs : Held s xh xr) (hc : c.Fresh s xr)
    (heq : ipfNatNewmap M proxyMatch fuel s c = some m) :
    Held m.sys (also xh m.hm) xr ∧ Quiet c.fin.finIfp s m.sys ∧ m.np = c.np ∧ ∀ nat, m.nat = some nat →
      ∃ a p, nat = mapNat M c a p ∧ exactFound M proxyMatch m.sys.tab (mapProbe M c a p) = none := by
  unfold ipfNatNewmap at heq
  obtain ⟨np, -, heq⟩ := bind_eq_some_iff.1 heq
  obtain ⟨⟨t, hm, pick⟩, hloop, heq⟩ := bind_eq_some_iff.1 heq
  obtain ⟨ht, hq, -, hprobe⟩ := newmapLoop_spec hc.rule ((also_none xh).symm ▸ hs) (fun _ => ⟨rfl, hc.hm false⟩) hloop
  cases pick with
  | none =>
    cases heq
    exact ⟨ht, hq, rfl, nofun⟩
  | some q =>
    obtain ⟨a, p⟩ := q
    have hnone := hprobe a p rfl
    cases hm with
    | some x =>
      cases heq
      exact ⟨ht, hq, rfl, fun nat hn => ⟨a, p, (some.inj hn).symm, hnone⟩⟩
    | none =>
      cases hr : ipfNatHostmap t (some c.np) c.fin.finSaddr c.fin.finDaddr (M.htonl a) 0 (c.hmNew true) with
      | mk u o =>
        have hmade : some (⟨(ipfNatHostmap t (some c.np) c.fin.finSaddr c.fin.finDaddr (M.htonl a) 0 (c.hmNew true)).1,
            (ipfNatHostmap t (some c.np) c.fin.finSaddr c.fin.finDaddr (M.htonl a) 0 (c.hmNew true)).2, c.np,
            some (mapNat M c a p), false⟩ : Made) = some m := heq
        rw [hr] at hmade
        cases hmade
        rw [also_none] at ht
        obtain ⟨hqu, htab⟩ := quiet_hostmap hr
        refine ⟨ht.hostmap (fun n hn => some.inj hn ▸ ht.live_of_pos hc.rule) (fun x hx => ?_) hr,
          hq.trans hqu, rfl, fun nat hn => ⟨a, p, (some.inj hn).symm, ?_⟩⟩
        · rw [hs.mem_iff ht hq]
          exact hc.hm true x hx
        · rw [htab]
          exact hnone

/-! ## `ipf_nat_newrdr` -/

theorem addRef_addRef (hm : Hostmap) (j k : ℤ) : (hm.addRef j).addRef k = hm.addRef (j + k) := by
  simp [Hostmap.addRef, Int.add_assoc]

/-- A reference that is given back at once leaves no trace. -/
theorem hostmapdel_useHm (hs : Held s xh xr) (hh : h ∈ s.maplist) :
    ipfNatHostmapdel (s.updHm h (.addRef 1)) h = some s := by
  have hback : (s.updHm h (.addRef 1)).updHm h (.addRef (-1)) = s := by
    simp only [Sys.updHm, Function.update_self, Function.update_idem, addRef_addRef]
    have hsame : (s.hm h).addRef (1 + -1) = s.hm h := by simp [Hostmap.addRef]
    rw [hsame, Function.update_eq_self]
  have hpos := hs.hm_pos hh
  unfold ipfNatHostmapdel
  dsimp only
  rw [hback]
  have hmem : h ∈ (s.updHm h (.addRef 1)).maplist := hh
  rw [if_neg (not_not.2 hmem), if_neg (by omega)]

/-- The search of `ipf_nat_newrdr` for a host map, whatever its rule. -/
def Call.knows (M : Machine) (c : Call) (hm : Hostmap) : Bool :=
  hm.fits none c.fin.finSaddr c.fin.finDaddr (word (c.rdrDport M))

/-- A search without a rule takes the first host map, or there is none. -/
theorem find_cases (s : Sys) (c : Call) (map : Word) : (∃ h ∈ s.maplist, c.knows M (s.hm h) = true ∧
      ipfNatHostmap s none c.fin.finSaddr c.fin.finDaddr map (word (c.rdrDport M)) none =
        (s.updHm h (.addRef 1), some h)) ∨ (∀ h ∈ s.maplist, c.knows M (s.hm h) = false) ∧
      ipfNatHostmap s none c.fin.finSaddr c.fin.finDaddr map (word (c.rdrDport M)) none = (s, none) := by
  rcases hostmap_cases s none c.fin.finSaddr c.fin.finDaddr map (word (c.rdrDport M)) none with
    hfound | ⟨hnone, ⟨n, h, hn, -⟩ | ⟨-, hr⟩⟩
  · exact .inl hfound
  · exact absurd hn (by simp)
  · exact .inr ⟨hnone, hr⟩

/-- **The rule of a redirect:** the one that matched, or that of a host map. -/
theorem rdrSticky_cases (hs : Held s xh xr) {np : Ipnat} {b : Bool} (heq : rdrSticky M s c np = some (s', n, b)) :
    s' = s ∧ (n = c.np ∧ (has np.inFlags (IPN_ROUNDR ||| IPN_SPLIT) = true → has np.inFlags IPN_STICKY = true →
        ∀ h ∈ s.maplist, c.knows M (s.hm h) = false) ∨
      ∃ h ∈ s.maplist, c.knows M (s.hm h) = true ∧ n = (s.hm h).hmIpnat) := by
  unfold rdrSticky at heq
  by_cases hf : has np.inFlags (IPN_ROUNDR ||| IPN_SPLIT) = true ∧ has np.inFlags IPN_STICKY = true
  · rw [if_pos hf] at heq
    rcases find_cases (M := M) s c 0 with ⟨h, hh, hk, hr⟩ | ⟨hnone, hr⟩
    · rw [hr] at heq
      dsimp only at heq
      rw [hostmapdel_useHm hs hh] at heq
      cases heq
      refine ⟨rfl, .inr ⟨h, hh, hk, ?_⟩⟩
      simp [Sys.updHm]
    · rw [hr] at heq
      cases heq
      exact ⟨rfl, .inl ⟨rfl, fun _ _ => hnone⟩⟩
  · rw [if_neg hf] at heq
    cases heq
    exact ⟨rfl, .inl ⟨rfl, fun h1 h2 => absurd ⟨h1, h2⟩ hf⟩⟩

/-- The rule says which of its two addresses is next. -/
def Sys.setDnip (s : Sys) (n : ℕ) (x : Word) : Sys := s.updRule n fun np => { np with inDnip := x }

theorem setDnip_self (s : Sys) (n : ℕ) : s.setDnip n (s.ipn n).inDnip = s := by
  unfold Sys.setDnip Sys.updRule
  dsimp only
  rw [Function.update_eq_self]

theorem mild_setDnip (s : Sys) (n : ℕ) (x : Word) : Mild ifp s (s.setDnip n x) := mild_updRule s n rfl rfl

/-- **The address of a split rule:** the next one, or that of a host map. -/
theorem rdrSplit_cases (hs : Held s xh xr) {addr : Word} {b : Bool} (heq : rdrSplit M s c n = some (s', addr, b)) :
    (∃ x, s' = s.setDnip n x) ∧
      (addr = (s.ipn n).inDnip ∧ ((s.ipn n).inFlags &&& (IPN_ROUNDR ||| IPN_STICKY) = IPN_STICKY →
          ∀ h ∈ s.maplist, c.knows M (s.hm h) = false) ∨
        (s.ipn n).inFlags &&& (IPN_ROUNDR ||| IPN_STICKY) = IPN_STICKY ∧
          ∃ h ∈ s.maplist, c.knows M (s.hm h) = true ∧ addr = (s.hm h).hmNdstip) := by
  unfold rdrSplit at heq
  obtain ⟨np, hnp, heq⟩ := bind_eq_some_iff.1 heq
  obtain ⟨-, rfl⟩ := rule?_some.1 hnp
  by_cases hf : (s.ipn n).inFlags &&& (IPN_ROUNDR ||| IPN_STICKY) = IPN_STICKY
  · rw [if_pos hf] at heq
    rcases find_cases (M := M) s c (M.htonl (s.ipn n).inDnip) with ⟨h, hh, hk, hr⟩ | ⟨hnone, hr⟩
    · -- the count is at least 2 here, so the rule does not turn
      rw [hr] at heq
      have hone : ¬((s.updHm h (.addRef 1)).hm h).hmRef = 1 := by
        have := hs.hm_pos hh
        simp only [Sys.updHm, Function.update_self, addRef_hmRef]
        omega
      simp only [hone, decide_false, Bool.false_eq_true, if_false, dropHm] at heq
      rw [hostmapdel_useHm hs hh] at heq
      cases heq
      refine ⟨⟨_, (setDnip_self s n).symm⟩, .inr ⟨hf, h, hh, hk, ?_⟩⟩
      simp [Sys.updHm, Hostmap.addRef]
    · rw [hr] at heq
      cases heq
      exact ⟨⟨_, rfl⟩, .inl ⟨rfl, fun _ => hnone⟩⟩
  · rw [if_neg hf] at heq
    cases heq
    exact ⟨⟨_, rfl⟩, .inl ⟨rfl, fun h => absurd h hf⟩⟩

theorem rdrPort_keeps (c : Call) (np : Ipnat) :
    (rdrPort M c np).1.fixed = np.fixed ∧ (rdrPort M c np).1.inUse = np.inUse := by
  unfold rdrPort
  dsimp only
  repeat' split
  all_goals exact ⟨rfl, rfl⟩

/-- The address that a redirect ends with: 0 is the one that the packet has. -/
def Call.rdrAddr' (M : Machine) (c : Call) (addr : Word) : Word := if addr = 0 then M.ntohl c.fin.finDaddr else addr

theorem rdrTarget_eq (c : Call) (addr : Word) (p : BitVec 16) :
    rdrTarget M c addr p = if addr = 0 ∧ p = c.rdrDport M then none else some (c.rdrAddr' M addr) := by
  unfold rdrTarget Call.rdrAddr'
  split_ifs <;> simp_all

/-- **The end of `ipf_nat_newrdr`:** it refuses, or the lookup has found nothing and the host map is held. -/
theorem rdrFinish_cases {addr : Word} {move : Bool} (heq : rdrFinish M proxyMatch s c n addr move = some m) :
    s.live n = true ∧ m.np = n ∧ ∃ t, Mild c.fin.finIfp s t ∧ (m.nat = none ∧ m.hm = none ∧ m.sys = t ∨
      ¬(addr = 0 ∧ (rdrPort M c (s.ipn n)).2 = c.rdrDport M) ∧
      m.nat = some (rdrNat M c (c.rdrAddr' M addr) (rdrPort M c (s.ipn n)).2) ∧
      exactFound M proxyMatch t.tab (rdrProbe M c (c.rdrAddr' M addr) (rdrPort M c (s.ipn n)).2) = none ∧
      (m.sys, m.hm) = if has (s.ipn n).inFlags IPN_STICKY then
        ipfNatHostmap t (some n) c.fin.finSaddr c.fin.finDaddr (M.htonl (c.rdrAddr' M addr)) (word (c.rdrDport M))
          (c.hmNew false) else (t, none)) := by
  unfold rdrFinish at heq
  obtain ⟨np, hnp, heq⟩ := bind_eq_some_iff.1 heq
  obtain ⟨hlive, rfl⟩ := rule?_some.1 hnp
  obtain ⟨hfixed, huse⟩ := rdrPort_keeps (M := M) c (s.ipn n)
  have hmild : Mild c.fin.finIfp s (s.updRule n fun _ => (rdrPort M c (s.ipn n)).1) := mild_updRule s n hfixed huse
  have hsticky : (rdrPort M c (s.ipn n)).1.inFlags = (s.ipn n).inFlags := by
    have hflags := congrArg Ipnat.inFlags hfixed
    exact hflags
  dsimp only at heq
  rw [rdrTarget_eq] at heq
  by_cases h0 : addr = 0 ∧ (rdrPort M c (s.ipn n)).2 = c.rdrDport M
  · rw [if_pos h0] at heq
    cases heq
    exact ⟨hlive, rfl, _, hmild, .inl ⟨rfl, rfl, rfl⟩⟩
  · rw [if_neg h0] at heq
    dsimp only at heq
    obtain ⟨⟨t, natl⟩, hlook, heq⟩ := bind_eq_some_iff.1 heq
    have hplain : Lookup.Plain (rdrProbe M c (c.rdrAddr' M addr) (rdrPort M c (s.ipn n)).2) := probe_plain c
    have hmt := hmild.trans (mild_lookup hplain hlook)
    obtain ⟨hfound, hsame, -⟩ := lookup_cases hplain hlook
    cases natl with
    | some x =>
      cases heq
      exact ⟨hlive, rfl, t, hmt, .inl ⟨rfl, rfl, rfl⟩⟩
    | none =>
      dsimp only at heq
      rw [hsticky] at heq
      cases heq
      refine ⟨hlive, rfl, t, hmt, .inr ⟨h0, rfl, ?_, rfl⟩⟩
      rw [hsame rfl]
      exact hfound.symm

/-- **`ipf_nat_newrdr`:** it refuses, or it ends with the rule that `ipf_nat_rdrSticky` chose and an address of that
rule. -/
theorem newrdr_cases (hs : Held s xh xr) (heq : ipfNatNewrdr M proxyMatch s c = some m) : s.live m.np = true ∧
    (m.np = c.np ∧ (has (s.ipn c.np).inFlags (IPN_ROUNDR ||| IPN_SPLIT) = true →
        has (s.ipn c.np).inFlags IPN_STICKY = true → ∀ h ∈ s.maplist, c.knows M (s.hm h) = false) ∨
      ∃ h ∈ s.maplist, c.knows M (s.hm h) = true ∧ m.np = (s.hm h).hmIpnat) ∧
    ∃ t, Mild c.fin.finIfp s t ∧ (m.nat = none ∧ m.hm = none ∧ m.sys = t ∨ ∃ addr,
      (if has (s.ipn m.np).inFlags IPN_SPLIT then
        addr = (s.ipn m.np).inDnip ∧ ((s.ipn m.np).inFlags &&& (IPN_ROUNDR ||| IPN_STICKY) = IPN_STICKY →
          ∀ h ∈ s.maplist, c.knows M (s.hm h) = false) ∨
        (s.ipn m.np).inFlags &&& (IPN_ROUNDR ||| IPN_STICKY) = IPN_STICKY ∧
          ∃ h ∈ s.maplist, c.knows M (s.hm h) = true ∧ addr = (s.hm h).hmNdstip
      else rdrAddr M c (s.ipn m.np) = some addr) ∧ ¬(addr = 0 ∧ (rdrPort M c (s.ipn m.np)).2 = c.rdrDport M) ∧
      m.nat = some (rdrNat M c (c.rdrAddr' M addr) (rdrPort M c (s.ipn m.np)).2) ∧
      exactFound M proxyMatch t.tab (rdrProbe M c (c.rdrAddr' M addr) (rdrPort M c (s.ipn m.np)).2) = none ∧
      (m.sys, m.hm) = if has (s.ipn m.np).inFlags IPN_STICKY then
        ipfNatHostmap t (some m.np) c.fin.finSaddr c.fin.finDaddr (M.htonl (c.rdrAddr' M addr))
          (word (c.rdrDport M)) (c.hmNew false) else (t, none)) := by
  unfold ipfNatNewrdr at heq
  obtain ⟨np₀, hnp₀, hbind⟩ := bind_eq_some_iff.1 heq
  obtain ⟨-, rfl⟩ := rule?_some.1 hnp₀
  obtain ⟨⟨s₁, n, stuck⟩, hstick, hrest⟩ := bind_eq_some_iff.1 hbind
  obtain ⟨hsame, hrule⟩ := rdrSticky_cases hs hstick
  rw [hsame] at hrest
  obtain ⟨np, hnp, hend⟩ := bind_eq_some_iff.1 hrest
  obtain ⟨hlive, rfl⟩ := rule?_some.1 hnp
  by_cases hsplit : has (s.ipn n).inFlags IPN_SPLIT = true
  · rw [if_pos hsplit] at hend
    obtain ⟨⟨s₂, addr, stays⟩, hsp, hfin⟩ := bind_eq_some_iff.1 hend
    obtain ⟨⟨x, hx⟩, haddr⟩ := rdrSplit_cases hs hsp
    rw [hx] at hfin
    obtain ⟨-, hn, t, hmild, hcases⟩ := rdrFinish_cases hfin
    subst hn
    -- the choice of the port reads other fields of the rule than the one that changed
    have hport : (rdrPort M c ((s.setDnip m.np x).ipn m.np)).2 = (rdrPort M c (s.ipn m.np)).2 := by
      simp only [Sys.setDnip, Sys.updRule, Function.update_self]
      unfold rdrPort
      dsimp only
      split_ifs <;> rfl
    have hflags : ((s.setDnip m.np x).ipn m.np).inFlags = (s.ipn m.np).inFlags := by
      simp [Sys.setDnip, Sys.updRule]
    rw [hport, hflags] at hcases
    refine ⟨hlive, hrule, t, (mild_setDnip s m.np x).trans hmild, hcases.imp_right fun hc => ⟨addr, ?_, hc⟩⟩
    rw [if_pos hsplit]
    exact haddr
  · rw [if_neg hsplit] at hend
    cases haddr : rdrAddr M c (s.ipn n) with
    | none =>
      rw [haddr] at hend
      cases hend
      exact ⟨hlive, hrule, s, Mild.refl _, .inl ⟨rfl, rfl, rfl⟩⟩
    | some addr =>
      rw [haddr] at hend
      obtain ⟨-, hn, t, hmild, hcases⟩ := rdrFinish_cases hend
      subst hn
      refine ⟨hlive, hrule, t, hmild, hcases.imp_right fun hc => ⟨addr, ?_, hc⟩⟩
      rw [if_neg hsplit]
      exact haddr

/-- **`ipf_nat_newrdr`**, what it holds and the lookup that found nothing. -/
theorem newrdr_spec (hs : Held s xh xr) (hc : c.Fresh s xr) (heq : ipfNatNewrdr M proxyMatch s c = some m) :
    Held m.sys (also xh m.hm) xr ∧ Quiet c.fin.finIfp s m.sys ∧ ∀ nat, m.nat = some nat →
      ∃ a p, nat = rdrNat M c a p ∧ exactFound M proxyMatch m.sys.tab (rdrProbe M c a p) = none := by
  obtain ⟨hlive, -, t, hmild, ⟨hnat, hhm, hsys⟩ | ⟨addr, -, -, hnat, hfound, hr⟩⟩ := newrdr_cases hs heq
  · rw [hhm, hsys, also_none, hnat]
    exact ⟨hs.mild hmild, hmild.quiet, nofun⟩
  · have ht := hs.mild hmild
    have hlive' : t.live m.np = true := by rw [hmild.live, hlive]
    by_cases hst : has (s.ipn m.np).inFlags IPN_STICKY = true
    · rw [if_pos hst] at hr
      obtain ⟨hq, htab⟩ := quiet_hostmap hr.symm
      refine ⟨ht.hostmap (fun n hn => some.inj hn ▸ hlive') (fun x hx => ?_) hr.symm, hmild.quiet.trans hq,
        fun nat hn => ⟨_, _, mem_unique hn hnat, ?_⟩⟩
      · rw [hmild.maplist]
        exact hc.hm false x hx
      · rw [htab]
        exact hfound
    · rw [if_neg hst] at hr
      obtain ⟨hsys, hhm⟩ := Prod.mk.inj hr
      rw [hsys, hhm, also_none]
      exact ⟨ht, hmild.quiet, fun nat hn => ⟨_, _, mem_unique hn hnat, hfound⟩⟩

/-! ## `ipf_nat_newrewrite` -/

theorem rewriteSrc_keeps {again changed : Bool} {r r' : Rewrite} (h : rewriteSrc M c l again r = some (r', changed)) :
    r'.np.fixed = r.np.fixed ∧ r'.np.inUse = r.np.inUse ∧ r'.frnat.finP = r.frnat.finP ∧
      r'.frnat.finIfp = r.frnat.finIfp := by
  unfold rewriteSrc at h
  obtain ⟨saddr, -, h⟩ := bind_eq_some_iff.1 h
  dsimp only at h
  repeat' split at h
  all_goals
    cases h
    exact ⟨rfl, rfl, rfl, rfl⟩

theorem rewriteDst_keeps {again changed : Bool} {r r' : Rewrite} (h : rewriteDst M c l again changed r = some r') :
    r'.np.fixed = r.np.fixed ∧ r'.np.inUse = r.np.inUse ∧ r'.frnat.finP = r.frnat.finP ∧
      r'.frnat.finIfp = r.frnat.finIfp := by
  unfold rewriteDst at h
  obtain ⟨daddr, -, h⟩ := bind_eq_some_iff.1 h
  dsimp only at h
  repeat' split at h
  all_goals
    cases h
    exact ⟨rfl, rfl, rfl, rfl⟩

/-- The rule of a round is that of the state. -/
def Rewrite.Of (r : Rewrite) (s : Sys) (c : Call) : Prop :=
  r.np.fixed = (s.ipn c.np).fixed ∧ r.np.inUse = (s.ipn c.np).inUse ∧ r.frnat.finP = c.fin.finP ∧
    r.frnat.finIfp = c.fin.finIfp

variable {r : Rewrite}

theorem mild_rewrite (hr : r.Of s c) : Mild c.fin.finIfp s (s.updRule c.np fun _ => r.np) :=
  mild_updRule s c.np hr.1 hr.2.1

theorem Rewrite.Of.mild (hr : r.Of s c) (hm : Mild c.fin.finIfp s t) : r.Of t c :=
  ⟨hr.1.trans (hm.fixed _).symm, hr.2.1.trans (hm.use _).symm, hr.2.2⟩

/-- The masked counter is one of the fields that a rule may change. -/
theorem Rewrite.Of.mask (hr : r.Of s c) : Rewrite.Of { r with np := r.np.maskStep } s c := hr

/-- A round makes mild edits, and a translation that it calls free was not found. -/
theorem rewriteRound_spec {again : Bool} {o : Round} (hr : r.Of s c)
    (heq : rewriteRound M proxyMatch c l again s r = some o) : match o with
    | .refused t => Mild c.fin.finIfp s t
    | .free t frnat => Mild c.fin.finIfp s t ∧ frnat.finP = c.fin.finP ∧ frnat.finIfp = c.fin.finIfp ∧
        exactFound M proxyMatch t.tab (rewriteProbe c frnat) = none
    | .taken t r => Mild c.fin.finIfp s t ∧ r.Of t c := by
  unfold rewriteRound at heq
  split at heq
  · cases heq
    exact Mild.refl _
  cases hsrc : rewriteSrc M c l again r with
  | none =>
    rw [hsrc] at heq
    cases heq
    exact Mild.refl _
  | some q =>
    obtain ⟨r₁, changed⟩ := q
    rw [hsrc] at heq
    dsimp only at heq
    obtain ⟨hf, hu, hp, hi⟩ := rewriteSrc_keeps hsrc
    have hr₁ : r₁.Of s c := ⟨hf.trans hr.1, hu.trans hr.2.1, hp.trans hr.2.2.1, hi.trans hr.2.2.2⟩
    cases hdst : rewriteDst M c l again changed r₁ with
    | none =>
      rw [hdst] at heq
      cases heq
      exact mild_rewrite hr₁
    | some r₂ =>
      rw [hdst] at heq
      obtain ⟨hf, hu, hp, hi⟩ := rewriteDst_keeps hdst
      have hr₂ : r₂.Of s c := ⟨hf.trans hr₁.1, hu.trans hr₁.2.1, hp.trans hr₁.2.2.1, hi.trans hr₁.2.2.2⟩
      obtain ⟨⟨t, natl⟩, hlook, hrest⟩ := bind_eq_some_iff.1 heq
      have hplain : Lookup.Plain (rewriteProbe c r₂.frnat) := probe_plain c
      have hifp : (rewriteProbe c r₂.frnat).fin.finIfp = c.fin.finIfp := by
        unfold rewriteProbe
        dsimp only
        split <;> exact hr₂.2.2.2
      have hmild := (mild_rewrite hr₂).trans (hifp ▸ mild_lookup hplain hlook)
      obtain ⟨hfound, hsame, -⟩ := lookup_cases hplain hlook
      cases natl with
      | none =>
        cases hrest
        refine ⟨hmild.trans (mild_rewrite (hr₂.mask.mild hmild)), hr₂.2.2.1, hr₂.2.2.2, ?_⟩
        rw [hsame rfl]
        exact hfound.symm
      | some x =>
        cases hrest
        exact ⟨hmild, hr₂.mild hmild⟩

/-- **The loop of `ipf_nat_newrewrite`.** By induction on the rounds that are left. -/
theorem rewriteLoop_spec : ∀ {k : ℕ} {again : Bool} {s : Sys} {r : Rewrite} {o : Option FrInfo},
    r.Of s c → rewriteLoop M proxyMatch c k again s r = some (s', o) →
    Mild c.fin.finIfp s s' ∧ ∀ frnat, o = some frnat → frnat.finP = c.fin.finP ∧ frnat.finIfp = c.fin.finIfp ∧
      exactFound M proxyMatch s'.tab (rewriteProbe c frnat) = none := by
  intro k
  induction k with
  | zero =>
    intro again s r o hr heq
    rw [rewriteLoop] at heq
    obtain ⟨q, hround, heq⟩ := bind_eq_some_iff.1 heq
    have hspec := rewriteRound_spec hr hround
    cases q <;> obtain ⟨rfl, rfl⟩ := Prod.mk.inj (some.inj heq)
    · exact ⟨hspec, nofun⟩
    · exact ⟨hspec.1, fun frnat hfr => some.inj hfr ▸ hspec.2⟩
    · exact ⟨hspec.1, nofun⟩
  | succ k ih =>
    intro again s r o hr heq
    rw [rewriteLoop] at heq
    obtain ⟨q, hround, heq⟩ := bind_eq_some_iff.1 heq
    have hspec := rewriteRound_spec hr hround
    cases q with
    | refused t =>
      cases heq
      exact ⟨hspec, nofun⟩
    | free t frnat =>
      cases heq
      exact ⟨hspec.1, fun frnat hfr => some.inj hfr ▸ hspec.2⟩
    | taken t r' =>
      obtain ⟨hmild, hof⟩ := hspec
      have hmask := mild_rewrite hof.mask
      obtain ⟨hm, hprobe⟩ := ih (hof.mask.mild hmask) heq
      exact ⟨(hmild.trans hmask).trans hm, hprobe⟩

/-- **`ipf_nat_newrewrite`** -/
theorem newrewrite_spec (heq : ipfNatNewrewrite M proxyMatch s c = some m) :
    Mild c.fin.finIfp s m.sys ∧ m.hm = none ∧ m.np = c.np ∧ ∀ nat, m.nat = some nat →
      ∃ frnat, nat = rewriteNat M c frnat ∧
      frnat.finP = c.fin.finP ∧ frnat.finIfp = c.fin.finIfp ∧
      exactFound M proxyMatch m.sys.tab (rewriteProbe c frnat) = none := by
  unfold ipfNatNewrewrite at heq
  obtain ⟨np, hnp, hbind⟩ := bind_eq_some_iff.1 heq
  obtain ⟨-, rfl⟩ := rule?_some.1 hnp
  obtain ⟨⟨t, o⟩, hloop, hrest⟩ := bind_eq_some_iff.1 hbind
  have hof : (⟨s.ipn c.np, c.fin, true, true⟩ : Rewrite).Of s c := ⟨rfl, rfl, rfl, rfl⟩
  obtain ⟨hmild, hprobe⟩ := rewriteLoop_spec hof hloop
  cases hrest
  refine ⟨hmild, rfl, rfl, fun nat hn => ?_⟩
  obtain ⟨frnat, hfr, rfl⟩ := Option.map_eq_some_iff.1 hn
  exact ⟨frnat, rfl, hprobe frnat hfr⟩

/-! ## `ipf_nat_newdivert` -/

theorem newdivert_spec (heq : ipfNatNewdivert M proxyMatch s c = some m) :
    Mild c.fin.finIfp s m.sys ∧ m.hm = none ∧ ∀ nat, m.nat = some nat → nat = divertNat M c (s.ipn c.np) := by
  unfold ipfNatNewdivert at heq
  obtain ⟨np, hnp, hbind⟩ := bind_eq_some_iff.1 heq
  obtain ⟨-, rfl⟩ := rule?_some.1 hnp
  obtain ⟨⟨t, natl⟩, hlook, hrest⟩ := bind_eq_some_iff.1 hbind
  have hplain : Lookup.Plain (divertProbe M c (s.ipn c.np)) := by
    constructor
    · exact (by decide : has 0 SI_WILDP = false)
    · exact (by decide : has 0 NAT_SEARCH = false)
  have hmild : Mild c.fin.finIfp s t := mild_lookup hplain hlook
  cases natl with
  | some x =>
    cases hrest
    exact ⟨hmild, rfl, nofun⟩
  | none =>
    cases hrest
    exact ⟨hmild, rfl, fun nat hn => (Option.some.inj hn).symm⟩

end Ipfilter.NatAdd
