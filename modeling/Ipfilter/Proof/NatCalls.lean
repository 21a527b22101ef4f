import Ipfilter.Proof.NatAdd

/-!
# The calls that add and delete NAT sessions

What each call does to the sessions, and that it leaves the reference counts right:

* `finish_refines`: the table alone, as `NatTab.ipfNatAdd` has it, is what the end of `ipf_nat_add` changes of the table;
* `add_cases`: `ipf_nat_add` leaves the sessions as they are, or there is a new one;
* `thin_step`: the other calls leave the sessions as they are, or there is one less;
* `start_held`: the counts at the start.
-/

namespace Ipfilter.NatAdd

open Chain Masks NatTab Refs
open State hiding FrInfo
open Function (update update_eq_self update_idem update_of_ne update_self)

variable {M : Machine} {proxyMatch : FrInfo → NatT → Bool} {s s' t : Sys} {xh xr : ℕ → ℕ} {n h : ℕ}
  {ifp : Option ℕ} {c : Call}

/-! ## `ipf_nat_add` -/

/-- **The sessions are as they were**, but for their interfaces. -/
structure Untouched (ifp : Option ℕ) (w w' : Softn) : Prop where
  alloc : w'.alloc = w.alloc
  nat : ∀ x, w.alloc x = true → ∃ ifps, (∀ i, ifps i = (w.nat x).natIfps i ∨ ifps i = ifp) ∧
    w'.nat x = { w.nat x with natIfps := ifps }
  size : w'.size = w.size
  linked : ∀ {A O : List ℕ} {H : Bool → ℕ → List ℕ}, Linked w A O H → Linked w' A O H

/-- **There is one session more.** -/
structure Entered (w w' : Softn) (e : ℕ) (nat : NatT) : Prop where
  fresh : w.alloc e = false
  alloc : w'.alloc = update w.alloc e true
  entry : w'.nat e = nat
  others : ∀ x ≠ e, w'.nat x = w.nat x
  size : w'.size = w.size
  linked : ∀ {A O : List ℕ} {H : Bool → ℕ → List ℕ}, Linked w A O H → ∃ H', Linked w' (e :: A) O H'

theorem Refaced.untouched {w w' : Softn} (h : Refaced ifp w w') : Untouched ifp w w' := by
  obtain ⟨f, hf, rfl⟩ := h
  exact ⟨rfl, fun x _ => ⟨f x, hf x, rfl⟩, rfl, fun hl => hl.congr rfl (fun _ => rfl) rfl rfl rfl fun _ _ => rfl⟩

theorem Untouched.trans {w w' w'' : Softn} (h : Untouched ifp w w') (h' : Untouched ifp w' w'') :
    Untouched ifp w w'' where
  alloc := h'.alloc.trans h.alloc
  nat x hx := by
    obtain ⟨f, hf, hfx⟩ := h.nat x hx
    obtain ⟨g, hg, hgx⟩ := h'.nat x (by rw [h.alloc, hx])
    refine ⟨g, fun i => ?_, by rw [hgx, hfx]⟩
    rcases hg i with hgi | hgi
    · rw [hgi, hfx]
      exact hf i
    · exact .inr hgi
  size := h'.size.trans h.size
  linked hl := h'.linked (h.linked hl)

theorem save_cases (s : Sys) (c : Call) (r : Option ℕ) :
    ∃ saved, s.save c r = { s with tab := { s.tab with saved := saved } } := by
  unfold Sys.save
  split
  · exact ⟨s.tab.saved, rfl⟩
  · exact ⟨_, rfl⟩

theorem Held.save (hs : Held s xh xr) (c : Call) (r : Option ℕ) : Held (s.save c r) xh xr := by
  obtain ⟨saved, heq⟩ := save_cases s c r
  rw [heq]
  exact hs.tab rfl fun _ _ => ⟨rfl, rfl⟩

theorem untouched_save (s : Sys) (c : Call) (r : Option ℕ) : Untouched c.fin.finIfp s.tab (s.save c r).tab := by
  obtain ⟨saved, heq⟩ := save_cases s c r
  rw [heq]
  exact ⟨rfl, fun x _ => ⟨_, fun _ => .inl rfl, rfl⟩, rfl, fun hl => hl.congr rfl (fun _ => rfl) rfl rfl rfl fun _ _ =>
    rfl⟩

/-- What is left when an add gives up: its references are given back. -/
structure Undone (ifp : Option ℕ) (s s' : Sys) (xh xr : ℕ → ℕ) : Prop where
  held : Held s' xh xr
  tab : Untouched ifp s.tab s'.tab
  fixed : ∀ x, (s'.ipn x).fixed = (s.ipn x).fixed
  maplist : s'.maplist ⊆ s.maplist
  hm : ∀ x, (s'.hm x).fixed = (s.hm x).fixed

theorem badnat_spec {o r : Option ℕ} (hs : Held s (also xh o) xr)
    (heq : badnat s c o = some (s', r)) : r = none ∧ Undone c.fin.finIfp s s' xh xr := by
  obtain ⟨t, ht, hheld, htab, hlist, hhm, hipn⟩ := hs.dropHm
  unfold badnat at heq
  rw [ht] at heq
  cases heq
  obtain ⟨saved, hsave⟩ := save_cases t c none
  have hsaved := untouched_save t c none
  rw [htab] at hsaved
  refine ⟨rfl, hheld.save c none, hsaved, ?_, ?_, ?_⟩
  · rw [hsave]
    exact hipn
  · rw [hsave]
    exact hlist
  · rw [hsave]
    exact hhm

/-- The fields of the NAT table that `ipf_nat_insert` changes. -/
theorem insert_fields (w : Softn) (e : ℕ) (nat : NatT) (ifps : Bool → Option ℕ) :
    (ipfNatInsert (w.malloc e nat) e ifps).1.alloc = update w.alloc e true ∧
      (ipfNatInsert (w.malloc e nat) e ifps).1.nat = update w.nat e (nat.insert ifps) ∧
      (ipfNatInsert (w.malloc e nat) e ifps).1.size = w.size := by
  unfold ipfNatInsert
  rcases hashtabAdd_cases ((w.malloc e nat).upd e fun nat => nat.insert ifps) e with hadd | hadd
  all_goals
    rw [hadd]
    simp [Softn.upd, Softn.malloc]

/-- The entry as it is inserted. -/
def Call.session (M : Machine) (c : Call) (m : Made) (nat : NatT) (aps : Option ℕ) : NatT :=
  (NatT.finalise M { c.entry m (m.sys.ipn m.np) nat with natAps := aps }).insert (m.sys.ipn m.np).ifps

/-- **The end of `ipf_nat_add`:** it gives up, or there is a new session, which holds its rule and the host map. -/
theorem finish_cases {e : ℕ} {m : Made} {nat : NatT} {r : Option ℕ} (hs : Held m.sys (also xh m.hm) xr)
    (he : m.sys.tab.alloc e = false) (heq : finish M c e m nat = some (s', r)) :
    (r = none ∧ Undone c.fin.finIfp m.sys s' xh xr) ∨ (r = some e ∧ Held s' xh xr ∧
      (∃ aps, Entered m.sys.tab s'.tab e (c.session M m nat aps)) ∧ s'.maplist = m.sys.maplist ∧ s'.hm = m.sys.hm ∧
      ∀ x, (s'.ipn x).fixed = (m.sys.ipn x).fixed) := by
  unfold finish at heq
  obtain ⟨np, hnp, hbind⟩ := Option.bind_eq_some_iff.1 heq
  obtain ⟨hlive, rfl⟩ := rule?_some.1 hnp
  dsimp only at hbind
  split at hbind
  · exact .inl (badnat_spec hs hbind)
  · rename_i aps haps
    let nat' : NatT := { c.entry m (m.sys.ipn m.np) nat with natAps := aps }
    obtain ⟨halloc, hnat, hsize⟩ := insert_fields m.sys.tab e (nat'.finalise M) (m.sys.ipn m.np).ifps
    split at hbind
    · -- the entry is refused and freed
      rename_i tab hins
      left
      rw [hins] at halloc hnat hsize
      have hfree : update tab.alloc e false = m.sys.tab.alloc := by
        rw [halloc, update_idem, ← he, update_eq_self]
      have hne : ∀ x, m.sys.tab.alloc x = true → x ≠ e := fun x hx hxe => by simp [hxe, he] at hx
      have hkeep : ∀ x, m.sys.tab.alloc x = true → tab.nat x = m.sys.tab.nat x := fun x hx => by
        rw [hnat, update_of_ne (hne x hx)]
      have hheld : Held { m.sys with tab := tab.free e } (also xh m.hm) xr :=
        hs.tab hfree fun x hx => by
          change (tab.nat x).natHm = _ ∧ (tab.nat x).natPtr = _
          rw [hkeep x hx]
          exact ⟨rfl, rfl⟩
      obtain ⟨hr, hdone⟩ := badnat_spec hheld hbind
      have hfreed : Untouched c.fin.finIfp m.sys.tab (tab.free e) := by
        refine ⟨hfree, fun x hx => ⟨_, fun _ => .inl rfl, hkeep x hx⟩, hsize, fun hl => ?_⟩
        rcases insert_linked hl he (nat'.finalise M) (m.sys.ipn m.np).ifps with ⟨w', hw, hlinked, -⟩ | ⟨w', H', hw, -⟩
        · cases hins.symm.trans hw
          exact hlinked
        · cases hins.symm.trans hw
      exact ⟨hr, hdone.held, hfreed.trans hdone.tab, hdone.fixed, hdone.maplist, hdone.hm⟩
    · rename_i tab hins
      right
      cases hbind
      rw [hins] at halloc hnat hsize
      have huse := hs.useRule hlive
      refine ⟨rfl, ?_, ⟨aps, ?_⟩, ?_⟩
      · -- the references go from the local variables to the entry
        apply Held.save
        refine Held.enter (s := m.sys.updRule m.np (.addUse 1)) huse he halloc (fun x hx => ?_) ?_ ?_
        · change (tab.nat x).natHm = _ ∧ (tab.nat x).natPtr = _
          rw [hnat, update_of_ne hx]
          exact ⟨rfl, rfl⟩
        · change (tab.nat e).natHm = _
          rw [hnat, update_self]
          rfl
        · change (tab.nat e).natPtr = _
          rw [hnat, update_self]
          rfl
      · obtain ⟨saved, hsave⟩ := save_cases (Sys.updRule { m.sys with tab := { tab with
          wilds := if has c.flags SI_WILDP then tab.wilds + 1 else tab.wilds
          proto := update tab.proto (nat'.natPr false) (tab.proto (nat'.natPr false) + 1) } } m.np (.addUse 1))
          c (some e)
        rw [hsave]
        refine ⟨he, halloc, ?_, fun x hx => ?_, hsize, fun hl => ?_⟩
        · change tab.nat e = _
          rw [hnat, update_self]
          rfl
        · change tab.nat x = _
          rw [hnat, update_of_ne hx]
        · rcases insert_linked hl he (nat'.finalise M)
            (m.sys.ipn m.np).ifps with ⟨w', hw, -⟩ | ⟨w', H', hw, hlinked, -⟩
          · cases hins.symm.trans hw
          · cases hins.symm.trans hw
            exact ⟨H', hlinked.congr rfl (fun _ => rfl) rfl rfl rfl fun _ _ => rfl⟩
      · obtain ⟨saved, hsave⟩ := save_cases (Sys.updRule { m.sys with tab := { tab with
          wilds := if has c.flags SI_WILDP then tab.wilds + 1 else tab.wilds
          proto := update tab.proto (nat'.natPr false) (tab.proto (nat'.natPr false) + 1) } } m.np (.addUse 1))
          c (some e)
        rw [hsave]
        exact ⟨rfl, rfl, updRule_fixed m.sys m.np (f := .addUse 1) rfl⟩

/-- **What a new session does to the table** is what `NatTab.ipfNatAdd`, the model of the table alone, says: it refines
that one. -/
theorem finish_refines {e : ℕ} {m : Made} {nat : NatT} (hflags : nat.natFlags = c.flags)
    (hroom : m.sys.tab.active < m.sys.tab.max) (heq : finish M c e m nat = some (s', some e)) :
    ∃ aps, NatTab.ipfNatAdd M m.sys.tab e { c.entry m (m.sys.ipn m.np) nat with natAps := aps } c.natsave
      (m.sys.ipn m.np).ifps = (s'.tab, true) := by
  unfold finish at heq
  obtain ⟨np, hnp, hbind⟩ := Option.bind_eq_some_iff.1 heq
  obtain ⟨-, rfl⟩ := rule?_some.1 hnp
  have hrefused : ∀ {t : Sys} {o : Option ℕ}, badnat t c o ≠ some (s', some e) := by
    intro t o hbad
    obtain ⟨u, -, hu⟩ := Option.bind_eq_some_iff.1 hbad
    cases hu
  dsimp only at hbind
  split at hbind
  · exact absurd hbind hrefused
  · rename_i aps haps
    refine ⟨aps, ?_⟩
    split at hbind
    · exact absurd hbind hrefused
    · rename_i tab hins
      unfold NatTab.ipfNatAdd
      rw [if_neg (not_le.2 hroom)]
      dsimp only [Call.entry] at hins ⊢
      rw [hins, hflags]
      cases hbind
      unfold Sys.save
      cases c.natsave <;> rfl

theorem choose_spec {fuel : ℕ} {m : Made} (hs : Held s xh xr) (hc : c.Fresh s xr)
    {np : Ipnat} (heq : choose M proxyMatch fuel s c np = some m) :
      Held m.sys (also xh m.hm) xr ∧ Quiet c.fin.finIfp s m.sys := by
  unfold choose at heq
  split at heq
  · obtain ⟨hmild, hhm, -⟩ := newdivert_spec heq
    rw [hhm, also_none]
    exact ⟨hs.mild hmild, hmild.quiet⟩
  split at heq
  · obtain ⟨hmild, hhm, -⟩ := newrewrite_spec heq
    rw [hhm, also_none]
    exact ⟨hs.mild hmild, hmild.quiet⟩
  split at heq
  · obtain ⟨hheld, hq, -⟩ := newmap_spec hs hc heq
    exact ⟨hheld, hq⟩
  · obtain ⟨hheld, hq, -⟩ := newrdr_spec hs hc heq
    exact ⟨hheld, hq⟩

/-- **`ipf_nat_add`:** the sessions stay as they are, or there is a new one. In both cases the counts are right. -/
theorem add_cases {fuel : ℕ} {r : Option ℕ} (hs : Held s xh xr) (hc : c.Fresh s xr)
    (hnew : ∀ e, c.new = some e → s.tab.alloc e = false) (heq : ipfNatAdd M proxyMatch fuel s c = some (s', r)) :
    Held s' xh xr ∧ (∀ x, (s'.ipn x).fixed = (s.ipn x).fixed) ∧ (Untouched c.fin.finIfp s.tab s'.tab ∧
        (s'.maplist = s.maplist ∧ s'.hm = s.hm ∨ ∃ m, choose M proxyMatch fuel s c (s.ipn c.np) = some m ∧
          s'.maplist ⊆ m.sys.maplist ∧ ∀ x, (s'.hm x).fixed = (m.sys.hm x).fixed) ∨
      ∃ e m nat aps, c.new = some e ∧ choose M proxyMatch fuel s c (s.ipn c.np) = some m ∧ m.nat = some nat ∧
        Entered m.sys.tab s'.tab e (c.session M m nat aps) ∧ s'.maplist = m.sys.maplist ∧ s'.hm = m.sys.hm) := by
  unfold ipfNatAdd at heq
  by_cases hfull : s.tab.active ≥ s.tab.max
  · rw [if_pos hfull] at heq
    cases heq
    exact ⟨hs, fun _ => rfl, .inl ⟨(Refaced.refl _).untouched, .inl ⟨rfl, rfl⟩⟩⟩
  rw [if_neg hfull] at heq
  cases hnewe : c.new with
  | none =>
    rw [hnewe] at heq
    dsimp only at heq
    change (if _ then _ else _) = _ at heq
    split at heq
    · cases heq
      exact ⟨hs.tab rfl fun _ _ => ⟨rfl, rfl⟩, fun _ => rfl,
        .inl ⟨⟨rfl, fun _ _ => ⟨_, fun _ => .inl rfl, rfl⟩, rfl,
        fun hl => hl.congr rfl (fun _ => rfl) rfl rfl rfl fun _ _ => rfl⟩, .inl ⟨rfl, rfl⟩⟩⟩
    · cases heq
      exact ⟨hs, fun _ => rfl, .inl ⟨(Refaced.refl _).untouched, .inl ⟨rfl, rfl⟩⟩⟩
  | some e =>
    rw [hnewe] at heq
    obtain ⟨np, hnp, hbind⟩ := Option.bind_eq_some_iff.1 heq
    obtain ⟨-, rfl⟩ := rule?_some.1 hnp
    obtain ⟨⟨t, natl⟩, hknown, hrest⟩ := Option.bind_eq_some_iff.1 hbind
    have ht : Mild c.fin.finIfp s t ∧ (natl = none → t = s) := by
      unfold findKnown at hknown
      split at hknown
      · cases hknown
        exact ⟨Mild.refl _, fun _ => rfl⟩
      · exact ⟨mild_lookup (known_plain c _) hknown, (lookup_cases (known_plain c _) hknown).2.1⟩
    cases natl with
    | some x =>
      cases hrest
      obtain ⟨saved, hsave⟩ := save_cases t c (some x)
      refine ⟨(hs.mild ht.1).save c _, fun y => ?_, .inl ⟨ht.1.tab.untouched.trans (untouched_save t c _), .inl ?_⟩⟩
      · rw [hsave]
        exact ht.1.fixed y
      · rw [hsave]
        exact ⟨ht.1.maplist, ht.1.hm⟩
    | none =>
      rw [ht.2 rfl] at hrest
      obtain ⟨m, hmade, hend⟩ := Option.bind_eq_some_iff.1 hrest
      have hchoose : choose M proxyMatch fuel s c (s.ipn c.np) = some m := hmade
      obtain ⟨hheld, hq⟩ := choose_spec hs hc hchoose
      have htab := hq.tab.untouched
      cases hnat : m.nat with
      | none =>
        rw [hnat] at hend
        obtain ⟨-, hdone⟩ := badnat_spec hheld hend
        exact ⟨hdone.held, fun x => (hdone.fixed x).trans (hq.fixed x),
          .inl ⟨htab.trans hdone.tab, .inr ⟨m, hchoose, hdone.maplist, hdone.hm⟩⟩⟩
      | some nat =>
        rw [hnat] at hend
        have he : m.sys.tab.alloc e = false := by rw [htab.alloc, hnew e hnewe]
        rcases finish_cases hheld he hend with ⟨-, hdone⟩ | ⟨-, hh, ⟨aps, hent⟩, hlist, hhm, hfix⟩
        · exact ⟨hdone.held, fun x => (hdone.fixed x).trans (hq.fixed x),
            .inl ⟨htab.trans hdone.tab, .inr ⟨m, hchoose, hdone.maplist, hdone.hm⟩⟩⟩
        · exact ⟨hh, fun x => (hfix x).trans (hq.fixed x), .inr ⟨e, m, nat, aps, rfl, hchoose, hnat, hent, hlist, hhm⟩⟩

/-! ## The other calls -/

/-- **The session is counted differently, or gone.** -/
structure Thinned (s s' : Sys) (xh xr : ℕ → ℕ) : Prop where
  held : Held s' xh xr
  fixed : ∀ x, (s'.ipn x).fixed = (s.ipn x).fixed
  maplist : s'.maplist ⊆ s.maplist
  hm : ∀ x, (s'.hm x).fixed = (s.hm x).fixed
  nat : ∀ x, s'.tab.alloc x = true → s.tab.alloc x = true ∧ ∃ ref me,
    s'.tab.nat x = { s.tab.nat x with natRef := ref, natMe := me }
  size : s'.tab.size = s.tab.size
  linked : ∀ {A O : List ℕ} {H : Bool → ℕ → List ℕ}, Linked s.tab A O H →
    ∃ A' O' H', Linked s'.tab A' O' H' ∧ A' ⊆ A

/-- What `ipf_nat_delete` and `ipf_nat_deref` do to the table: the entry is freed, or keeps all but its count. -/
def TabDrop (w w' : Softn) (e : ℕ) : Prop :=
  w'.size = w.size ∧ (∀ x ≠ e, w'.nat x = w.nat x) ∧ (w'.alloc = update w.alloc e false ∨
    w'.alloc = w.alloc ∧ ∃ ref me, w'.nat e = { w.nat e with natRef := ref, natMe := me }) ∧
  ∀ {A O : List ℕ} {H : Bool → ℕ → List ℕ}, Linked w A O H → ∃ A' O' H', Linked w' A' O' H' ∧ A' ⊆ A

theorem unme_fields (w : Softn) (e : ℕ) : (unme w e).size = w.size ∧ (unme w e).alloc = w.alloc ∧
    ∃ ref me, (unme w e).nat e = { w.nat e with natRef := ref, natMe := me } := by
  unfold unme
  split
  · exact ⟨rfl, rfl, _, _, rfl⟩
  · exact ⟨rfl, rfl, _, _, update_self ..⟩

theorem orphaned_fields (w : Softn) (e : ℕ) : (orphaned w e).size = w.size ∧ (orphaned w e).alloc = w.alloc := by
  unfold orphaned
  split <;> exact ⟨rfl, rfl⟩

theorem delete_tab {w w' : Softn} {e : ℕ} (he : w.alloc e = true) {destroy : Bool}
    (hd : NatTab.ipfNatDelete w e destroy = some w') : TabDrop w w' e := by
  have hne := fun x hx => delete_nat_ne (x := x) hd hx
  obtain ⟨hsz, hal, ref, me, hnat⟩ := unme_fields (orphaned w e) e
  obtain ⟨hsz', hal'⟩ := orphaned_fields w e
  rw [orphaned_nat] at hnat
  have heq := (delete_eq he destroy).symm.trans hd
  refine ⟨?_, hne, ?_, fun hl => ?_⟩
  · rw [← Option.some.inj heq]
    split
    · exact hsz.trans hsz'
    · exact hsz.trans hsz'
  · rw [← Option.some.inj heq]
    split
    · left
      change update (unme (orphaned w e) e).alloc e false = _
      rw [hal, hal']
    · right
      refine ⟨hal.trans hal', ref - drops destroy, me, ?_⟩
      simp only [Softn.upd, update_self, hnat]
  · obtain ⟨u, O', H', hu, hlinked⟩ := delete_linked hl he destroy
    obtain rfl := Option.mem_unique hu hd
    exact ⟨_, O', H', hlinked, List.erase_subset⟩

theorem deref_tab {w w' : Softn} {e : ℕ} (he : w.alloc e = true) (hd : NatTab.ipfNatDeref w e = some w') :
    TabDrop w w' e := by
  unfold NatTab.ipfNatDeref at hd
  rw [if_neg (by simp [he])] at hd
  split at hd
  · cases hd
    exact ⟨rfl, fun x hx => update_of_ne hx .., .inr ⟨rfl, _, _, update_self ..⟩,
      fun {A O H} hl => ⟨A, O, H, hl.upd rfl, fun _ hx => hx⟩⟩
  · exact delete_tab he hd

/-- What an entry refers to is given back, if it was freed. -/
theorem drop_spec {e : ℕ} {tab : Softn} (hs : Held s xh xr) (he : s.tab.alloc e = true) (hd : TabDrop s.tab tab e)
    (heq : (if tab.alloc e then some { s with tab := tab } else giveBack { s with tab := tab } (s.tab.nat e)) = some s') :
    Thinned s s' xh xr := by
  obtain ⟨hsize, hne, hself, hlinked⟩ := hd
  have hkeep : ∀ x ≠ e, (tab.nat x).natHm = (s.tab.nat x).natHm ∧ (tab.nat x).natPtr = (s.tab.nat x).natPtr :=
    fun x hx => by rw [hne x hx]; exact ⟨rfl, rfl⟩
  rcases hself with hfreed | ⟨hsame, ref, me, hnat⟩
  · rw [hfreed, update_self, if_neg Bool.false_ne_true] at heq
    unfold giveBack at heq
    obtain ⟨t, ht, hheld, htab, hlist, hhm, hipn⟩ := (hs.leave he hfreed hkeep).dropHm
    rw [ht] at heq
    obtain ⟨u, hu, hheld', htab', hlist', hhm', hipn'⟩ := hheld.dropRule
    obtain rfl := Option.mem_unique hu heq
    have htabs : u.tab = tab := htab'.trans htab
    refine ⟨hheld', fun x => (hipn' x).trans (hipn x), ?_, fun x => ?_, fun x hx => ?_, ?_, fun hl => ?_⟩
    · rw [hlist']
      exact hlist
    · rw [hhm']
      exact hhm x
    · rw [htabs, hfreed] at hx
      have hxe : x ≠ e := fun hxe => by simp [hxe] at hx
      rw [update_of_ne hxe] at hx
      refine ⟨hx, (s.tab.nat x).natRef, (s.tab.nat x).natMe, ?_⟩
      rw [htabs, hne x hxe]
    · rw [htabs, hsize]
    · rw [htabs]
      exact hlinked hl
  · rw [if_pos (by rw [hsame, he])] at heq
    cases heq
    have hnats : ∀ x, ∃ ref me, tab.nat x = { s.tab.nat x with natRef := ref, natMe := me } := fun x => by
      by_cases hx : x = e
      · subst hx
        exact ⟨ref, me, hnat⟩
      · exact ⟨_, _, hne x hx⟩
    refine ⟨hs.tab hsame fun x _ => ?_, fun _ => rfl, fun _ hx => hx, fun _ => rfl, fun x hx => ⟨?_, hnats x⟩, hsize,
      hlinked⟩
    · obtain ⟨r, m, hx⟩ := hnats x
      rw [hx]
      exact ⟨rfl, rfl⟩
    · rw [← hsame]
      exact hx

/-- **The calls that add no session.** -/
theorem thin_step {s₀ : Sys} {op : Op} (hs : Held s xh xr) (hl : Legal s₀ s op) (hop : ∀ fuel c, op ≠ .add fuel c)
    (heq : step M proxyMatch s op = some s') : Thinned s s' xh xr := by
  cases op with
  | add fuel c => exact absurd rfl (hop fuel c)
  | delete e destroy =>
    obtain ⟨tab, htab, hrest⟩ := Option.bind_eq_some_iff.1 heq
    exact drop_spec hs hl (delete_tab hl htab) hrest
  | deref e =>
    obtain ⟨tab, htab, hrest⟩ := Option.bind_eq_some_iff.1 heq
    exact drop_spec hs hl (deref_tab hl htab) hrest
  | hold e =>
    cases heq
    have hnats : ∀ x, ∃ ref me, (s.tab.upd e fun nat => { nat with natRef := nat.natRef + 1 }).nat x =
        { s.tab.nat x with natRef := ref, natMe := me } := fun x => by
      by_cases hx : x = e
      · subst hx
        exact ⟨_, _, update_self ..⟩
      · exact ⟨_, _, update_of_ne hx ..⟩
    refine ⟨hs.tab rfl fun x _ => ?_, fun _ => rfl, fun _ hx => hx, fun _ => rfl, fun x hx => ⟨hx, hnats x⟩, rfl,
      fun {A O H} hlk => ?_⟩
    · obtain ⟨r, m, hx⟩ := hnats x
      rw [hx]
      exact ⟨rfl, rfl⟩
    · have hupd : Linked (s.tab.upd e fun nat => { nat with natRef := nat.natRef + 1 }) A O H := hlk.upd rfl
      exact ⟨A, O, H, hupd, fun _ hx => hx⟩

/-! ## The start -/

/-- The places where the rules are loaded. -/
def Sys.loaded (s : Sys) (n : ℕ) : ℕ := if s.live n then (s.ipn n).inUse.toNat else 0

theorem loaded_pos (h₀ : Start s) (hn : s.live n = true) : 0 < s.loaded n := by
  have := h₀.rules n hn
  rw [Sys.loaded, if_pos hn]
  omega

/-- **The counts at the start.** -/
theorem start_held (h₀ : Start s) : Held s (fun _ => 0) s.loaded := by
  obtain ⟨⟨size, max, maxbucket, -, htab⟩, hlist, hrules⟩ := h₀
  have hent : s.entries = ∅ := by
    ext e
    simp [Sys.entries, htab, Softn.init]
  have hnone : {h | h ∈ s.maplist} = ∅ := by simp [hlist]
  have htotal : ∀ n, s.ruleTotal s.loaded n = s.loaded n := fun n => by
    simp [Sys.ruleTotal, hent, hnone, holders_empty]
  refine ⟨hent ▸ Set.finite_empty, by simp [hlist], ⟨?_, ?_⟩, ⟨?_, ?_⟩⟩
  · simp [hlist]
  · simp [hlist, Sys.hmTotal, hent, holders_empty]
  · intro n hn
    have := hrules n hn
    rw [htotal, Sys.loaded, if_pos hn]
    omega
  · intro n
    rw [htotal, Sys.loaded]
    by_cases hn : s.live n = true
    · have := hrules n hn
      simp [hn, this]
    · simp [hn]

theorem start_linked (h₀ : Start s) : ∃ H, Linked s.tab [] [] H := by
  obtain ⟨⟨size, max, maxbucket, hsize, htab⟩, -⟩ := h₀
  rw [htab]
  exact ⟨_, init_linked hsize max maxbucket⟩

end Ipfilter.NatAdd
