import Ipfilter.Proof.NatCksum
import Ipfilter.Proof.NatSticky
import Ipfilter.Spec.NatUncreate

/-!
# Undoing a new NAT session

* `runs_linked`: the lists and the reference counts in every state that calls lead to;
* `uncreate_spec`: `ipf_nat_uncreate` deletes what its lookup finds, and nothing else;
* `add_first`: a new session is the first of its two chains;
* `choose_makes`: what the entry of a new session is made of;
* `probe_passes`, `divert_passes`: what the lookup compares, in terms of the packet before its translation;
* `uncreate_meets_iff`: the new session is the one that is deleted exactly if the packet is `Undoable`;
* `uncreate_not_meets`: the session of an ordinary connection stays.
-/

namespace Ipfilter.NatAdd

open Chain Masks NatTab Refs
open State hiding FrInfo
open Option (bind_eq_some_iff some.inj)

variable {M : Machine} {proxyMatch : FrInfo → NatT → Bool} {s₀ s s' : Sys} {xh xr : ℕ → ℕ} {A O : List ℕ}
  {H : Bool → ℕ → List ℕ} {e x fuel : ℕ} {fin t : FrInfo} {nflags : Flags}

/-! ## The choice of a translation -/

/-- **What the entry of a new session may be,** for a packet and its rule. -/
inductive Makes (M : Machine) (c : Call) (np : Ipnat) : NatT → Prop
  | map (a : Word) (p : BitVec 16) : has np.inRedir NAT_DIVERTUDP = false → c.dir = .outbound →
      Makes M c np (mapNat M c a p)
  | rdr (a : Word) (p : BitVec 16) : has np.inRedir NAT_DIVERTUDP = false → c.dir = .inbound → Makes M c np (rdrNat M c a p)
  | rewrite (frnat : FrInfo) : has np.inRedir NAT_DIVERTUDP = false → Makes M c np (rewriteNat M c frnat)
  | divert : has np.inRedir NAT_DIVERTUDP = true → Makes M c np (divertNat M c np)

theorem choose_makes {fuel : ℕ} {m : Made} (hs : Held s xh xr) (hc : c.Fresh s xr)
    (heq : choose M proxyMatch fuel s c (s.ipn c.np) = some m) {nat : NatT} (hnat : m.nat = some nat) :
    Makes M c (s.ipn c.np) nat := by
  unfold choose at heq
  by_cases hdiv : has (s.ipn c.np).inRedir NAT_DIVERTUDP = true
  · rw [if_pos hdiv] at heq
    obtain ⟨-, -, hmade⟩ := newdivert_spec heq
    rw [hmade nat hnat]
    exact .divert hdiv
  rw [if_neg hdiv] at heq
  have hno : has (s.ipn c.np).inRedir NAT_DIVERTUDP = false := by simpa using hdiv
  by_cases hrw : has (s.ipn c.np).inRedir NAT_REWRITE = true
  · rw [if_pos hrw] at heq
    obtain ⟨-, -, -, hmade⟩ := newrewrite_spec heq
    obtain ⟨frnat, rfl, -⟩ := hmade nat hnat
    exact .rewrite frnat hno
  · rw [if_neg hrw] at heq
    cases hdir : c.dir with
    | outbound =>
      rw [hdir] at heq
      obtain ⟨-, -, -, hmade⟩ := newmap_spec hs hc heq
      obtain ⟨a, p, rfl, -⟩ := hmade nat hnat
      exact .map a p hno hdir
    | inbound =>
      rw [hdir] at heq
      obtain ⟨-, -, hmade⟩ := newrdr_spec hs hc heq
      obtain ⟨a, p, rfl, -⟩ := hmade nat hnat
      exact .rdr a p hno hdir

/-! ## Deletion -/

/-- The chain of a side that an entry leaves, as a list without that entry. -/
theorem pulled_eq {w : Softn} (hl : Linked w A O H) (i : Bool) :
    pulled (H i) e (w.bucket ((w.nat e).natHv i)) = fun b => (H i b).erase e := by
  funext b
  have hnd := (hl.rep i).nodup b
  unfold pulled
  by_cases hb : b = w.bucket ((w.nat e).natHv i)
  · subst hb
    rw [Function.update_self, hnd.erase_eq_filter]
    congr 1
    funext y
    by_cases hy : y = e <;> simp [hy]
  · have hout : e ∉ H i b := fun he => hb ((hl.place i e b).1 he).2.symm
    rw [Function.update_of_ne hb, List.erase_of_not_mem hout]

/-- **`ipf_nat_delete` takes the entry off the list and its chains**, and no other. -/
theorem delete_removes {w w' : Softn} (hl : Linked w A O H) (he : e ∈ A) {destroy : Bool}
    (hd : NatTab.ipfNatDelete w e destroy = some w') : Removes w w' e := by
  have hcut : w'.list = w.list.cut e ∧ ∀ i, (w'.side i).table = (w.side i).table.cut e := by
    obtain ⟨k, hk⟩ := hl.pnext_some he
    have hor : (orphaned w e).list = w.list.cut e ∧ ∀ i, ((orphaned w e).side i).table = (w.side i).table.cut e := by
      unfold orphaned
      rw [if_neg (by simp [hk])]
      exact ⟨rfl, fun _ => rfl⟩
    have hme : (unme (orphaned w e) e).list = (orphaned w e).list ∧ (unme (orphaned w e) e).side = (orphaned w e).side := by
      unfold unme
      split <;> exact ⟨rfl, rfl⟩
    rw [delete_eq ((hl.alloc e).2 (.inl he)), Option.some.injEq] at hd
    rw [← hd]
    split
    · exact ⟨hme.1.trans hor.1, fun i => (congrArg (fun u => (u i).table) hme.2).trans (hor.2 i)⟩
    · exact ⟨hme.1.trans hor.1, fun i => (congrArg (fun u => (u i).table) hme.2).trans (hor.2 i)⟩
  have hlist : ∀ L, Rep w.list L → L = fun _ => A := fun L hL => funext fun u => (hL u).unique (hl.list u)
  refine ⟨fun L hL => ?_, fun L hL => ?_, fun i L hL => ?_⟩
  · rw [hlist L hL]
    exact he
  · rw [hlist L hL, hcut.1]
    exact hl.cut_list he
  · have hLH : L = H i := funext fun b => (hL b).unique (hl.rep i b)
    obtain ⟨k, hk⟩ := hl.side_pnext he i
    have hrep := (rep_pulled (hl.rep i) ((hl.place i e _).2 ⟨he, rfl⟩) hk (Mem.cut_removed _ hk)).1
    rw [pulled_eq hl i] at hrep
    rw [hLH, hcut.2 i]
    exact hrep

/-- Only one entry can be the one that has left. -/
theorem Removes.eq {w w' : Softn} (hl : Linked w A O H) (he : Removes w w' e) (hx : Removes w w' x) : x = e := by
  have hnd := hl.nodup_list
  have hsame : A.erase e = A.erase x := ((he.list _ hl.list) ()).unique ((hx.list _ hl.list) ())
  by_contra hne
  have hmem : x ∈ A.erase e := hnd.mem_erase_iff.2 ⟨hne, hx.mem _ hl.list⟩
  rw [hsame] at hmem
  exact (hnd.mem_erase_iff.1 hmem).1 rfl

/-- A session that is on the list can be deleted: what it refers to is there to be given back. -/
theorem delete_some (hs : Held s xh xr) (hl : Linked s.tab A O H) (he : e ∈ A) (destroy : Bool) :
    ∃ s', ipfNatDelete s e destroy = some s' ∧ Removes s.tab s'.tab e := by
  have halloc := (hl.alloc e).2 (.inl he)
  obtain ⟨tab, -, -, htab, -⟩ := delete_linked hl halloc destroy
  have hrem := delete_removes hl he htab
  obtain ⟨-, hne, hself, -⟩ := delete_tab halloc htab
  unfold ipfNatDelete
  rw [htab]
  rcases hself with hfreed | ⟨hsame, -⟩
  · have hkeep : ∀ x ≠ e, (tab.nat x).natHm = (s.tab.nat x).natHm ∧ (tab.nat x).natPtr = (s.tab.nat x).natPtr :=
      fun x hx => by rw [hne x hx]; exact ⟨rfl, rfl⟩
    obtain ⟨u, hu, hheld, hutab, -⟩ := (hs.leave halloc hfreed hkeep).dropHm
    obtain ⟨v, hv, -, hvtab, -⟩ := hheld.dropRule
    refine ⟨v, ?_, ?_⟩
    · change (if tab.alloc e then _ else _) = _
      rw [hfreed, Function.update_self, if_neg Bool.false_ne_true, giveBack, hu]
      exact hv
    · rw [hvtab, hutab]
      exact hrem
  · refine ⟨{ s with tab := tab }, ?_, hrem⟩
    change (if tab.alloc e then _ else _) = _
    rw [hsame, halloc, if_pos rfl]
    rfl

/-! ## The lookup -/

theorem uncreate_plain (fin : FrInfo) : Lookup.Plain (uncreateProbe fin) := by
  unfold Lookup.Plain uncreateProbe uncreateFlags
  dsimp only
  split
  · exact ⟨by decide, by decide⟩
  split
  · exact ⟨by decide, by decide⟩
  · exact ⟨by decide, by decide⟩

/-- **What `ipf_nat_uncreate` does:** the entry that the lookup finds leaves, if there is one. -/
theorem uncreate_spec (hs : Held s xh xr) (hl : Linked s.tab A O H) (fin : FrInfo) :
    ∃ s', ipfNatUncreate M proxyMatch s fin = some s' ∧ match exactFound M proxyMatch s.tab (uncreateProbe fin) with
      | none => s' = s
      | some x => x ∈ A ∧ Removes s.tab s'.tab x := by
  have hlook : ∃ t o, s.lookup M proxyMatch (uncreateProbe fin) = some (t, o) := by
    unfold Sys.lookup
    obtain ⟨w', o, heq⟩ : ∃ w' o, ipfNatLookup M proxyMatch s.tab (uncreateProbe fin) = some (w', o) := by
      obtain ⟨w', o, -, -, heq, -⟩ := lookup_linked hl (uncreateProbe fin) nofun
      exact ⟨w', o, heq⟩
    rw [heq]
    exact ⟨_, _, rfl⟩
  obtain ⟨t, o, heq⟩ := hlook
  obtain ⟨hfound, hnone, tab, rfl, hface⟩ := lookup_cases (uncreate_plain fin) heq
  have hheld := hs.mild (mild_lookup (uncreate_plain fin) heq)
  have hlinked := hface.untouched.linked hl
  unfold ipfNatUncreate
  rw [heq, ← hfound]
  cases o with
  | none => exact ⟨_, rfl, hnone rfl⟩
  | some x =>
    have hfind : s.tab.find (!(uncreateProbe fin).out) ((uncreateProbe fin).bucket M s.tab)
        ((uncreateProbe fin).passes M proxyMatch) = some x := hfound.symm
    have hx : x ∈ A := (hl.find_some hfind).1
    obtain ⟨s', hdel, hrem⟩ := delete_some hheld hlinked hx true
    refine ⟨s', hdel, hx, ?_⟩
    -- the lookup may have set an interface, which is not part of the lists
    obtain ⟨f, -, hf⟩ := hface
    obtain rfl : tab = { s.tab with nat := fun y => { s.tab.nat y with natIfps := f y } } := hf
    exact ⟨hrem.mem, hrem.list, hrem.side⟩

/-! ## Runs -/

/-- Undoing a packet keeps the counts and the lists, and changes no more of a rule than its count. -/
theorem uncreate_linked (hs : Held s xh xr) (hl : Linked s.tab A O H)
    (heq : ipfNatUncreate M proxyMatch s fin = some s') : Held s' xh xr ∧ (∃ A O H, Linked s'.tab A O H) ∧
      ∀ n, (s'.ipn n).fixed = (s.ipn n).fixed := by
  unfold ipfNatUncreate at heq
  obtain ⟨⟨t, o⟩, hlook, hrest⟩ := bind_eq_some_iff.1 heq
  obtain ⟨hfound, hnone, tab, rfl, hface⟩ := lookup_cases (uncreate_plain fin) hlook
  have hheld := hs.mild (mild_lookup (uncreate_plain fin) hlook)
  have hlinked := hface.untouched.linked hl
  cases o with
  | none =>
    cases hrest
    exact ⟨hheld, ⟨A, O, H, hlinked⟩, fun _ => rfl⟩
  | some x =>
    have hfind : s.tab.find (!(uncreateProbe fin).out) ((uncreateProbe fin).bucket M s.tab)
        ((uncreateProbe fin).passes M proxyMatch) = some x := hfound.symm
    have halloc := (hlinked.alloc x).2 (.inl (hl.find_some hfind).1)
    have hlegal : Legal s { s with tab := tab } (.delete x true) := halloc
    have hstep : step M proxyMatch { s with tab := tab } (.delete x true) = some s' := hrest
    have hthin := thin_step hheld hlegal nofun hstep
    obtain ⟨A', O', H', hlinked', -⟩ := hthin.linked hlinked
    exact ⟨hthin.held, ⟨A', O', H', hlinked'⟩, hthin.fixed⟩

/-- A call keeps the counts and the lists. -/
theorem call_linked (h₀ : Start s₀) (hs : Held s (fun _ => 0) s₀.loaded) (hl : Linked s.tab A O H) {op : Op}
    (hlegal : Legal s₀ s op) (heq : step M proxyMatch s op = some s') :
    Held s' (fun _ => 0) s₀.loaded ∧ ∃ A O H, Linked s'.tab A O H := by
  by_cases hadd : ∃ fuel c, op = .add fuel c
  · obtain ⟨fuel, c, rfl⟩ := hadd
    obtain ⟨⟨t, r⟩, ht, rfl⟩ := Option.map_eq_some_iff.1 heq
    have hfresh : c.Fresh s s₀.loaded := ⟨loaded_pos h₀ hlegal.1, hlegal.2.2⟩
    obtain ⟨hheld, -, ⟨htab, -⟩ | ⟨e, m, nat, aps, -, hchoose, -, hent, -⟩⟩ := add_cases hs hfresh hlegal.2.1 ht
    · exact ⟨hheld, A, O, H, htab.linked hl⟩
    · obtain ⟨-, hq⟩ := choose_spec hs hfresh hchoose
      obtain ⟨H', hlinked⟩ := hent.linked (hq.tab.untouched.linked hl)
      exact ⟨hheld, e :: A, O, H', hlinked⟩
  · have ht := thin_step hs hlegal (fun fuel c hop => hadd ⟨fuel, c, hop⟩) heq
    obtain ⟨A', O', H', hlinked, -⟩ := ht.linked hl
    exact ⟨ht.held, A', O', H', hlinked⟩

/-- **The counts and the lists are right in every state of the system.** -/
theorem runs_linked (h₀ : Start s₀) (hr : Runs M proxyMatch s₀ s) :
    Held s (fun _ => 0) s₀.loaded ∧ ∃ A O H, Linked s.tab A O H := by
  induction hr with
  | start =>
    obtain ⟨H, hlinked⟩ := start_linked h₀
    exact ⟨start_held h₀, [], [], H, hlinked⟩
  | call op _ hlegal heq ih =>
    obtain ⟨hs, A, O, H, hl⟩ := ih
    exact call_linked h₀ hs hl hlegal heq
  | uncreate fin _ heq ih =>
    obtain ⟨hs, A, O, H, hl⟩ := ih
    obtain ⟨hs', hl', -⟩ := uncreate_linked hs hl heq
    exact ⟨hs', hl'⟩

/-- **Host maps and rules are there as long as something holds them.** -/
theorem runs_held (h₀ : Start s₀) (hr : Runs M proxyMatch s₀ s) :
    (∀ h ∈ s.maplist, (s.hm h).hmRef = {e | s.tab.alloc e = true ∧ (s.tab.nat e).natHm = some h}.ncard ∧
      0 < (s.hm h).hmRef) ∧
    (∀ n, s.live n = true → (s.ipn n).inUse = ({e | s.tab.alloc e = true ∧ (s.tab.nat e).natPtr = some n}.ncard +
      {h | h ∈ s.maplist ∧ some (s.hm h).hmIpnat = some n}.ncard + s₀.loaded n : ℕ)) ∧
    ∀ e, s.tab.alloc e = true → (∀ h, (s.tab.nat e).natHm = some h → h ∈ s.maplist) ∧
      ∀ n, (s.tab.nat e).natPtr = some n → s.live n = true := by
  obtain ⟨hs, -⟩ := runs_linked h₀ hr
  refine ⟨fun h hm => ⟨hs.hm.exact h hm, hs.hm_pos hm⟩, hs.rule.exact,
    fun e he => ⟨fun h => hs.hm_of_entry he, fun n hn => (hs.rule.pos n).2 ?_⟩⟩
  have hpos : 0 < holders s.entries (fun e => (s.tab.nat e).natPtr) n := holders_pos hs.finite he hn
  unfold Sys.ruleTotal
  omega

/-! ## The new session -/

/-- An entry that was inserted is the first of its chain on each side. -/
theorem insert_head {w w' : Softn} {nat : NatT} {ifps : Bool → Option ℕ}
    (heq : ipfNatInsert (w.malloc e nat) e ifps = (w', true)) (i : Bool) :
    (w'.side i).table.head (w'.bucket ((w'.nat e).natHv i)) = some e := by
  unfold ipfNatInsert at heq
  rcases hashtabAdd_cases ((w.malloc e nat).upd e fun nat => nat.insert ifps) e with hadd | hadd
  · cases hadd.symm.trans heq
  · cases hadd.symm.trans heq
    simp [enterSide, Mem.link, Mem.setP?, Mem.set, Softn.bucket]

theorem badnat_none {c : Call} {o r : Option ℕ} (heq : badnat s c o = some (s', r)) : r = none := by
  unfold badnat at heq
  obtain ⟨t, -, ht⟩ := bind_eq_some_iff.1 heq
  exact (Prod.mk.inj (some.inj ht)).2.symm

/-- **A new session is the first of its chain** on each side. -/
theorem finish_head {c : Call} {m : Made} {nat : NatT} (heq : finish M c e m nat = some (s', some x)) (i : Bool) :
    (s'.tab.side i).table.head (s'.tab.bucket ((s'.tab.nat e).natHv i)) = some e := by
  unfold finish at heq
  obtain ⟨np, -, hbind⟩ := bind_eq_some_iff.1 heq
  dsimp only at hbind
  split at hbind
  · exact absurd (badnat_none hbind) (by simp)
  split at hbind
  · exact absurd (badnat_none hbind) (by simp)
  · rename_i tab hins
    have hhead := insert_head hins i
    cases hbind
    obtain ⟨saved, hsave⟩ := save_cases (Sys.updRule { m.sys with tab := { tab with
      wilds := if has c.flags SI_WILDP then tab.wilds + 1 else tab.wilds
      proto := Function.update tab.proto _ _ } } m.np (.addUse 1)) c (some e)
    rw [hsave]
    exact hhead

/-- **A session that `ipf_nat_add` returns and that was not there before:** where it is, and what it was made of. -/
theorem add_first (hs : Held s xh xr) (hl : Linked s.tab A O H) {c : Call} (hc : c.Fresh s xr)
    (he : s.tab.alloc e = false) (hnew : c.new = some e) (heq : ipfNatAdd M proxyMatch fuel s c = some (s', some e)) :
    Held s' xh xr ∧ (∃ H', Linked s'.tab (e :: A) O H' ∧ ∀ i, (H' i (s'.tab.bucket ((s'.tab.nat e).natHv i))).head? =
      some e) ∧
      ∃ m nat aps, choose M proxyMatch fuel s c (s.ipn c.np) = some m ∧ m.nat = some nat ∧
        s'.tab.nat e = c.session M m nat aps := by
  unfold ipfNatAdd at heq
  by_cases hfull : s.tab.active ≥ s.tab.max
  · rw [if_pos hfull] at heq
    cases heq
  rw [if_neg hfull, hnew] at heq
  obtain ⟨np, hnp, hbind⟩ := bind_eq_some_iff.1 heq
  obtain ⟨-, rfl⟩ := rule?_some.1 hnp
  obtain ⟨⟨t, natl⟩, hknown, hrest⟩ := bind_eq_some_iff.1 hbind
  have ht : (natl = none → t = s) ∧ ∀ x, natl = some x → x ∈ A := by
    unfold findKnown at hknown
    split at hknown
    · cases hknown
      exact ⟨fun _ => rfl, nofun⟩
    · obtain ⟨hfound, hnone, -⟩ := lookup_cases (known_plain c _) hknown
      refine ⟨hnone, fun x hx => ?_⟩
      have hfind : s.tab.find (!(c.known (s.ipn c.np)).out) ((c.known (s.ipn c.np)).bucket M s.tab)
          ((c.known (s.ipn c.np)).passes M proxyMatch) = some x := hfound.symm.trans hx
      exact (hl.find_some hfind).1
  cases natl with
  | some x =>
    -- a session that was there is allocated, so it is not `e`
    obtain ⟨-, hxe⟩ := Prod.mk.inj (some.inj hrest)
    have halloc := (hl.alloc x).2 (.inl (ht.2 x rfl))
    rw [some.inj hxe, he] at halloc
    exact absurd halloc Bool.false_ne_true
  | none =>
    rw [ht.1 rfl] at hrest
    obtain ⟨m, hchoose, hend⟩ := bind_eq_some_iff.1 hrest
    obtain ⟨hheld, hq⟩ := choose_spec hs hc hchoose
    cases hnat : m.nat with
    | none =>
      rw [hnat] at hend
      exact absurd (badnat_none hend) (by simp)
    | some nat =>
      rw [hnat] at hend
      have he' : m.sys.tab.alloc e = false := by rw [hq.tab.untouched.alloc, he]
      rcases finish_cases hheld he' hend with ⟨hr, -⟩ | ⟨-, hh, ⟨aps, hent⟩, -⟩
      · exact absurd hr (by simp)
      obtain ⟨H', hlinked⟩ := hent.linked (hq.tab.untouched.linked hl)
      refine ⟨hh, ⟨H', hlinked, fun i => ?_⟩, m, nat, aps, hchoose, hnat, hent.entry⟩
      rw [← (hlinked.rep i _).head?]
      exact finish_head hend i

/-- **A new entry for the packet of a call**, as far as the lookup compares it. -/
structure Fits (M : Machine) (divert : Bool) (c : Call) (nat : NatT) : Prop where
  flags : nat.natFlags = c.flags
  dir : divert = false → nat.natDir = c.dir
  pr : divert = false → nat.natPr = fun _ => c.fin.finP
  carrier : divert = true → nat.natPr (!c.fin.finOut) = IPPROTO_UDP
  ports : has c.flags IPN_TCPUDP = true →
    nat.natOsport = M.htons (c.fin.finData false) ∧ nat.natOdport = M.htons (c.fin.finData true)

/-- The fields of a new entry that the packet gives. -/
theorem makes_fits {c : Call} {np : Ipnat} {nat : NatT} (h : Makes M c np nat)
    (hq : has c.flags IPN_TCPUDP = true → has c.flags IPN_ICMPQUERY = false) :
    Fits M (has np.inRedir NAT_DIVERTUDP) c nat := by
  cases h with
  | map a p hno hdir =>
    rw [hno]
    unfold mapNat Call.mapSport Call.mapDport
    by_cases hp : has c.flags IPN_TCPUDP = true
    · constructor <;> simp [hp, hq hp, Call.blank]
    · by_cases hi : has c.flags IPN_ICMPQUERY = true <;> constructor <;> simp [hp, hi, Call.blank]
  | rdr a p hno hdir =>
    rw [hno]
    unfold rdrNat Call.rdrSport Call.rdrDport
    by_cases hp : has c.flags IPN_TCPUDP = true
    · constructor <;> simp [hp, hq hp, Call.blank]
    · by_cases hi : has c.flags IPN_ICMPQUERY = true <;> constructor <;> simp [hp, hi, Call.blank]
  | rewrite frnat hno =>
    rw [hno]
    unfold rewriteNat
    by_cases hp : has c.flags IPN_TCPUDP = true
    · constructor <;> simp [hp, Call.blank]
    · by_cases hi : has c.flags IPN_ICMPQUERY = true <;> constructor <;> simp [hp, hi, Call.blank]
  | divert hdiv =>
    rw [hdiv]
    unfold divertNat
    by_cases hp : has c.flags IPN_TCPUDP = true
    · constructor <;> simp [hp, Call.blank]
    · by_cases hi : has c.flags IPN_ICMPQUERY = true <;> constructor <;> simp [hp, hi, Call.blank]

/-! ## The translated packet -/

/-- What the lookup reads of a packet is left alone by `ipf_nat_proto`. -/
theorem proto_fields {nat : NatT} {q : FrInfo} {b : Bool} (h : ipfNatProto M fin nat nflags = some (q, b)) :
    q.finP = fin.finP ∧ q.finOut = fin.finOut ∧ q.finSaddr = fin.finSaddr ∧ q.finDaddr = fin.finDaddr ∧
      q.finData = fin.finData := by
  unfold ipfNatProto at h
  dsimp only at h
  split at h
  · split at h
    · split at h
      · exact absurd h (by simp)
      · cases h
        exact ⟨rfl, rfl, rfl, rfl, rfl⟩
    · cases h
      exact ⟨rfl, rfl, rfl, rfl, rfl⟩
  split at h
  · cases h
    exact ⟨rfl, rfl, rfl, rfl, rfl⟩
  split at h
  · cases h
    exact ⟨rfl, rfl, rfl, rfl, rfl⟩
  · cases h
    exact ⟨rfl, rfl, rfl, rfl, rfl⟩

/-- What the lookup reads of the packet that `ipf_nat_proto` is given: its addresses are those that were written. -/
theorem written_fields (out : Bool) (fin : FrInfo) (nat : NatT) (nflags : Flags) :
    (written M out fin nat nflags).finP = fin.finP ∧ (written M out fin nat nflags).finOut = fin.finOut ∧
      (written M out fin nat nflags).finSaddr = (if out then outAddrs fin nat else (inAddrs fin nat).1).finSaddr ∧
      (written M out fin nat nflags).finDaddr = (if out then outAddrs fin nat else (inAddrs fin nat).1).finDaddr := by
  unfold written outWritten inWritten outPorts inPorts outAddrs inAddrs FrInfo.setPorts FrInfo.setId
  cases out <;> cases nat.natDir <;> dsimp only <;> split_ifs <;> exact ⟨rfl, rfl, rfl, rfl⟩

/-- **What the lookup reads of the translated packet.** The ports of a short one are not written. -/
theorem translate_fields {out : Bool} {nat : NatT} {q : FrInfo}
    (h : NatTab.translate M out fin nat nflags = some q) (hoff : fin.finOff = 0) :
    q.finP = fin.finP ∧ q.finOut = fin.finOut ∧
      q.finSaddr = (if out then outAddrs fin nat else (inAddrs fin nat).1).finSaddr ∧
      q.finDaddr = (if out then outAddrs fin nat else (inAddrs fin nat).1).finDaddr ∧
      q.finData = if has fin.finFlx FI_SHORT = true then fin.finData else (written M out fin nat nflags).finData := by
  obtain ⟨hp, ho, hs, hd⟩ := written_fields (M := M) out fin nat nflags
  by_cases hshort : has fin.finFlx FI_SHORT = true
  · cases out with
    | true =>
      unfold NatTab.translate ipfNatOut at h
      rw [if_pos rfl, if_neg (by simp [hshort])] at h
      cases h
      rw [if_pos hshort]
      unfold outAddrs
      cases nat.natDir <;> exact ⟨rfl, rfl, rfl, rfl, rfl⟩
    | false =>
      unfold NatTab.translate ipfNatIn at h
      rw [if_neg Bool.false_ne_true, if_neg (by simp [hshort])] at h
      cases h
      rw [if_pos hshort]
      unfold inAddrs
      cases nat.natDir <;> exact ⟨rfl, rfl, rfl, rfl, rfl⟩
  · have hlong : has fin.finFlx FI_SHORT = false := by simpa using hshort
    have hproto : ∃ r b sum flx, ipfNatProto M (written M out fin nat nflags) nat nflags = some (r, b) ∧
        q = { r with finDp := { r.finDp with sum := sum }, finFlx := flx } := by
      cases out with
      | true =>
        unfold NatTab.translate ipfNatOut at h
        rw [if_pos rfl, if_pos (by simp [hlong, hoff])] at h
        obtain ⟨⟨r, b⟩, hproto, hq⟩ := bind_eq_some_iff.1 h
        cases hq
        exact ⟨r, b, _, _, hproto, rfl⟩
      | false =>
        unfold NatTab.translate ipfNatIn at h
        rw [if_neg Bool.false_ne_true, if_pos (by simp [hlong, hoff])] at h
        obtain ⟨⟨r, b⟩, hproto, hq⟩ := bind_eq_some_iff.1 h
        cases hq
        exact ⟨r, b, _, _, hproto, rfl⟩
    obtain ⟨r, b, sum, flx, hproto, rfl⟩ := hproto
    obtain ⟨h1, h2, h3, h4, h5⟩ := proto_fields hproto
    rw [if_neg hshort]
    exact ⟨h1.trans hp, h2.trans ho, h3.trans hs, h4.trans hd, h5⟩

/-- The packets with ports. -/
theorem checkFlags_ports (h : has (checkFlags fin) IPN_TCPUDP = true) :
    (fin.finP = IPPROTO_TCP ∨ fin.finP = IPPROTO_UDP) ∧ has fin.finFlx FI_SHORT = false ∧
      has (checkFlags fin) IPN_ICMPQUERY = false := by
  unfold checkFlags at h ⊢
  split at h
  · rename_i hlong
    rw [if_pos hlong]
    split at h
    · rename_i hp
      rw [if_pos hp]
      exact ⟨.inl hp, hlong.1, by decide⟩
    rename_i hp
    rw [if_neg hp]
    split at h
    · rename_i hu
      rw [if_pos hu]
      exact ⟨.inr hu, hlong.1, by decide⟩
    split at h
    · exact absurd h (by decide)
    · exact absurd h (by decide)
  · exact absurd h (by decide)

/-- The ports in `fr_info_t` once a new session has translated its packet. -/
theorem written_ports_data {out : Bool} {nat : NatT} (hdir : nat.natDir = if out then .outbound else .inbound) :
    (written M out fin nat nflags).finData = if has nflags IPN_TCPUDP = true ∧
    (if out then nat.natNsport else nat.natOdport) ≠ 0
      then fun i => if i then M.htons nat.natNdport else M.htons nat.natNsport else fin.finData := by
  unfold written outWritten inWritten outPorts inPorts outAddrs inAddrs FrInfo.setPorts FrInfo.setId
  cases out with
  | true =>
    rw [if_pos rfl] at hdir
    simp only [hdir, if_true, and_comm (a := has nflags IPN_TCPUDP = true)]
    split_ifs <;> rfl
  | false =>
    rw [if_neg Bool.false_ne_true] at hdir
    simp only [hdir, Bool.false_eq_true, if_false, and_comm (a := has nflags IPN_TCPUDP = true)]
    split_ifs <;> rfl

variable {c : Call} {nat : NatT} {q : FrInfo} {ifp : Option ℕ}

/-- The ports and the id of the lookup, compared with those of the new session. -/
theorem samePorts_iff (hc : c.Checks) (hf : Fits M false c nat)
    (hq : NatTab.translate M c.fin.finOut c.fin nat c.flags = some q) :
    nat.samePorts q.finP nat.natNdport nat.natNsport nat.natNicmpid (lookupPorts M q (uncreateFlags q.finP) q.finP).1
      (lookupPorts M q (uncreateFlags q.finP) q.finP).2 = true ↔ PortsBack nat c.fin := by
  obtain ⟨hp, -, -, -, hdata⟩ := translate_fields hq hc.first
  have hdir : nat.natDir = if c.fin.finOut then .outbound else .inbound := (hf.dir rfl).trans hc.dir
  rw [written_ports_data hdir] at hdata
  unfold NatT.samePorts PortsBack
  rw [hp, hf.flags]
  by_cases hports : has c.flags IPN_TCPUDP = true
  · obtain ⟨hproto, hlong, -⟩ := checkFlags_ports (hc.flags ▸ hports)
    rw [if_neg (by simp [hlong])] at hdata
    rw [if_pos hports, if_pos hports, lookupPorts, if_pos hproto, hdata]
    by_cases hw : (if c.fin.finOut then nat.natNsport else nat.natOdport) ≠ 0
    · rw [if_pos ⟨hports, hw⟩, if_pos hw]
      simp [eq_comm]
    · rw [if_neg (fun h => hw h.2), if_neg hw]
      obtain ⟨hs, hd⟩ := hf.ports hports
      rw [hs, hd, decide_eq_true_eq, eq_comm, eq_comm (a := nat.natNsport)]
  · rw [if_neg hports, if_neg hports, decide_eq_true_eq]
    have hdata' : q.finData = c.fin.finData := by
      rw [hdata]
      split
      · rfl
      · exact if_neg fun h => hports h.1
    refine imp_congr_right fun hicmp => ?_
    have hno : ¬(c.fin.finP = IPPROTO_TCP ∨ c.fin.finP = IPPROTO_UDP) := by
      rw [hicmp]
      decide
    have hflag : has (uncreateFlags c.fin.finP) IPN_ICMPERR = false := by
      rw [hicmp]
      decide
    rw [lookupPorts, if_neg hno, if_pos hicmp, hflag, if_neg Bool.false_ne_true, hdata']

/-- **What the lookup compares:** it accepts the new session exactly if the packet is `Undoable`, but for the bucket. -/
theorem probe_passes (hc : c.Checks) (hf : Fits M false c nat) (hv : ∀ i, nat.natV i = 4)
    (hq : NatTab.translate M c.fin.finOut c.fin nat c.flags = some q)
    (ht : t = { q with finIfp := ifp }) : (uncreateProbe t).passes M proxyMatch nat = true ↔
      nat.admits (!c.fin.finOut) t.finIfp = true ∧ TupleBack nat c.fin ∧ nat.accepts proxyMatch (!c.fin.finOut) t =
        true := by
  obtain ⟨hp, ho, hs, hd, -⟩ := translate_fields hq hc.first
  have hdir : nat.natDir = if c.fin.finOut then .outbound else .inbound := (hf.dir rfl).trans hc.dir
  have hout : t.finOut = c.fin.finOut := by rw [ht]; exact ho
  have hback : (!c.fin.finOut) ≠ nat.forward := by
    unfold NatT.forward
    rw [hdir]
    cases c.fin.finOut <;> decide
  have hports : nat.samePorts t.finP nat.natNdport nat.natNsport nat.natNicmpid
      (lookupPorts M t (uncreateFlags t.finP) t.finP).1 (lookupPorts M t (uncreateFlags t.finP) t.finP).2 = true ↔
      PortsBack nat c.fin := by
    have hsame := samePorts_iff hc hf hq
    rw [ht]
    exact hsame
  -- the addresses of the packet are the new ones
  have haddrs : nat.natNdstaddr = (uncreateProbe t).src ∧ nat.natNsrcaddr = (uncreateProbe t).dst ↔
      if c.fin.finOut then nat.natNsrcaddr = nat.natNdstaddr
      else has c.fin.finFlx FI_ICMPERR = true → nat.natNsrcaddr = c.fin.finSaddr := by
    have hs' : t.finSaddr = q.finSaddr := by rw [ht]
    have hd' : t.finDaddr = q.finDaddr := by rw [ht]
    simp only [uncreateProbe, hout, hs', hd', hs, hd]
    cases hfo : c.fin.finOut with
    | true =>
      rw [hfo, if_pos rfl] at hdir
      simp only [if_true, outAddrs, hdir]
      exact ⟨fun h => h.2, fun h => ⟨h.symm, h⟩⟩
    | false =>
      rw [hfo, if_neg Bool.false_ne_true] at hdir
      simp only [Bool.false_eq_true, if_false, inAddrs, hdir, true_and]
      split
      · rename_i herr
        exact ⟨fun h _ => h, fun h => h herr⟩
      · rename_i herr
        exact ⟨fun _ h => absurd h herr, fun _ => rfl⟩
  unfold Lookup.passes
  rw [Bool.and_eq_true, matches_iff]
  have hprobe : (uncreateProbe t).out = !c.fin.finOut := by rw [← hout]; rfl
  rw [hprobe, if_neg hback, hf.pr rfl]
  unfold TupleBack
  constructor
  · rintro ⟨⟨hadm, -, -, hloc, hsrc, hdst, hsame⟩, hacc⟩
    refine ⟨hadm, ⟨?_, hports.1 hsame⟩, hacc⟩
    have ha := haddrs.1 ⟨hsrc, hdst⟩
    cases hfo : c.fin.finOut with
    | true =>
      rw [hfo, if_pos rfl] at ha hdir
      rw [hfo] at hloc
      exact ⟨hloc rfl hdir, ha⟩
    | false =>
      rw [hfo, if_neg Bool.false_ne_true] at ha
      exact ha
  · rintro ⟨hadm, ⟨ha, hback⟩, hacc⟩
    have ha' : nat.natNdstaddr = (uncreateProbe t).src ∧ nat.natNsrcaddr = (uncreateProbe t).dst := by
      refine haddrs.2 ?_
      cases hfo : c.fin.finOut with
      | true =>
        rw [hfo, if_pos rfl] at ha
        exact ha.2
      | false =>
        rw [hfo, if_neg Bool.false_ne_true] at ha
        exact ha
    refine ⟨⟨hadm, ?_, hv true, fun hin _ => ?_, ha'.1, ha'.2, hports.2 hback⟩, hacc⟩
    · rw [ht]
      exact hp.symm
    · have hfo : c.fin.finOut = true := by simpa using hin
      rw [if_pos hfo] at ha
      exact ha.1

/-- The ports of a packet of UDP, as the lookup takes them. -/
theorem udp_ports (ht : t.finP = IPPROTO_UDP) (nat : NatT) (sp dp id : BitVec 16) :
    nat.samePorts t.finP sp dp id (lookupPorts M t (uncreateFlags t.finP) t.finP).1
      (lookupPorts M t (uncreateFlags t.finP) t.finP).2 = true ↔
      (has nat.natFlags IPN_TCPUDP = true → M.htons (t.finData false) = sp ∧ M.htons (t.finData true) = dp) := by
  rw [ht, lookupPorts, if_pos (.inr rfl)]
  unfold NatT.samePorts
  by_cases hp : has nat.natFlags IPN_TCPUDP = true
  · rw [if_pos hp, decide_eq_true_eq, eq_comm, eq_comm (a := dp)]
    exact ⟨fun h _ => h, fun h => h hp⟩
  · rw [if_neg hp]
    simp [hp, show IPPROTO_UDP ≠ IPPROTO_ICMP by decide]

/-- **What the lookup compares for a packet that was diverted.** -/
theorem divert_passes (hf : Fits M true c nat) (hv : ∀ i, nat.natV i = 4) (hq : Diverted c.fin nat q)
    (ht : t = { q with finIfp := ifp }) : (uncreateProbe t).passes M proxyMatch nat = true ↔
      nat.admits (!c.fin.finOut) t.finIfp = true ∧ DivertBack M nat c.fin t ∧
      nat.accepts proxyMatch (!c.fin.finOut) t = true := by
  have hout : t.finOut = c.fin.finOut := by rw [ht]; exact hq.out
  have hprobe : (uncreateProbe t).out = !c.fin.finOut := by rw [← hout]; rfl
  have hp : (uncreateProbe t).p = t.finP := rfl
  unfold Lookup.passes DivertBack
  rw [Bool.and_eq_true, matches_iff, hprobe, hf.carrier rfl, hp]
  by_cases hudp : t.finP = IPPROTO_UDP
  · by_cases hway : nat.forward = c.fin.finOut
    · obtain ⟨-, hdata⟩ := hq.proto hway
      obtain ⟨hsrc, hdst⟩ := hq.addrs hway
      have hts : t.finSaddr = q.finSaddr ∧ t.finDaddr = q.finDaddr ∧
          t.finData = q.finData := by rw [ht]; exact ⟨rfl, rfl, rfl⟩
      have hback : ¬(!c.fin.finOut) = nat.forward := by rw [hway]; cases c.fin.finOut <;> decide
      have hports : (has nat.natFlags IPN_TCPUDP = true → M.htons (t.finData false) = nat.natNdport ∧
          M.htons (t.finData true) = nat.natNsport) ↔
          (has nat.natFlags IPN_TCPUDP = true → nat.natOsport = nat.natNdport ∧ nat.natOdport = nat.natNsport) := by
        refine imp_congr_right fun hflag => ?_
        obtain ⟨h1, h2⟩ := hf.ports (hf.flags ▸ hflag)
        rw [h1, h2, hts.2.2, hdata]
      rw [if_neg hback, if_pos hway, ← hports, ← udp_ports hudp nat _ _ nat.natNicmpid]
      cases hfo : c.fin.finOut with
      | true =>
        have hdir : nat.natDir = .outbound := by simpa [NatT.forward, hfo] using hway
        rw [hfo, if_pos rfl] at hsrc hdst
        simp only [uncreateProbe, hout, hfo, hts.1, hts.2.1, hsrc, hdst, if_true, hdir, hv, hudp]
        simp only [Bool.not_true, true_and, forall_const]
        constructor
        · rintro ⟨⟨hadm, hloc, hnd, -, hsame⟩, hacc⟩
          exact ⟨hadm, ⟨⟨hloc, hnd.symm⟩, hsame⟩, hacc⟩
        · rintro ⟨hadm, ⟨⟨hloc, hns⟩, hsame⟩, hacc⟩
          exact ⟨⟨hadm, hloc, hns.symm, hns, hsame⟩, hacc⟩
      | false =>
        rw [hfo, if_neg Bool.false_ne_true] at hsrc hdst
        simp only [uncreateProbe, hout, hfo, hts.1, hts.2.1, hsrc, hdst, Bool.false_eq_true, if_false, hv, hudp]
        simp only [Bool.not_false, Bool.true_eq_false, IsEmpty.forall_iff, true_and]
        constructor
        · rintro ⟨⟨hadm, hnd, hns, hsame⟩, hacc⟩
          exact ⟨hadm, ⟨⟨hns, hnd⟩, hsame⟩, hacc⟩
        · rintro ⟨hadm, ⟨⟨hns, hnd⟩, hsame⟩, hacc⟩
          exact ⟨⟨hadm, hnd, hns, hsame⟩, hacc⟩
    · have hback : (!c.fin.finOut) = nat.forward := by
        revert hway
        cases nat.forward <;> cases c.fin.finOut <;> decide
      have hports := @udp_ports M t hudp nat nat.natOsport nat.natOdport nat.natOicmpid
      rw [if_pos hback, if_neg hway]
      constructor
      · rintro ⟨⟨hadm, -, -, hsrc, hdst, hsame⟩, hacc⟩
        refine ⟨hadm, ⟨hudp, hsrc, hdst, fun hflag => ?_⟩, hacc⟩
        obtain ⟨h1, h2⟩ := hports.1 hsame hflag
        exact ⟨h1.symm, h2.symm⟩
      · rintro ⟨hadm, ⟨-, hsrc, hdst, hsame⟩, hacc⟩
        exact ⟨⟨hadm, hudp.symm, hv false, hsrc, hdst, hports.2 fun hflag =>
          ⟨(hsame hflag).1.symm, (hsame hflag).2.symm⟩⟩, hacc⟩
  · constructor
    · rintro ⟨⟨-, hp', -⟩, -⟩
      exact absurd hp'.symm hudp
    · rintro ⟨-, ⟨hp', -⟩, -⟩
      exact absurd hp' hudp

/-! ## Which sessions are found again -/

/-- **A session that was just made:** it is the first of its chains, and is made of the packet. -/
theorem Created.spec (h₀ : Start s₀) (hc : Created M proxyMatch s₀ s fuel c e s' t) :
    Held s' (fun _ => 0) s₀.loaded ∧ Fits M (has (s.ipn c.np).inRedir NAT_DIVERTUDP) c (s'.tab.nat e) ∧
      (∀ i, (s'.tab.nat e).natV i = 4) ∧ ∃ A O H, Linked s'.tab A O H ∧
      ∀ i, (H i (s'.tab.bucket ((s'.tab.nat e).natHv i))).head? = some e := by
  obtain ⟨hs, A, O, H, hl⟩ := runs_linked h₀ hc.run
  have hfresh : c.Fresh s s₀.loaded := ⟨loaded_pos h₀ hc.legal.1, hc.legal.2.2⟩
  obtain ⟨hs', ⟨H', hl', hhead⟩, m, nat, aps, hchoose, hnat, hentry⟩ :=
    add_first hs hl hfresh (hc.legal.2.1 e hc.new) hc.new hc.add
  have hf := makes_fits (choose_makes hs hfresh hchoose hnat) fun hp => by
    rw [hc.checks.flags] at hp ⊢
    exact (checkFlags_ports hp).2.2
  refine ⟨hs', ?_, ?_, _, _, H', hl', hhead⟩
  · rw [hentry]
    exact ⟨hf.flags, hf.dir, hf.pr, hf.carrier, hf.ports⟩
  · rw [hentry]
    exact fun _ => rfl

/-- The translated packet goes the way it went. -/
theorem Created.out (hc : Created M proxyMatch s₀ s fuel c e s' t) : t.finOut = c.fin.finOut := by
  obtain ⟨ifp, q, hq, rfl, -⟩ := hc.xlate
  split at hq
  · exact hq.out
  · exact (translate_fields hq hc.checks.first).2.1

/-- **The lookup finds the new session** exactly if it accepts it and looks at its bucket: nothing is before it. -/
theorem probe_finds (h₀ : Start s₀) (hc : Created M proxyMatch s₀ s fuel c e s' t) :
    exactFound M proxyMatch s'.tab (uncreateProbe t) = some e ↔
      (uncreateProbe t).passes M proxyMatch (s'.tab.nat e) = true ∧
        (uncreateProbe t).bucket M s'.tab = s'.tab.bucket ((s'.tab.nat e).natHv c.fin.finOut) := by
  obtain ⟨-, -, -, A, O, H, hl, hhead⟩ := hc.spec h₀
  have hside : (!(uncreateProbe t).out) = c.fin.finOut := by rw [uncreateProbe, Bool.not_not, hc.out]
  have hfind : exactFound M proxyMatch s'.tab (uncreateProbe t) =
      (H c.fin.finOut ((uncreateProbe t).bucket M s'.tab)).find? fun x =>
        (uncreateProbe t).passes M proxyMatch (s'.tab.nat x) := by
    rw [← hside]
    exact hl.find (!(uncreateProbe t).out) ((uncreateProbe t).bucket M s'.tab) ((uncreateProbe t).passes M proxyMatch)
  rw [hfind]
  constructor
  · intro hsome
    have hb := ((hl.place _ _ _).1 (List.mem_of_find?_eq_some hsome)).2
    have hpass := List.find?_some hsome
    exact ⟨hpass, hb.symm⟩
  · rintro ⟨hpass, hb⟩
    have hfirst := hhead c.fin.finOut
    rw [← hb] at hfirst
    obtain ⟨rest, hrest⟩ := List.head?_eq_some_iff.1 hfirst
    rw [hrest]
    exact List.find?_cons_of_pos hpass

theorem finds_iff (h₀ : Start s₀) (hc : Created M proxyMatch s₀ s fuel c e s' t) :
    exactFound M proxyMatch s'.tab (uncreateProbe t) = some e ↔
      Undoable M proxyMatch s'.tab (has (s.ipn c.np).inRedir NAT_DIVERTUDP) (s'.tab.nat e) c.fin t := by
  obtain ⟨-, hf, hv, -⟩ := hc.spec h₀
  obtain ⟨ifp, q, hq, ht, -⟩ := hc.xlate
  rw [probe_finds h₀ hc]
  cases hdiv : has (s.ipn c.np).inRedir NAT_DIVERTUDP with
  | true =>
    rw [hdiv] at hf
    rw [if_pos hdiv] at hq
    rw [divert_passes hf hv hq ht]
    exact ⟨fun ⟨⟨h1, h2, h3⟩, h4⟩ => ⟨h1, h2, h4, h3⟩,
      fun h => ⟨⟨h.admits, h.tuple, h.accepts⟩, h.bucket⟩⟩
  | false =>
    rw [hdiv] at hf
    rw [if_neg (by simp [hdiv])] at hq
    rw [probe_passes hc.checks hf hv hq ht]
    exact ⟨fun ⟨⟨h1, h2, h3⟩, h4⟩ => ⟨h1, h2, h4, h3⟩,
      fun h => ⟨⟨h.admits, h.tuple, h.accepts⟩, h.bucket⟩⟩

/-- The session is removed, and no other, exactly if the lookup finds it. -/
theorem removes_iff_finds (h₀ : Start s₀) (hc : Created M proxyMatch s₀ s fuel c e s' t) :
    (∃ s'', ipfNatUncreate M proxyMatch s' t = some s'' ∧ Removes s'.tab s''.tab e) ↔
      exactFound M proxyMatch s'.tab (uncreateProbe t) = some e := by
  obtain ⟨hs, -, -, A, O, H, hl, -⟩ := hc.spec h₀
  obtain ⟨u, hu, hwhat⟩ := @uncreate_spec M proxyMatch _ _ _ _ _ _ hs hl t
  constructor
  · rintro ⟨s'', hs'', hrem⟩
    obtain rfl : u = s'' := Option.mem_unique hu hs''
    cases hfound : exactFound M proxyMatch s'.tab (uncreateProbe t) with
    | none =>
      -- the list is as it was, with the session on it
      rw [hfound] at hwhat
      rw [hwhat] at hrem
      have hmem : e ∈ A := hrem.mem _ hl.list
      have hsame : A.erase e = A := ((hrem.list _ hl.list) ()).unique (hl.list ())
      rw [← hsame] at hmem
      exact absurd rfl (hl.nodup_list.mem_erase_iff.1 hmem).1
    | some x =>
      rw [hfound] at hwhat
      exact congrArg some (Removes.eq hl hrem hwhat.2)
  · intro hfound
    rw [hfound] at hwhat
    exact ⟨u, hu, hwhat.2⟩

/-- **`ipf_nat_uncreate` removes the session that was just made for the packet, and no other,** exactly if the packet is
`Undoable`. -/
theorem uncreate_meets_iff {fuel : ℕ} (h₀ : Start s₀) (hc : Created M proxyMatch s₀ s fuel c e s' t) :
    (∃ s'', ipfNatUncreate M proxyMatch s' t = some s'' ∧ Removes s'.tab s''.tab e) ↔
      Undoable M proxyMatch s'.tab (has (s.ipn c.np).inRedir NAT_DIVERTUDP) (s'.tab.nat e) c.fin t :=
  (removes_iff_finds h₀ hc).trans (finds_iff h₀ hc)

/-- A packet of 1.2.3.4 from port 80 to port 80, once it is redirected. -/
def webBack : FrInfo :=
  (NatTab.translate littleEndian false (webCall 0 0 80).fin ((after twoRules (webCall 0 0 80)).tab.nat 0) IPN_TCP).getD
    (webCall 0 0 80).fin

theorem runs_held_web : ∃ s, Runs littleEndian (fun _ _ => true) twoRules s ∧ s.tab.alloc 0 = true ∧
    ∀ n, (s.tab.nat 0).natPtr = some n → s.live n = true := by
  obtain ⟨s, hadd, hlive⟩ : ∃ s, step littleEndian (fun _ _ => true) twoRules (.add 1 (webCall 0 0 80)) = some s ∧
      s.tab.alloc 0 = true := Option.map_eq_some_iff.1 (by decide)
  have hr : Runs littleEndian (fun _ _ => true) twoRules s :=
    .call (.add 1 (webCall 0 0 80)) .start ⟨rfl, fun _ _ => rfl, fun _ _ _ => by simp [twoRules, webSys]⟩ hadd
  exact ⟨s, hr, hlive, ((runs_held (webSys_start _ fun _ _ => (by decide : (0 : ℤ) < 2)) hr).2.2 0 hlive).2⟩

/-- Its session is found again and removed. -/
theorem uncreate_meets_web : ∃ s' s'', Start twoRules ∧
    Created littleEndian (fun _ _ => true) twoRules twoRules 1 (webCall 0 0 80) 0 s' webBack ∧
    ipfNatUncreate littleEndian (fun _ _ => true) s' webBack = some s'' ∧ Removes s'.tab s''.tab 0 := by
  have h₀ : Start twoRules := webSys_start _ fun _ _ => (by decide : (0 : ℤ) < 2)
  obtain ⟨⟨s', r⟩, hadd, rfl⟩ : ∃ a, ipfNatAdd littleEndian (fun _ _ => true) 1 twoRules (webCall 0 0 80) = some a ∧
      a.2 = some 0 := Option.map_eq_some_iff.1 (by decide)
  obtain rfl : s' = after twoRules (webCall 0 0 80) := by rw [after, hadd]; rfl
  obtain ⟨q, hq⟩ := Option.isSome_iff_exists.1 (by decide : (NatTab.translate littleEndian false (webCall 0 0 80).fin
    ((after twoRules (webCall 0 0 80)).tab.nat 0) IPN_TCP).isSome = true)
  have hback : webBack = q := by rw [webBack, hq]; rfl
  have hifp : webBack.finIfp = none := by decide
  have hc : Created littleEndian (fun _ _ => true) twoRules twoRules 1 (webCall 0 0 80) 0
      (after twoRules (webCall 0 0 80)) webBack :=
    ⟨.start, ⟨rfl, fun _ _ => rfl, fun _ _ _ => by simp [twoRules, webSys]⟩, ⟨rfl, rfl, rfl, rfl⟩, rfl, hadd, none,
      q, hq, by rw [← hback, ← hifp], fun _ => rfl⟩
  obtain ⟨s'', hs''⟩ := (uncreate_meets_iff h₀ hc).2
    ⟨by decide, ⟨fun herr => absurd herr (by decide), by unfold PortsBack; decide⟩, by decide, by decide⟩
  exact ⟨_, s'', h₀, hc, hs''⟩

/-- A rule `map .. 10.0.0.0/8 -> 1.2.3.4/32`, with `portmap` and the ports 10000 to 10009 if `ports`. -/
def outRule (ports : Bool) : Ipnat where
  inFlags := IPN_TCPUDP
  inRedir := NAT_MAP
  inIfps _ := none
  inNamed := false
  inOsrcmsk := 0x000000ff
  inOdstmsk := 0
  inNsrcaddr := 0x04030201
  inNsrcmsk := 0xffffffff
  inNsrcatype := .normal
  inSnip := 0x01020304
  inNdstaddr := 0
  inNdstmsk := 0
  inNdstatype := .normal
  inDnip := 0
  inSpnext := if ports then 10000 else 0
  inSpmin := if ports then 10000 else 0
  inSpmax := if ports then 10009 else 0
  inDpnext := 0
  inDpmin := 0
  inDpmax := 0
  inOdport := 0
  inDtop := 0
  inPpip := 0
  inIppip := 0
  inStepnext := 0
  inMssclamp := 0
  inDlocal := false
  inApr := none
  inUse := 2

/-- A packet of the host 10.0.0.`e + 1` to 5.6.7.8: of TCP from port 1024 to 80, or a ping with the id 0x1234. -/
def outCall (tcp : Bool) (e : ℕ) (random : ℕ → Word) : Call where
  fin :=
    { finP := if tcp then IPPROTO_TCP else IPPROTO_ICMP, finOut := true, finRev := false, finFlx := 0, finOff := 0
      finCksum := 0, finDlen := 0, finIfp := none, finSaddr := BitVec.ofNat 32 (0x0100000a + e * 0x1000000)
      finDaddr := 0x08070605, finData := fun i => if tcp then if i then 80 else 1024 else if i then 0x1234 else 0x0008
      finIp := ⟨0x0100000a, 0x08070605, 0, []⟩, finDp := ⟨0, 0, 0, 0, true, [], []⟩ }
  np := 0
  natsave := none
  flags := if tcp then IPN_TCP else IPN_ICMPQUERY
  dir := .outbound
  new := some e
  hmNew _ := some e
  random := random
  ifpaddr := none
  dstlist _ _ := none
  proxy _ := none

/-- The system with that rule. -/
def outSys (ports : Bool) : Sys := webSys fun _ => outRule ports

/-- The state after a packet. -/
def afterOut (s : Sys) (c : Call) : Sys := ((ipfNatAdd littleEndian (fun _ _ => true) 3 s c).getD (s, none)).1

/-- 10.0.0.1 opens a connection from port 1024 to port 80 of 5.6.7.8, which is mapped to 1.2.3.4. -/
def surf : Call :=
  { outCall true 0 fun _ => 7 with
    fin := { (outCall true 0 fun _ => 7).fin with finDp := ⟨0x0004, 0x5000, 0, 0, true, [], []⟩ } }

/-- **The session of an ordinary connection stays:** the packet from 1.2.3.4 is looked up as if it were one to 1.2.3.4
with the same ports. -/
theorem uncreate_not_meets : ∃ s' t, Start (outSys true) ∧
    Created littleEndian (fun _ _ => true) (outSys true) (outSys true) 3 surf 0 s' t ∧
    ¬∃ s'', ipfNatUncreate littleEndian (fun _ _ => true) s' t = some s'' ∧ Removes s'.tab s''.tab 0 := by
  have h₀ : Start (outSys true) := webSys_start _ fun _ _ => (by decide : (0 : ℤ) < 2)
  obtain ⟨⟨s', r⟩, hadd, rfl⟩ : ∃ a, ipfNatAdd littleEndian (fun _ _ => true) 3 (outSys true) surf = some a ∧
      a.2 = some 0 := Option.map_eq_some_iff.1 (by decide)
  have hs' : s' = afterOut (outSys true) surf := by rw [afterOut, hadd]; rfl
  obtain ⟨q, hq⟩ : ∃ q, NatTab.translate littleEndian true surf.fin (s'.tab.nat 0) IPN_TCP = some q := by
    rw [hs']
    exact Option.isSome_iff_exists.1 (by decide)
  have hc : Created littleEndian (fun _ _ => true) (outSys true) (outSys true) 3 surf 0 s' { q with finIfp := none } :=
    ⟨.start, ⟨rfl, fun _ _ => rfl, fun _ _ _ => by simp [outSys, webSys]⟩, ⟨rfl, rfl, rfl, rfl⟩, rfl, hadd, none, q,
      hq, rfl, fun hp => by cases hp⟩
  refine ⟨s', _, h₀, hc, fun hback => ?_⟩
  -- the new addresses of the two ends differ
  have hund := (finds_iff h₀ hc).1 ((removes_iff_finds h₀ hc).1 hback)
  have haddrs : (s'.tab.nat 0).natDlocal = false ∧ (s'.tab.nat 0).natNsrcaddr = (s'.tab.nat 0).natNdstaddr := hund.tuple.1
  rw [hs'] at haddrs
  exact absurd haddrs.2 (by decide)

end Ipfilter.NatAdd
