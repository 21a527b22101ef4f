import Ipfilter.Proof.NatFind
import Ipfilter.Refs.Count
import Ipfilter.Spec.NatAdd

/-!
# The references of NAT sessions

A session holds its rule and its host map, a host map holds its rule. `Held s xh xr` says that the counts of host maps
and rules are those of the sessions and host maps, and of `xh` and `xr` other places: the rule lists, iterators, and
the local variables of a function that has taken a reference and not stored it yet.

* `Held.hostmap`, `Held.hostmapdel`, `Held.ruleDeref`: the functions that take and give back references;
* `Held.enter`, `Held.leave`: sessions;
* `add_held`, `delete_held`, `deref_held`: the calls.
-/

namespace Ipfilter.NatAdd

open Chain Masks NatTab Refs
open State hiding FrInfo
open Function (update update_self)

/-! ## The invariant -/

/-- The entries of the NAT table that are allocated. -/
def Sys.entries (s : Sys) : Set ℕ := {e | s.tab.alloc e = true}

/-- The places that hold a host map. -/
noncomputable def Sys.hmTotal (s : Sys) (xh : ℕ → ℕ) (h : ℕ) : ℕ :=
  holders s.entries (fun e => (s.tab.nat e).natHm) h + xh h

/-- The places that hold a rule. -/
noncomputable def Sys.ruleTotal (s : Sys) (xr : ℕ → ℕ) (n : ℕ) : ℕ :=
  holders s.entries (fun e => (s.tab.nat e).natPtr) n +
    holders {h | h ∈ s.maplist} (fun h => some (s.hm h).hmIpnat) n + xr n

/-- **The counts are right.** -/
structure Held (s : Sys) (xh xr : ℕ → ℕ) : Prop where
  finite : s.entries.Finite
  nodup : s.maplist.Nodup
  hm : Counted (· ∈ s.maplist) (fun h => (s.hm h).hmRef) (s.hmTotal xh)
  rule : Counted (fun n => s.live n = true) (fun n => (s.ipn n).inUse) (s.ruleTotal xr)

/-- A pointer more, unless it is NULL. -/
def also (x : ℕ → ℕ) (o : Option ℕ) (y : ℕ) : ℕ := x y + if o = some y then 1 else 0

theorem also_none (x : ℕ → ℕ) : also x none = x := by
  funext y
  simp [also]

variable {s s' : Sys} {xh xr : ℕ → ℕ} {n h : ℕ}

/-- A host map exists that something else holds. -/
theorem Held.hm_mem (hs : Held s (also xh (some h)) xr) : h ∈ s.maplist :=
  (hs.hm.pos h).2 (by simp [Sys.hmTotal, also])

/-- A rule exists that something else holds. -/
theorem Held.live (hs : Held s xh (also xr (some n))) : s.live n = true :=
  (hs.rule.pos n).2 (by simp [Sys.ruleTotal, also])

theorem Held.hm_pos (hs : Held s xh xr) (hm : h ∈ s.maplist) : 0 < (s.hm h).hmRef := by
  rw [hs.hm.exact h hm]
  exact_mod_cast (hs.hm.pos h).1 hm

/-- The host map of a session exists. -/
theorem Held.hm_of_entry (hs : Held s xh xr) {e : ℕ} (he : s.tab.alloc e = true) (hh : (s.tab.nat e).natHm = some h) :
    h ∈ s.maplist := by
  refine (hs.hm.pos h).2 ?_
  have hpos : 0 < holders s.entries (fun e => (s.tab.nat e).natHm) h := holders_pos hs.finite he hh
  unfold Sys.hmTotal
  omega

@[simp]
theorem addUse_inUse (k : ℤ) (np : Ipnat) : (np.addUse k).inUse = np.inUse + k := rfl

@[simp]
theorem addRef_hmRef (k : ℤ) (hm : Hostmap) : (hm.addRef k).hmRef = hm.hmRef + k := rfl

@[simp]
theorem addRef_hmIpnat (k : ℤ) (hm : Hostmap) : (hm.addRef k).hmIpnat = hm.hmIpnat := rfl

/-- Edits of the table that leave the pointers alone. -/
theorem Held.tab (hs : Held s xh xr) {tab : Softn} (halloc : tab.alloc = s.tab.alloc)
    (hkeep : ∀ e, s.tab.alloc e = true → (tab.nat e).natHm = (s.tab.nat e).natHm ∧
      (tab.nat e).natPtr = (s.tab.nat e).natPtr) : Held { s with tab := tab } xh xr := by
  have hent : Sys.entries { s with tab := tab } = s.entries := by simp [Sys.entries, halloc]
  have hhm : holders s.entries (fun e => (tab.nat e).natHm) = holders s.entries fun e => (s.tab.nat e).natHm :=
    holders_congr fun e he => (hkeep e he).1
  have hptr : holders s.entries (fun e => (tab.nat e).natPtr) = holders s.entries fun e => (s.tab.nat e).natPtr :=
    holders_congr fun e he => (hkeep e he).2
  refine ⟨hent ▸ hs.finite, hs.nodup, hs.hm.congr (fun _ => Iff.rfl) (fun _ _ => rfl) fun x => ?_,
    hs.rule.congr (fun _ => Iff.rfl) (fun _ _ => rfl) fun x => ?_⟩
  · rw [Sys.hmTotal, Sys.hmTotal, hent, ← hhm]
  · rw [Sys.ruleTotal, Sys.ruleTotal, hent, ← hptr]

/-! ## Rules -/

/-- A place more holds a rule. -/
theorem Held.useRule (hs : Held s xh xr) (hn : s.live n = true) :
    Held (s.updRule n (.addUse 1)) xh (also xr (some n)) := by
  refine ⟨hs.finite, hs.nodup, hs.hm, hs.rule.take hn (fun _ => Iff.rfl) (fun x _ => ?_) fun x => ?_⟩
  · by_cases hx : x = n
    · simp [Sys.updRule, hx]
    · simp [Sys.updRule, hx]
  · simp only [Sys.ruleTotal, also, Option.some.injEq, eq_comm, add_assoc]
    rfl

/-- **`ipf_nat_rule_deref`** gives one reference back. -/
theorem Held.ruleDeref (hs : Held s xh (also xr (some n))) :
    ∃ s', ipfNatRuleDeref s n = some s' ∧ Held s' xh xr ∧ s'.tab = s.tab ∧ s'.maplist = s.maplist ∧ s'.hm = s.hm ∧
      s'.ipn = (s.updRule n (.addUse (-1))).ipn := by
  have hexact := hs.rule.exact n hs.live
  have hpos : 0 < (s.ipn n).inUse := by
    rw [hexact]
    exact_mod_cast (hs.rule.pos n).1 hs.live
  have hone : ((s.updRule n (.addUse (-1))).ipn n).inUse > 0 ↔ (s.ipn n).inUse ≠ 1 := by
    simp only [Sys.updRule, update_self, addUse_inUse]
    omega
  have htotal : ∀ x, s.ruleTotal (also xr (some n)) x = s.ruleTotal xr x + if x = n then 1 else 0 := fun x => by
    simp only [Sys.ruleTotal, also, Option.some.injEq, eq_comm, add_assoc]
  have hrefs : ∀ x, ((s.updRule n (.addUse (-1))).ipn x).inUse =
      (s.ipn x).inUse - if x = n then 1 else 0 := fun x => by
    by_cases hx : x = n <;> simp [Sys.updRule, hx, sub_eq_add_neg]
  unfold ipfNatRuleDeref
  rw [if_neg (by simp [hs.live])]
  dsimp only
  by_cases hlast : (s.ipn n).inUse = 1
  · rw [if_neg (hone.not.2 (not_not.2 hlast))]
    refine ⟨_, rfl, ⟨hs.finite, hs.nodup, hs.hm, hs.rule.drop htotal (fun x _ => hrefs x) fun x => ?_⟩,
      rfl, rfl, rfl, rfl⟩
    by_cases hx : x = n
    · simp [hx, hlast]
    · simp [hx, Sys.updRule]
  · rw [if_pos (hone.2 hlast)]
    refine ⟨_, rfl, ⟨hs.finite, hs.nodup, hs.hm, hs.rule.drop htotal (fun x _ => hrefs x) fun x => ?_⟩,
      rfl, rfl, rfl, rfl⟩
    simp [Sys.updRule, hlast]

/-! ## Host maps -/

/-- **What `ipf_nat_hostmap` does:** it takes the first host map that fits, or makes one, or there is none. -/
theorem hostmap_cases (s : Sys) (np : Option ℕ) (src dst map port : Word) (new : Option ℕ) :
    (∃ h ∈ s.maplist, (s.hm h).fits np src dst port = true ∧
      ipfNatHostmap s np src dst map port new = (s.updHm h (.addRef 1), some h)) ∨
    (∀ h ∈ s.maplist, (s.hm h).fits np src dst port = false) ∧
      ((∃ n h, np = some n ∧ new = some h ∧ ipfNatHostmap s np src dst map port new = ({ s.updRule n (.addUse 1) with
          maplist := h :: s.maplist
          hm := update s.hm h ⟨n, src, dst, map, 0, 1, port⟩ }, some h)) ∨
      (np = none ∨ new = none) ∧ ipfNatHostmap s np src dst map port new = (s, none)) := by
  unfold ipfNatHostmap
  cases hfind : s.maplist.find? fun h => (s.hm h).fits np src dst port with
  | some h =>
    have hfits := List.find?_some (p := fun h => (s.hm h).fits np src dst port) hfind
    exact .inl ⟨h, List.mem_of_find?_eq_some hfind, hfits, rfl⟩
  | none =>
    refine .inr ⟨fun h hh => by simpa using List.find?_eq_none.1 hfind h hh, ?_⟩
    rcases np with _ | n
    · exact .inr ⟨.inl rfl, rfl⟩
    · rcases new with _ | h
      · exact .inr ⟨.inr rfl, rfl⟩
      · exact .inl ⟨n, h, rfl, rfl, rfl⟩

/-- The holders of rules are the same as long as host maps keep their rules. -/
theorem ruleTotal_updHm (s : Sys) (h : ℕ) {f : Hostmap → Hostmap} (hf : (f (s.hm h)).hmIpnat = (s.hm h).hmIpnat) :
    (s.updHm h f).ruleTotal xr = s.ruleTotal xr := by
  have hkeep : ∀ x, some ((s.updHm h f).hm x).hmIpnat = some (s.hm x).hmIpnat := fun x => by
    by_cases hx : x = h
    · simp [Sys.updHm, hx, hf]
    · simp [Sys.updHm, hx]
  have hcount := holders_congr (S := {x | x ∈ s.maplist}) fun x _ => hkeep x
  funext x
  unfold Sys.ruleTotal
  rw [← congrFun hcount x]
  rfl

/-- A place more holds a host map. -/
theorem Held.useHm (hs : Held s xh xr) (hh : h ∈ s.maplist) : Held (s.updHm h (.addRef 1)) (also xh (some h)) xr := by
  refine ⟨hs.finite, hs.nodup, hs.hm.take hh (fun _ => Iff.rfl) (fun x _ => ?_) fun x => ?_,
    hs.rule.congr (fun _ => Iff.rfl) (fun _ _ => rfl) fun x => congrFun (ruleTotal_updHm s h rfl) x⟩
  · by_cases hx : x = h <;> simp [Sys.updHm, hx]
  · simp only [Sys.hmTotal, also, Option.some.injEq, eq_comm, add_assoc]
    rfl

/-- A new host map, with the reference that it holds. -/
theorem Held.makeHm (hs : Held s xh xr) (hn : s.live n = true) (hh : h ∉ s.maplist) (src dst map port : Word) :
    Held { s.updRule n (.addUse 1) with
      maplist := h :: s.maplist
      hm := update s.hm h ⟨n, src, dst, map, 0, 1, port⟩ } (also xh (some h)) xr := by
  have hne : ∀ x ∈ s.maplist, x ≠ h := fun x hx hxh => hh (hxh ▸ hx)
  refine ⟨hs.finite, List.nodup_cons.2 ⟨hh, hs.nodup⟩, hs.hm.make hh (fun x => ?_) ?_ (fun x hx _ => ?_) fun x => ?_,
    hs.rule.take hn (fun _ => Iff.rfl) (fun x _ => ?_) fun x => ?_⟩
  · simp [or_comm]
  · simp
  · simp [hx]
  · simp only [Sys.hmTotal, also, Option.some.injEq, eq_comm, add_assoc]
    rfl
  · by_cases hx : x = n <;> simp [Sys.updRule, hx]
  · have hset : {x | x ∈ h :: s.maplist} = insert h {x | x ∈ s.maplist} := by
      ext x
      simp
    have hcount : holders {x | x ∈ h :: s.maplist}
        (fun x => some (update s.hm h ⟨n, src, dst, map, 0, 1, port⟩ x).hmIpnat) x =
        holders {x | x ∈ s.maplist} (fun x => some (s.hm x).hmIpnat) x + if x = n then 1 else 0 := by
      have hkeep : ∀ x ∈ {x | x ∈ s.maplist},
          some (update s.hm h ⟨n, src, dst, map, 0, 1, port⟩ x).hmIpnat = some (s.hm x).hmIpnat :=
        fun x hx => by simp [hne x hx]
      rw [hset, holders_insert s.maplist.finite_toSet hh hkeep]
      simp [eq_comm]
    simp only [Sys.ruleTotal]
    rw [hcount]
    have hent : Sys.entries { s.updRule n (.addUse 1) with
      maplist := h :: s.maplist
      hm := update s.hm h ⟨n, src, dst, map, 0, 1, port⟩ } = s.entries := rfl
    rw [hent]
    simp only [Sys.updRule]
    omega

/-- **`ipf_nat_hostmap`** takes a reference on what it returns. -/
theorem Held.hostmap (hs : Held s xh xr) {np new o : Option ℕ} {src dst map port : Word}
    (hnp : ∀ n, np = some n → s.live n = true) (hnew : ∀ h, new = some h → h ∉ s.maplist)
    (heq : ipfNatHostmap s np src dst map port new = (s', o)) : Held s' (also xh o) xr := by
  rcases hostmap_cases s np src dst map port new with ⟨h, hh, -, hr⟩ | ⟨-, ⟨n, h, hn, hh, hr⟩ | ⟨-, hr⟩⟩
  · cases heq.symm.trans hr
    exact hs.useHm hh
  · cases heq.symm.trans hr
    exact hs.makeHm (hnp n hn) (hnew h hh) src dst map port
  · cases heq.symm.trans hr
    rw [also_none]
    exact hs

/-- The host map with its count left out. -/
def Hostmap.fixed (hm : Hostmap) : Hostmap := { hm with hmRef := 0 }

/-- The rule with what its use changes left out. -/
def Ipnat.fixed (np : Ipnat) : Ipnat :=
  { np with inSnip := 0, inDnip := 0, inSpnext := 0, inDpnext := 0, inStepnext := 0, inUse := 0 }

theorem updRule_fixed (s : Sys) (n : ℕ) {f : Ipnat → Ipnat} (hf : (f (s.ipn n)).fixed = (s.ipn n).fixed) (x : ℕ) :
    ((s.updRule n f).ipn x).fixed = (s.ipn x).fixed := by
  by_cases hx : x = n
  · simp [Sys.updRule, hx, hf]
  · simp [Sys.updRule, hx]

theorem updHm_fixed (s : Sys) (h : ℕ) {f : Hostmap → Hostmap} (hf : (f (s.hm h)).fixed = (s.hm h).fixed) (x : ℕ) :
    ((s.updHm h f).hm x).fixed = (s.hm x).fixed := by
  by_cases hx : x = h
  · simp [Sys.updHm, hx, hf]
  · simp [Sys.updHm, hx]

/-- The list of host maps plays no part in `ipf_nat_rule_deref`. -/
theorem ruleDeref_maplist (s : Sys) (l : List ℕ) (n : ℕ) :
    ipfNatRuleDeref { s with maplist := l } n = (ipfNatRuleDeref s n).map fun t => { t with maplist := l } := by
  unfold ipfNatRuleDeref
  dsimp only
  by_cases hlive : s.live n = false
  · rw [if_pos hlive, if_pos hlive]
    rfl
  · rw [if_neg hlive, if_neg hlive, ← apply_ite some, ← apply_ite some, Option.map_some]
    congr 1
    by_cases hpos : ((s.updRule n (.addUse (-1))).ipn n).inUse > 0
    · rw [if_pos hpos]
      exact if_pos hpos
    · rw [if_neg hpos]
      exact if_neg hpos

/-- A host map is taken off the list with its last reference, and its rule is still to be given back. -/
theorem Held.unmake (hs : Held s (also xh (some h)) xr) (hlast : (s.hm h).hmRef = 1) :
    Held { s.updHm h (.addRef (-1)) with maplist := s.maplist.erase h } xh
      (also xr (some (s.hm h).hmIpnat)) := by
  have hmem := hs.hm_mem
  refine ⟨hs.finite, hs.nodup.erase h, hs.hm.drop (b := h) (fun x => ?_) (fun x hx => ?_) fun x => ?_,
    hs.rule.congr (fun _ => Iff.rfl) (fun _ _ => rfl) fun x => ?_⟩
  · simp only [Sys.hmTotal, also, Option.some.injEq, eq_comm, add_assoc]
    rfl
  · have hxh : x ≠ h := (hs.nodup.mem_erase_iff.1 hx).1
    simp [Sys.updHm, hxh]
  · rw [hs.nodup.mem_erase_iff, hlast]
    by_cases hx : x = h <;> simp [hx]
  · have hset : {x | x ∈ s.maplist.erase h} = {x | x ∈ s.maplist} \ {h} := by
      ext x
      simp [hs.nodup.mem_erase_iff, and_comm]
    have hkeep : ∀ x ∈ {x | x ∈ s.maplist}, x ≠ h →
        some ((s.updHm h (.addRef (-1))).hm x).hmIpnat = some (s.hm x).hmIpnat :=
      fun x _ hx => by simp [Sys.updHm, hx]
    have hcount := holders_erase (b := x) s.maplist.finite_toSet hmem hkeep
    rw [← hset] at hcount
    simp only [Sys.ruleTotal, also]
    rw [← hcount]
    simp only [Sys.entries, Sys.updHm]
    omega

/-- **`ipf_nat_hostmapdel`** gives one reference back. -/
theorem Held.hostmapdel (hs : Held s (also xh (some h)) xr) :
    ∃ s', ipfNatHostmapdel s h = some s' ∧ Held s' xh xr ∧ s'.tab = s.tab ∧ s'.maplist ⊆ s.maplist ∧
      (∀ x, (s'.hm x).fixed = (s.hm x).fixed) ∧ ∀ x, (s'.ipn x).fixed = (s.ipn x).fixed := by
  have hmem := hs.hm_mem
  unfold ipfNatHostmapdel
  rw [if_neg (not_not.2 hmem)]
  dsimp only
  have hone : ((s.updHm h (.addRef (-1))).hm h).hmRef = 0 ↔ (s.hm h).hmRef = 1 := by
    simp only [Sys.updHm, update_self, addRef_hmRef]
    omega
  by_cases hlast : (s.hm h).hmRef = 1
  · rw [if_pos (hone.2 hlast)]
    obtain ⟨t, ht, hheld, htab, hlist, hhm, hipn⟩ := (hs.unmake hlast).ruleDeref
    have hrule : ((s.updHm h (.addRef (-1))).hm h).hmIpnat = (s.hm h).hmIpnat := by
      simp [Sys.updHm]
    rw [ruleDeref_maplist] at ht
    obtain ⟨u, hu, rfl⟩ := Option.map_eq_some_iff.1 ht
    rw [hrule, hu]
    have hlist' : u.maplist = s.maplist := by
      unfold ipfNatRuleDeref at hu
      split at hu
      · exact absurd hu (by simp)
      · dsimp only at hu
        split at hu <;> rw [← Option.some.inj hu] <;> rfl
    rw [← hlist'] at hheld hlist ⊢
    refine ⟨_, rfl, hheld, htab, List.erase_subset, fun x => ?_, fun x => ?_⟩
    · change (u.hm x).fixed = _
      rw [show u.hm = _ from hhm]
      exact updHm_fixed s h (f := .addRef (-1)) rfl x
    · change (u.ipn x).fixed = _
      rw [show u.ipn = _ from hipn]
      exact updRule_fixed s _ (f := .addUse (-1)) rfl x
  · rw [if_neg (hone.not.2 hlast)]
    refine ⟨_, rfl, ⟨hs.finite, hs.nodup, hs.hm.drop (b := h) (fun x => ?_) (fun x hx => ?_) fun x => ?_,
      hs.rule.congr (fun _ => Iff.rfl) (fun _ _ => rfl) fun x => congrFun (ruleTotal_updHm s h rfl) x⟩, rfl,
      fun _ hx => hx, updHm_fixed s h (f := .addRef (-1)) rfl, fun _ => rfl⟩
    · simp only [Sys.hmTotal, also, Option.some.injEq, eq_comm, add_assoc]
      rfl
    · by_cases hx : x = h <;> simp [Sys.updHm, hx, sub_eq_add_neg]
    · simp [Sys.updHm, hlast]

/-- The release of a host map that is held, or of none. -/
theorem Held.dropHm {o : Option ℕ} (hs : Held s (also xh o) xr) :
    ∃ s', dropHm s o = some s' ∧ Held s' xh xr ∧ s'.tab = s.tab ∧ s'.maplist ⊆ s.maplist ∧
      (∀ x, (s'.hm x).fixed = (s.hm x).fixed) ∧ ∀ x, (s'.ipn x).fixed = (s.ipn x).fixed := by
  cases o with
  | none => exact ⟨s, rfl, also_none xh ▸ hs, rfl, fun _ hx => hx, fun _ => rfl, fun _ => rfl⟩
  | some h => exact hs.hostmapdel

/-- The release of a rule that is held, or of none. -/
theorem Held.dropRule {o : Option ℕ} (hs : Held s xh (also xr o)) :
    ∃ s', dropRule s o = some s' ∧ Held s' xh xr ∧ s'.tab = s.tab ∧ s'.maplist = s.maplist ∧ s'.hm = s.hm ∧
      ∀ x, (s'.ipn x).fixed = (s.ipn x).fixed := by
  cases o with
  | none => exact ⟨s, rfl, also_none xr ▸ hs, rfl, rfl, rfl, fun _ => rfl⟩
  | some n =>
    obtain ⟨s', heq, hheld, htab, hlist, hhm, hipn⟩ := hs.ruleDeref
    refine ⟨s', heq, hheld, htab, hlist, hhm, fun x => ?_⟩
    rw [hipn]
    exact updRule_fixed s n (f := .addUse (-1)) rfl x

/-! ## Sessions -/

/-- **A new session** takes over the references of the function that made it. -/
theorem Held.enter {o p : Option ℕ} {e : ℕ} {tab : Softn} (hs : Held s (also xh o) (also xr p))
    (he : s.tab.alloc e = false) (halloc : tab.alloc = update s.tab.alloc e true)
    (hkeep : ∀ x ≠ e, (tab.nat x).natHm = (s.tab.nat x).natHm ∧ (tab.nat x).natPtr = (s.tab.nat x).natPtr)
    (ho : (tab.nat e).natHm = o) (hp : (tab.nat e).natPtr = p) : Held { s with tab := tab } xh xr := by
  have hent : Sys.entries { s with tab := tab } = insert e s.entries := by
    ext x
    by_cases hx : x = e <;> simp [Sys.entries, halloc, hx]
  have hout : e ∉ s.entries := by simp [Sys.entries, he]
  have hne : ∀ x ∈ s.entries, x ≠ e := fun x hx hxe => hout (hxe ▸ hx)
  have hhm := fun b => holders_insert (b := b) hs.finite hout fun x hx => (hkeep x (hne x hx)).1
  have hptr := fun b => holders_insert (b := b) hs.finite hout fun x hx => (hkeep x (hne x hx)).2
  refine ⟨hent ▸ hs.finite.insert e, hs.nodup, hs.hm.congr (fun _ => Iff.rfl) (fun _ _ => rfl) fun x => ?_,
    hs.rule.congr (fun _ => Iff.rfl) (fun _ _ => rfl) fun x => ?_⟩
  · have hx := hhm x
    simp only [Sys.hmTotal, also, hent]
    rw [hx, ho]
    omega
  · have hx := hptr x
    simp only [Sys.ruleTotal, also, hent]
    rw [hx, hp]
    omega

/-- **A session that is freed** leaves its references to be given back. -/
theorem Held.leave {e : ℕ} {tab : Softn} (hs : Held s xh xr) (he : s.tab.alloc e = true)
    (halloc : tab.alloc = update s.tab.alloc e false)
    (hkeep : ∀ x ≠ e, (tab.nat x).natHm = (s.tab.nat x).natHm ∧ (tab.nat x).natPtr = (s.tab.nat x).natPtr) :
    Held { s with tab := tab } (also xh (s.tab.nat e).natHm) (also xr (s.tab.nat e).natPtr) := by
  have hent : Sys.entries { s with tab := tab } = s.entries \ {e} := by
    ext x
    by_cases hx : x = e <;> simp [Sys.entries, halloc, hx]
  have hin : e ∈ s.entries := he
  have hhm := fun b => holders_erase (b := b) hs.finite hin fun x _ hx => (hkeep x hx).1
  have hptr := fun b => holders_erase (b := b) hs.finite hin fun x _ hx => (hkeep x hx).2
  refine ⟨hent ▸ hs.finite.subset Set.sdiff_subset, hs.nodup,
    hs.hm.congr (fun _ => Iff.rfl) (fun _ _ => rfl) fun x => ?_,
    hs.rule.congr (fun _ => Iff.rfl) (fun _ _ => rfl) fun x => ?_⟩
  · have hx := hhm x
    simp only [Sys.hmTotal, also, hent]
    rw [← hx]
    omega
  · have hx := hptr x
    simp only [Sys.ruleTotal, also, hent]
    rw [← hx]
    omega

end Ipfilter.NatAdd
