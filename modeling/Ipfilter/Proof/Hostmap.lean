import Mathlib.Data.List.TakeWhile
import Ipfilter.Proof.Masks
import Ipfilter.Refs.Count
import Ipfilter.Spec.Hostmap

/-!
# Host maps are found again

* `Good`: the table and the list hold the same host maps, each in the bucket of its own hash value; references are counted.
* `Good.create`, `Good.addRef`, `Good.hostmapdel`, `Good.rehash`: what the functions do to it.
* `Answered`: **what a request should do.** A host map that exists is returned with one reference more, one that does not
  exist is made, and the loop stays in one bucket.
* `hostmaps_found`: so it is in all runs whose steps are `Calm`. These are the steps for which it does not matter that
  the IPv6 version reduces its hash value by a constant, stores the reduced value and follows the list of all host maps, and
  that neither version looks at `hm_v`. A request that is answered as it should be is calm.
* `Good.spells6`: the loop of the IPv6 version comes to all that it could find, by the order of the list.
* `other_bucket_visited`: other runs.
-/

namespace Ipfilter.Hostmaps

open Chain Refs List
open Masks (Word I6addr ip6Eq)
open Function (update update_of_ne update_self)

variable {w w' : Softn} {B : ℕ → List ℕ} {held others : ℕ → ℕ} {n x y b : ℕ} {next : ℕ → Option ℕ}
  {l : List ℕ}

/-! ## The loops -/

/-- The pointers `next` spell out a list. -/
def Spells (next : ℕ → Option ℕ) : Option ℕ → List ℕ → Prop
  | o, [] => o = none
  | o, x :: l => o = some x ∧ Spells next (next x) l

theorem spells_seg {H : Type} {m : Mem H ℕ} {k : Link H ℕ} (hs : Seg m k l) : Spells m.next (m.get k) l := by
  induction l generalizing k with
  | nil => exact hs.2
  | cons x l ih =>
    obtain ⟨hg, -, hs'⟩ := (seg_cons _).1 hs
    exact ⟨hg, ih hs'⟩

/-- **What a loop looks at:** the host maps up to the first one that fits. -/
theorem walk_eq (fits : ℕ → Bool) : ∀ {i : ℕ} {o : Option ℕ}, Spells next o l → l.length ≤ i →
    walk next fits i o = some (l.takeWhile (fun x => !fits x) ++ (l.find? fits).toList, l.find? fits) := by
  induction l with
  | nil =>
    intro i o hs _
    have ho : o = none := hs
    subst ho
    cases i <;> rfl
  | cons x l ih =>
    intro i o hs hi
    obtain ⟨rfl, hs⟩ := hs
    obtain ⟨j, rfl⟩ : ∃ j, i = j + 1 := ⟨i - 1, by simp at hi; omega⟩
    have hj : l.length ≤ j := by simpa using hi
    unfold walk
    by_cases hx : fits x = true
    · simp [hx]
    · simp [hx, ih hs hj]

/-! ## The invariant -/

/-- The hash value of the addresses of a host map. -/
def Hostmap.hash (hm : Hostmap) : ℕ :=
  if hm.hmV = 4 then (hash4 hm.hmOsrcip6.i60 hm.hmOdstip6.i60).toNat else (hash6 hm.hmOsrcip6 hm.hmOdstip6).toNat

/-- The bucket that is right for a host map. -/
def Softn.place (w : Softn) (x : ℕ) : ℕ := (w.hm x).hash % w.hostmapSz

/-- Two host maps are for the same rule, addresses and port. -/
def Hostmap.Same (a b : Hostmap) : Prop :=
  a.hmV = b.hmV ∧ a.hmIpnat = b.hmIpnat ∧ a.hmPort = b.hmPort ∧
    if a.hmV = 4 then a.hmOsrcip6.i60 = b.hmOsrcip6.i60 ∧ a.hmOdstip6.i60 = b.hmOdstip6.i60
    else a.hmOsrcip6 = b.hmOsrcip6 ∧ a.hmOdstip6 = b.hmOdstip6

theorem Hostmap.Same.symm {a c : Hostmap} (h : a.Same c) : c.Same a := by
  obtain ⟨h1, h2, h3, h4⟩ := h
  refine ⟨h1.symm, h2.symm, h3.symm, ?_⟩
  by_cases hv : a.hmV = 4
  · rw [if_pos hv] at h4
    rw [if_pos (h1.symm.trans hv)]
    exact ⟨h4.1.symm, h4.2.symm⟩
  · rw [if_neg hv] at h4
    rw [if_neg fun hc => hv (h1.trans hc)]
    exact ⟨h4.1.symm, h4.2.symm⟩

/-- The places that hold a rule. -/
noncomputable def Softn.ruleTotal (w : Softn) (others : ℕ → ℕ) (n : ℕ) : ℕ :=
  holders {x | x ∈ w.alloc} (fun x => some (w.hm x).hmIpnat) n + others n

/-- **Host maps are where they are looked for.** `B` are the buckets, `held` are the references to host maps that the callers
have, and `others` those to rules that are not from host maps. The loop of `ipf_nat6_hostmap` needs `order`: a host map of
version 6 is behind those in front of it in its bucket on the list of all host maps, too. -/
structure Good (w : Softn) (B : ℕ → List ℕ) (held others : ℕ → ℕ) : Prop where
  size : 0 < w.hostmapSz
  table : Rep w.maptable B
  list : Rep w.maplist fun _ => w.alloc
  bucket : ∀ b x, x ∈ B b ↔ x ∈ w.alloc ∧ w.place x = b
  stored : ∀ x ∈ w.alloc, (w.hm x).hmHv.toNat % w.hostmapSz = w.place x
  stored4 : ∀ x ∈ w.alloc, (w.hm x).hmV = 4 → (w.hm x).hmHv.toNat = (w.hm x).hash
  version : ∀ x ∈ w.alloc, (w.hm x).hmV = 4 ∨ (w.hm x).hmV = 6
  single : ∀ x ∈ w.alloc, ∀ y ∈ w.alloc, (w.hm x).Same (w.hm y) → x = y
  refs : Counted (· ∈ w.alloc) (fun x => (w.hm x).hmRef) held
  rules : Counted (fun n => w.live n = true) w.inUse (w.ruleTotal others)
  order : ∀ b, (B b).Pairwise fun x y => (w.hm y).hmV = 6 → [x, y] <+ w.alloc

/-- A reference more, or less. -/
def also (held : ℕ → ℕ) (o : Option ℕ) (y : ℕ) : ℕ := held y + if o = some y then 1 else 0

def less (held : ℕ → ℕ) (x y : ℕ) : ℕ := held y - if y = x then 1 else 0

theorem also_none (held : ℕ → ℕ) : also held none = held := by
  funext y
  simp [also]

theorem Good.nodup (h : Good w B held others) : w.alloc.Nodup := h.list.nodup ()

theorem Good.length_le (h : Good w B held others) (b : ℕ) : (B b).length ≤ w.alloc.length :=
  (subperm_of_subset (h.table.nodup b) fun _ hx => ((h.bucket b _).1 hx).1).length_le

/-- A pair of a list, as the list is split at the first of both. -/
theorem split_pair {α : Type} {l : List α} {x y : α} (h : [x, y] <+ l) : ∃ l₁ l₂, l = l₁ ++ x :: l₂ ∧
    y ∈ l₂ := by
  obtain ⟨r₁, r₂, rfl, hx, hy⟩ := cons_sublist_iff.1 h
  obtain ⟨s, t, rfl⟩ := append_of_mem hx
  exact ⟨s, t ++ r₂, by simp, mem_append_right _ (singleton_sublist.1 hy)⟩

/-! ## References -/

theorem addRef_hm (w : Softn) (x y : ℕ) (k : ℤ) :
    (w.updHm x (.addRef k)).hm y = { w.hm y with hmRef := (w.hm y).hmRef + if y = x then k else 0 } := by
  unfold Softn.updHm
  dsimp only
  by_cases hy : y = x
  · rw [hy, update_self, if_pos rfl]
    rfl
  · rw [update_of_ne hy, if_neg hy, add_zero]

theorem addRef_place (w : Softn) (x y : ℕ) (k : ℤ) : (w.updHm x (.addRef k)).place y = w.place y := by
  unfold Softn.place
  rw [addRef_hm]
  rfl

/-- A change of references alone. -/
theorem Good.recount (h : Good w B held others) {k : ℤ} {held' : ℕ → ℕ}
    (hrefs : Counted (· ∈ w.alloc) (fun y => (w.hm y).hmRef + if y = x then k else 0) held') :
    Good (w.updHm x (.addRef k)) B held' others where
  size := h.size
  table := h.table
  list := h.list
  bucket b y := by
    rw [addRef_place]
    exact h.bucket b y
  stored y hy := by
    rw [addRef_place, addRef_hm]
    exact h.stored y hy
  stored4 y hy := by
    rw [addRef_hm]
    exact h.stored4 y hy
  version y hy := by
    rw [addRef_hm]
    exact h.version y hy
  single y hy z hz hsame := by
    rw [addRef_hm, addRef_hm] at hsame
    exact h.single y hy z hz hsame
  refs := by
    simp only [addRef_hm]
    exact hrefs
  rules := by
    refine h.rules.congr (fun _ => Iff.rfl) (fun _ _ => rfl) fun m => ?_
    unfold Softn.ruleTotal
    rw [holders_congr (p := fun y => some (w.hm y).hmIpnat) fun y _ => ?_]
    · rfl
    · rw [addRef_hm]
  order b := (h.order b).imp fun {y z} hyz hz => by
    rw [addRef_hm] at hz
    exact hyz hz

/-- **A host map that is found** has one reference more. -/
theorem Good.addRef (h : Good w B held others) (hx : x ∈ w.alloc) :
    Good (w.updHm x (.addRef 1)) B (also held (some x)) others := by
  refine h.recount (h.refs.take hx (fun _ => Iff.rfl) (fun _ _ => rfl) fun y => ?_)
  unfold also
  simp only [Option.some.injEq, eq_comm]

/-- A rule that another place holds, or does not hold any more. -/
theorem Good.rule (h : Good w B held others) {inUse' : ℕ → ℤ} {live' : ℕ → Bool} {others' : ℕ → ℕ}
    (hrules : Counted (fun n => live' n = true) inUse' (w.ruleTotal others')) :
    Good { w with inUse := inUse', live := live' } B held others' :=
  ⟨h.size, h.table, h.list, h.bucket, h.stored, h.stored4, h.version, h.single, h.refs, hrules, h.order⟩

/-! ## A new host map -/

/-- **A new host map** in its own bucket. -/
theorem Good.create (h : Good w B held others) (hm : Hostmap) (hx : x ∉ w.alloc) (hn : w.live n = true)
    (hrule : hm.hmIpnat = n) (href : hm.hmRef = 1) (hv : hm.hmV = 4 ∨ hm.hmV = 6)
    (hstored : hm.hmHv.toNat % w.hostmapSz = hm.hash % w.hostmapSz) (hstored4 : hm.hmV = 4 → hm.hmHv.toNat = hm.hash)
    (hnew : ∀ y ∈ w.alloc, ¬hm.Same (w.hm y)) :
    ∃ B', Good (w.create (hm.hash % w.hostmapSz) n x hm) B' (also held (some x)) others := by
  have hne : ∀ y ∈ w.alloc, y ≠ x := fun y hy hc => hx (hc ▸ hy)
  have hnotin : ∀ b, x ∉ B b := fun b hb => hx ((h.bucket b x).1 hb).1
  have hself : (w.create (hm.hash % w.hostmapSz) n x hm).hm x = hm := by simp [Softn.create]
  have hother : ∀ y, y ≠ x → (w.create (hm.hash % w.hostmapSz) n x hm).hm y = w.hm y := by
    intro y hy
    simp [Softn.create, hy]
  have hplace : ∀ y, y ≠ x → (w.create (hm.hash % w.hostmapSz) n x hm).place y = w.place y := by
    intro y hy
    unfold Softn.place
    rw [hother y hy]
    rfl
  have hplaceself : (w.create (hm.hash % w.hostmapSz) n x hm).place x = hm.hash % w.hostmapSz := by
    unfold Softn.place
    rw [hself]
    rfl
  have hcases : ∀ y, y ∈ (w.create (hm.hash % w.hostmapSz) n x hm).alloc ↔ y = x ∨ y ∈ w.alloc := fun y => mem_cons
  refine ⟨_, h.size, h.table.push hnotin (hm.hash % w.hostmapSz), ?_, ?_, ?_, ?_, ?_, ?_, ?_, ?_, ?_⟩
  · have hpush := h.list.push (fun _ => hx) ()
    refine fun u => ?_
    have hu := hpush u
    rwa [update_self] at hu
  · intro b y
    rw [hcases]
    by_cases hy : y = x
    · rw [hy, hplaceself]
      by_cases hb : hm.hash % w.hostmapSz = b
      · rw [hb, update_self]
        simp
      · rw [update_of_ne (Ne.symm hb)]
        simp [hb, hnotin]
    · rw [hplace y hy]
      by_cases hb : b = hm.hash % w.hostmapSz
      · subst hb
        rw [update_self, mem_cons, h.bucket]
        tauto
      · rw [update_of_ne hb, h.bucket]
        tauto
  · intro y hy
    by_cases hyx : y = x
    · rw [hyx, hself, hplaceself]
      exact hstored
    · rw [hother y hyx, hplace y hyx]
      exact h.stored y (((hcases y).1 hy).resolve_left hyx)
  · intro y hy
    by_cases hyx : y = x
    · rw [hyx, hself]
      exact hstored4
    · rw [hother y hyx]
      exact h.stored4 y (((hcases y).1 hy).resolve_left hyx)
  · intro y hy
    by_cases hyx : y = x
    · rw [hyx, hself]
      exact hv
    · rw [hother y hyx]
      exact h.version y (((hcases y).1 hy).resolve_left hyx)
  · -- no host map of the table is the same, so the new one stays the only one
    intro y hy z hz hsame
    by_cases hyx : y = x
    · by_cases hzx : z = x
      · rw [hyx, hzx]
      · rw [hyx, hself, hother z hzx] at hsame
        exact absurd hsame (hnew z (((hcases z).1 hz).resolve_left hzx))
    · by_cases hzx : z = x
      · rw [hzx, hself, hother y hyx] at hsame
        exact absurd hsame.symm (hnew y (((hcases y).1 hy).resolve_left hyx))
      · rw [hother y hyx, hother z hzx] at hsame
        exact h.single y (((hcases y).1 hy).resolve_left hyx) z (((hcases z).1 hz).resolve_left hzx) hsame
  · refine h.refs.make hx (fun y => ?_) ?_ (fun y hy hya => ?_) fun y => ?_
    · rw [hcases, or_comm]
    · rw [hself, href]
    · rw [hother y hy]
    · unfold also
      simp only [Option.some.injEq, eq_comm]
  · refine h.rules.take hn (fun _ => Iff.rfl) (fun m _ => ?_) fun m => ?_
    · change update w.inUse n (w.inUse n + 1) m = _
      by_cases hm' : m = n
      · rw [hm', update_self, if_pos rfl]
      · rw [update_of_ne hm', if_neg hm', add_zero]
    · have hset : {y | y ∈ (w.create (hm.hash % w.hostmapSz) n x hm).alloc} = insert x {y | y ∈ w.alloc} := by
        ext y
        exact hcases y
      unfold Softn.ruleTotal
      rw [hset, holders_insert (p := fun y => some (w.hm y).hmIpnat) w.alloc.finite_toSet hx
        fun y hy => by rw [hother y (hne y hy)],
        hself, hrule]
      simp only [Option.some.injEq, eq_comm]
      omega
  · -- the new host map is in front of all others in its bucket, and on the list
    intro b
    have hold : (B b).Pairwise fun y z => ((w.create (hm.hash % w.hostmapSz) n x hm).hm z).hmV = 6 →
        [y, z] <+ x :: w.alloc := by
      refine (h.order b).imp_of_mem fun {y z} _ hz hyz hz6 => ?_
      rw [hother z fun hzx => hnotin b (hzx ▸ hz)] at hz6
      exact (hyz hz6).cons x
    by_cases hb : b = hm.hash % w.hostmapSz
    · subst hb
      rw [update_self, pairwise_cons]
      exact ⟨fun y hy _ => cons_sublist_cons.2 (singleton_sublist.2 ((h.bucket _ y).1 hy).1), hold⟩
    · rw [update_of_ne hb]
      exact hold

/-! ## A host map less -/

theorem ruleDeref_eq (hn : w.live n = true) : ipfNatRuleDeref w n = some { w with
    inUse := update w.inUse n (w.inUse n + -1)
    live := if w.inUse n + -1 > 0 then w.live else update w.live n false } := by
  unfold ipfNatRuleDeref
  have huse : (w.addUse n (-1)).inUse n = w.inUse n + -1 := update_self ..
  rw [hn, if_neg (by simp)]
  dsimp only
  by_cases hpos : w.inUse n + -1 > 0
  · rw [if_pos (huse ▸ hpos), if_pos hpos]
    rfl
  · rw [if_neg (huse ▸ hpos), if_neg hpos]
    rfl

/-- **A place less** holds a rule. -/
theorem rule_drop {total total' : ℕ → ℕ} (hr : Counted (fun n => w.live n = true) w.inUse total)
    (htotal : ∀ m, total m = total' m + if m = n then 1 else 0) :
    w.live n = true ∧ ∀ w', ipfNatRuleDeref w n = some w' → Counted (fun n => w'.live n = true) w'.inUse total' := by
  have hpos : 0 < total n := by
    rw [htotal, if_pos rfl]
    omega
  have hn : w.live n = true := (hr.pos n).2 hpos
  have hexact := hr.exact n hn
  refine ⟨hn, fun w' hw' => ?_⟩
  rw [ruleDeref_eq hn] at hw'
  cases hw'
  dsimp only
  refine hr.drop htotal (fun m _ => ?_) fun m => ?_
  · by_cases hm : m = n
    · rw [hm, update_self, if_pos rfl]
      omega
    · rw [update_of_ne hm, if_neg hm, sub_zero]
  · by_cases hm : m = n
    · subst hm
      split
      · simp only [hn, true_and, true_implies, true_iff]
        omega
      · rw [update_self]
        simp only [Bool.false_eq_true, hn, true_and, true_implies, false_iff, not_not]
        omega
    · split
      · simp [hm]
      · rw [update_of_ne hm]
        simp [hm]

theorem bypass_eq {H : Type} [DecidableEq H] {m : Mem H ℕ} {L : H → List ℕ} {h : H} (hr : Rep m L) (hx : x ∈ L h) :
    ∃ m', bypass m x = some m' ∧ Rep m' fun g => (L g).filter (· ≠ x) := by
  obtain ⟨l₁, l₂, e⟩ := append_of_mem hx
  rw [← hr.update_eq_filter e]
  have hp : m.pnext x = some (lastLink (.head h) l₁) := hr.pnext e
  unfold bypass
  rw [hp]
  exact ⟨_, rfl, hr.remove e rfl m.bypass_removed⟩

/-- **A reference is given back,** and the host map goes with the last one. -/
theorem Good.hostmapdel (h : Good w B held others) (hx : 0 < held x) :
    ∃ w', ipfNatHostmapdel w x = some w' ∧ ∃ B', Good w' B' (less held x) others := by
  have hxa : x ∈ w.alloc := (h.refs.pos x).2 hx
  have hexact := h.refs.exact x hxa
  have htotal : ∀ y, held y = less held x y + if y = x then 1 else 0 := by
    intro y
    unfold less
    by_cases hy : y = x
    · rw [hy, if_pos rfl]
      omega
    · rw [if_neg hy]
      omega
  have href : ((w.updHm x (.addRef (-1))).hm x).hmRef = (w.hm x).hmRef - 1 := by
    rw [addRef_hm, if_pos rfl]
    rfl
  unfold ipfNatHostmapdel
  rw [if_neg (not_not.2 hxa)]
  dsimp only
  -- the last reference: the host map leaves its bucket and the list
  by_cases hone : (w.hm x).hmRef = 1
  · rw [if_pos (by rw [href, hone]; rfl)]
    obtain ⟨t, ht, htable⟩ := bypass_eq h.table ((h.bucket (w.place x) x).2 ⟨hxa, rfl⟩)
    obtain ⟨l, hl, hlist⟩ := bypass_eq (h := ()) h.list hxa
    have herase : w.alloc.erase x = w.alloc.filter (· ≠ x) := by
      rw [h.nodup.erase_eq_filter]
      exact filter_congr fun y _ => by by_cases hy : y = x <;> simp [hy]
    rw [← herase] at hlist
    have hmem : ∀ y, y ∈ w.alloc.erase x ↔ y ∈ w.alloc ∧ y ≠ x := fun y => by
      rw [h.nodup.mem_erase_iff, and_comm]
    have hrule : ((w.updHm x (.addRef (-1))).hm x).hmIpnat = (w.hm x).hmIpnat := by rw [addRef_hm]
    -- its rule has one holder less
    have hholders : ∀ m, w.ruleTotal others m =
        (holders {y | y ∈ w.alloc.erase x} (fun y => some ((w.updHm x (.addRef (-1))).hm y).hmIpnat) m + others m) +
          if m = (w.hm x).hmIpnat then 1 else 0 := by
      intro m
      have hset : {y | y ∈ w.alloc.erase x} = {y | y ∈ w.alloc} \ {x} := by
        ext y
        exact hmem y
      have he := holders_erase (S := {y | y ∈ w.alloc}) (p := fun y => some (w.hm y).hmIpnat)
        (q := fun y => some ((w.updHm x (.addRef (-1))).hm y).hmIpnat) (b := m) w.alloc.finite_toSet hxa
        fun y _ _ => by rw [addRef_hm]
      have hiff : (some (w.hm x).hmIpnat = some m) = (m = (w.hm x).hmIpnat) := by
        exact propext (Option.some_inj.trans eq_comm)
      rw [← hset] at he
      simp only [hiff] at he
      unfold Softn.ruleTotal
      omega
    obtain ⟨hlive, hdrop⟩ := rule_drop (w := w.updHm x (.addRef (-1))) h.rules hholders
    have hderef := ruleDeref_eq hlive
    have hrules := hdrop _ hderef
    rw [hrule, hderef]
    dsimp only [Option.bind_eq_bind, Option.bind_some]
    change ∃ w', ((bypass w.maptable x).bind fun _ => _) = some w' ∧ _
    rw [ht]
    dsimp only [Option.bind_some]
    change ∃ w', ((bypass w.maplist x).bind fun _ => _) = some w' ∧ _
    rw [hl]
    refine ⟨_, rfl, _, h.size, htable, hlist, fun b y => ?_, fun y hy => ?_, fun y hy => ?_, fun y hy => ?_,
      fun y hy z hz hs => ?_, ?_, hrules, fun b => ?_⟩
    · change _ ↔ y ∈ w.alloc.erase x ∧ (w.updHm x (.addRef (-1))).place y = b
      rw [addRef_place, hmem, mem_filter, h.bucket]
      simp only [ne_eq, decide_eq_true_eq]
      tauto
    · change ((w.updHm x (.addRef (-1))).hm y).hmHv.toNat % w.hostmapSz = (w.updHm x (.addRef (-1))).place y
      rw [addRef_place, addRef_hm]
      exact h.stored y ((hmem y).1 hy).1
    · change ((w.updHm x (.addRef (-1))).hm y).hmV = 4 → ((w.updHm x (.addRef (-1))).hm y).hmHv.toNat = _
      rw [addRef_hm]
      exact h.stored4 y ((hmem y).1 hy).1
    · change ((w.updHm x (.addRef (-1))).hm y).hmV = 4 ∨ ((w.updHm x (.addRef (-1))).hm y).hmV = 6
      rw [addRef_hm]
      exact h.version y ((hmem y).1 hy).1
    · change ((w.updHm x (.addRef (-1))).hm y).Same ((w.updHm x (.addRef (-1))).hm z) at hs
      rw [addRef_hm, addRef_hm] at hs
      exact h.single y ((hmem y).1 hy).1 z ((hmem z).1 hz).1 hs
    · refine h.refs.drop htotal (fun y hy => ?_) fun y => ?_
      · change ((w.updHm x (.addRef (-1))).hm y).hmRef = _
        rw [addRef_hm]
        dsimp only
        split <;> omega
      · exact (hmem y).trans (and_congr_right fun _ => by simp [hone])
    · refine ((h.order b).filter _).imp_of_mem fun {y z} hy hz hyz hz6 => ?_
      have hyx : y ≠ x := by simpa using (List.mem_filter.1 hy).2
      have hzx : z ≠ x := by simpa using (List.mem_filter.1 hz).2
      change ((w.updHm x (.addRef (-1))).hm z).hmV = 6 at hz6
      rw [addRef_hm] at hz6
      have hsub := (hyz hz6).erase x
      rwa [erase_of_not_mem (by simp [Ne.symm hyx, Ne.symm hzx])] at hsub
  · rw [if_neg (by omega)]
    exact ⟨_, rfl, B, h.recount (h.refs.drop htotal (fun y _ => by split <;> omega) fun y => by simp [hone])⟩

/-! ## A new table -/

/-- The loop of `ipf_nat_hostmap_rehash` puts each host map at the front of the bucket of its stored hash value. -/
theorem rehashLoop_rep : ∀ {i : ℕ} {o : Option ℕ} {w : Softn} {B : ℕ → List ℕ}, Spells w.maplist.next o l →
    l.length ≤ i → Rep w.maptable B → l.Nodup → (∀ x ∈ l, ∀ b, x ∉ B b) →
    ∃ t, rehashLoop i o w = some { w with maptable := t } ∧
      Rep t fun b => (l.filter fun x => (w.hm x).hmHv.toNat % w.hostmapSz = b).reverse ++ B b := by
  induction l with
  | nil =>
    intro i o w B hs _ hr _ _
    have ho : o = none := hs
    subst ho
    refine ⟨w.maptable, by cases i <;> rfl, hr⟩
  | cons x l ih =>
    intro i o w B hs hi hr hnd hout
    obtain ⟨rfl, hs⟩ := hs
    obtain ⟨j, rfl⟩ : ∃ j, i = j + 1 := ⟨i - 1, by simp at hi; omega⟩
    rw [nodup_cons] at hnd
    have hpush := hr.push (hout x mem_cons_self) ((w.hm x).hmHv.toNat % w.hostmapSz)
    obtain ⟨t, ht, hrep⟩ :=
      ih (i := j) (w := { w with maptable := w.maptable.link x (.head ((w.hm x).hmHv.toNat % w.hostmapSz)) })
      hs (by simpa using hi) hpush hnd.2 fun y hy b => by
        have hyx : y ≠ x := fun hc => hnd.1 (hc ▸ hy)
        by_cases hb : b = (w.hm x).hmHv.toNat % w.hostmapSz
        · rw [hb, update_self, mem_cons, not_or]
          exact ⟨hyx, hout y (mem_cons_of_mem _ hy) _⟩
        · rw [update_of_ne hb]
          exact hout y (mem_cons_of_mem _ hy) b
    refine ⟨t, ht, ?_⟩
    refine fun b => ?_
    have hb := hrep b
    dsimp only at hb
    dsimp only
    rw [filter_cons]
    by_cases hx : (w.hm x).hmHv.toNat % w.hostmapSz = b
    · rw [if_pos (decide_eq_true hx), reverse_cons, append_assoc]
      rw [← hx, update_self] at hb
      rw [← hx]
      exact hb
    · rw [if_neg (by simpa using hx)]
      rwa [update_of_ne (Ne.symm hx)] at hb

/-- For a host map of version 6, the hash value that is stored is as good as the full one in a table of this size, where
the host map has no older one in its bucket: the loop of `ipf_nat_hostmap_rehash` puts that one in front. -/
def Softn.Rehashable (w : Softn) (size : ℕ) : Prop :=
  ∀ l₁ x l₂, w.alloc = l₁ ++ x :: l₂ → (w.hm x).hmV = 6 → (w.hm x).hmHv.toNat % size = (w.hm x).hash % size ∧
    ∀ y ∈ l₂, (w.hm y).hash % size ≠ (w.hm x).hash % size

/-- **The table gets another size.** -/
theorem Good.rehash (h : Good w B held others) {size : ℕ} {nomem : Bool} (hsize : 0 < size)
    (hcalm : size = w.hostmapSz ∨ nomem = true ∨ w.Rehashable size) :
    ∃ w', ipfNatHostmapRehash w size nomem = some w' ∧ ∃ B', Good w' B' held others := by
  unfold ipfNatHostmapRehash
  by_cases hquiet : size = w.hostmapSz ∨ nomem = true
  · rw [if_pos hquiet]
    exact ⟨w, rfl, B, h⟩
  · have hr : w.Rehashable size := (or_assoc.2 hcalm).resolve_left hquiet
    rw [if_neg hquiet]
    have hall : ∀ x ∈ w.alloc, (w.hm x).hmHv.toNat % size = (w.hm x).hash % size := by
      intro x hx
      rcases h.version x hx with hv | hv
      · rw [h.stored4 x hx hv]
      · obtain ⟨l₁, l₂, hsplit⟩ := append_of_mem hx
        exact (hr l₁ x l₂ hsplit hv).1
    have hempty : Rep ({ w.maptable with head := fun _ => none } : Mem ℕ ℕ) fun _ => [] := fun _ => ⟨trivial, rfl⟩
    have hspell := spells_seg (h.list ())
    obtain ⟨t, ht, hrep⟩ := rehashLoop_rep (w := { w with
      maptable := { w.maptable with head := fun _ => none }, hostmapSz := size }) hspell le_rfl hempty h.nodup
        fun _ _ _ => by simp
    refine ⟨_, ht, _, hsize, hrep, h.list, fun b x => ?_, hall, h.stored4, h.version, h.single, h.refs, h.rules,
      fun b => ?_⟩
    · change _ ↔ x ∈ w.alloc ∧ (w.hm x).hash % size = b
      rw [append_nil, mem_reverse, mem_filter, decide_eq_true_eq]
      exact and_congr_right fun hx => by rw [hall x hx]
    · -- the buckets are turned round, which leaves a host map of version 6 where it is
      rw [append_nil, pairwise_reverse, pairwise_filter]
      refine pairwise_iff_forall_sublist.2 fun {x y} hxy hx hy hx6 => ?_
      obtain ⟨l₁, l₂, hsplit, hyl⟩ := split_pair hxy
      have hxa : x ∈ w.alloc := by simp [hsplit]
      have hya : y ∈ w.alloc := by simp [hsplit, hyl]
      rw [decide_eq_true_eq] at hx hy
      dsimp only at hx hy
      rw [hall x hxa] at hx
      rw [hall y hya] at hy
      exact absurd (hy.trans hx.symm) ((hr l₁ x l₂ hsplit hx6).2 y hyl)

/-! ## Requests -/

/-- A host map of version `v` that fits. -/
def Softn.Has (w : Softn) (v : ℕ) (fits : Hostmap → Bool) (x : ℕ) : Prop :=
  x ∈ w.alloc ∧ (w.hm x).hmV = v ∧ fits (w.hm x) = true

/-- **What a request should do,** in the version `v` with the hash value `hash`: the loop stays in the bucket; a host map that
exists is returned with a reference more, and nothing else changes; one that does not exist is made. -/
structure Answered {α : Type} (w : Softn) (r : Request α) (v hash : ℕ) (fits : Hostmap → Bool)
    (reply : Softn × List ℕ × Option ℕ) : Prop where
  visited : ∀ x ∈ reply.2.1, x ∈ w.alloc ∧ w.place x = hash % w.hostmapSz
  found : (∃ x, w.Has v fits x) → ∃ x, w.Has v fits x ∧ reply.2.2 = some x ∧ reply.1 = w.updHm x (.addRef 1)
  made : (¬∃ x, w.Has v fits x) → ∀ n x old, r.np = some n → r.new = some (x, old) → ∃ hm, hm.hmIpnat = n ∧
    hm.hmV = v ∧
    fits hm = true ∧ hm.hmRef = 1 ∧ reply.2.2 = some x ∧ reply.1 = w.create (hash % w.hostmapSz) n x hm
  nothing : (¬∃ x, w.Has v fits x) → r.np = none ∨ r.new = none → reply.2.2 = none ∧ reply.1 = w

/-- What is stored in a new host map is what was asked for. -/
structure Fills {α : Type} (w : Softn) (r : Request α) (v hash : ℕ) (fits : Hostmap → Bool) (n : ℕ) (hm : Hostmap) :
    Prop where
  rule : hm.hmIpnat = n
  ref : hm.hmRef = 1
  version : hm.hmV = v
  value : hm.hash = hash
  stored : hm.hmHv.toNat % w.hostmapSz = hash % w.hostmapSz
  stored4 : hm.hmV = 4 → hm.hmHv.toNat = hm.hash
  fit : fits hm = true
  same : ∀ a, hm.Same a → fits a = true

/-- **A request,** whose loop goes over the list `l`. -/
theorem Good.request {α : Type} (hg : Good w B held others) {r : Request α} {v hash : ℕ} {fits : Hostmap → Bool}
    {fill : ℕ → Hostmap → Hostmap} (hv : v = 4 ∨ v = 6)
    (hl : Spells next (w.maptable.head (hash % w.hostmapSz)) l) (hlen : l.length ≤ w.alloc.length)
    (hstay : ∀ x ∈ l.takeWhile (fun x => !fits (w.hm x)), x ∈ w.alloc ∧ w.place x = hash % w.hostmapSz)
    (hfirst : ∀ x, l.find? (fun x => fits (w.hm x)) = some x → w.Has v fits x ∧ w.place x = hash % w.hostmapSz)
    (hmiss : l.find? (fun x => fits (w.hm x)) = none → ¬∃ x, w.Has v fits x)
    (hrule : ∀ n, r.np = some n → w.live n = true) (hnew : ∀ x old, r.new = some (x, old) → x ∉ w.alloc)
    (hfill : ∀ n old, r.np = some n → Fills w r v hash fits n (fill n old)) :
    ∃ reply, w.request r (hash % w.hostmapSz) next fits fill = some reply ∧ Answered w r v hash fits reply ∧
      ∃ B', Good reply.1 B' (also held reply.2.2) others := by
  have hwalk := walk_eq (fun x => fits (w.hm x)) hl hlen
  unfold Softn.request
  rw [if_neg (Nat.not_le.2 (Nat.mod_lt _ hg.size)), hwalk]
  cases hfind : l.find? fun x => fits (w.hm x) with
  | some x =>
    dsimp only
    obtain ⟨hhas, hplace⟩ := hfirst x hfind
    refine ⟨_, rfl, ⟨fun y hy => ?_, fun _ => ⟨x, hhas, rfl, rfl⟩, fun hno => absurd ⟨x, hhas⟩ hno,
      fun hno => absurd ⟨x, hhas⟩ hno⟩, B, hg.addRef hhas.1⟩
    rcases mem_append.1 hy with hy | hy
    · exact hstay y hy
    · have hyx : y = x := by simpa using hy
      rw [hyx]
      exact ⟨hhas.1, hplace⟩
  | none =>
    have hno := hmiss hfind
    dsimp only
    rw [Option.toList_none, append_nil]
    cases hnp : r.np with
    | none =>
      refine ⟨_, rfl, ⟨hstay, fun hc => absurd hc hno, fun _ n x old hn => ?_, fun _ _ => ⟨rfl, rfl⟩⟩, B, ?_⟩
      · rw [hnp] at hn
        cases hn
      · rw [also_none]
        exact hg
    | some n =>
      cases hmem : r.new with
      | none =>
        refine ⟨_, rfl, ⟨hstay, fun hc => absurd hc hno, fun _ n x old _ hn => ?_, fun _ _ => ⟨rfl, rfl⟩⟩, B, ?_⟩
        · rw [hmem] at hn
          cases hn
        · rw [also_none]
          exact hg
      | some p =>
        obtain ⟨x, old⟩ := p
        have hf := hfill n old hnp
        have hcreate := hg.create (fill n old) (hnew x old hmem) (hrule n hnp) hf.rule hf.ref (by rw [hf.version]; exact hv)
          (by rw [hf.stored, hf.value]) hf.stored4 fun y hy hsame =>
            hno ⟨y, hy, hsame.1.symm.trans hf.version, hf.same _ hsame⟩
        rw [hf.value] at hcreate
        refine ⟨_, rfl, ⟨hstay, fun hc => absurd hc hno, fun _ m z o hm hz => ?_, fun _ hc => ?_⟩, hcreate⟩
        · rw [hnp] at hm
          rw [hmem] at hz
          cases hm
          cases hz
          exact ⟨_, hf.rule, hf.version, hf.fit, hf.ref, rfl, rfl⟩
        · rw [hnp, hmem] at hc
          rcases hc with hc | hc <;> cases hc

theorem fits4_iff {hm : Hostmap} {r : Request Word} : hm.fits4 r = true ↔ hm.hmOsrcip6.i60 = r.src ∧
    hm.hmOdstip6.i60 = r.dst ∧
    (r.np = none ∨ r.np = some hm.hmIpnat) ∧ (r.port = 0 ∨ r.port = hm.hmPort) := by
  simp [Hostmap.fits4, Hostmap.serves, and_assoc]

theorem fits6_iff {hm : Hostmap} {r : Request I6addr} : hm.fits6 r = true ↔ hm.hmOsrcip6 = r.src ∧ hm.hmOdstip6 = r.dst ∧
    (r.np = none ∨ r.np = some hm.hmIpnat) ∧ (r.port = 0 ∨ r.port = hm.hmPort) := by
  simp [Hostmap.fits6, Hostmap.serves, Masks.ip6Eq_iff, and_assoc]

/-- In the bucket of an IPv4 request, each host map of the other version that passes the tests is behind one of IPv4 that
passes them. -/
def Calm4 (w : Softn) (r : Request Word) : Prop :=
  ∀ B, Rep w.maptable B → ∀ l₁ x l₂, B ((hash4 r.src r.dst).toNat % w.hostmapSz) = l₁ ++ x :: l₂ →
    (w.hm x).fits4 r = true → (w.hm x).hmV ≠ 4 → ∃ y ∈ l₁, (w.hm y).hmV = 4 ∧ (w.hm y).fits4 r = true

/-- The constant and the size of the table give the same bucket for an IPv6 request. And on the list of all host maps, from
the first one `x` of the bucket on, the host maps of other buckets, and those of the other version that pass the tests, are
behind one of IPv6 that passes them. -/
structure Calm6 (w : Softn) (r : Request I6addr) : Prop where
  bucket : (hash6 r.src r.dst).toNat % HOSTMAP_SIZE w.largeNat = (hash6 r.src r.dst).toNat % w.hostmapSz
  order : ∀ l₁ x l₂, w.alloc = l₁ ++ x :: l₂ → w.maptable.head ((hash6 r.src r.dst).toNat % w.hostmapSz) =
    some x →
    ∀ m₁ y m₂, x :: l₂ = m₁ ++ y :: m₂ →
      w.place y ≠ (hash6 r.src r.dst).toNat % w.hostmapSz ∨ (w.hm y).fits6 r = true ∧ (w.hm y).hmV ≠ 6 →
      ∃ z ∈ m₁, (w.hm z).hmV = 6 ∧ (w.hm z).fits6 r = true

/-- A request of a caller: the rule exists, and `KMALLOC` returns new memory. -/
structure Request.Legal {α : Type} (r : Request α) (w : Softn) : Prop where
  rule : ∀ n, r.np = some n → w.live n = true
  new : ∀ x old, r.new = some (x, old) → x ∉ w.alloc

/-- **A request of IPv4.** -/
theorem Good.hostmap (hg : Good w B held others) {r : Request Word} (hr : r.Legal w) (hc : Calm4 w r) :
    ∃ reply, ipfNatHostmap w r = some reply ∧ Answered w r 4 (hash4 r.src r.dst).toNat (·.fits4 r) reply ∧
      ∃ B', Good reply.1 B' (also held reply.2.2) others := by
  have hl := spells_seg (hg.table ((hash4 r.src r.dst).toNat % w.hostmapSz))
  unfold ipfNatHostmap
  dsimp only
  refine hg.request (.inl rfl) hl (hg.length_le _) (fun x hx => ?_) (fun x hx => ?_) (fun hnone => ?_) hr.rule hr.new
    fun n old hn => ?_
  · exact (hg.bucket _ x).1 ((takeWhile_sublist _).mem hx)
  · obtain ⟨hxa, hplace⟩ := (hg.bucket _ x).1 (mem_of_find?_eq_some hx)
    obtain ⟨hfits, l₁, l₂, hsplit, hno⟩ := find?_eq_some_iff_append.1 hx
    refine ⟨⟨hxa, by_contra fun hv => ?_, hfits⟩, hplace⟩
    -- a host map of the other version would be behind one that fits, too
    obtain ⟨y, hy, -, hyfits⟩ := hc B hg.table l₁ x l₂ hsplit hfits hv
    simpa [hyfits] using hno y hy
  · rintro ⟨x, hxa, hv, hfits⟩
    obtain ⟨hsrc, hdst, -⟩ := fits4_iff.1 hfits
    have hplace : w.place x = (hash4 r.src r.dst).toNat % w.hostmapSz := by
      unfold Softn.place Hostmap.hash
      rw [if_pos hv, hsrc, hdst]
    have hno := find?_eq_none.1 hnone x ((hg.bucket _ x).2 ⟨hxa, hplace⟩)
    exact hno hfits
  · refine ⟨rfl, rfl, rfl, ?_, rfl, fun _ => ?_, ?_, fun a ha => ?_⟩
    · rfl
    · rfl
    · rw [fits4_iff]
      exact ⟨rfl, rfl, .inr hn, .inr rfl⟩
    · obtain ⟨-, h2, h3, h4⟩ := ha
      rw [if_pos rfl] at h4
      rw [fits4_iff, ← h2, ← h3]
      exact ⟨h4.1.symm, h4.2.symm, .inr hn, .inr rfl⟩

/-- What is in front of an element that `takeWhile` takes is taken. -/
theorem takeWhile_split {α : Type} {p : α → Bool} {l : List α} {x : α} (hx : x ∈ l.takeWhile p) :
    ∃ m₁ m₂, l = m₁ ++ x :: m₂ ∧ ∀ z ∈ m₁, p z = true := by
  obtain ⟨m₁, m₂, hm⟩ := append_of_mem hx
  refine ⟨m₁, m₂ ++ l.dropWhile p, ?_, fun z hz => ?_⟩
  · calc l = l.takeWhile p ++ l.dropWhile p := takeWhile_append_dropWhile.symm
      _ = m₁ ++ x :: (m₂ ++ l.dropWhile p) := by rw [hm, append_assoc, cons_append]
  · exact mem_takeWhile_imp (hm ▸ mem_append_left _ hz)

/-- **The loop of `ipf_nat6_hostmap`** starts at the first host map of the bucket and goes on in the list of all. It comes to
every host map of the bucket that is of version 6. -/
theorem Good.spells6 (hg : Good w B held others) (b : ℕ) : ∃ l, Spells w.maplist.next (w.maptable.head b) l ∧
    l.length ≤ w.alloc.length ∧ (∀ x ∈ l, x ∈ w.alloc) ∧
      (∀ x l₂, l = x :: l₂ → ∃ l₁, w.alloc = l₁ ++ x :: l₂) ∧
    ∀ x ∈ B b, (w.hm x).hmV = 6 → x ∈ l := by
  have hhead := (hg.table b).head?
  rw [head_get] at hhead
  rw [hhead]
  cases hB : B b with
  | nil => exact ⟨[], rfl, Nat.zero_le _, nofun, nofun, nofun⟩
  | cons x t =>
    have hxB : x ∈ B b := by
      rw [hB]
      exact mem_cons_self
    obtain ⟨l₁, l₂, e⟩ := append_of_mem ((hg.bucket _ x).1 hxB).1
    have hs := hg.list ()
    rw [e] at hs
    have hrest := spells_seg hs.rest
    refine ⟨x :: l₂, ⟨rfl, hrest.2⟩, ?_, fun y hy => ?_, fun y l₃ hy => ?_, fun y hy hy6 => ?_⟩
    · rw [e, length_append]
      omega
    · rw [e]
      exact mem_append_right _ hy
    · cases hy
      exact ⟨l₁, e⟩
    · rcases mem_cons.1 hy with rfl | hyt
      · exact mem_cons_self
      · -- it is behind the first one of its bucket
        have horder := hg.order b
        rw [hB, pairwise_cons] at horder
        obtain ⟨r₁, r₂, hr, hyr⟩ := split_pair (horder.1 y hyt hy6)
        have hnd := hg.nodup
        rw [e] at hr hnd
        obtain ⟨-, hnd₂, hdisj⟩ := nodup_append.1 hnd
        have hx₁ : x ∉ l₁ := fun hx => hdisj x hx x mem_cons_self rfl
        rw [((append_cons_inj_of_notMem hx₁ (nodup_cons.1 hnd₂).1).1 hr).2.2]
        exact mem_cons_of_mem _ hyr

/-- **A request of IPv6.** -/
theorem Good.hostmap6 (hg : Good w B held others) {r : Request I6addr} (hr : r.Legal w) (hc : Calm6 w r) :
    ∃ reply, ipfNat6Hostmap w r = some reply ∧ Answered w r 6 (hash6 r.src r.dst).toNat (·.fits6 r) reply ∧
      ∃ B', Good reply.1 B' (also held reply.2.2) others := by
  obtain ⟨l, hl, hlen, hmem, hsplit, hreach⟩ := hg.spells6 ((hash6 r.src r.dst).toNat % w.hostmapSz)
  unfold ipfNat6Hostmap
  dsimp only
  rw [hc.bucket]
  have hhash : ∀ hm : Hostmap, hm.hmV = 6 → hm.fits6 r = true → hm.hash = (hash6 r.src r.dst).toNat := by
    intro hm hv hfits
    obtain ⟨hsrc, hdst, -⟩ := fits6_iff.1 hfits
    unfold Hostmap.hash
    rw [if_neg (by omega), hsrc, hdst]
  have hplace : ∀ x, w.Has 6 (·.fits6 r) x → w.place x = (hash6 r.src r.dst).toNat % w.hostmapSz := by
    rintro x ⟨-, hv, hfits⟩
    unfold Softn.place
    rw [hhash _ hv hfits]
  -- one of another bucket, or version, would be behind one that fits
  have hcalm : ∀ m₁ y m₂, l = m₁ ++ y :: m₂ → (∀ z ∈ m₁, (w.hm z).fits6 r = false) →
      w.place y = (hash6 r.src r.dst).toNat % w.hostmapSz ∧ ((w.hm y).fits6 r = true → (w.hm y).hmV = 6) := by
    intro m₁ y m₂ hm hno
    cases l with
    | nil => simp at hm
    | cons x l₂ =>
      obtain ⟨l₁, halloc⟩ := hsplit x l₂ rfl
      have hbad := hc.order l₁ x l₂ halloc hl.1 m₁ y m₂ hm
      refine ⟨by_contra fun hp => ?_, fun hfits => by_contra fun hv => ?_⟩
      · obtain ⟨z, hz, -, hzfits⟩ := hbad (.inl hp)
        exact absurd hzfits (by simp [hno z hz])
      · obtain ⟨z, hz, -, hzfits⟩ := hbad (.inr ⟨hfits, hv⟩)
        exact absurd hzfits (by simp [hno z hz])
  refine hg.request (.inr rfl) hl hlen (fun x hx => ?_) (fun x hx => ?_) (fun hnone => ?_) hr.rule hr.new fun n old hn => ?_
  · obtain ⟨m₁, m₂, hm, hno⟩ := takeWhile_split hx
    exact ⟨hmem x ((takeWhile_sublist _).mem hx), (hcalm m₁ x m₂ hm fun z hz => by simpa using hno z hz).1⟩
  · obtain ⟨hfits, m₁, m₂, hm, hno⟩ := find?_eq_some_iff_append.1 hx
    have hx' := hcalm m₁ x m₂ hm fun z hz => by simpa using hno z hz
    exact ⟨⟨hmem x (mem_of_find?_eq_some hx), hx'.2 hfits, hfits⟩, hx'.1⟩
  · rintro ⟨x, hx⟩
    have hxl := hreach x ((hg.bucket _ x).2 ⟨hx.1, hplace x hx⟩) hx.2.1
    exact find?_eq_none.1 hnone x hxl hx.2.2
  · refine ⟨rfl, rfl, rfl, rfl, ?_, fun hc => ?_, ?_, fun a ha => ?_⟩
    · have hlt : (hash6 r.src r.dst).toNat % w.hostmapSz < 2 ^ 32 := lt_of_le_of_lt (Nat.mod_le _ _) (BitVec.isLt _)
      change ((hash6 r.src r.dst).toNat % w.hostmapSz % 2 ^ 32) % w.hostmapSz = _
      rw [Nat.mod_eq_of_lt hlt, Nat.mod_mod]
    · have h64 : (6 : ℕ) = 4 := hc
      cases h64
    · rw [fits6_iff]
      exact ⟨rfl, rfl, .inr hn, .inr rfl⟩
    · obtain ⟨-, h2, h3, h4⟩ := ha
      rw [if_neg (by simp)] at h4
      rw [fits6_iff, ← h2, ← h3]
      exact ⟨h4.1.symm, h4.2.symm, .inr hn, .inr rfl⟩

/-! ## What an answer shows -/

/-- **A request that is answered as it should be** looked at host maps of its bucket only, and found one of its version. -/
theorem Answered.walked {α : Type} {r : Request α} {v hash : ℕ} {fits : Hostmap → Bool}
    {fill : ℕ → Hostmap → Hostmap} {reply : Softn × List ℕ × Option ℕ} (ha : Answered w r v hash fits reply)
    (hr : r.Legal w) (hl : Spells next (w.maptable.head (hash % w.hostmapSz)) l) (hlen : l.length ≤ w.alloc.length)
    (hmem : ∀ x ∈ l, x ∈ w.alloc) (hs : w.request r (hash % w.hostmapSz) next fits fill = some reply)
    {m₁ m₂ : List ℕ} (hm : l = m₁ ++ x :: m₂) (hno : ∀ y ∈ m₁, fits (w.hm y) = false) :
    w.place x = hash % w.hostmapSz ∧ (fits (w.hm x) = true → (w.hm x).hmV = v) := by
  have hwalk := walk_eq (fun x => fits (w.hm x)) hl hlen
  have htake : l.takeWhile (fun y => !fits (w.hm y)) = m₁ ++ (x :: m₂).takeWhile fun y => !fits (w.hm y) := by
    rw [hm]
    exact takeWhile_append_of_pos fun y hy => by simp [hno y hy]
  have hfind : l.find? (fun y => fits (w.hm y)) = (x :: m₂).find? fun y => fits (w.hm y) := by
    rw [hm, find?_append, find?_eq_none.2 fun y hy => by simp [hno y hy]]
    rfl
  unfold Softn.request at hs
  split at hs
  · cases hs
  · rw [hwalk, htake, hfind] at hs
    by_cases hfits : fits (w.hm x) = true
    · rw [find?_cons_of_pos (p := fun y => fits (w.hm y)) hfits] at hs
      cases hs
      refine ⟨(ha.visited x (by simp)).2, fun _ => ?_⟩
      by_cases hhas : ∃ y, w.Has v fits y
      · obtain ⟨y, hy, hxy, -⟩ := ha.found hhas
        cases hxy
        exact hy.2.1
      · -- a host map that was made is new
        by_cases hnone : r.np = none ∨ r.new = none
        · cases (ha.nothing hhas hnone).1
        · obtain ⟨n, hn⟩ := Option.ne_none_iff_exists'.1 fun h => hnone (.inl h)
          obtain ⟨⟨z, old⟩, hz⟩ := Option.ne_none_iff_exists'.1 fun h => hnone (.inr h)
          obtain ⟨_, -, -, -, -, hxz, -⟩ := ha.made hhas n z old hn hz
          cases hxz
          exact absurd (hmem x (by simp [hm])) (hr.new x old hz)
    · have hvis : x ∈ reply.2.1 := by
        rw [takeWhile_cons_of_pos (by simpa using hfits)] at hs
        cases hf : (x :: m₂).find? fun y => fits (w.hm y) with
        | some y =>
          rw [hf] at hs
          cases hs
          simp
        | none =>
          rw [hf] at hs
          dsimp only at hs
          split at hs
          · cases hs
            simp
          · cases hs
            simp
      exact ⟨(ha.visited x hvis).2, fun hc => absurd hc hfits⟩

/-- So a host map of another bucket, or one of the other version that passes the tests, is behind one that was found. -/
theorem Answered.behind {α : Type} {r : Request α} {v hash : ℕ} {fits : Hostmap → Bool}
    {fill : ℕ → Hostmap → Hostmap} {reply : Softn × List ℕ × Option ℕ} (ha : Answered w r v hash fits reply)
    (hr : r.Legal w) (hl : Spells next (w.maptable.head (hash % w.hostmapSz)) l) (hlen : l.length ≤ w.alloc.length)
    (hmem : ∀ x ∈ l, x ∈ w.alloc) (hs : w.request r (hash % w.hostmapSz) next fits fill = some reply)
    {m₁ m₂ : List ℕ} (hm : l = m₁ ++ x :: m₂)
    (hx : w.place x ≠ hash % w.hostmapSz ∨ fits (w.hm x) = true ∧ (w.hm x).hmV ≠ v) :
    ∃ z ∈ m₁, (w.hm z).hmV = v ∧ fits (w.hm z) = true := by
  cases hf : m₁.find? fun z => fits (w.hm z) with
  | some z =>
    obtain ⟨hz, a, b, hsplit, hno⟩ := find?_eq_some_iff_append.1 hf
    have hlz : l = a ++ z :: (b ++ x :: m₂) := by rw [hm, hsplit, append_assoc, cons_append]
    exact ⟨z, mem_of_find?_eq_some hf, (ha.walked hr hl hlen hmem hs hlz fun y hy => by simpa using hno y hy).2 hz, hz⟩
  | none =>
    obtain ⟨hplace, hv⟩ := ha.walked hr hl hlen hmem hs hm fun y hy => by simpa using find?_eq_none.1 hf y hy
    rcases hx with hp | ⟨hfits, hn⟩
    · exact absurd hplace hp
    · exact absurd (hv hfits) hn

/-- **The conditions are necessary:** requests that are answered as they should be meet them. -/
theorem Good.hostmap_calm (hg : Good w B held others) {r : Request Word} (hr : r.Legal w)
    {reply : Softn × List ℕ × Option ℕ} (hs : ipfNatHostmap w r = some reply)
    (ha : Answered w r 4 (hash4 r.src r.dst).toNat (·.fits4 r) reply) : Calm4 w r := by
  intro B' hB' l₁ x l₂ hsplit hfits hv
  have hl := spells_seg (hB' ((hash4 r.src r.dst).toNat % w.hostmapSz))
  have hB : B' ((hash4 r.src r.dst).toNat % w.hostmapSz) = B ((hash4 r.src r.dst).toNat % w.hostmapSz) :=
    (hB' _).unique (hg.table _)
  refine ha.behind hr hl ?_ (fun y hy => ?_) hs hsplit (.inr ⟨hfits, hv⟩)
  · rw [hB]
    exact hg.length_le _
  · rw [hB] at hy
    exact ((hg.bucket _ y).1 hy).1

theorem Good.hostmap6_calm (hg : Good w B held others) {r : Request I6addr} (hr : r.Legal w)
    {reply : Softn × List ℕ × Option ℕ}
    (hbucket : (hash6 r.src r.dst).toNat % HOSTMAP_SIZE w.largeNat = (hash6 r.src r.dst).toNat % w.hostmapSz)
    (hs : ipfNat6Hostmap w r = some reply) (ha : Answered w r 6 (hash6 r.src r.dst).toNat (·.fits6 r) reply) : Calm6 w r := by
  refine ⟨hbucket, fun l₁ x l₂ halloc hhead m₁ y m₂ hm hy => ?_⟩
  have hl := hg.list ()
  rw [halloc] at hl
  unfold ipfNat6Hostmap at hs
  dsimp only at hs
  rw [hbucket] at hs
  refine ha.behind hr (l := x :: l₂) ?_ ?_ (fun z hz => ?_) hs hm hy
  · rw [hhead]
    exact ⟨rfl, (spells_seg hl.rest).2⟩
  · rw [halloc, length_append]
    omega
  · rw [halloc]
    exact mem_append_right _ hz

/-! ## Runs -/

/-- What callers do: a request names a rule that exists, a host map is given back by somebody who has a reference to it, a
table has at least one bucket (the tunable is at least 1), and rules are loaded once and given back by those who hold them. -/
def Legal (w : Softn) (held others : ℕ → ℕ) : Op → Prop
  | .hostmap r => r.Legal w
  | .hostmap6 r => r.Legal w
  | .hostmapdel x => 0 < held x
  | .rehash newsize _ => 0 < newsize
  | .load n => w.live n = false
  | .hold n => w.live n = true
  | .release n => 0 < others n

/-- **The steps that go right.** -/
def Calm (w : Softn) : Op → Prop
  | .hostmap r => Calm4 w r
  | .hostmap6 r => Calm6 w r
  | .rehash newsize nomem => newsize = w.hostmapSz ∨ nomem = true ∨ w.Rehashable newsize
  | _ => True

/-- What a step should do, beside keeping the table. -/
def Replied (w : Softn) (reply : Softn × List ℕ × Option ℕ) : Op → Prop
  | .hostmap r => Answered w r 4 (hash4 r.src r.dst).toNat (·.fits4 r) reply
  | .hostmap6 r => Answered w r 6 (hash6 r.src r.dst).toNat (·.fits6 r) reply
  | _ => True

/-- The references to host maps after a step that returned `o`. -/
def heldAfter (held : ℕ → ℕ) (o : Option ℕ) : Op → ℕ → ℕ
  | .hostmapdel x => less held x
  | _ => also held o

/-- The other references to rules after a step. -/
def othersAfter (others : ℕ → ℕ) : Op → ℕ → ℕ
  | .load n => also others (some n)
  | .hold n => also others (some n)
  | .release n => less others n
  | _ => others

/-- **Runs** whose steps are legal and meet a condition `C`. -/
inductive Run (C : Softn → Op → Prop) (w₀ : Softn) : Softn → (ℕ → ℕ) → (ℕ → ℕ) → Prop
  | start : Run C w₀ w₀ (fun _ => 0) fun _ => 0
  | step {w w' : Softn} {held others : ℕ → ℕ} {op : Op} {visited : List ℕ} {o : Option ℕ} :
      Run C w₀ w held others →
      Legal w held others op → C w op → Hostmaps.step w op = some (w', visited, o) →
      Run C w₀ w' (heldAfter held o op) (othersAfter others op)

theorem good_init (largeNat : Bool) {size : ℕ} (hsize : 0 < size) (hm : ℕ → Hostmap) :
    Good (Hostmaps.init largeNat size hm) (fun _ => []) (fun _ => 0) fun _ => 0 := by
  refine ⟨hsize, fun _ => ⟨trivial, rfl⟩, fun _ => ⟨trivial, rfl⟩, ?_, ?_, ?_, ?_, ?_, ?_, ?_, fun _ => .nil⟩
  · simp [Hostmaps.init]
  · simp [Hostmaps.init]
  · simp [Hostmaps.init]
  · simp [Hostmaps.init]
  · simp [Hostmaps.init]
  · exact ⟨by simp [Hostmaps.init], by simp [Hostmaps.init]⟩
  · have hzero : ∀ n, (Hostmaps.init largeNat size hm).ruleTotal (fun _ => 0) n = 0 := fun n => by
      simp [Softn.ruleTotal, Hostmaps.init, holders]
    exact ⟨by simp [Hostmaps.init], fun n => by rw [hzero]; simp [Hostmaps.init]⟩

/-- One reference to a rule more. -/
theorem ruleTotal_also (w : Softn) (others : ℕ → ℕ) (n m : ℕ) :
    w.ruleTotal (also others (some n)) m = w.ruleTotal others m + if m = n then 1 else 0 := by
  unfold Softn.ruleTotal also
  simp only [Option.some.injEq, eq_comm]
  omega

/-- **A step** that goes right. -/
theorem Good.step (h : Good w B held others) {op : Op} (hl : Legal w held others op) (hc : Calm w op) :
    ∃ reply, Hostmaps.step w op = some reply ∧ Replied w reply op ∧
      ∃ B', Good reply.1 B' (heldAfter held reply.2.2 op) (othersAfter others op) := by
  cases op with
  | hostmap r => exact h.hostmap hl hc
  | hostmap6 r => exact h.hostmap6 hl hc
  | hostmapdel x =>
    obtain ⟨w', hw', B', hg⟩ := h.hostmapdel hl
    unfold Hostmaps.step
    dsimp only
    rw [hw']
    exact ⟨_, rfl, trivial, B', hg⟩
  | rehash newsize nomem =>
    obtain ⟨w', hw', B', hg⟩ := h.rehash hl hc
    unfold Hostmaps.step
    dsimp only
    rw [hw']
    refine ⟨_, rfl, trivial, B', ?_⟩
    change Good w' B' (also held none) others
    rw [also_none]
    exact hg
  | load n =>
    have hdead : ¬w.live n = true := by
      have hl' : w.live n = false := hl
      simp [hl']
    refine ⟨_, rfl, trivial, B, ?_⟩
    change Good { w with inUse := update w.inUse n 1, live := update w.live n true } B (also held none)
      (also others (some n))
    rw [also_none]
    refine h.rule (h.rules.make hdead (fun m => ?_) (update_self ..) (fun m hm _ => update_of_ne hm ..)
      (ruleTotal_also w others n))
    by_cases hm : m = n
    · simp [hm]
    · simp [hm]
  | hold n =>
    refine ⟨_, rfl, trivial, B, ?_⟩
    change Good { w with inUse := update w.inUse n (w.inUse n + 1), live := w.live } B (also held none)
      (also others (some n))
    rw [also_none]
    refine h.rule (h.rules.take hl (fun _ => Iff.rfl) (fun m _ => ?_) (ruleTotal_also w others n))
    by_cases hm : m = n
    · rw [hm, update_self, if_pos rfl]
    · rw [update_of_ne hm, if_neg hm, add_zero]
  | release n =>
    have htotal : ∀ m, w.ruleTotal others m = w.ruleTotal (less others n) m + if m = n then 1 else 0 := by
      intro m
      have hpos : 0 < others n := hl
      unfold Softn.ruleTotal less
      by_cases hm : m = n
      · rw [hm, if_pos rfl]
        omega
      · rw [if_neg hm]
        omega
    obtain ⟨hlive, hdrop⟩ := rule_drop h.rules htotal
    have hrules := hdrop _ (ruleDeref_eq hlive)
    unfold Hostmaps.step
    dsimp only
    rw [ruleDeref_eq hlive]
    refine ⟨_, rfl, trivial, B, ?_⟩
    change Good _ B (also held none) (less others n)
    rw [also_none]
    exact h.rule hrules

/-- What the table should be in a state, and what the next step should do. -/
def Right (w : Softn) (held others : ℕ → ℕ) (C : Softn → Op → Prop) : Prop :=
  (∃ B, Good w B held others) ∧ ∀ op, Legal w held others op → C w op →
    ∃ reply, Hostmaps.step w op = some reply ∧ Replied w reply op

theorem run_good {largeNat : Bool} {size : ℕ} {hm : ℕ → Hostmap} (hsize : 0 < size)
    (hr : Run Calm (Hostmaps.init largeNat size hm) w held others) : ∃ B, Good w B held others := by
  induction hr with
  | start => exact ⟨_, good_init largeNat hsize hm⟩
  | step _ hl hc hs ih =>
    obtain ⟨B, hg⟩ := ih
    obtain ⟨reply, hreply, -, B', hg'⟩ := hg.step hl hc
    rw [hs] at hreply
    cases hreply
    exact ⟨B', hg'⟩

/-- Requests that are answered as they should be are calm; those of IPv6 where both ways to reduce the hash value agree. -/
def Exact (w : Softn) : Prop :=
  (∀ r : Request Word, r.Legal w → ∀ reply, ipfNatHostmap w r = some reply →
    Answered w r 4 (hash4 r.src r.dst).toNat (·.fits4 r) reply → Calm4 w r) ∧
  ∀ r : Request I6addr, r.Legal w →
    (hash6 r.src r.dst).toNat % HOSTMAP_SIZE w.largeNat = (hash6 r.src r.dst).toNat % w.hostmapSz →
    ∀ reply, ipfNat6Hostmap w r = some reply → Answered w r 6 (hash6 r.src r.dst).toNat (·.fits6 r) reply → Calm6 w r

/-- **Host maps are found again** in every run of calm steps. -/
theorem hostmaps_found (largeNat : Bool) (size : ℕ) (hm : ℕ → Hostmap) (hsize : 0 < size) (w : Softn)
    (held others : ℕ → ℕ) (hr : Run Calm (Hostmaps.init largeNat size hm) w held others) :
      Right w held others Calm ∧ Exact w := by
  obtain ⟨B, hg⟩ := run_good hsize hr
  refine ⟨⟨⟨B, hg⟩, fun op hl hc => ?_⟩, fun r hr reply => hg.hostmap_calm hr, fun r hr hb reply =>
    hg.hostmap6_calm hr hb⟩
  obtain ⟨reply, hs, hreply, -⟩ := hg.step hl hc
  exact ⟨reply, hs, hreply⟩

/-! ## Some requests -/

/-- What is in memory at first. -/
def blank : Hostmap := ⟨0, .zero, .zero, .zero, .zero, 0, 0, 0, 0⟩

/-- A request for rule 0, from `src` to the address 0. -/
def ask (src : I6addr) (x : ℕ) : Request I6addr := ⟨some 0, src, .zero, .zero, 0, some (x, blank)⟩

/-- The host map that this makes. -/
def asked (src : I6addr) (hv : Word) : Hostmap := ⟨0, src, .zero, .zero, .zero, 0, 1, hv, 6⟩

/-- No host maps, and rule 0. -/
def ruled : Softn :=
  { Hostmaps.init false 2047 fun _ => blank with
    inUse := update (fun _ => 0) 0 1
    live := update (fun _ => false) 0 true }

/-- The host map of ::1, in bucket 2. -/
def one : Softn := ruled.create 2 0 5 (asked ⟨0, 0, 0, 1⟩ 2)

/-- That of ::2, in bucket 4. -/
def two : Softn := one.create 4 0 6 (asked ⟨0, 0, 0, 2⟩ 4)

theorem ruled_run (C : Softn → Op → Prop) (hC : ∀ n, C (Hostmaps.init false 2047 fun _ => blank) (.load n)) :
    Run C (Hostmaps.init false 2047 fun _ => blank) ruled (also (fun _ => 0) none) (also (fun _ => 0) (some 0)) := by
  have hstep : Hostmaps.step (Hostmaps.init false 2047 fun _ => blank) (.load 0) = some (ruled, [], none) := rfl
  have hfresh : Legal (Hostmaps.init false 2047 fun _ => blank) (fun _ => 0) (fun _ => 0) (.load 0) := rfl
  exact .step .start hfresh (hC 0) hstep

theorem ask_legal {src : I6addr} {x : ℕ} (hlive : w.live 0 = true) (hx : x ∉ w.alloc) : (ask src x).Legal w := by
  refine ⟨fun n hn => ?_, fun y old hy => ?_⟩
  · cases hn
    exact hlive
  · cases hy
    exact hx

theorem ruled_calm {src : I6addr} {x : ℕ} : Calm6 ruled (ask src x) := by
  refine ⟨rfl, fun l₁ y l₂ hsplit => ?_⟩
  have hnil : ruled.alloc = [] := rfl
  rw [hnil] at hsplit
  simp at hsplit

theorem one_run {C : Softn → Op → Prop} (hr : Run C (Hostmaps.init false 2047 fun _ => blank) ruled (also (fun _ => 0) none)
    (also (fun _ => 0) (some 0))) (hC : C ruled (.hostmap6 (ask ⟨0, 0, 0, 1⟩ 5))) :
    Run C (Hostmaps.init false 2047 fun _ => blank) one (also (also (fun _ => 0) none) (some 5))
      (also (fun _ => 0) (some 0)) := by
  have hstep : Hostmaps.step ruled (.hostmap6 (ask ⟨0, 0, 0, 1⟩ 5)) = some (one, [], some 5) := rfl
  refine .step hr ?_ hC hstep
  exact ask_legal rfl (by simp [ruled, Hostmaps.init])

theorem two_run {C : Softn → Op → Prop} (hr : Run C (Hostmaps.init false 2047 fun _ => blank) one
    (also (also (fun _ => 0) none) (some 5)) (also (fun _ => 0) (some 0))) (hC : C one (.hostmap6 (ask ⟨0, 0, 0, 2⟩ 6))) :
    Run C (Hostmaps.init false 2047 fun _ => blank) two (also (also (also (fun _ => 0) none) (some 5)) (some 6))
      (also (fun _ => 0) (some 0)) := by
  have hstep : Hostmaps.step one (.hostmap6 (ask ⟨0, 0, 0, 2⟩ 6)) = some (two, [], some 6) := rfl
  refine .step hr ?_ hC hstep
  exact ask_legal rfl (by simp [one, ruled, Hostmaps.init, Softn.create])

/-- The bucket of ::2 is empty before its host map is made. -/
theorem one_calm : Calm6 one (ask ⟨0, 0, 0, 2⟩ 6) := by
  refine ⟨rfl, fun l₁ x l₂ _ hhead => ?_⟩
  have hempty : one.maptable.head ((hash6 ⟨0, 0, 0, 2⟩ .zero).toNat % one.hostmapSz) = none := by decide
  exact absurd (hempty.symm.trans hhead) nofun

/-- Two host maps that were made. -/
theorem hostmaps_found_two :
    Right two (also (also (also (fun _ => 0) none) (some 5)) (some 6)) (also (fun _ => 0) (some 0)) Calm ∧
    Exact two :=
  hostmaps_found false 2047 (fun _ => blank) (by decide) two _ _
    (two_run (one_run (ruled_run Calm fun _ => trivial) ruled_calm) one_calm)

/-- **A host map of another bucket is visited.** Host maps for ::1 and then ::2 are made, in the buckets 2 and 4. The request
for ::2:0:0, which is in bucket 4, finds ::2 there, and follows the list of all host maps to ::1. -/
theorem other_bucket_visited : ¬∀ (largeNat : Bool) (size : ℕ) (hm : ℕ → Hostmap), 0 < size →
    ∀ (w : Softn) (held others : ℕ → ℕ),
    Run (fun _ _ => True) (Hostmaps.init largeNat size hm) w held others → Right w held others fun _ _ => True := by
  intro hall
  have hone := one_run (ruled_run (fun _ _ => True) fun _ => trivial) trivial
  have htwo := two_run hone trivial
  obtain ⟨reply, hs, hr⟩ := (hall false 2047 (fun _ => blank) (by decide) _ _ _ htwo).2 (.hostmap6 (ask ⟨0, 0, 2, 0⟩ 7))
    (ask_legal rfl (by simp [two, one, ruled, Hostmaps.init, Softn.create])) trivial
  have hreply : Hostmaps.step two (.hostmap6 (ask ⟨0, 0, 2, 0⟩ 7)) =
      some (two.create 4 0 7 (asked ⟨0, 0, 2, 0⟩ 4), [6, 5], some 7) := rfl
  rw [hreply] at hs
  cases hs
  have hplace := (hr.visited 5 (by simp)).2
  exact absurd hplace (by decide)

end Ipfilter.Hostmaps
