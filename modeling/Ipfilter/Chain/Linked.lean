import Ipfilter.Chain.Lists

/-!
# Chains at some of the heads

Chains with back links at the heads in `T`; the other heads are memory that is used for something else, or not at all.

* `Linked`: the heads in `T` spell out their lists, with the back links that are stored.
* `Linked.insert`, `Linked.remove`: the edits of chains.
* `Linked.join`, `Linked.leave`, `Linked.move`: a head more, fewer heads, and a chain at another head.
-/

namespace Chain

open Function (update update_of_ne update_self)

variable {H N : Type} [DecidableEq H] {m m' : Mem H N} {T T' : List H} {L : H → List N} {h h' : H} {n : N}
  {l l₁ l₂ : List N} {k : Link H N}

/-- **The heads in `T` spell out their lists,** and back links agree. -/
def Linked (m : Mem H N) (T : List H) (L : H → List N) : Prop := Rep (ghost T m.pnext m) L

theorem Linked.lists (hl : Linked m T L) : Lists m T L := ⟨m.pnext, hl⟩

/-- A head in `T` and its chain. -/
theorem Linked.seg (hl : Linked m T L) (hh : h ∈ T) : Seg m (.head h) (L h) := by
  have hs := hl h
  refine hs.frame ?_ (fun _ _ => rfl) fun _ _ => rfl
  exact (if_pos hh).symm

theorem Linked.of_seg (hseg : ∀ h ∈ T, Seg m (.head h) (L h)) (hnil : ∀ h, h ∉ T → L h = []) : Linked m T L := by
  intro h
  by_cases hh : h ∈ T
  · refine (hseg h hh).frame ?_ (fun _ _ => rfl) fun _ _ => rfl
    exact if_pos hh
  · rw [hnil h hh]
    exact ⟨trivial, if_neg hh⟩

theorem Linked.nil : Linked m [] fun _ => [] := .of_seg (fun _ hh => by cases hh) fun _ _ => rfl

/-- Memory that is not looked at may change. -/
theorem Linked.congr (hl : Linked m T L) (hh : ∀ h ∈ T, m'.head h = m.head h)
    (hn : ∀ h, ∀ n ∈ L h, m'.next n = m.next n) (hp : ∀ h, ∀ n ∈ L h, m'.pnext n = m.pnext n) : Linked m' T L := by
  refine .of_seg (fun h hm => (hl.seg hm).frame (hh h hm) (hn h) (hp h)) fun h hm => ?_
  exact hl.lists.eq_nil hm

/-- The place of a node in its list. -/
theorem Linked.pnext (hl : Linked m T L) (e : L h = l₁ ++ n :: l₂) : m.pnext n = some (lastLink (.head h) l₁) := by
  have hs := (hl h).1
  rw [e] at hs
  exact hs.pnext_mem

/-- **A head more,** with an empty chain. -/
theorem Linked.join (hl : Linked m T L) (hh : h ∉ T) (hnone : m.head h = none) : Linked m (h :: T) L := by
  have hnil := hl.lists.eq_nil hh
  refine .of_seg (fun g hg => ?_) fun g hg => hl.lists.eq_nil fun hc => hg (List.mem_cons_of_mem _ hc)
  rcases List.mem_cons.1 hg with rfl | hg
  · rw [hnil]
    exact ⟨trivial, hnone⟩
  · exact hl.seg hg

/-- **Fewer heads:** the chains of those that are left out are empty. -/
theorem Linked.leave (hl : Linked m T L) (hsub : ∀ g ∈ T', g ∈ T) (hnil : ∀ g ∈ T, g ∉ T' → L g = []) :
    Linked m T' L := by
  refine .of_seg (fun g hg => hl.seg (hsub g hg)) fun g hg => ?_
  by_cases hgT : g ∈ T
  · exact hnil g hgT hg
  · exact hl.lists.eq_nil hgT

/-- An edit at a place of a chain does not see the other heads. -/
theorem ghost_get_ne {P P' : N → Option (Link H N)} {x : Link H N} (hx : m'.get x = m.get x) :
    (ghost T P' m').get x = (ghost T P m).get x := by
  cases x with
  | head g =>
    change (if g ∈ T then m'.head g else none) = if g ∈ T then m.head g else none
    rw [show m'.head g = m.head g from hx]
  | next y => exact hx

/-- **Insertion** at a place of a chain. -/
theorem Linked.insert (hl : Linked m T L) (hh : h ∈ T) (e : L h = l₁ ++ l₂) (hf : ∀ h, n ∉ L h)
    (hk : k = lastLink (.head h) l₁) (hm : Inserted m m' n k) : Linked m' T (update L h (l₁ ++ n :: l₂)) := by
  have hgk : (ghost T m.pnext m).get k = m.get k := by
    rw [hk]
    exact ghost_get hh l₁
  have hgk' : (ghost T m'.pnext m').get k = m'.get k := by
    rw [hk]
    exact ghost_get hh l₁
  refine Rep.insert hl e hf hk ⟨?_, fun hne => ?_, hm.back, fun x h1 h2 => ghost_get_ne (hm.get x h1 h2), fun y hy hyn => ?_,
    fun x hx hxn => ?_⟩
  · rw [hgk']
    exact hm.place
  · rw [hgk]
    exact hm.next hne
  · rw [hgk] at hy
    exact hm.succ y hy hyn
  · rw [hgk] at hx
    exact hm.pnext x hx hxn

/-- **Removal** of a node from its chain. -/
theorem Linked.remove (hl : Linked m T L) (hh : h ∈ T) (e : L h = l₁ ++ n :: l₂) (hk : k = lastLink (.head h) l₁)
    (hm : Removed m m' n k) : Linked m' T (update L h (l₁ ++ l₂)) := by
  have hgk' : (ghost T m'.pnext m').get k = m'.get k := by
    rw [hk]
    exact ghost_get hh l₁
  refine Rep.remove hl e hk ⟨fun hne => ?_, fun x h1 h2 => ghost_get_ne (hm.get x h1 h2), hm.succ, hm.pnext⟩
  rw [hgk']
  exact hm.place hne

variable [DecidableEq N]

/-- **A chain at another head,** after its first node is told. -/
theorem Linked.move (hl : Linked m T L) (hh : h ∈ T) (hh' : h' ∉ T) (e : L h = n :: l)
    (hsub : ∀ g, g ∈ T' ↔ g = h' ∨ g ∈ T ∧ g ≠ h) :
      Linked ((m.set (.head h') (m.head h)).setP n (some (.head h'))) T'
      (update (update L h []) h' (n :: l)) := by
  have hne : h ≠ h' := fun hc => hh' (hc ▸ hh)
  have hnd : n ∉ l := by
    have hnd := hl.lists.nodup h
    rw [e, List.nodup_cons] at hnd
    exact hnd.1
  refine .of_seg (fun g hg => ?_) fun g hg => ?_
  · by_cases hgh' : g = h'
    · have hs := hl.seg hh
      rw [e, seg_cons] at hs
      obtain ⟨h1, -, h3⟩ := hs
      rw [hgh', update_self, seg_cons]
      refine ⟨?_, by simp, h3.frame (by simp) (by simp) fun x hx => ?_⟩
      · rw [get_setP, get_set, if_pos rfl]
        exact h1
      · have hxn : x ≠ n := fun hc => hnd (hc ▸ hx)
        simp [hxn]
    · obtain ⟨hg, hgh⟩ := ((hsub g).1 hg).resolve_left hgh'
      rw [update_of_ne hgh', update_of_ne hgh]
      have hgh'' : ¬h' = g := Ne.symm hgh'
      refine (hl.seg hg).frame (by simp [hgh'']) (by simp) fun x hx => ?_
      have hxn : x ≠ n := by
        rintro rfl
        exact hl.lists.disjoint hgh hx (by rw [e]; exact List.mem_cons_self)
      simp [hxn]
  · rw [hsub, not_or] at hg
    rw [update_of_ne hg.1]
    by_cases hgh : g = h
    · rw [hgh, update_self]
    · rw [update_of_ne hgh]
      exact hl.lists.eq_nil fun hc => hg.2 ⟨hc, hgh⟩

end Chain
