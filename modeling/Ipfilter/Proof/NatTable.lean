import Ipfilter.Proof.NatLinks

/-!
# The accounts of the NAT table

`Acct w A O H` says that the list of all entries is `A`, the orphans are `O`, the chains of side `i` are `H i`, and
the counters count them.

* `Acct.keep`: the edits that leave all this alone;
* `Acct.enter`, `Acct.unlink`, `Acct.release`: an entry joins the table, becomes an orphan, is freed;
* `Acct.tame`, `Acct.move`: a wildcard entry gets its ports and goes to their chain;
* `rehash_acct`: the whole table is built again.

`run_tabled` puts them together for every run in which no entry is freed with a wildcard flag, no entry is cloned
and the moves empty a chain exactly when they start one.
-/

namespace Ipfilter.NatTab

open Chain Masks State List
open Function (update update_of_ne update_self)

/-! ## The invariant -/

/-- An entry with a wildcard flag. -/
def NatT.wild (nat : NatT) : Bool := has nat.natFlags SI_WILDP

/-- **The accounts of the table.** -/
structure Acct (w : Softn) (A O : List ℕ) (H : Bool → ℕ → List ℕ) : Prop extends Linked w A O H where
  side : ∀ i, Counted (w.side i) w.size.toNat (H i)
  orphans : w.orphans = O.length
  wilds : w.wilds = A.countP fun e => (w.nat e).wild
  proto : ∀ p, w.proto p = (A ++ O).countP fun e => (w.nat e).natPr false = p

variable {w w' : Softn} {A O : List ℕ} {H : Bool → ℕ → List ℕ} {e : ℕ}

/-! ## What leaves the accounts alone -/

/-- `w'` has the same lists and counters as `w`, and its entries the same hash values, flags and protocols. -/
structure Keeps (w w' : Softn) : Prop where
  list : w'.list = w.list
  side : w'.side = w.side
  size : w'.size = w.size
  active : w'.active = w.active
  orphans : w'.orphans = w.orphans
  wilds : w'.wilds = w.wilds
  proto : w'.proto = w.proto
  alloc : w'.alloc = w.alloc
  hv : ∀ e, w.alloc e = true → (w'.nat e).natHv = (w.nat e).natHv
  flags : ∀ e, w.alloc e = true → (w'.nat e).natFlags = (w.nat e).natFlags
  pr : ∀ e, w.alloc e = true → (w'.nat e).natPr = (w.nat e).natPr

theorem Acct.keep (h : Acct w A O H) (hk : Keeps w w') : Acct w' A O H where
  toLinked := h.toLinked.congr hk.list (fun i => by rw [hk.side]) hk.size hk.active hk.alloc fun e he =>
    hk.hv e ((h.alloc e).2 (.inl he))
  side := by rw [hk.side, hk.size]; exact h.side
  orphans := by rw [hk.orphans]; exact h.orphans
  wilds := by
    rw [hk.wilds, h.wilds]
    congr 1
    refine countP_congr fun e he => ?_
    rw [NatT.wild, NatT.wild, hk.flags e ((h.alloc e).2 (.inl he))]
  proto p := by
    rw [hk.proto, h.proto p]
    congr 1
    refine countP_congr fun e he => ?_
    rw [hk.pr e ((h.alloc e).2 (mem_append.1 he))]

/-- Changing other fields of an entry. -/
theorem keeps_upd (w : Softn) (e : ℕ) (f : NatT → NatT) (hhv : (f (w.nat e)).natHv = (w.nat e).natHv)
    (hflags : (f (w.nat e)).natFlags = (w.nat e).natFlags) (hpr : (f (w.nat e)).natPr = (w.nat e).natPr) :
    Keeps w (w.upd e f) := by
  refine ⟨rfl, rfl, rfl, rfl, rfl, rfl, rfl, rfl, fun x _ => ?_, fun x _ => ?_, fun x _ => ?_⟩
  all_goals
    by_cases hx : x = e
    · simp [Softn.upd, hx, hhv, hflags, hpr]
    · simp [Softn.upd, hx]

/-- Entries that are not allocated may have any contents. -/
theorem keeps_free (w : Softn) (he : w.alloc e = false) (nat : NatT) :
    Keeps w { w with nat := update w.nat e nat } := by
  refine ⟨rfl, rfl, rfl, rfl, rfl, rfl, rfl, rfl, fun x hx => ?_, fun x hx => ?_, fun x hx => ?_⟩
  all_goals
    have hxe : x ≠ e := fun hxe => by rw [hxe, he] at hx; exact Bool.false_ne_true hx
    simp [hxe]

theorem Keeps.trans {w'' : Softn} (h : Keeps w w') (h' : Keeps w' w'') : Keeps w w'' where
  list := h'.list.trans h.list
  side := h'.side.trans h.side
  size := h'.size.trans h.size
  active := h'.active.trans h.active
  orphans := h'.orphans.trans h.orphans
  wilds := h'.wilds.trans h.wilds
  proto := h'.proto.trans h.proto
  alloc := h'.alloc.trans h.alloc
  hv e he := (h'.hv e (by rw [h.alloc]; exact he)).trans (h.hv e he)
  flags e he := (h'.flags e (by rw [h.alloc]; exact he)).trans (h.flags e he)
  pr e he := (h'.pr e (by rw [h.alloc]; exact he)).trans (h.pr e he)

/-- The pointers behind `nat_me` are not part of the accounts. -/
theorem keeps_saved (w : Softn) (saved : ℕ → Option ℕ) : Keeps w { w with saved := saved } :=
  ⟨rfl, rfl, rfl, rfl, rfl, rfl, rfl, rfl, fun _ _ => rfl, fun _ _ => rfl, fun _ _ => rfl⟩

theorem keeps_unme (w : Softn) (e : ℕ) : Keeps w (unme w e) := by
  unfold unme
  cases (w.nat e).natMe with
  | none => exact ⟨rfl, rfl, rfl, rfl, rfl, rfl, rfl, rfl, fun _ _ => rfl, fun _ _ => rfl, fun _ _ => rfl⟩
  | some m => exact (keeps_upd w e _ rfl rfl rfl).trans (keeps_saved _ _)

/-! ## An entry joins the table -/

/-- **A new entry joins the list and a chain of each side.** -/
theorem Acct.enter (h : Acct w A O H) (he : w.alloc e = false) (hlist : w'.list = w.list.link e (.head ()))
    (hside : ∀ i, w'.side i = enterSide (w.side i) e (w.bucket ((w'.nat e).natHv i)))
    (hsize : w'.size = w.size) (halloc : w'.alloc = update w.alloc e true)
    (hnat : ∀ x ≠ e, w'.nat x = w.nat x) (hactive : w'.active = w.active + 1) (horphans : w'.orphans = w.orphans)
    (hwilds : w'.wilds = w.wilds + if (w'.nat e).wild then 1 else 0)
    (hproto : ∀ p, w'.proto p = w.proto p + if (w'.nat e).natPr false = p then 1 else 0) :
    Acct w' (e :: A) O fun i => pushed (H i) e (w.bucket ((w'.nat e).natHv i)) := by
  obtain ⟨heA, heO⟩ := h.fresh he
  have hneA : ∀ x ∈ A, x ≠ e := fun x hx hxe => heA (hxe ▸ hx)
  have hneO : ∀ x ∈ O, x ≠ e := fun x hx hxe => heO (hxe ▸ hx)
  have hout : ∀ i b, e ∉ H i b := fun i b hb => heA ((h.place i e b).1 hb).1
  refine ⟨h.toLinked.enter he hlist (fun i => by rw [hside i]; rfl) hsize halloc hnat hactive, ?_, ?_, ?_, ?_⟩
  · intro i
    rw [hside i, hsize]
    exact (h.side i).push (bucket_lt h.size _) (hout i) rfl rfl rfl
  · rw [horphans, h.orphans]
  · rw [hwilds, h.wilds, countP_cons]
    have hc : A.countP (fun x => (w'.nat x).wild) = A.countP fun x => (w.nat x).wild :=
      countP_congr fun x hx => by rw [hnat x (hneA x hx)]
    rw [hc]
    push_cast
    rfl
  · intro p
    have hc : (A ++ O).countP (fun x => (w'.nat x).natPr false = p) =
        (A ++ O).countP fun x => (w.nat x).natPr false = p := by
      refine countP_congr fun x hx => ?_
      rw [hnat x ((mem_append.1 hx).elim (hneA x) (hneO x))]
    rw [hproto p, h.proto p, cons_append, countP_cons, hc]
    simp

/-- An entry that could not be inserted leaves the table as it was. -/
theorem keeps_malloc_free (he : w.alloc e = false) (nat : NatT) (f : NatT → NatT) :
    Keeps w (((w.malloc e nat).upd e f).free e) := by
  have hk := keeps_free w he (f nat)
  refine ⟨rfl, rfl, rfl, rfl, rfl, rfl, rfl, ?_, ?_, ?_, ?_⟩
  · funext x
    by_cases hx : x = e
    · simp [Softn.free, hx, he]
    · simp [Softn.free, Softn.upd, Softn.malloc, hx]
  · simpa [Softn.free, Softn.upd, Softn.malloc] using hk.hv
  · simpa [Softn.free, Softn.upd, Softn.malloc] using hk.flags
  · simpa [Softn.free, Softn.upd, Softn.malloc] using hk.pr

/-- The place that gets the pointer is not part of the accounts. -/
theorem keeps_natsave (u : Softn) (natsave r : Option ℕ) : Keeps u (match natsave with
    | none => u
    | some m => { u with saved := update u.saved m r }) := by
  cases natsave with
  | none => exact keeps_saved u u.saved
  | some m => exact keeps_saved u _

/-- **`ipf_nat_add` keeps the accounts.** -/
theorem add_acct (M : Machine) (h : Acct w A O H) (he : w.alloc e = false) (nat : NatT) (natsave : Option ℕ)
    (ifps : Bool → Option ℕ) : ∃ A' H', Acct (ipfNatAdd M w e nat natsave ifps).1 A' O H' := by
  unfold ipfNatAdd
  dsimp only
  split
  · exact ⟨A, H, h⟩
  rename_i hroom
  unfold ipfNatInsert
  rcases hashtabAdd_cases (((w.malloc e ({ nat with natMe := natsave }.finalise M)).upd e
    fun nat => nat.insert ifps)) e with hadd | hadd
  · rw [hadd]
    exact ⟨A, H, (h.keep (keeps_malloc_free he _ _)).keep (keeps_natsave _ _ _)⟩
  · rw [hadd]
    suffices hs : ∃ H', Acct _ (e :: A) O H' from hs.elim fun H' hH' => ⟨e :: A, H', hH'.keep (keeps_natsave _ _ _)⟩
    refine ⟨_, h.enter he rfl (fun i => rfl) rfl rfl (fun x hx => ?_) rfl rfl ?_ ?_⟩
    · simp [Softn.upd, Softn.malloc, hx]
    · have hflags : ((({ nat with natMe := natsave } : NatT).finalise M).insert ifps).natFlags = nat.natFlags := rfl
      simp only [Softn.upd, Softn.malloc, update_self, NatT.wild, hflags]
      split <;> simp
    · intro p
      have hpr : ((({ nat with natMe := natsave } : NatT).finalise M).insert ifps).natPr = nat.natPr := rfl
      simp only [Softn.upd, Softn.malloc, update_self, hpr]
      by_cases hp : nat.natPr false = p
      · simp [hp]
      · simp [hp, Ne.symm hp]

/-! ## An entry leaves the table -/

/-- **An entry leaves the lists and becomes an orphan.** -/
theorem Acct.unlink (h : Acct w A O H) (he : e ∈ A) :
    Acct { unlink w e with orphans := w.orphans + 1 } (A.erase e) (e :: O) fun i =>
      pulled (H i) e (w.bucket ((w.nat e).natHv i)) := by
  refine ⟨(h.toLinked.unlink he).congr rfl (fun _ => rfl) rfl rfl rfl fun _ _ => rfl, ?_, ?_, ?_, ?_⟩
  · intro i
    obtain ⟨k, hk⟩ := h.side_pnext he i
    exact (h.side i).pull ((h.place i e _).2 ⟨he, rfl⟩) hk (Mem.cut_removed _ hk) rfl rfl
  · change w.orphans + 1 = _
    rw [h.orphans, length_cons]
    push_cast
    rfl
  · change (if has (w.nat e).natFlags SI_WILDP then w.wilds - 1 else w.wilds) = _
    change _ = ((A.erase e).countP fun x => (w.nat x).wild : ℤ)
    have hpos : (w.nat e).wild = true → 0 < A.countP fun x => (w.nat x).wild :=
      fun hw => countP_pos_iff.2 ⟨e, he, hw⟩
    rw [countP_erase, h.wilds]
    by_cases hw : has (w.nat e).natFlags SI_WILDP = true
    · have := hpos hw
      rw [if_pos hw, if_pos ⟨he, hw⟩]
      omega
    · rw [if_neg hw, if_neg (fun hc => hw hc.2), Nat.sub_zero]
  · intro p
    change w.proto p = ((A.erase e ++ e :: O).countP fun x => (w.nat x).natPr false = p : ℤ)
    rw [h.proto p]
    congr 1
    -- the entries are the same in another order
    apply List.Perm.countP_eq
    exact ((perm_cons_erase he).append_right O).trans List.perm_middle.symm

/-- **An orphan without a wildcard flag is freed.** -/
theorem Acct.release (h : Acct w A O H) (he : e ∈ O) (hw : (w.nat e).wild = false) :
    Acct (release w e false) A (O.erase e) H := by
  have hlen := length_pos_of_mem he
  have hneA : ∀ x ∈ A, x ≠ e := fun x hx hxe => h.disjoint e he (hxe ▸ hx)
  have hnat : ∀ x ≠ e, (NatTab.release w e false).nat x = w.nat x := fun x hx => by simp [NatTab.release, hx]
  refine ⟨h.toLinked.release he false, h.side, ?_, ?_, ?_⟩
  · change w.orphans - 1 = _
    rw [h.orphans, length_erase_of_mem he]
    omega
  · change (if (w.nat e).wild then w.wilds - 1 else w.wilds) = _
    rw [hw, if_neg Bool.false_ne_true, h.wilds]
    congr 1
    exact countP_congr fun x hx => by rw [hnat x (hneA x hx)]
  · intro p
    have hc : (A ++ O.erase e).countP (fun x => ((NatTab.release w e false).nat x).natPr false = p) =
        (A ++ O.erase e).countP fun x => (w.nat x).natPr false = p := by
      refine countP_congr fun x hx => ?_
      have hxe : x ≠ e := (mem_append.1 hx).elim (hneA x) fun hx => (h.nodup.mem_erase_iff.1 hx).1
      rw [hnat x hxe]
    have hpos : (w.nat e).natPr false = p → 0 < O.countP fun x => (w.nat x).natPr false = p :=
      fun hp => countP_pos_iff.2 ⟨e, he, by simpa using hp⟩
    rw [hc, countP_append, countP_erase]
    change update w.proto ((w.nat e).natPr false) _ p = _
    by_cases hp : (w.nat e).natPr false = p
    · have := hpos hp
      rw [hp, update_self, h.proto p, countP_append, if_pos ⟨he, decide_eq_true rfl⟩]
      omega
    · rw [update_of_ne (Ne.symm hp), h.proto p, countP_append, if_neg (fun hc => hp (of_decide_eq_true hc.2)),
        Nat.sub_zero]

/-- `ipf_nat_delete` frees the entry. -/
def Softn.frees (w : Softn) (e : ℕ) (destroy : Bool) : Prop := (w.nat e).others ≤ drops destroy

/-- **`ipf_nat_delete` keeps the accounts** if it does not free an entry with a wildcard flag. -/
theorem delete_acct (h : Acct w A O H) (he : w.alloc e = true) {destroy : Bool}
    (hw : w.frees e destroy → (w.nat e).wild = false) :
    ∃ w' A' O' H', ipfNatDelete w e destroy = some w' ∧ Acct w' A' O' H' := by
  obtain ⟨A', O', H', hu, hmem⟩ : ∃ A' O' H', Acct (orphaned w e) A' O' H' ∧ e ∈ O' := by
    unfold orphaned
    rcases (h.alloc e).1 he with heA | heO
    · obtain ⟨k, hk⟩ := h.pnext_some heA
      rw [if_neg (by simp [hk])]
      exact ⟨_, _, _, h.unlink heA, mem_cons_self⟩
    · rw [if_pos (h.orphan e heO)]
      exact ⟨A, O, H, h, heO⟩
  have hk := keeps_unme (orphaned w e) e
  refine ⟨_, A', if (w.nat e).others ≤ drops destroy then O'.erase e else O', H', delete_eq he destroy, ?_⟩
  by_cases hfree : (w.nat e).others ≤ drops destroy
  · rw [if_pos hfree, if_pos hfree]
    refine (hu.keep hk).release hmem ?_
    rw [NatT.wild, hk.flags e ((hu.alloc e).2 (.inr hmem)), orphaned_nat]
    exact hw hfree
  · rw [if_neg hfree, if_neg hfree]
    exact (hu.keep hk).keep (keeps_upd _ e _ rfl rfl rfl)

/-- **`ipf_nat_deref` keeps the accounts**, likewise. -/
theorem deref_acct (h : Acct w A O H) (he : w.alloc e = true)
    (hw : (w.nat e).natRef ≤ 1 → w.frees e false → (w.nat e).wild = false) :
    ∃ w' A' O' H', ipfNatDeref w e = some w' ∧ Acct w' A' O' H' := by
  unfold ipfNatDeref
  rw [if_neg (by simp [he])]
  by_cases href : (w.nat e).natRef > 1
  · rw [if_pos href]
    exact ⟨_, A, O, H, rfl, h.keep (keeps_upd w e _ rfl rfl rfl)⟩
  · rw [if_neg href]
    exact delete_acct h he (hw (not_lt.1 href))

/-! ## Lookups -/

/-- The entry is no wildcard any more. -/
theorem resolve_wild (nat : NatT) (out : Bool) (s d : BitVec 16) (ifp : Option ℕ) :
    (nat.resolve out s d ifp).wild = false := by
  obtain ⟨_, _, _, _, _, heq⟩ := resolve_keeps nat out s d ifp
  rw [heq, NatT.wild, has, BitVec.and_assoc]
  simp

/-- **A wildcard entry is one no more**, and is counted off. -/
theorem Acct.tame (h : Acct w A O H) (he : e ∈ A) {nat : NatT} (hw : (w.nat e).wild = true)
    (hhv : nat.natHv = (w.nat e).natHv) (hpr : nat.natPr = (w.nat e).natPr) (hnw : nat.wild = false) :
    Acct { w with wilds := w.wilds - 1, nat := update w.nat e nat } A O H := by
  refine ⟨h.toLinked.congr rfl (fun _ => rfl) rfl rfl rfl fun x _ => ?_, h.side, h.orphans, ?_, ?_⟩
  · by_cases hx : x = e
    · simp [hx, hhv]
    · simp [hx]
  · change w.wilds - 1 = (A.countP fun x => (update w.nat e nat x).wild : ℤ)
    obtain ⟨l₁, l₂, hl⟩ := append_of_mem he
    have hnd := h.nodup_list
    rw [hl] at hnd
    have hother : ∀ x ∈ l₁ ++ l₂, x ≠ e := by
      intro x hx hxe
      exact (nodup_cons.1 (nodup_middle.1 hnd)).1 (hxe ▸ hx)
    have hsame : ∀ l : List ℕ, (∀ x ∈ l, x ∈ l₁ ++ l₂) →
        l.countP (fun x => (update w.nat e nat x).wild) = l.countP fun x => (w.nat x).wild := by
      intro l hsub
      refine countP_congr fun x hx => ?_
      rw [update_of_ne (hother x (hsub x hx))]
    rw [h.wilds, hl, countP_append, countP_append, countP_cons, countP_cons,
      hsame l₁ fun x hx => mem_append_left _ hx, hsame l₂ fun x hx => mem_append_right _ hx]
    simp only [hw, update_self, hnw, if_true, Bool.false_eq_true, if_false]
    omega
  · intro p
    change w.proto p = _
    rw [h.proto p]
    congr 1
    refine countP_congr fun x hx => ?_
    by_cases hxe : x = e
    · simp [hxe, hpr]
    · simp [hxe]

/-- An entry goes to the chains of its ports. The chains in use are counted right if, on each side where the chain
changes, the entry was alone exactly when the new chain is empty. -/
theorem Acct.move (h : Acct w A O H) (he : e ∈ A) (hcl : has (w.nat e).natFlags SI_CLONE = false)
    (hcount : ∀ i, w.bucket ((w.nat e).movedHv i) ≠ w.bucket ((w.nat e).natHv i) →
      ((w.side i).bucketlen (w.bucket ((w.nat e).natHv i)) = 1 ↔
        (w.side i).bucketlen (w.bucket ((w.nat e).movedHv i)) = 0)) :
    ∃ w' H', ipfNatTabmove w e = some w' ∧ Acct w' A O H' := by
  obtain ⟨t, ht, heq, hlinked⟩ := tabmove_linked h.toLinked he hcl
  refine ⟨_, _, heq, hlinked, ?_, h.orphans, ?_, ?_⟩
  · intro i
    obtain ⟨k, hk⟩ := h.side_pnext he i
    have hi := ht i
    simp only [moveSide, hk] at hi
    change Counted (t i) _ _
    rw [← Option.some.inj hi]
    exact (h.side i).shift ((h.place i e _).2 ⟨he, rfl⟩) (bucket_lt h.size _) hk (Mem.bypass_removed _) rfl rfl rfl
      (hcount i)
  · change w.wilds = _
    rw [h.wilds]
    congr 1
    refine countP_congr fun x _ => ?_
    by_cases hx : x = e
    · simp [Softn.upd, hx, NatT.wild]
    · simp [Softn.upd, hx]
  · intro p
    change w.proto p = _
    rw [h.proto p]
    congr 1
    refine countP_congr fun x _ => ?_
    by_cases hx : x = e
    · simp [Softn.upd, hx]
    · simp [Softn.upd, hx]

/-- The clone of an entry would find room on its chains. -/
def Softn.fits (w : Softn) (nat : NatT) : Prop :=
  ∀ i, (w.side i).bucketlen (w.bucket (nat.natDir.hv nat.hv0 nat.hv1 i)) < w.maxbucket

/-- **What a lookup may resolve.** An entry that is cloned is not counted in `ns_proto`, so that the clone must not come
to be: no memory, or no room on its chains. Another must have a wildcard flag, which is counted off, and each move to
another chain must empty the old one exactly if the new one is empty. -/
def Softn.resolvable (w : Softn) (l : Lookup) (sport dport : BitVec 16) (e : ℕ) : Prop :=
  let nat := w.nat e
  if has nat.natFlags SI_CLONE then l.new = none ∨ ¬w.fits (nat.clone l.fin)
  else
    nat.wild = true ∧ ∀ i,
      let old := w.bucket (nat.natHv i)
      let new := w.bucket ((nat.resolve l.out sport dport l.fin.finIfp).movedHv i)
      new ≠ old → ((w.side i).bucketlen old = 1 ↔ (w.side i).bucketlen new = 0)

/-- An entry without room on its chains is refused. -/
theorem insert_refused (w : Softn) {c : ℕ} {nat : NatT} (ifps : Bool → Option ℕ) (hfit : ¬w.fits nat) :
    ipfNatInsert (w.malloc c nat) c ifps = ((w.malloc c nat).upd c fun nat => nat.insert ifps, false) := by
  unfold ipfNatInsert ipfNatHashtabAdd
  have hhv : (((w.malloc c nat).upd c fun nat => nat.insert ifps).nat c).natHv = nat.natDir.hv nat.hv0 nat.hv1 := by
    simp [Softn.upd, Softn.malloc, NatT.insert]
  simp only [hhv]
  simp only [Softn.fits, Bool.forall_bool, not_and_or, not_lt] at hfit
  rcases hfit with hfull | hfull
  · exact if_pos hfull
  · by_cases hf : w.maxbucket ≤ (w.side false).bucketlen (w.bucket (nat.natDir.hv nat.hv0 nat.hv1 false))
    · exact if_pos hf
    · exact (if_neg hf).trans (if_pos hfull)

/-- **Resolving a wildcard keeps the accounts.** -/
theorem resolve_acct (M : Machine) (h : Acct w A O H) (l : Lookup) (hnew : ∀ c, l.new = some c → w.alloc c = false)
    (he : e ∈ A) (hr : w.resolvable l (lookupPorts M l.fin l.flags l.p).1 (lookupPorts M l.fin l.flags l.p).2 e) :
    ∃ w' o H', resolve M w l e = some (w', o) ∧ Acct w' A O H' := by
  unfold resolve
  unfold Softn.resolvable at hr
  dsimp only at hr ⊢
  by_cases hcl : has (w.nat e).natFlags SI_CLONE = true
  · rw [if_pos hcl] at hr ⊢
    unfold ipfNatClone
    cases hl : l.new with
    | none => exact ⟨w, none, H, rfl, h⟩
    | some c =>
      have hfit := hr.resolve_left (by simp [hl])
      dsimp only
      rw [insert_refused w l.ifps hfit]
      exact ⟨_, none, H, rfl, h.keep (keeps_malloc_free (hnew c hl) _ _)⟩
  · rw [if_neg hcl] at hr ⊢
    obtain ⟨hw, hcount⟩ := hr
    have hwild := resolve_wild (w.nat e) l.out (lookupPorts M l.fin l.flags l.p).1
      (lookupPorts M l.fin l.flags l.p).2 l.fin.finIfp
    obtain ⟨os, od, ns, nd, ifps, hres⟩ := resolve_keeps (w.nat e) l.out (lookupPorts M l.fin l.flags l.p).1
      (lookupPorts M l.fin l.flags l.p).2 l.fin.finIfp
    have htame := h.tame he hw (by rw [hres]) (by rw [hres]) hwild
    have hself : ∀ nat, update w.nat e nat e = nat := fun nat => update_self ..
    obtain ⟨w', H', hmove, hacct⟩ := htame.move he (by
        simp only [hself]
        rw [hres, has, BitVec.and_assoc]
        have hbits : ~~~SI_WILDP &&& SI_CLONE = SI_CLONE := by decide
        rw [hbits]
        simpa [has] using hcl) (by
        intro i
        simp only [hself]
        have hi := hcount i
        rw [hres] at hi ⊢
        exact hi)
    refine ⟨w', some e, H', ?_, hacct⟩
    simp only [Softn.upd]
    rw [hmove]
    rfl

/-- The entry that a lookup resolves: none if the first loop finds one, or the packet is not to leave traces. -/
def resolved (M : Machine) (proxyMatch : FrInfo → NatT → Bool) (w : Softn) (l : Lookup) : Option ℕ :=
  match if has l.flags SI_WILDP then none else exactFound M proxyMatch w l with
  | some _ => none
  | none => if has l.fin.finFlx FI_IGNORE then none else wildFound M w l

/-- **A lookup keeps the accounts** if what it resolves may be resolved. -/
theorem lookup_acct (M : Machine) (proxyMatch : FrInfo → NatT → Bool) (h : Acct w A O H) (l : Lookup)
    (hnew : ∀ c, l.new = some c → w.alloc c = false) (hr : ∀ e, resolved M proxyMatch w l = some e →
      w.resolvable l (lookupPorts M l.fin l.flags l.p).1 (lookupPorts M l.fin l.flags l.p).2 e) :
    ∃ w' o H', ipfNatLookup M proxyMatch w l = some (w', o) ∧ Acct w' A O H' := by
  unfold ipfNatLookup
  unfold resolved at hr
  cases hex : if has l.flags SI_WILDP then none else exactFound M proxyMatch w l with
  | some e =>
    obtain ⟨ifps, hset⟩ := setIfp_keeps (w.nat e) l.out l.fin.finIfp
    exact ⟨_, some e, H, rfl, h.keep (keeps_upd w e _ (by rw [hset]) (by rw [hset]) (by rw [hset]))⟩
  | none =>
    dsimp only
    cases hw : wildFound M w l with
    | none => exact ⟨w, none, H, rfl, h⟩
    | some e =>
      dsimp only
      by_cases hig : has l.fin.finFlx FI_IGNORE = true
      · rw [if_pos hig]
        exact ⟨w, some e, H, rfl, h⟩
      · rw [if_neg hig]
        have heA : e ∈ A := by
          unfold wildFound at hw
          dsimp only at hw
          split at hw
          · exact absurd hw (by simp)
          split at hw
          · exact absurd hw (by simp)
          · exact (h.find_some hw).1
        refine resolve_acct M h l hnew heA (hr e ?_)
        simp [hex, hig, hw]

/-! ## Resizing -/

/-- **`ipf_nat_rehash` keeps the accounts** when its tables can be allocated. -/
theorem rehash_acct (h : Acct w A O H) {newsize : Word} (hn : 0 < newsize.toNat) {notab nolen : Bool}
    (hmem : notab = true → nolen = true ∨ newsize = w.size) :
    ∃ w' H', ipfNatRehash w newsize notab nolen = some w' ∧ Acct w' A O H' := by
  by_cases hsame : newsize = w.size ∨ nolen = true
  · refine ⟨w, H, ?_, h⟩
    unfold ipfNatRehash
    rcases hsame with hs | hs
    · rw [if_pos hs]
    · simp [hs]
  · rw [not_or] at hsame
    have hnt : ¬notab = true := fun hnt => (hmem hnt).elim hsame.2 hsame.1
    obtain ⟨w', t, H', heq, rfl, hc, hlinked⟩ := rehash_linked h.toLinked hn hsame.1 hsame.2 hnt
    exact ⟨_, H', heq, hlinked, hc, h.orphans, h.wilds, h.proto⟩

/-! ## Whole runs -/

/-- **The accounts of the table are right.** `A` is the list of all entries, `O` the orphans and `H` the chains: an
entry of the list is in the bucket of its hash value on each side and in no other, and the counters count. -/
def Tabled (w : Softn) : Prop :=
  ∃ (A O : List ℕ) (H : Bool → ℕ → List ℕ), Rep w.list (fun _ => A) ∧ (A ++ O).Nodup ∧
    (∀ e, w.alloc e = true ↔ e ∈ A ++ O) ∧
    (∀ i, Rep (w.side i).table (H i)) ∧
    (∀ i e b, e ∈ H i b ↔ e ∈ A ∧ ((w.nat e).natHv i).toNat % w.size.toNat = b) ∧
    (∀ i b, (w.side i).bucketlen b = (H i b).length) ∧
    (∀ i, (w.side i).inuse = ((Finset.range w.size.toNat).filter fun b => H i b ≠ []).card) ∧
    w.active = A.length + O.length ∧
    w.orphans = O.length ∧
    w.wilds = (A.filter fun e => has (w.nat e).natFlags (SI_W_SPORT ||| SI_W_DPORT)).length ∧
    ∀ p, w.proto p = ((A ++ O).filter fun e => (w.nat e).natPr false = p).length

theorem Acct.tabled (h : Acct w A O H) : Tabled w := by
  refine ⟨A, O, H, h.list, ?_, ?_, fun i => (h.side i).rep, ?_, fun i => (h.side i).len, ?_, h.active, h.orphans, ?_, ?_⟩
  · exact nodup_append.2 ⟨h.nodup_list, h.nodup, fun a ha b hb hab => h.disjoint b hb (hab ▸ ha)⟩
  · intro e
    rw [h.alloc e, mem_append]
  · intro i e b
    rw [h.place i e b, Softn.bucket, BitVec.toNat_umod]
  · intro i
    rw [(h.side i).inuse, used_eq_card]
    simp
  · rw [h.wilds, countP_eq_length_filter]
    rfl
  · intro p
    rw [h.proto p, countP_eq_length_filter]

/-- **The calls that keep the accounts.** No entry is freed with a wildcard flag (`ns_wilds` is counted down twice),
what the lookups resolve may be resolved, and the tables of a new size can be allocated. -/
def Clean (M : Machine) (proxyMatch : FrInfo → NatT → Bool) (w : Softn) : Op → Prop
  | .add .. => True
  | .lookup l => ∀ e, resolved M proxyMatch w l = some e →
      w.resolvable l (lookupPorts M l.fin l.flags l.p).1 (lookupPorts M l.fin l.flags l.p).2 e
  | .delete e destroy => w.frees e destroy → (w.nat e).wild = false
  | .hold _ => True
  | .deref e => (w.nat e).natRef ≤ 1 → w.frees e false → (w.nat e).wild = false
  | .rehash newsize notab nolen => notab = true → nolen = true ∨ newsize = w.size

variable {M : Machine} {proxyMatch : FrInfo → NatT → Bool}

/-- **One call.** Every clean call returns, and keeps the accounts. -/
theorem step_acct (h : Acct w A O H) {op : Op} (hl : Legal w op) (hc : Clean M proxyMatch w op) :
    ∃ w' A' O' H', step M proxyMatch w op = some w' ∧ Acct w' A' O' H' := by
  cases op with
  | add e nat natsave ifps =>
    obtain ⟨A', H', hacct⟩ := add_acct M h hl nat natsave ifps
    exact ⟨_, A', O, H', rfl, hacct⟩
  | lookup l =>
    obtain ⟨w', o, H', heq, hacct⟩ := lookup_acct M proxyMatch h l hl hc
    refine ⟨w', A, O, H', ?_, hacct⟩
    rw [step, heq]
    rfl
  | delete e destroy => exact delete_acct h hl hc
  | hold e => exact ⟨_, A, O, H, rfl, h.keep (keeps_upd w e _ rfl rfl rfl)⟩
  | deref e => exact deref_acct h hl hc
  | rehash newsize notab nolen =>
    obtain ⟨w', H', heq, hacct⟩ := rehash_acct h hl hc
    exact ⟨w', A, O, H', heq, hacct⟩

theorem init_acct {size : Word} (hs : 0 < size.toNat) (max maxbucket : ℤ) :
    Acct (Softn.init size max maxbucket) [] [] fun _ _ => [] where
  list _ := ⟨trivial, rfl⟩
  orphan := by simp
  nodup := nodup_nil
  disjoint := by simp
  alloc := by simp [Softn.init]
  rep _ := (counted_empty 0).rep
  side _ := counted_empty _
  place := by simp
  active := rfl
  orphans := rfl
  wilds := rfl
  proto _ := rfl
  size := hs

/-- A run: every call is one the callers may make, and clean. -/
inductive Run (M : Machine) (proxyMatch : FrInfo → NatT → Bool) (w₀ : Softn) : Softn → Prop
  | start : Run M proxyMatch w₀ w₀
  | call {w w' : Softn} (op : Op) : Run M proxyMatch w₀ w → Legal w op → Clean M proxyMatch w op →
      step M proxyMatch w op = some w' → Run M proxyMatch w₀ w'

/-- **Every clean run keeps the accounts.** In each state it reaches the table, the list and the counters agree, and
each clean call returns. -/
theorem run_tabled {size : Word} (hs : 0 < size.toNat) (max maxbucket : ℤ)
    (hr : Run M proxyMatch (Softn.init size max maxbucket) w) :
    Tabled w ∧ ∀ op, Legal w op → Clean M proxyMatch w op → ∃ w', step M proxyMatch w op = some w' := by
  suffices hacct : ∃ A O H, Acct w A O H by
    obtain ⟨A, O, H, h⟩ := hacct
    refine ⟨h.tabled, fun op hl hc => ?_⟩
    obtain ⟨w', -, -, -, heq, -⟩ := step_acct h hl hc
    exact ⟨w', heq⟩
  induction hr with
  | start => exact ⟨_, _, _, init_acct hs max maxbucket⟩
  | call op _ hl hc heq ih =>
    obtain ⟨A, O, H, h⟩ := ih
    obtain ⟨w'', A', O', H', heq', hacct⟩ := step_acct h hl hc
    obtain rfl : w'' = _ := Option.mem_unique heq' heq
    exact ⟨A', O', H', hacct⟩

/-- A session that a proxy expects: the source port of its packets is not known yet. -/
def expected : NatT :=
  { NatT.zero with
    natFlags := IPN_TCP ||| SI_W_SPORT
    natDir := .outbound
    natPr := fun _ => IPPROTO_TCP
    natOsrcaddr := 10
    natOdstaddr := 20
    natNsrcaddr := 30
    natNdstaddr := 20
    natOdport := 21
    natNdport := 21 }

/-- The first packet of that session, from port 7. -/
def firstPacket : Lookup where
  out := true
  fin :=
    { finP := IPPROTO_TCP, finOut := true, finRev := false, finFlx := 0, finOff := 0, finCksum := 0, finDlen := 0
      finIfp := none, finSaddr := 10, finDaddr := 20, finData := fun i => if i then 21 else 7
      finIp := ⟨10, 20, 0, []⟩, finDp := ⟨7, 21, 0, 0, true, [], []⟩ }
  flags := IPN_TCP ||| NAT_SEARCH
  p := IPPROTO_TCP
  src := 10
  dst := 20
  new := none
  ifps := fun _ => none

def bigEndian : Machine := ⟨false, 0⟩

def emptyTable : Softn := Softn.init 8 100 10

/-- The table after the session was added. -/
def withExpected : Softn := (ipfNatAdd bigEndian emptyTable 0 expected none fun _ => none).1

/-- The session gets the port of its first packet, and the accounts still hold. -/
theorem run_tabled_resolved : ∃ w, Run bigEndian (fun _ _ => true) emptyTable w ∧ w.wilds = 0 ∧
    (w.nat 0).natOsport = 7 ∧ Tabled w := by
  have hadd : Run bigEndian (fun _ _ => true) emptyTable withExpected :=
    .call (.add 0 expected none fun _ => none) .start rfl trivial rfl
  have hfound : resolved bigEndian (fun _ _ => true) withExpected firstPacket = some 0 := by decide
  obtain ⟨r, hr⟩ : ∃ r, ipfNatLookup bigEndian (fun _ _ => true) withExpected firstPacket = some r :=
    Option.isSome_iff_exists.1 (by decide)
  have hclean : Clean bigEndian (fun _ _ => true) withExpected (.lookup firstPacket) := by
    intro e he
    obtain rfl : 0 = e := Option.mem_unique hfound he
    unfold Softn.resolvable
    dsimp only
    rw [if_neg (by decide)]
    decide
  have hrun : Run bigEndian (fun _ _ => true) emptyTable r.1 :=
    .call (.lookup firstPacket) hadd (by intro c hc; cases hc) hclean (by rw [step, hr]; rfl)
  have hval : (ipfNatLookup bigEndian (fun _ _ => true) withExpected firstPacket).map
      (fun r => (r.1.wilds, (r.1.nat 0).natOsport)) = some (0, 7) := by decide
  rw [hr] at hval
  have hpair := Option.some.inj hval
  exact ⟨r.1, hrun, congrArg Prod.fst hpair, congrArg Prod.snd hpair, (run_tabled (by decide) 100 10 hrun).1⟩

/-- **The session is deleted before its first packet:** `ns_wilds` is counted down when it leaves the table and again
when it is freed. -/
theorem expected_not_tabled : ∃ w, Legal emptyTable (.add 0 expected none fun _ => none) ∧
    step bigEndian (fun _ _ => true) emptyTable (.add 0 expected none fun _ => none) = some withExpected ∧
    Legal withExpected (.delete 0 false) ∧
    step bigEndian (fun _ _ => true) withExpected (.delete 0 false) = some w ∧ w.wilds = -1 ∧ ¬Tabled w := by
  obtain ⟨w, hw⟩ : ∃ w, ipfNatDelete withExpected 0 false = some w := Option.isSome_iff_exists.1 (by decide)
  have hval : (ipfNatDelete withExpected 0 false).map (fun w => w.wilds) = some (-1) := by decide
  rw [hw] at hval
  have hwilds : w.wilds = -1 := Option.some.inj hval
  refine ⟨w, rfl, rfl, rfl, hw, hwilds, ?_⟩
  rintro ⟨A, O, H, -, -, -, -, -, -, -, -, -, h, -⟩
  rw [hwilds] at h
  omega

end Ipfilter.NatTab
