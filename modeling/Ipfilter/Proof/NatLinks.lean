import Ipfilter.Spec.NatTable

/-!
# The lists of the NAT table

`Linked w A O H` says that the list of all entries is `A`, the orphans are `O`, and the chains of side `i` are `H i`:
every entry of the list is on the chain of its hash value on each side. No call breaks this, whatever becomes of the
counters.

* `Linked.congr`: the edits that leave the lists alone;
* `Linked.enter`, `Linked.unlink`, `Linked.release`, `Linked.move`, `rehash_linked`: those that change them;
* `Linked.find`: a walk along a chain finds the first entry that passes its test;
* `step_linked`: every call.
-/

namespace Ipfilter.NatTab

open Chain Masks State List
open Function (update update_of_ne update_self)

/-! ## The invariant -/

/-- **The lists of the table.** -/
structure Linked (w : Softn) (A O : List ℕ) (H : Bool → ℕ → List ℕ) : Prop where
  list : Rep w.list (fun _ => A)
  orphan : ∀ e ∈ O, w.list.pnext e = none
  nodup : O.Nodup
  disjoint : ∀ e ∈ O, e ∉ A
  alloc : ∀ e, w.alloc e = true ↔ e ∈ A ∨ e ∈ O
  rep : ∀ i, Rep (w.side i).table (H i)
  place : ∀ i e b, e ∈ H i b ↔ e ∈ A ∧ w.bucket ((w.nat e).natHv i) = b
  active : w.active = A.length + O.length
  size : 0 < w.size.toNat

variable {w w' : Softn} {A O : List ℕ} {H : Bool → ℕ → List ℕ} {e : ℕ} {L : ℕ → List ℕ}

theorem Linked.nodup_list (h : Linked w A O H) : A.Nodup := h.list.nodup ()

theorem Linked.fresh (h : Linked w A O H) (he : w.alloc e = false) : e ∉ A ∧ e ∉ O := by
  rw [← not_or, ← h.alloc e, he]
  exact Bool.false_ne_true

theorem bucket_lt (hs : 0 < w.size.toNat) (hv : Word) : w.bucket hv < w.size.toNat := by
  rw [Softn.bucket, BitVec.toNat_umod]
  exact Nat.mod_lt _ hs

/-- Edits that leave the links and the hash values alone. -/
theorem Linked.congr (h : Linked w A O H) (hlist : w'.list = w.list)
    (htable : ∀ i, (w'.side i).table = (w.side i).table) (hsize : w'.size = w.size) (hactive : w'.active = w.active)
    (halloc : w'.alloc = w.alloc) (hhv : ∀ e ∈ A, (w'.nat e).natHv = (w.nat e).natHv) : Linked w' A O H where
  list := by rw [hlist]; exact h.list
  orphan := by rw [hlist]; exact h.orphan
  nodup := h.nodup
  disjoint := h.disjoint
  alloc := by rw [halloc]; exact h.alloc
  rep i := by rw [htable i]; exact h.rep i
  place i e b := by
    rw [h.place i e b]
    refine and_congr_right fun he => ?_
    rw [Softn.bucket, Softn.bucket, hsize, hhv e he]
  active := by rw [hactive]; exact h.active
  size := by rw [hsize]; exact h.size

/-- Changing other fields of an entry. -/
theorem Linked.upd (h : Linked w A O H) {f : NatT → NatT} (hf : (f (w.nat e)).natHv = (w.nat e).natHv) :
    Linked (w.upd e f) A O H := by
  refine h.congr rfl (fun _ => rfl) rfl rfl rfl fun x _ => ?_
  by_cases hx : x = e
  · simp [Softn.upd, hx, hf]
  · simp [Softn.upd, hx]

/-! ## An entry joins the table -/

theorem update_unit (l l' : List ℕ) : update (fun _ : Unit => l) () l' = fun _ => l' := by
  funext u
  cases u
  rw [update_self]

/-- The chains after `e` joined the chain `b`. -/
def pushed (L : ℕ → List ℕ) (e b : ℕ) : ℕ → List ℕ := update L b (e :: L b)

theorem mem_pushed (L : ℕ → List ℕ) (e b x c : ℕ) : x ∈ pushed L e b c ↔ x ∈ L c ∨ x = e ∧ b = c := by
  unfold pushed
  by_cases hb : c = b
  · simp [hb, or_comm]
  · simp [hb, Ne.symm hb]

/-- **A new entry joins the list and a chain of each side.** -/
theorem Linked.enter (h : Linked w A O H) (he : w.alloc e = false) (hlist : w'.list = w.list.link e (.head ()))
    (htable : ∀ i, (w'.side i).table = (w.side i).table.link e (.head (w.bucket ((w'.nat e).natHv i))))
    (hsize : w'.size = w.size) (halloc : w'.alloc = update w.alloc e true)
    (hnat : ∀ x ≠ e, w'.nat x = w.nat x) (hactive : w'.active = w.active + 1) :
    Linked w' (e :: A) O fun i => pushed (H i) e (w.bucket ((w'.nat e).natHv i)) := by
  obtain ⟨heA, heO⟩ := h.fresh he
  have hneO : ∀ x ∈ O, x ≠ e := fun x hx hxe => heO (hxe ▸ hx)
  have hout : ∀ i b, e ∉ H i b := fun i b hb => heA ((h.place i e b).1 hb).1
  have hlink := h.list.push (fun _ => heA) ()
  rw [update_unit] at hlink
  have hbucket : ∀ hv, w'.bucket hv = w.bucket hv := fun hv => by rw [Softn.bucket, Softn.bucket, hsize]
  refine ⟨?_, ?_, h.nodup, ?_, ?_, ?_, ?_, ?_, ?_⟩
  · rw [hlist]
    exact hlink
  · intro x hx
    -- only the back pointer of the old head of the list changes
    have hhead : w.list.head () ≠ some x := by
      intro hh
      rw [← head_get, (h.list ()).head?] at hh
      exact h.disjoint x hx (mem_of_head? hh)
    rw [hlist]
    simp [Mem.link, hhead, hneO x hx, h.orphan x hx]
  · intro x hx hmem
    rcases mem_cons.1 hmem with hxe | hxA
    · exact hneO x hx hxe
    · exact h.disjoint x hx hxA
  · intro x
    rw [halloc]
    by_cases hx : x = e
    · simp [hx]
    · simp [hx, h.alloc x]
  · intro i
    rw [htable i]
    exact (h.rep i).push (hout i) _
  · intro i x b
    rw [mem_pushed, h.place i x b, mem_cons, hbucket]
    by_cases hx : x = e
    · subst hx
      simp [heA]
    · rw [hnat x hx]
      simp [hx]
  · rw [hactive, h.active]
    simp only [length_cons]
    omega
  · rw [hsize]
    exact h.size

/-- An entry that could not be inserted leaves the lists as they were. -/
theorem Linked.refused (h : Linked w A O H) (he : w.alloc e = false) (nat : NatT) (f : NatT → NatT) :
    Linked (((w.malloc e nat).upd e f).free e) A O H := by
  refine h.congr rfl (fun _ => rfl) rfl rfl ?_ fun x hx => ?_
  · funext x
    by_cases hx : x = e
    · simp [Softn.free, hx, he]
    · simp [Softn.free, Softn.upd, Softn.malloc, hx]
  · have hxe : x ≠ e := fun hxe => (h.fresh he).1 (hxe ▸ hx)
    simp [Softn.free, Softn.upd, Softn.malloc, hxe]

/-- What `ipf_nat_hashtab_add` does: nothing, or an entry joins the list and its two chains. -/
theorem hashtabAdd_cases (w : Softn) (e : ℕ) : ipfNatHashtabAdd w e = (w, false) ∨ ipfNatHashtabAdd w e = ({ w with
      list := w.list.link e (.head ())
      side := fun i => enterSide (w.side i) e (w.bucket ((w.nat e).natHv i))
      active := w.active + 1 }, true) := by
  unfold ipfNatHashtabAdd
  dsimp only
  split
  · exact .inl rfl
  split
  · exact .inl rfl
  · exact .inr rfl

/-- **`ipf_nat_insert` of a new entry.** It is refused and can be freed, or it is first on the list. -/
theorem insert_linked (h : Linked w A O H) (he : w.alloc e = false) (nat : NatT) (ifps : Bool → Option ℕ) :
    (∃ w', ipfNatInsert (w.malloc e nat) e ifps = (w', false) ∧ Linked (w'.free e) A O H ∧
      w'.nat = update w.nat e (nat.insert ifps)) ∨
    ∃ w' H', ipfNatInsert (w.malloc e nat) e ifps = (w', true) ∧ Linked w' (e :: A) O H' ∧
      w'.nat = update w.nat e (nat.insert ifps) ∧ w'.size = w.size := by
  have hnat : ((w.malloc e nat).upd e fun nat => nat.insert ifps).nat = update w.nat e (nat.insert ifps) := by
    simp [Softn.upd, Softn.malloc]
  unfold ipfNatInsert
  rcases hashtabAdd_cases ((w.malloc e nat).upd e fun nat => nat.insert ifps) e with hadd | hadd
  · exact .inl ⟨_, hadd, h.refused he nat _, hnat⟩
  · refine .inr ⟨_, _, hadd, h.enter he rfl (fun i => rfl) rfl rfl (fun x hx => ?_) rfl, hnat, rfl⟩
    simp [Softn.upd, Softn.malloc, hx]

/-! ## An entry leaves the table -/

/-- An entry on the list says so. -/
theorem Linked.pnext_some (h : Linked w A O H) (he : e ∈ A) : ∃ k, w.list.pnext e = some k := by
  obtain ⟨l₁, l₂, hl⟩ := append_of_mem he
  exact ⟨_, h.list.pnext (h := ()) hl⟩

theorem Linked.side_pnext (h : Linked w A O H) (he : e ∈ A) (i : Bool) : ∃ k, (w.side i).table.pnext e = some k := by
  have hmem := (h.place i e _).2 ⟨he, rfl⟩
  obtain ⟨l₁, l₂, hl⟩ := append_of_mem hmem
  exact ⟨_, (h.rep i).pnext hl⟩

/-- The list without one entry. -/
theorem Linked.cut_list (h : Linked w A O H) (he : e ∈ A) : Rep (w.list.cut e) (fun _ => A.erase e) := by
  obtain ⟨l₁, l₂, hl⟩ := append_of_mem he
  have hp := h.list.pnext (h := ()) hl
  have hrep := h.list.remove (h := ()) hl rfl (Mem.cut_removed _ hp)
  have hnd := h.nodup_list
  rw [update_unit] at hrep
  have hout : e ∉ l₁ := by
    rw [hl] at hnd
    exact fun h1 => (disjoint_of_nodup_append hnd) h1 (by simp)
  rwa [hl, erase_append_right _ hout, erase_cons_head]

/-- The back pointers of the orphans are NULL, that of a new one too. -/
theorem Linked.cut_pnext (h : Linked w A O H) (he : e ∈ A) {x : ℕ} (hx : x = e ∨ x ∈ O) :
    (w.list.cut e).pnext x = none := by
  obtain ⟨k, hk⟩ := h.pnext_some he
  simp only [Mem.cut, hk, pnext_set, pnext_setP, pnext_setP?]
  rcases hx with rfl | hx
  · simp
  · have hxe : x ≠ e := fun hxe => h.disjoint x hx (hxe ▸ he)
    have hnext : w.list.next e ≠ some x := by
      -- what follows the entry is on the list
      obtain ⟨l₁, l₂, hl⟩ := append_of_mem he
      rw [h.list.next (h := ()) hl]
      intro hh
      apply h.disjoint x hx
      rw [hl]
      simp [mem_of_head? hh]
    simp [hxe, hnext, h.orphan x hx]

/-- The chains after `e` left the chain `b`. -/
def pulled (L : ℕ → List ℕ) (e b : ℕ) : ℕ → List ℕ := update L b ((L b).filter (· ≠ e))

/-- The chains of one side after an entry was taken out. -/
theorem rep_pulled {m m' : Mem ℕ ℕ} {b : ℕ} (h : Rep m L) (he : e ∈ L b) {k : Link ℕ ℕ}
    (hk : m.pnext e = some k) (hm : Removed m m' e k) :
    Rep m' (pulled L e b) ∧ ∀ x c, x ∈ pulled L e b c ↔ x ≠ e ∧ x ∈ L c := by
  obtain ⟨l₁, l₂, hl⟩ := append_of_mem he
  have hpl := h.pnext hl
  rw [hk, Option.some.injEq] at hpl
  have hrep := h.remove hl hpl hm
  have hall := h.update_eq_filter hl
  have hfilter := congrFun hall b
  rw [update_self] at hfilter
  rw [hfilter] at hrep hall
  refine ⟨hrep, fun x c => ?_⟩
  rw [pulled, hall]
  simp [and_comm]

/-- **An entry leaves the lists and becomes an orphan.** -/
theorem Linked.unlink (h : Linked w A O H) (he : e ∈ A) :
    Linked (unlink w e) (A.erase e) (e :: O) fun i => pulled (H i) e (w.bucket ((w.nat e).natHv i)) := by
  have heO : e ∉ O := fun hO => h.disjoint e hO he
  have hlen := length_pos_of_mem he
  have hpull : ∀ i, Rep ((w.side i).table.cut e) _ ∧ _ := fun i => by
    obtain ⟨k, hk⟩ := h.side_pnext he i
    exact rep_pulled (h.rep i) ((h.place i e _).2 ⟨he, rfl⟩) hk (Mem.cut_removed _ hk)
  refine ⟨h.cut_list he, ?_, ?_, ?_, ?_, fun i => (hpull i).1, ?_, ?_, h.size⟩
  · intro x hx
    exact h.cut_pnext he (mem_cons.1 hx)
  · exact nodup_cons.2 ⟨heO, h.nodup⟩
  · intro x hx hmem
    obtain ⟨hxe, hxA⟩ := h.nodup_list.mem_erase_iff.1 hmem
    rcases mem_cons.1 hx with hx | hx
    · exact hxe hx
    · exact h.disjoint x hx hxA
  · intro x
    change w.alloc x = true ↔ _
    rw [h.alloc x, h.nodup_list.mem_erase_iff, mem_cons]
    by_cases hx : x = e
    · simp [hx, he]
    · simp [hx]
  · intro i x b
    rw [(hpull i).2 x b, h.place i x b, h.nodup_list.mem_erase_iff, and_assoc]
    rfl
  · change w.active = _
    rw [h.active, length_erase_of_mem he, length_cons]
    omega

/-- **An orphan is freed.** -/
theorem Linked.release (h : Linked w A O H) (he : e ∈ O) (madeorphan : Bool) :
    Linked (release w e madeorphan) A (O.erase e) H := by
  have hlen := length_pos_of_mem he
  have hneA : ∀ x ∈ A, x ≠ e := fun x hx hxe => h.disjoint e he (hxe ▸ hx)
  refine ⟨h.list, ?_, h.nodup.erase e, ?_, ?_, h.rep, ?_, ?_, h.size⟩
  · exact fun x hx => h.orphan x (mem_of_mem_erase hx)
  · exact fun x hx => h.disjoint x (mem_of_mem_erase hx)
  · intro x
    rw [h.nodup.mem_erase_iff]
    by_cases hx : x = e
    · simp [NatTab.release, hx, h.disjoint e he]
    · simp [NatTab.release, hx, h.alloc x]
  · intro i x b
    rw [h.place i x b]
    refine and_congr_right fun hx => ?_
    simp [NatTab.release, hneA x hx, Softn.bucket]
  · change w.active - 1 = _
    rw [h.active, length_erase_of_mem he]
    omega

/-- The references of an entry when `nat_me` has dropped its own. -/
def NatT.others (nat : NatT) : ℤ := if nat.natMe = none then nat.natRef else nat.natRef - 1

theorem unme_ref (w : Softn) (e : ℕ) : ((unme w e).nat e).natRef = (w.nat e).others := by
  unfold unme NatT.others
  cases hme : (w.nat e).natMe with
  | none => simp
  | some m => simp [Softn.upd]

theorem unme_orphans (w : Softn) (e : ℕ) : (unme w e).orphans = w.orphans := by
  unfold unme
  split <;> rfl

/-- The entry is an orphan, and counted as one. -/
def orphaned (w : Softn) (e : ℕ) : Softn :=
  if w.list.pnext e = none then w else { unlink w e with orphans := w.orphans + 1 }

theorem orphaned_nat (w : Softn) (e : ℕ) : (orphaned w e).nat = w.nat := by
  unfold orphaned
  split <;> rfl

/-- **`ipf_nat_delete` makes an orphan of the entry first**; then it drops references, or frees it. -/
theorem delete_eq (he : w.alloc e = true) (destroy : Bool) : ipfNatDelete w e destroy =
    some (if (w.nat e).others ≤ drops destroy then release (unme (orphaned w e) e) e false
      else (unme (orphaned w e) e).upd e fun nat => { nat with natRef := nat.natRef - drops destroy }) := by
  have href := unme_ref (orphaned w e) e
  rw [orphaned_nat] at href
  rw [← href]
  unfold ipfNatDelete
  rw [if_neg (by simp [he])]
  dsimp only
  by_cases hp : w.list.pnext e = none
  · have hcut : (if w.list.pnext e ≠ none then NatTab.unlink w e else w) = w := if_neg fun h => h hp
    rw [orphaned, if_pos hp, hcut]
    by_cases hr : ((unme w e).nat e).natRef > drops destroy
    · rw [if_pos hr, if_neg (not_le.2 hr)]
      simp [hp, Softn.upd]
    · rw [if_neg hr, if_pos (not_lt.1 hr)]
      simp [hp]
  · have hcut : (if w.list.pnext e ≠ none then NatTab.unlink w e else w) = NatTab.unlink w e := if_pos hp
    have hout : (unme (NatTab.unlink w e) e).orphans = w.orphans := unme_orphans _ _
    -- the count of orphans is the only field in which the two differ before the end
    have hsame : unme { NatTab.unlink w e with orphans := w.orphans + 1 } e =
        { unme (NatTab.unlink w e) e with orphans := w.orphans + 1 } := by
      unfold unme
      dsimp only
      split <;> rfl
    rw [orphaned, if_neg hp, hcut, hsame]
    revert hout
    generalize unme (NatTab.unlink w e) e = u
    intro hout
    dsimp only
    by_cases hr : (u.nat e).natRef > drops destroy
    · rw [if_pos hr, if_neg (not_le.2 hr), hout]
      simp [hp, Softn.upd]
    · rw [if_neg hr, if_pos (not_lt.1 hr)]
      simp [hp, release, hout]

theorem Linked.unme (h : Linked w A O H) (e : ℕ) : Linked (unme w e) A O H := by
  unfold NatTab.unme
  cases (w.nat e).natMe with
  | none => exact h
  | some m =>
    have hupd : Linked (w.upd e fun nat => { nat with natMe := none, natRef := nat.natRef - 1 }) A O H := h.upd rfl
    exact hupd.congr rfl (fun _ => rfl) rfl rfl rfl fun _ _ => rfl

/-- An entry that exists is an orphan after the first part of `ipf_nat_delete`. -/
theorem Linked.orphaned (h : Linked w A O H) (he : w.alloc e = true) :
    ∃ O' H', Linked (orphaned w e) (A.erase e) O' H' ∧ e ∈ O' := by
  unfold NatTab.orphaned
  rcases (h.alloc e).1 he with heA | heO
  · obtain ⟨k, hk⟩ := h.pnext_some heA
    rw [if_neg (by simp [hk])]
    exact ⟨e :: O, _, (h.unlink heA).congr rfl (fun _ => rfl) rfl rfl rfl fun _ _ => rfl, mem_cons_self⟩
  · rw [if_pos (h.orphan e heO), erase_of_not_mem (h.disjoint e heO)]
    exact ⟨O, H, h, heO⟩

/-- **`ipf_nat_delete` keeps the lists.** The entry leaves the list, the others stay as they are. -/
theorem delete_linked (h : Linked w A O H) (he : w.alloc e = true) (destroy : Bool) :
    ∃ w' O' H', ipfNatDelete w e destroy = some w' ∧ Linked w' (A.erase e) O' H' := by
  obtain ⟨O', H', hu, hmem⟩ := h.orphaned he
  refine ⟨_, if (w.nat e).others ≤ drops destroy then O'.erase e else O', H', delete_eq he destroy, ?_⟩
  by_cases hfree : (w.nat e).others ≤ drops destroy
  · rw [if_pos hfree, if_pos hfree]
    exact (hu.unme e).release hmem false
  · rw [if_neg hfree, if_neg hfree]
    exact (hu.unme e).upd rfl

/-- **`ipf_nat_deref` keeps the lists**, likewise. -/
theorem deref_linked (h : Linked w A O H) (he : w.alloc e = true) :
    ∃ w' A' O' H', ipfNatDeref w e = some w' ∧ Linked w' A' O' H' ∧ ∀ x ∈ A, x ≠ e → x ∈ A' := by
  unfold ipfNatDeref
  rw [if_neg (by simp [he])]
  by_cases href : (w.nat e).natRef > 1
  · rw [if_pos href]
    exact ⟨_, A, O, H, rfl, h.upd rfl, fun x hx _ => hx⟩
  · rw [if_neg href]
    obtain ⟨w', O', H', heq, hlinked⟩ := delete_linked h he false
    exact ⟨w', A.erase e, O', H', heq, hlinked, fun x hx hxe => (mem_erase_of_ne hxe).2 hx⟩

/-- A delete leaves the other entries as they are. -/
theorem delete_nat_ne {destroy : Bool} (hd : ipfNatDelete w e destroy = some w') {x : ℕ} (hx : x ≠ e) :
    w'.nat x = w.nat x := by
  have he : w.alloc e = true := by
    by_contra he
    rw [ipfNatDelete, if_pos (by simpa using he)] at hd
    exact absurd hd (by simp)
  rw [delete_eq he, Option.some.injEq] at hd
  have hunme : ∀ u : Softn, (unme u e).nat x = u.nat x := by
    intro u
    unfold unme
    split
    · rfl
    · simp [Softn.upd, hx]
  rw [← hd]
  split
  · simp [release, hx, hunme, orphaned_nat]
  · simp [Softn.upd, hx, hunme, orphaned_nat]

theorem deref_nat_ne (hd : ipfNatDeref w e = some w') {x : ℕ} (hx : x ≠ e) : w'.nat x = w.nat x := by
  unfold ipfNatDeref at hd
  split at hd
  · exact absurd hd (by simp)
  split at hd
  · rw [← Option.some.inj hd]
    simp [Softn.upd, hx]
  · exact delete_nat_ne hd hx

/-! ## Lookups -/

/-- A walk along a chain finds the first entry that passes. -/
theorem Linked.find (h : Linked w A O H) (i : Bool) (b : ℕ) (test : NatT → Bool) :
    w.find i b test = (H i b).find? fun e => test (w.nat e) := by
  have hsub : (H i b).length ≤ w.active.toNat := by
    have hle := (subperm_of_subset ((h.rep i).nodup b) fun e he => ((h.place i e b).1 he).1).length_le
    rw [h.active]
    omega
  have hseek := (h.rep i b).get_seek (fun e => !test (w.nat e)) hsub
  simp only [Bool.not_not] at hseek
  exact hseek

/-- What is found is on the list, in its bucket, and passes. -/
theorem Linked.find_some (h : Linked w A O H) {i : Bool} {b : ℕ} {test : NatT → Bool}
    (hf : w.find i b test = some e) : e ∈ A ∧ w.bucket ((w.nat e).natHv i) = b ∧ test (w.nat e) = true := by
  rw [h.find] at hf
  obtain ⟨he, hb⟩ := (h.place i e b).1 (mem_of_find?_eq_some hf)
  have htest := find?_some hf
  exact ⟨he, hb, htest⟩

theorem setIfp_keeps (nat : NatT) (i : Bool) (ifp : Option ℕ) :
    ∃ ifps, nat.setIfp i ifp = { nat with natIfps := ifps } := by
  unfold NatT.setIfp
  split
  · exact ⟨_, rfl⟩
  · exact ⟨nat.natIfps, rfl⟩

theorem resolve_keeps (nat : NatT) (out : Bool) (s d : BitVec 16) (ifp : Option ℕ) :
    ∃ os od ns nd ifps, nat.resolve out s d ifp = { nat with
        natOsport := os
        natOdport := od
        natNsport := ns
        natNdport := nd
        natIfps := ifps
        natFlags := nat.natFlags &&& ~~~SI_WILDP } := by
  unfold NatT.resolve NatT.setIfp
  dsimp only
  split_ifs <;> exact ⟨_, _, _, _, _, rfl⟩

/-- The chains of one side after an entry was moved, whichever length is counted down. -/
theorem moveSide_rep {t : Buckets ℕ} {b : ℕ} (h : Rep t.table L) (he : e ∈ L b) (k b' : ℕ) :
    ∃ t', moveSide t e k b' = some t' ∧ Rep t'.table (pushed (pulled L e b) e b') ∧
      ∀ x c, x ∈ pushed (pulled L e b) e b' c ↔ x ≠ e ∧ x ∈ L c ∨ x = e ∧ b' = c := by
  obtain ⟨l₁, l₂, hl⟩ := append_of_mem he
  have hk := h.pnext hl
  obtain ⟨hrep, hmem⟩ := rep_pulled h he hk (Mem.bypass_removed t.table)
  refine ⟨_, by simp only [moveSide, hk]; rfl, hrep.push (fun c hc => ((hmem e c).1 hc).1 rfl) b', fun x c => ?_⟩
  rw [mem_pushed, hmem]

/-- An entry goes to the chains of other hash values. -/
theorem move_linked (h : Linked w A O H) (he : e ∈ A) (k : Bool → ℕ) (hv : Bool → Word) :
    ∃ t, (∀ i, moveSide (w.side i) e (k i) (w.bucket (hv i)) = some (t i)) ∧
      Linked { w.upd e (fun nat => { nat with natHv := hv }) with side := t } A O fun i =>
        pushed (pulled (H i) e (w.bucket ((w.nat e).natHv i))) e (w.bucket (hv i)) := by
  have hin : ∀ i, e ∈ H i (w.bucket ((w.nat e).natHv i)) := fun i => (h.place i e _).2 ⟨he, rfl⟩
  choose t ht hrep hmem using fun i => moveSide_rep (h.rep i) (hin i) (k i) (w.bucket (hv i))
  refine ⟨t, ht, h.list, h.orphan, h.nodup, h.disjoint, h.alloc, hrep, ?_, h.active, h.size⟩
  intro i x b
  rw [hmem i x b, h.place i x b]
  change _ ↔ x ∈ A ∧ w.bucket ((update w.nat e _ x).natHv i) = b
  by_cases hx : x = e
  · subst hx
    simp [he]
  · simp [hx]

/-- **`ipf_nat_tabmove`:** an entry goes to the chains of its ports. -/
theorem tabmove_linked (h : Linked w A O H) (he : e ∈ A) (hcl : has (w.nat e).natFlags SI_CLONE = false) :
    ∃ t, (∀ i, moveSide (w.side i) e (w.bucket ((w.nat e).natHv i)) (w.bucket ((w.nat e).movedHv i)) = some (t i)) ∧
      ipfNatTabmove w e = some { w.upd e (fun nat => { nat with natHv := nat.movedHv }) with side := t } ∧
      Linked { w.upd e (fun nat => { nat with natHv := nat.movedHv }) with side := t } A O fun i =>
        pushed (pulled (H i) e (w.bucket ((w.nat e).natHv i))) e (w.bucket ((w.nat e).movedHv i)) := by
  obtain ⟨t, ht, hlinked⟩ := move_linked h he (fun i => w.bucket ((w.nat e).natHv i)) (w.nat e).movedHv
  refine ⟨t, ht, ?_, hlinked⟩
  unfold ipfNatTabmove
  dsimp only
  rw [if_neg (by simp [hcl])]
  change (moveSide (w.side false) e (w.bucket ((w.nat e).natHv false)) (w.bucket ((w.nat e).movedHv false))).bind
    (fun t0 => (moveSide (w.side true) e (w.bucket ((w.nat e).natHv true))
      (w.bucket ((w.nat e).movedHv true))).bind _) = _
  rw [ht false, ht true]
  simp only [Option.bind_some]
  congr 2
  funext i
  cases i <;> rfl

/-- A clone that comes to be is a new entry, first on the list. -/
theorem clone_linked (h : Linked w A O H) (fin : FrInfo) (new : Option ℕ) (hnew : ∀ c, new = some c → w.alloc c = false)
    (ifps : Bool → Option ℕ) :
    (∃ w', ipfNatClone w fin e new ifps = (w', none) ∧ Linked w' A O H ∧ ∀ x ∈ A, w'.nat x = w.nat x) ∨
    ∃ w' c H', ipfNatClone w fin e new ifps = (w', some c) ∧ Linked w' (c :: A) O H' ∧
      (∀ x ∈ A, x ≠ c ∧ w'.nat x = w.nat x) ∧ w'.nat c = ((w.nat e).clone fin).insert ifps := by
  unfold ipfNatClone
  cases new with
  | none => exact .inl ⟨w, rfl, h, fun _ _ => rfl⟩
  | some c =>
    have hc := hnew c rfl
    have hne : ∀ x ∈ A, x ≠ c := fun x hx hxc => (h.fresh hc).1 (hxc ▸ hx)
    rcases insert_linked h hc ((w.nat e).clone fin) ifps with ⟨w', heq, hlinked, hnat⟩ | ⟨w', H', heq, hlinked, hnat, -⟩
    · refine .inl ⟨w'.free c, by simp only [heq], hlinked, fun x hx => ?_⟩
      change w'.nat x = w.nat x
      rw [hnat, update_of_ne (hne x hx)]
    · refine .inr ⟨w', c, H', by simp only [heq], hlinked, fun x hx => ⟨hne x hx, ?_⟩, ?_⟩
      · rw [hnat, update_of_ne (hne x hx)]
      · rw [hnat, update_self]

/-! ## Resizing -/

/-- An entry that is on no chain joins one, its old links cleared. -/
theorem reenterSide_counted {t : Buckets ℕ} {n b : ℕ} (h : Counted t n L) (hb : b < n)
    (he : ∀ b, e ∉ L b) : Counted (reenterSide t e b) n (update L b (e :: L b)) := by
  have hclear : Counted ({ t with table := (t.table.set (.next e) none).setP e none } : Buckets ℕ) n L :=
    ⟨h.rep.forget he none none, h.lt, h.len, h.inuse⟩
  exact hclear.push hb he rfl rfl rfl

/-- **The loop of `ipf_nat_rehash`** over the entries `l` that are left: they join the chains `L` of the new table. -/
theorem rehashLoop_counted {l : List ℕ} : ∀ {n : ℕ} {w : Softn} {L : Bool → ℕ → List ℕ} {k : Link Unit ℕ},
    Seg w.list k l → l.length ≤ n → l.Nodup → (∀ i b, ∀ e ∈ l, e ∉ L i b) → 0 < w.size.toNat →
    (∀ i, Counted (w.side i) w.size.toNat (L i)) →
    ∃ (t : Bool → Buckets ℕ) (L' : Bool → ℕ → List ℕ), rehashLoop n (w.list.get k) w = { w with side := t } ∧
      (∀ i, Counted (t i) w.size.toNat (L' i)) ∧
      ∀ i x b, x ∈ L' i b ↔ x ∈ L i b ∨ x ∈ l ∧ w.bucket ((w.nat x).natHv i) = b := by
  induction l with
  | nil =>
    intro n w L k hseg _ _ _ _ hc
    have hnone : w.list.get k = none := hseg.2
    refine ⟨w.side, L, ?_, hc, by simp⟩
    rw [hnone]
    cases n <;> rfl
  | cons e l ih =>
    intro n w L k hseg hn hnd hout hpos hc
    obtain ⟨hget, -, hseg'⟩ := (seg_cons _).1 hseg
    obtain ⟨m, rfl⟩ : ∃ m, n = m + 1 := ⟨n - 1, by simp at hn; omega⟩
    obtain ⟨hel, hnd'⟩ := nodup_cons.1 hnd
    have hlt : ∀ hv, w.bucket hv < w.size.toNat := fun hv => by
      rw [Softn.bucket, BitVec.toNat_umod]
      exact Nat.mod_lt _ hpos
    have hstep : ∀ i, Counted (reenterSide (w.side i) e (w.bucket ((w.nat e).natHv i))) w.size.toNat _ :=
      fun i => reenterSide_counted (hc i) (hlt _) fun b => hout i b e mem_cons_self
    have hmem : ∀ i x b, x ∈ update (L i) (w.bucket ((w.nat e).natHv i))
        (e :: L i (w.bucket ((w.nat e).natHv i))) b ↔
        x ∈ L i b ∨ x = e ∧ w.bucket ((w.nat e).natHv i) = b := by
      intro i x b
      by_cases hb : b = w.bucket ((w.nat e).natHv i)
      · simp [hb, or_comm]
      · simp [hb, Ne.symm hb]
    obtain ⟨t, L', heq, hc', hL'⟩ := ih (w := { w with
        side := fun i => reenterSide (w.side i) e (w.bucket ((w.nat e).natHv i)) })
      (L := fun i => update (L i) (w.bucket ((w.nat e).natHv i))
        (e :: L i (w.bucket ((w.nat e).natHv i)))) hseg' (by simpa using hn) hnd'
      (fun i b x hx hxL => by
        rcases (hmem i x b).1 hxL with hxL | ⟨hxe, -⟩
        · exact hout i b x (mem_cons_of_mem _ hx) hxL
        · exact hel (hxe ▸ hx)) hpos hstep
    refine ⟨t, L', ?_, hc', fun i x b => ?_⟩
    · rw [hget]
      exact heq
    · rw [hL' i x b, hmem i x b, mem_cons]
      constructor
      · rintro ((hx | ⟨rfl, hb⟩) | ⟨hx, hb⟩)
        · exact .inl hx
        · exact .inr ⟨.inl rfl, hb⟩
        · exact .inr ⟨.inr hx, hb⟩
      · rintro (hx | ⟨rfl | hx, hb⟩)
        · exact .inl (.inl hx)
        · exact .inl (.inr ⟨rfl, hb⟩)
        · exact .inr ⟨hx, hb⟩

/-- **`ipf_nat_rehash` keeps the lists**, and counts the new chains. -/
theorem rehash_linked (h : Linked w A O H) {newsize : Word} (hn : 0 < newsize.toNat) {notab nolen : Bool}
    (hsz : newsize ≠ w.size) (hlen : ¬nolen = true) (hnt : ¬notab = true) :
    ∃ w' t H', ipfNatRehash w newsize notab nolen = some w' ∧
      w' = { w with maxbucket := 2 * Nat.size newsize.toNat, size := newsize, side := t } ∧
      (∀ i, Counted (t i) newsize.toNat (H' i)) ∧ Linked w' A O H' := by
  unfold ipfNatRehash
  rw [if_neg hsz, if_neg hlen, if_neg hnt]
  have hfuel : A.length ≤ w.active.toNat := by
    rw [h.active]
    omega
  obtain ⟨t, L', heq, hc, hL⟩ := rehashLoop_counted (l := A) (n := w.active.toNat) (k := .head ()) (w := { w with
      side := fun i => ⟨{ (w.side i).table with head := fun _ => none }, fun _ => 0, 0⟩
      maxbucket := 2 * Nat.size newsize.toNat
      size := newsize }) (L := fun _ _ => []) (h.list ()) hfuel h.nodup_list (by simp) hn (fun i =>
        ⟨fun b => ⟨trivial, rfl⟩, fun b hb => absurd rfl hb, fun b => rfl, (used_empty _).symm⟩)
  refine ⟨_, t, L', congrArg some heq, rfl, hc, h.list, h.orphan, h.nodup, h.disjoint, h.alloc, fun i => (hc i).rep,
    fun i x b => ?_, h.active, hn⟩
  rw [hL i x b]
  simp only [not_mem_nil, false_or]
  rfl

end Ipfilter.NatTab
