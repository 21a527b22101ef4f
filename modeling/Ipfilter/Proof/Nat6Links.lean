import Ipfilter.Proof.NatFind
import Ipfilter.Spec.Nat6

/-!
# IPv6 entries stay where they were put

* `shared_linked` — the calls for IPv4 packets keep the lists, and an IPv6 entry that they do not delete;
* `insert6_linked`, `tabmove6_linked`, `lookup6_linked` — those of `ip_nat6.c` do;
* `placed6_session` — **an entry has the hash values of its tuple**, for the size that the table had when it was put there.
-/

namespace Ipfilter.NatTab

open Chain Masks State List
open Function (update update_of_ne update_self)
open Option (mem_unique some.inj)

variable {M : Machine} {proxyMatch : FrInfo → NatT → Bool} {w w' : Softn6} {A O : List ℕ}
  {H : Bool → ℕ → List ℕ} {e : ℕ}

/-! ## Sessions -/

/-- An IPv6 entry without wildcards with the hash values for a table of the size `s`. -/
structure Nat6.Session (nat : Nat6) (s : Word) : Prop where
  fixed : has nat.natFlags SI_WILDP = false
  v6 : ∀ i, nat.natV i = 6
  hashed : nat.natHv = nat.natDir.hv (nat.hv0 s) (nat.hv1 s)

/-- Other fields do not matter. -/
theorem Nat6.Session.congr {nat : NatT} {t : Tails} {s : Word} (h : Nat6.Session ⟨nat, t⟩ s) (ref : ℤ)
    (ifps : Bool → Option ℕ) :
    Nat6.Session ⟨{ nat with natRef := ref, natIfps := ifps }, t⟩ s :=
  ⟨h.fixed, h.v6, h.hashed⟩

/-! ## Calls for both versions -/

/-- **The lookups for IPv4 packets** leave entries for IPv6 alone. -/
theorem lookup4_linked {u : Softn} (h : Linked u A O H) (l : Lookup) (hnew : ∀ c, l.new = some c → u.alloc c = false) :
    ∃ u' o A' H', ipfNatLookup M proxyMatch u l = some (u', o) ∧ Linked u' A' O H' ∧
      ∀ x ∈ A, (∀ i, (u.nat x).natV i = 6) → x ∈ A' ∧ u'.nat x = u.nat x := by
  have hlook : ∃ u' o A' H', ipfNatLookup M proxyMatch u l = some (u', o) ∧ Linked u' A' O H' ∧
      ∀ x ∈ A, x ∈ A' ∧ Follows (u.nat x) (u'.nat x) := lookup_linked h l hnew
  obtain ⟨u', o, A', H', heq, hlinked, hmem⟩ := hlook
  refine ⟨u', o, A', H', heq, hlinked, fun x hx hv => ⟨(hmem x hx).1, ?_⟩⟩
  unfold ipfNatLookup at heq
  split at heq
  · -- what the first loop finds is for IPv4
    rename_i y hy
    obtain rfl : u.upd y _ = u' := congrArg Prod.fst (some.inj heq)
    have hfound : u.find (!l.out) (l.bucket M u) (l.passes M proxyMatch) = some y := by
      split at hy
      · cases hy
      · exact hy
    obtain ⟨-, -, htest⟩ := h.find_some hfound
    unfold Lookup.passes at htest
    rw [Bool.and_eq_true, matches_iff] at htest
    have hne : x ≠ y := by
      rintro rfl
      have h6 := htest.1.2.2
      rw [hv false, hv true] at h6
      split at h6 <;> exact absurd h6.1 (by decide)
    simp [Softn.upd, hne]
  · split at heq
    · obtain rfl : u = u' := congrArg Prod.fst (some.inj heq)
      rfl
    · rename_i y hy
      split at heq
      · obtain rfl : u = u' := congrArg Prod.fst (some.inj heq)
        rfl
      · unfold wildFound at hy
        dsimp only at hy
        split at hy
        · cases hy
        split at hy
        · cases hy
        obtain ⟨hyA, -, htest⟩ := h.find_some hy
        rw [Bool.and_eq_true] at htest
        have hm := htest.1
        simp only [NatT.wildMatches, decide_eq_true_eq] at hm
        have hne : x ≠ y := by
          rintro rfl
          have h6 := hm.2.2.1
          rw [hv false, hv true] at h6
          split at h6 <;> exact absurd h6.1 (by decide)
        obtain ⟨u'', o', _, _, hres, _, hsame⟩ := resolve_linked (M := M) h l hnew hyA hm.2.2.2
        rw [hres] at heq
        obtain rfl : u'' = u' := congrArg Prod.fst (some.inj heq)
        exact (hsame x hx).2.1 hne

theorem rehashLoop_nat (n : ℕ) (o : Option ℕ) (u : Softn) : (rehashLoop n o u).nat = u.nat := by
  induction n generalizing o u with
  | zero => cases o <;> rfl
  | succ n ih =>
    cases o with
    | none => rfl
    | some y => rw [rehashLoop, ih]

theorem rehash_nat {u u' : Softn} {newsize : Word} {notab nolen : Bool}
    (hs : ipfNatRehash u newsize notab nolen = some u') : u'.nat = u.nat := by
  unfold ipfNatRehash at hs
  split_ifs at hs
  · cases hs
    rfl
  · cases hs
    rfl
  · rw [← some.inj hs, rehashLoop_nat]

/-- **The calls for both versions keep the lists, and IPv6 entries** but for their references. -/
theorem shared_linked {u u' : Softn} (h : Linked u A O H) {op : Op} (hl : Legal u op) (hs : step M proxyMatch u op = some u') :
    ∃ A' O' H', Linked u' A' O' H' ∧ ∀ x ∈ A, op.spares x → (∀ i, (u.nat x).natV i = 6) →
      x ∈ A' ∧ ∃ ref, u'.nat x = { u.nat x with natRef := ref } := by
  cases op with
  | add y nat natsave ifps =>
    obtain ⟨A', O', H', hlinked, hx⟩ := add_linked (M := M) h hl nat natsave ifps
    cases hs
    exact ⟨A', O', H', hlinked, fun x hxA _ _ => ⟨(hx x hxA).1, (u.nat x).natRef, (hx x hxA).2⟩⟩
  | lookup l =>
    have hnew : ∀ c, l.new = some c → u.alloc c = false := hl
    have hlook : ∃ v o A' H', ipfNatLookup M proxyMatch u l = some (v, o) ∧ Linked v A' O H' ∧
        ∀ x ∈ A, (∀ i, (u.nat x).natV i = 6) → x ∈ A' ∧ v.nat x = u.nat x := lookup4_linked h l hnew
    obtain ⟨v, o, A', H', heq, hlinked, hx⟩ := hlook
    rw [step, heq] at hs
    obtain rfl : v = u' := some.inj hs
    exact ⟨A', O, H', hlinked, fun x hxA _ hv => ⟨(hx x hxA hv).1, (u.nat x).natRef, (hx x hxA hv).2⟩⟩
  | delete y destroy =>
    obtain ⟨v, O', H', heq, hlinked⟩ := delete_linked h hl destroy
    obtain rfl : v = u' := mem_unique heq hs
    refine ⟨_, O', H', hlinked, fun x hxA hxy _ => ⟨(mem_erase_of_ne hxy.symm).2 hxA, (u.nat x).natRef, ?_⟩⟩
    exact delete_nat_ne hs hxy.symm
  | hold y =>
    cases hs
    refine ⟨A, O, H, h.upd rfl, fun x hxA _ _ => ⟨hxA, ?_⟩⟩
    by_cases hxy : x = y
    · subst hxy
      exact ⟨(u.nat x).natRef + 1, update_self ..⟩
    · exact ⟨(u.nat x).natRef, update_of_ne hxy ..⟩
  | deref y =>
    obtain ⟨v, A', O', H', heq, hlinked, hA⟩ := deref_linked h hl
    obtain rfl : v = u' := mem_unique heq hs
    exact ⟨A', O', H', hlinked, fun x hxA hxy _ => ⟨hA x hxA hxy.symm, (u.nat x).natRef, deref_nat_ne hs hxy.symm⟩⟩
  | rehash newsize notab nolen =>
    obtain ⟨A', O', H', hlinked, hx⟩ := step_linked h hl hs
    refine ⟨A', O', H', hlinked, fun x hxA _ _ => ⟨(hx x hxA trivial).1, (u.nat x).natRef, ?_⟩⟩
    have hnat : u'.nat = u.nat := rehash_nat hs
    rw [hnat]

/-! ## Calls for IPv6 -/

theorem insert6_linked (h : Linked w.tab A O H) (he : w.tab.alloc e = false) (nat : Nat6) (ifps : Bool → Option ℕ) :
    (∃ u, ipfNat6Insert (w.malloc e nat) e ifps = (⟨u, update w.tails e nat.toTails⟩, false) ∧
      Linked (u.free e) A O H ∧ u.nat = update w.tab.nat e (nat.insert w.tab.size ifps)) ∨
    ∃ u H', ipfNat6Insert (w.malloc e nat) e ifps = (⟨u, update w.tails e nat.toTails⟩, true) ∧
      Linked u (e :: A) O H' ∧ u.nat = update w.tab.nat e (nat.insert w.tab.size ifps) := by
  have hself : (w.malloc e nat).nat6 e = nat := by
    simp [Softn6.malloc, Softn6.nat6, Softn.malloc]
  have hsize : (w.malloc e nat).tab.size = w.tab.size := rfl
  unfold ipfNat6Insert
  dsimp only
  rw [hself, hsize]
  have hnat : ((w.malloc e nat).tab.upd e fun _ => nat.insert w.tab.size ifps).nat =
      update w.tab.nat e (nat.insert w.tab.size ifps) := by
    simp [Softn6.malloc, Softn.upd, Softn.malloc]
  rcases hashtabAdd_cases ((w.malloc e nat).tab.upd e fun _ => nat.insert w.tab.size ifps) e with hadd | hadd
  · rw [hadd]
    exact .inl ⟨_, rfl, h.refused he nat.toNatT _, hnat⟩
  · rw [hadd]
    refine .inr ⟨_, _, rfl, h.enter he rfl (fun i => rfl) rfl rfl (fun x hx => ?_) rfl, hnat⟩
    simp [Softn6.malloc, Softn.upd, Softn.malloc, hx]

/-- **`ipf_nat6_add`** keeps the lists and the other entries. -/
theorem add6_linked (h : Linked w.tab A O H) (he : w.tab.alloc e = false) (nat : Nat6) (natsave : Option ℕ)
    (ifps : Bool → Option ℕ) : ∃ A' O' H', Linked (ipfNat6Add M w e nat natsave ifps).1.tab A' O' H' ∧
      ∀ x ∈ A, x ∈ A' ∧ (ipfNat6Add M w e nat natsave ifps).1.nat6 x = w.nat6 x := by
  have hne : ∀ x ∈ A, x ≠ e := fun x hx hxe => (h.fresh he).1 (hxe ▸ hx)
  unfold ipfNat6Add
  dsimp only
  split
  · exact ⟨A, O, H, h, fun x hx => ⟨hx, rfl⟩⟩
  rcases insert6_linked h he (Nat6.finalise M { nat with natMe := natsave }) ifps with
    ⟨u, heq, hlinked, hnat⟩ | ⟨u, H', heq, hlinked, hnat⟩
  · rw [heq]
    refine ⟨A, O, H, ?_, fun x hx => ⟨hx, ?_⟩⟩
    · cases natsave with
      | none => exact hlinked
      | some m => exact hlinked.congr rfl (fun _ => rfl) rfl rfl rfl fun _ _ => rfl
    · have hx' : u.nat x = w.tab.nat x := by rw [hnat, update_of_ne (hne x hx)]
      cases natsave <;> simp [Softn6.nat6, Softn.free, hx', hne x hx]
  · rw [heq]
    refine ⟨e :: A, O, H', ?_, fun x hx => ⟨mem_cons_of_mem _ hx, ?_⟩⟩
    · cases natsave <;> exact hlinked.congr rfl (fun _ => rfl) rfl rfl rfl fun _ _ => rfl
    · have hx' : u.nat x = w.tab.nat x := by rw [hnat, update_of_ne (hne x hx)]
      cases natsave <;> simp [Softn6.nat6, hx', hne x hx]

/-- A walk along a chain finds the first entry that passes. -/
theorem Linked.find6 (h : Linked w.tab A O H) (i : Bool) (b : ℕ) (test : Nat6 → Bool) :
    w.find i b test = (H i b).find? fun e => test (w.nat6 e) := by
  have hsub : (H i b).length ≤ w.tab.active.toNat := by
    have hle := (subperm_of_subset ((h.rep i).nodup b) fun e he => ((h.place i e b).1 he).1).length_le
    rw [h.active]
    omega
  have hseek := (h.rep i b).get_seek (fun e => !test (w.nat6 e)) hsub
  simp only [Bool.not_not] at hseek
  exact hseek

/-- What is found is on the list, in its bucket, and passes. -/
theorem Linked.find6_some (h : Linked w.tab A O H) {i : Bool} {b : ℕ} {test : Nat6 → Bool}
    (hf : w.find i b test = some e) : e ∈ A ∧ w.tab.bucket ((w.tab.nat e).natHv i) = b ∧ test (w.nat6 e) = true := by
  rw [h.find6] at hf
  obtain ⟨he, hb⟩ := (h.place i e b).1 (mem_of_find?_eq_some hf)
  have htest := List.find?_some hf
  exact ⟨he, hb, htest⟩

/-- **`ipf_nat6_tabmove`:** an entry goes to the chains of its ports, if the lengths it counts down are there. -/
theorem tabmove6_linked (h : Linked w.tab A O H) (he : e ∈ A) (hcl : has (w.tab.nat e).natFlags SI_CLONE = false)
    (hlt : ∀ i, ((w.tab.nat e).natHv i).toNat < w.tab.size.toNat) :
    ∃ u H', ipfNat6Tabmove w e = some ⟨u, w.tails⟩ ∧ Linked u A O H' ∧ (∀ x ≠ e, u.nat x = w.tab.nat x) ∧
      u.nat e = { w.tab.nat e with natHv := (w.nat6 e).movedHv w.tab.size } := by
  obtain ⟨t, ht, hlinked⟩ := move_linked h he (fun i => ((w.tab.nat e).natHv i).toNat) ((w.nat6 e).movedHv w.tab.size)
  refine ⟨_, _, ?_, hlinked, fun x hx => update_of_ne hx .., update_self ..⟩
  unfold ipfNat6Tabmove
  have hcl' : ¬has (w.nat6 e).natFlags SI_CLONE = true := by simp [Softn6.nat6, hcl]
  have hlt' : ∀ i, ((w.nat6 e).natHv i).toNat < w.tab.size.toNat := hlt
  dsimp only
  rw [if_neg hcl', if_pos hlt']
  have h0 := ht false
  have h1 := ht true
  change (moveSide (w.tab.side false) e ((w.tab.nat e).natHv false).toNat
      (w.tab.bucket ((w.nat6 e).movedHv w.tab.size false))).bind (fun t0 =>
    (moveSide (w.tab.side true) e ((w.tab.nat e).natHv true).toNat
      (w.tab.bucket ((w.nat6 e).movedHv w.tab.size true))).bind _) = _
  rw [h0, h1]
  simp only [Option.bind_some]
  congr 3
  funext i
  cases i <;> rfl

/-- It is defined only then. -/
theorem tabmove6_lt (hcl : has (w.tab.nat e).natFlags SI_CLONE = false) (hs : ipfNat6Tabmove w e = some w') :
    ∀ i, ((w.tab.nat e).natHv i).toNat < w.tab.size.toNat := by
  unfold ipfNat6Tabmove at hs
  have hcl' : ¬has (w.nat6 e).natFlags SI_CLONE = true := by simp [Softn6.nat6, hcl]
  dsimp only at hs
  rw [if_neg hcl'] at hs
  by_contra hn
  have hn' : ¬∀ i, ((w.nat6 e).natHv i).toNat < w.tab.size.toNat := hn
  rw [if_neg hn'] at hs
  cases hs

/-- An entry for TCP or UDP gets the hash values of its ports, for the size that the table has. -/
theorem Nat6.Session.resolve {nat : NatT} {t : Tails} {s : Word} (h : Nat6.Session ⟨nat, t⟩ s)
    (hp : has nat.natFlags IPN_TCPUDP = true) (size : Word) (out : Bool) (sp dp : BitVec 16) (ifp : Option ℕ) :
    Nat6.Session ⟨{ nat.resolve out sp dp ifp with natHv := Nat6.movedHv ⟨nat.resolve out sp dp ifp, t⟩ size }, t⟩
      size := by
  obtain ⟨os, od, ns, nd, ifps, heq⟩ := resolve_keeps nat out sp dp ifp
  have hfixed : has nat.natFlags SI_WILDP = false := h.fixed
  rw [heq, and_not_of_has_false hfixed]
  refine ⟨hfixed, h.v6, ?_⟩
  simp only [Nat6.hv0, Nat6.hv1, NatT.hashPorts, hfixed, hp, Bool.false_eq_true, if_false, if_true]
  rfl

/-- An entry gets its ports and moves to their chains. -/
theorem settle6_linked (h : Linked w.tab A O H) (he : e ∈ A) (hcl : has (w.tab.nat e).natFlags SI_CLONE = false) (out : Bool)
    (sp dp : BitVec 16) (ifp : Option ℕ)
    (hs : ipfNat6Tabmove ⟨w.tab.upd e fun nat => nat.resolve out sp dp ifp, w.tails⟩ e = some w') :
    ∃ H', Linked w'.tab A O H' ∧ w'.tails = w.tails ∧ (∀ x ≠ e, w'.tab.nat x = w.tab.nat x) ∧
      w'.tab.nat e = { (w.tab.nat e).resolve out sp dp ifp with
        natHv := Nat6.movedHv ⟨(w.tab.nat e).resolve out sp dp ifp, w.tails e⟩ w.tab.size } := by
  obtain ⟨os, od, ns, nd, ifps, hres⟩ := resolve_keeps (w.tab.nat e) out sp dp ifp
  set u : Softn6 := ⟨w.tab.upd e fun nat => nat.resolve out sp dp ifp, w.tails⟩
  have hupd : Linked u.tab A O H := h.upd (f := fun nat => nat.resolve out sp dp ifp) (by rw [hres])
  have hself : u.tab.nat e = (w.tab.nat e).resolve out sp dp ifp := update_self ..
  have hcl' : has (u.tab.nat e).natFlags SI_CLONE = false := by
    have hbits : ~~~SI_WILDP &&& SI_CLONE = SI_CLONE := by decide
    rw [hself, hres, has, BitVec.and_assoc, hbits]
    exact hcl
  obtain ⟨v, H', heq, hlinked, hother, hmoved⟩ := tabmove6_linked hupd he hcl' (tabmove6_lt hcl' hs)
  obtain rfl : ⟨v, u.tails⟩ = w' := mem_unique heq hs
  refine ⟨H', hlinked, rfl, fun x hx => (hother x hx).trans (update_of_ne hx ..), ?_⟩
  rw [hmoved, Softn6.nat6, hself]
  rfl

theorem copyTails_of_mem (h : Linked w.tab A O H) {new : Option ℕ} (hnew : ∀ c, new = some c → w.tab.alloc c = false)
    {x : ℕ} (hx : x ∈ A) : w.copyTails new e x = w.tails x := by
  unfold Softn6.copyTails
  cases new with
  | none => rfl
  | some c =>
    have hne : x ≠ c := fun hxc => (h.fresh (hnew c rfl)).1 (hxc ▸ hx)
    exact update_of_ne hne ..

/-- **Resolving an entry** keeps the lists and the other entries. -/
theorem resolve6_linked (h : Linked w.tab A O H) (l : Lookup6) (hnew : ∀ c, l.new = some c → w.tab.alloc c = false)
    (he : e ∈ A) (hflags : has (w.tab.nat e).natFlags (NAT_TCPUDP ||| SI_WILDP) = true) {o : Option ℕ}
    (hs : resolve6 M w l e = some (w', o)) : ∃ A' H', Linked w'.tab A' O H' ∧ ∀ x ∈ A, x ∈ A' ∧
      (x ≠ e ∨ has (w.tab.nat e).natFlags SI_CLONE = true → w'.nat6 x = w.nat6 x) ∧
      (x = e → has (w.tab.nat e).natFlags SI_CLONE = false → ∀ s, (w.nat6 x).Session s →
        (w'.nat6 x).Session w.tab.size) := by
  unfold resolve6 at hs
  dsimp only at hs
  by_cases hcl : has (w.tab.nat e).natFlags SI_CLONE = true
  · have hcl6 : has (w.nat6 e).natFlags SI_CLONE = true := hcl
    rw [if_pos hcl6] at hs
    rcases clone_linked (e := e) h l.fin l.new hnew l.ifps with
      ⟨u, heq, hlinked, hnat⟩ | ⟨u, c, H', heq, hlinked, hnat, hc⟩
    · rw [heq] at hs
      dsimp only at hs
      cases hs
      refine ⟨A, H, hlinked, fun x hx => ⟨hx, fun _ => ?_, fun _ hn => absurd hcl (by simp [hn])⟩⟩
      simp [Softn6.nat6, hnat x hx, copyTails_of_mem h hnew hx]
    · rw [heq] at hs
      dsimp only at hs
      have hcl' : has (u.nat c).natFlags SI_CLONE = false := by
        have hbits : ~~~SI_CLONE &&& SI_CLONE = 0 := by decide
        have hbits' : SI_CLONED &&& SI_CLONE = 0 := by decide
        rw [hc]
        simp [NatT.insert, NatT.clone, has, BitVec.and_or_distrib_right, BitVec.and_assoc, hbits, hbits']
      cases hm : ipfNat6Tabmove ⟨u.upd c fun nat => nat.resolve l.out (lookup6Ports M l.fin l.flags l.p).1
          (lookup6Ports M l.fin l.flags l.p).2 l.fin.finIfp, w.copyTails l.new e⟩ c with
      | none =>
        rw [hm] at hs
        cases hs
      | some v =>
        rw [hm] at hs
        cases hs
        obtain ⟨H'', hlinked', htails, hother, -⟩ :=
          settle6_linked (w := ⟨u, w.copyTails l.new e⟩) hlinked mem_cons_self hcl' _ _ _ _ hm
        refine ⟨c :: A, H'', hlinked',
          fun x hx => ⟨mem_cons_of_mem _ hx, fun _ => ?_, fun _ hn => absurd hcl (by simp [hn])⟩⟩
        have hnat' : w'.tab.nat x = w.tab.nat x := (hother x (hnat x hx).1).trans (hnat x hx).2
        simp [Softn6.nat6, hnat', htails, copyTails_of_mem h hnew hx]
  · have hcl6 : ¬has (w.nat6 e).natFlags SI_CLONE = true := hcl
    rw [if_neg hcl6] at hs
    dsimp only at hs
    have hless : Linked { w.tab with wilds := w.tab.wilds - 1 } A O H := h.congr rfl (fun _ => rfl) rfl rfl rfl fun _ _ => rfl
    cases hm : ipfNat6Tabmove ⟨{ w.tab with wilds := w.tab.wilds - 1 }.upd e fun nat => nat.resolve l.out
        (lookup6Ports M l.fin l.flags l.p).1 (lookup6Ports M l.fin l.flags l.p).2 l.fin.finIfp, w.tails⟩ e with
    | none =>
      rw [hm] at hs
      cases hs
    | some v =>
      rw [hm] at hs
      cases hs
      obtain ⟨H', hlinked, htails, hother, hself⟩ :=
        settle6_linked (w := ⟨_, w.tails⟩) hless he (by simpa using hcl) _ _ _ _ hm
      refine ⟨A, H', hlinked, fun x hx => ⟨hx, fun hor => ?_, fun hxe _ s hsess => ?_⟩⟩
      · have hne : x ≠ e := hor.resolve_right hcl
        simp [Softn6.nat6, hother x hne, htails]
      · subst hxe
        have hp : has (w.tab.nat x).natFlags IPN_TCPUDP = true := by
          -- it is not a wildcard, so it is for TCP or UDP
          by_contra hn
          have h1 : (w.tab.nat x).natFlags &&& NAT_TCPUDP = 0 := has_eq_false.1 (Bool.eq_false_of_not_eq_true hn)
          have h2 : (w.tab.nat x).natFlags &&& SI_WILDP = 0 := has_eq_false.1 hsess.fixed
          simp [has, BitVec.and_or_distrib_left, h1, h2] at hflags
        have hold : Nat6.Session ⟨w.tab.nat x, w.tails x⟩ s := hsess
        have hres := hold.resolve hp w.tab.size l.out
          (lookup6Ports M l.fin l.flags l.p).1 (lookup6Ports M l.fin l.flags l.p).2 l.fin.finIfp
        rw [Softn6.nat6, hself, htails]
        exact hres

/-- An entry found by the first loop, or in a lookup that changes nothing, is not moved. -/
theorem moves_of_ne {l : Lookup6} (hne : (if has l.flags SI_WILDP then none else exact6Found M proxyMatch w l) ≠ none ∨
    wild6Found M w l ≠ some e ∨ has l.fin.finFlx FI_IGNORE = true ∨ has (w.nat6 e).natFlags SI_CLONE = true) :
    (Op6.lookup l).moves M proxyMatch w e = false := by
  unfold Op6.moves
  rw [decide_eq_false_iff_not]
  rintro ⟨h1, h2, h3, h4⟩
  rcases hne with hne | hne | hne | hne
  · rcases h1 with h1 | h1
    · exact hne (by rw [if_pos h1])
    · exact hne (by rw [h1, ite_self])
  · exact hne h2
  · rw [h3] at hne
    cases hne
  · rw [h4] at hne
    cases hne

/-- **A lookup keeps the lists**, and the sessions. -/
theorem lookup6_linked (h : Linked w.tab A O H) (l : Lookup6) (hnew : ∀ c, l.new = some c → w.tab.alloc c = false)
    {o : Option ℕ} (hs : ipfNat6Lookup M proxyMatch w l = some (w', o)) :
    ∃ A' H', Linked w'.tab A' O H' ∧ ∀ x ∈ A, x ∈ A' ∧ ∀ s, (w.nat6 x).Session s →
      (w'.nat6 x).Session (if (Op6.lookup l).moves M proxyMatch w x then w.tab.size else s) := by
  unfold ipfNat6Lookup at hs
  split at hs
  · rename_i y hy
    obtain ⟨ifps, hset⟩ := setIfp_keeps (w.tab.nat y) l.out l.fin.finIfp
    cases hs
    refine ⟨A, H, h.upd (f := fun nat => nat.setIfp l.out l.fin.finIfp) (by rw [hset]),
      fun x hx => ⟨hx, fun s hsess => ?_⟩⟩
    rw [moves_of_ne (.inl (by rw [hy]; simp)), if_neg Bool.false_ne_true]
    by_cases hxy : x = y
    · subst hxy
      simp only [Softn6.nat6, Softn.upd, update_self]
      rw [hset]
      exact hsess.congr (w.tab.nat x).natRef ifps
    · simpa [Softn6.nat6, Softn.upd, hxy] using hsess
  · rename_i hno
    split at hs
    · rename_i hw
      cases hs
      refine ⟨A, H, h, fun x hx => ⟨hx, fun s hsess => ?_⟩⟩
      rw [moves_of_ne (.inr (.inl (by rw [hw]; simp))), if_neg Bool.false_ne_true]
      exact hsess
    · rename_i y hw
      split at hs
      · rename_i hig
        cases hs
        refine ⟨A, H, h, fun x hx => ⟨hx, fun s hsess => ?_⟩⟩
        rw [moves_of_ne (.inr (.inr (.inl hig))), if_neg Bool.false_ne_true]
        exact hsess
      · rename_i hig
        have hfound : w.find (!l.out) (l.wildBucket w.tab.size).toNat (l.wildPasses M) = some y := by
          unfold wild6Found at hw
          split at hw
          · exact hw
          · cases hw
        obtain ⟨hyA, -, htest⟩ := h.find6_some hfound
        unfold Lookup6.wildPasses Nat6.wildMatches at htest
        simp only [Bool.and_eq_true] at htest
        obtain ⟨A', H', hlinked, hx⟩ := resolve6_linked h l hnew hyA htest.1.2 hs
        refine ⟨A', H', hlinked, fun x hxA => ⟨(hx x hxA).1, fun s hsess => ?_⟩⟩
        by_cases hkeep : x ≠ y ∨ has (w.tab.nat y).natFlags SI_CLONE = true
        · have hmoves : (Op6.lookup l).moves M proxyMatch w x = false := by
            apply moves_of_ne
            by_cases hxy : x = y
            · subst hxy
              exact .inr (.inr (.inr (hkeep.resolve_left fun hc => hc rfl)))
            · exact .inr (.inl (by rw [hw]; exact fun hc => hxy (some.inj hc).symm))
          rw [hmoves, if_neg Bool.false_ne_true, (hx x hxA).2.1 hkeep]
          exact hsess
        · rw [not_or, not_not, Bool.not_eq_true] at hkeep
          have hmoves : (Op6.lookup l).moves M proxyMatch w x = true := by
            unfold Op6.moves
            rw [decide_eq_true_eq]
            refine ⟨?_, by rw [hw, hkeep.1], by simpa using hig, by rw [hkeep.1]; exact hkeep.2⟩
            by_cases hwild : has l.flags SI_WILDP = true
            · exact .inl hwild
            · rw [if_neg hwild] at hno
              exact .inr hno
          rw [hmoves, if_pos rfl]
          exact (hx x hxA).2.2 hkeep.1 hkeep.2 s hsess

/-! ## Runs -/

/-- **Every call keeps the lists**, and the sessions that it does not delete. -/
theorem step6_linked (h : Linked w.tab A O H) {op : Op6} (hl : Legal6 w op) (hs : step6 M proxyMatch w op = some w') :
    ∃ A' O' H', Linked w'.tab A' O' H' ∧ ∀ x ∈ A, op.spares x → ∀ s, (w.nat6 x).Session s →
      x ∈ A' ∧ (w'.nat6 x).Session (if op.moves M proxyMatch w x then w.tab.size else s) := by
  cases op with
  | shared op =>
    obtain ⟨u, hu, rfl⟩ := Option.map_eq_some_iff.mp hs
    obtain ⟨A', O', H', hlinked, hx⟩ := shared_linked h hl hu
    refine ⟨A', O', H', hlinked, fun x hxA hsp s hsess => ?_⟩
    obtain ⟨hxA', ref, hnat⟩ := hx x hxA hsp hsess.v6
    refine ⟨hxA', ?_⟩
    rw [Softn6.nat6, hnat]
    exact hsess.congr ref (w.tab.nat x).natIfps
  | add y nat natsave ifps =>
    obtain ⟨A', O', H', hlinked, hx⟩ := add6_linked (M := M) h hl nat natsave ifps
    cases hs
    refine ⟨A', O', H', hlinked, fun x hxA _ s hsess => ⟨(hx x hxA).1, ?_⟩⟩
    rw [(hx x hxA).2]
    exact hsess
  | lookup l =>
    obtain ⟨⟨u, o⟩, hu, rfl⟩ := Option.map_eq_some_iff.mp hs
    obtain ⟨A', H', hlinked, hx⟩ := lookup6_linked h l hl hu
    exact ⟨A', O, H', hlinked, fun x hxA _ s hsess => ⟨(hx x hxA).1, (hx x hxA).2 s hsess⟩⟩

theorem reach6_linked {size : Word} (hs : 0 < size.toNat) {max maxbucket : ℤ}
    (hr : Reach6 M proxyMatch (Softn6.init size max maxbucket) w) : ∃ A O H, Linked w.tab A O H := by
  induction hr with
  | start => exact ⟨_, _, _, init_linked hs max maxbucket⟩
  | call op _ hl heq ih =>
    obtain ⟨A, O, H, h⟩ := ih
    obtain ⟨A', O', H', hlinked, -⟩ := step6_linked h hl heq
    exact ⟨A', O', H', hlinked⟩

/-- **An entry stays where `ipf_nat6_insert` put it** until it is deleted. -/
theorem placed6_session {size : Word} (hs : 0 < size.toNat) {max maxbucket : ℤ} {s : Word}
    (hp : Placed6 M proxyMatch (Softn6.init size max maxbucket) e s w) :
    ∃ A O H, Linked w.tab A O H ∧ e ∈ A ∧ (w.nat6 e).Session s := by
  induction hp with
  | insert nat ifps wilds proto saved hr he hf hv hins =>
    obtain ⟨A, O, H, h⟩ := reach6_linked hs hr
    rcases insert6_linked h he nat ifps with ⟨u, heq, -⟩ | ⟨u, H', heq, hlinked, hnat⟩
    · rw [hins] at heq
      exact absurd (congrArg Prod.snd heq) (by simp)
    · obtain rfl : _ = (⟨u, _⟩ : Softn6) := congrArg Prod.fst (hins.symm.trans heq)
      refine ⟨e :: A, O, H', hlinked.congr rfl (fun _ => rfl) rfl rfl rfl fun _ _ => rfl, mem_cons_self, ?_⟩
      have hself := congrFun hnat e
      rw [update_self] at hself
      simp only [Softn6.nat6, hself, update_self]
      exact ⟨hf, hv, rfl⟩
  | call op _ hl hspare heq ih =>
    obtain ⟨A, O, H, h, he, hsess⟩ := ih
    obtain ⟨A', O', H', hlinked, hx⟩ := step6_linked h hl heq
    obtain ⟨he', hsess'⟩ := hx e he hspare _ hsess
    exact ⟨A', O', H', hlinked, he', hsess'⟩

end Ipfilter.NatTab
