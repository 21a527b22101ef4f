import Ipfilter.Proof.NatLinks
import Ipfilter.Spec.NatFind

/-!
# Lookups find the entries of the NAT table

* `step_linked`: every call keeps the lists, and leaves an entry it does not delete where its hash values say;
* `bucket_meets`: when a lookup looks in the bucket of the entry;
* `placed_found`: an entry that is where `ipf_nat_insert` put it, in any state of the table, is found by the packets it
  expects exactly when the two hash values meet and no entry without ports is in the way.
-/

namespace Ipfilter.NatTab

open Chain Masks State Option

variable {M : Machine} {proxyMatch : FrInfo → NatT → Bool} {w w' : Softn} {A O : List ℕ} {H : Bool → ℕ → List ℕ}
  {e : ℕ}

/-! ## Sessions -/

/-- An IPv4 entry without wildcards with the hash values that `ipf_nat_insert` computes. -/
structure NatT.Session (nat : NatT) : Prop where
  fixed : has nat.natFlags SI_WILDP = false
  v4 : ∀ i, nat.natV i = 4
  kinded : nat.Kinded
  hashed : nat.natHv = nat.natDir.hv nat.hv0 nat.hv1

theorem has_eq_false {flags m : Flags} : has flags m = false ↔ flags &&& m = 0 := by simp [has]

/-- Without wildcard flags, clearing them changes nothing. -/
theorem and_not_of_has_false {flags m : Flags} (h : has flags m = false) : flags &&& ~~~m = flags := by
  have h0 := has_eq_false.1 h
  ext i hi
  have hb := congrArg (fun x : BitVec 32 => x[i]) h0
  simp only [BitVec.getElem_and, BitVec.getElem_not, BitVec.ofNat_eq_ofNat, BitVec.getElem_zero] at hb ⊢
  cases hf : flags[i] with
  | false => simp
  | true => simpa [hf] using hb

/-- An entry for TCP or UDP stays one when a lookup resolves it: `ipf_nat_tabmove` computes the same hash values. -/
theorem NatT.Session.resolve {nat : NatT} (h : nat.Session) (hp : has nat.natFlags IPN_TCPUDP = true) (out : Bool)
    (s d : BitVec 16) (ifp : Option ℕ) :
    ({ nat.resolve out s d ifp with natHv := (nat.resolve out s d ifp).movedHv } : NatT).Session := by
  obtain ⟨os, od, ns, nd, ifps, heq⟩ := resolve_keeps nat out s d ifp
  rw [heq, and_not_of_has_false h.fixed]
  refine ⟨h.fixed, h.v4, ⟨h.kinded.pr, h.kinded.ports, h.kinded.query⟩, ?_⟩
  have hports : ∀ a b c, NatT.hashPorts
      { nat with
        natOsport := os, natOdport := od, natNsport := ns, natNdport := nd, natIfps := ifps
        natHv := NatT.movedHv { nat with
          natOsport := os, natOdport := od, natNsport := ns, natNdport := nd, natIfps := ifps } } a b c =
      (word a, word b) := by
    intro a b c
    simp [NatT.hashPorts, h.fixed, hp]
  simp only [NatT.hv0, NatT.hv1, hports]
  rfl

/-! ## Calls -/

/-- What a call does with an entry that it does not delete. -/
def Follows (nat nat' : NatT) : Prop := nat.Session → nat'.Session

theorem follows_of_eq {nat nat' : NatT} (h : nat' = nat) : Follows nat nat' := fun hs => h ▸ hs

/-- **`ipf_nat_add` keeps the lists.** -/
theorem add_linked (h : Linked w A O H) (he : w.alloc e = false) (nat : NatT) (natsave : Option ℕ)
    (ifps : Bool → Option ℕ) : ∃ A' O' H', Linked (ipfNatAdd M w e nat natsave ifps).1 A' O' H' ∧
      ∀ x ∈ A, x ∈ A' ∧ (ipfNatAdd M w e nat natsave ifps).1.nat x = w.nat x := by
  have hne : ∀ x ∈ A, x ≠ e := fun x hx hxe => (h.fresh he).1 (hxe ▸ hx)
  unfold ipfNatAdd
  dsimp only
  split
  · exact ⟨A, O, H, h, fun x hx => ⟨hx, rfl⟩⟩
  rcases insert_linked h he ({ nat with natMe := natsave }.finalise M) ifps with
    ⟨w', heq, hlinked, hnat⟩ | ⟨w', H', heq, hlinked, hnat, -⟩
  · rw [heq]
    refine ⟨A, O, H, ?_, fun x hx => ⟨hx, ?_⟩⟩
    · cases natsave with
      | none => exact hlinked
      | some m => exact hlinked.congr rfl (fun _ => rfl) rfl rfl rfl fun _ _ => rfl
    · have hx' : w'.nat x = w.nat x := by rw [hnat, Function.update_of_ne (hne x hx)]
      cases natsave <;> exact hx'
  · rw [heq]
    refine ⟨e :: A, O, H', ?_, fun x hx => ⟨List.mem_cons_of_mem _ hx, ?_⟩⟩
    · cases natsave <;> exact hlinked.congr rfl (fun _ => rfl) rfl rfl rfl fun _ _ => rfl
    · have hx' : w'.nat x = w.nat x := by rw [hnat, Function.update_of_ne (hne x hx)]
      cases natsave <;> exact hx'

/-- An entry gets its ports and moves to their chains. -/
theorem settle_linked (h : Linked w A O H) (he : e ∈ A) (hcl : has (w.nat e).natFlags SI_CLONE = false) (out : Bool)
    (s d : BitVec 16) (ifp : Option ℕ) :
    ∃ w' H', ipfNatTabmove (w.upd e fun nat => nat.resolve out s d ifp) e = some w' ∧ Linked w' A O H' ∧
      (∀ x ≠ e, w'.nat x = w.nat x) ∧
      w'.nat e = { (w.nat e).resolve out s d ifp with natHv := ((w.nat e).resolve out s d ifp).movedHv } := by
  obtain ⟨os, od, ns, nd, ifps, hres⟩ := resolve_keeps (w.nat e) out s d ifp
  have hupd : Linked (w.upd e fun nat => nat.resolve out s d ifp) A O H := h.upd (by rw [hres])
  have hself : (w.upd e fun nat => nat.resolve out s d ifp).nat e = (w.nat e).resolve out s d ifp := by simp [Softn.upd]
  have hcl' : has ((w.upd e fun nat => nat.resolve out s d ifp).nat e).natFlags SI_CLONE = false := by
    have hbits : ~~~SI_WILDP &&& SI_CLONE = SI_CLONE := by decide
    rw [hself, hres, has, BitVec.and_assoc, hbits]
    exact hcl
  obtain ⟨t, -, heq, hlinked⟩ := tabmove_linked hupd he hcl'
  refine ⟨_, _, heq, hlinked, fun x hx => ?_, ?_⟩
  · simp [Softn.upd, hx]
  · simp [Softn.upd]

/-- **Resolving an entry keeps the lists.** Other entries stay as they are, and an entry that was no wildcard keeps the
hash values of its ports. -/
theorem resolve_linked (h : Linked w A O H) (l : Lookup) (hnew : ∀ c, l.new = some c → w.alloc c = false) (he : e ∈ A)
    (hflags : has (w.nat e).natFlags (NAT_TCPUDP ||| SI_WILDP) = true) :
    ∃ w' o A' H', resolve M w l e = some (w', o) ∧ Linked w' A' O H' ∧
      ∀ x ∈ A, x ∈ A' ∧ (x ≠ e → w'.nat x = w.nat x) ∧ Follows (w.nat x) (w'.nat x) := by
  unfold resolve
  dsimp only
  by_cases hcl : has (w.nat e).natFlags SI_CLONE = true
  · rw [if_pos hcl]
    rcases clone_linked (e := e) h l.fin l.new hnew l.ifps with
      ⟨u, heq, hlinked, hnat⟩ | ⟨u, c, H', heq, hlinked, hnat, hc⟩
    · rw [heq]
      exact ⟨u, none, A, H, rfl, hlinked, fun x hx => ⟨hx, fun _ => hnat x hx, follows_of_eq (hnat x hx)⟩⟩
    · rw [heq]
      dsimp only
      have hcl' : has (u.nat c).natFlags SI_CLONE = false := by
        have hbits : ~~~SI_CLONE &&& SI_CLONE = 0 := by decide
        have hbits' : SI_CLONED &&& SI_CLONE = 0 := by decide
        rw [hc]
        simp [NatT.insert, NatT.clone, has, BitVec.and_or_distrib_right, BitVec.and_assoc, hbits, hbits']
      obtain ⟨w', H'', hmove, hlinked', hother, -⟩ := settle_linked hlinked List.mem_cons_self hcl' l.out
        (lookupPorts M l.fin l.flags l.p).1 (lookupPorts M l.fin l.flags l.p).2 l.fin.finIfp
      refine ⟨w', some c, c :: A, H'', by rw [hmove]; rfl, hlinked', fun x hx => ?_⟩
      have hsame := (hother x (hnat x hx).1).trans (hnat x hx).2
      exact ⟨List.mem_cons_of_mem _ hx, fun _ => hsame, follows_of_eq hsame⟩
  · rw [if_neg hcl]
    dsimp only
    have hless : Linked { w with wilds := w.wilds - 1 } A O H :=
      h.congr rfl (fun _ => rfl) rfl rfl rfl fun _ _ => rfl
    obtain ⟨w', H', hmove, hlinked, hother, hself⟩ := settle_linked hless he (by simpa using hcl) l.out
      (lookupPorts M l.fin l.flags l.p).1 (lookupPorts M l.fin l.flags l.p).2 l.fin.finIfp
    refine ⟨w', some e, A, H', by rw [hmove]; rfl, hlinked, fun x hx => ⟨hx, hother x, ?_⟩⟩
    by_cases hxe : x = e
    · subst hxe
      intro hs
      rw [hself]
      refine hs.resolve ?_ _ _ _ _
      -- it is not a wildcard, so it is for TCP or UDP
      by_contra hn
      have h1 : (w.nat x).natFlags &&& NAT_TCPUDP = 0 := has_eq_false.1 (Bool.eq_false_of_not_eq_true hn)
      have h2 : (w.nat x).natFlags &&& SI_WILDP = 0 := has_eq_false.1 hs.fixed
      simp [has, BitVec.and_or_distrib_left, h1, h2] at hflags
    · exact follows_of_eq (hother x hxe)

/-- **A lookup keeps the lists.** -/
theorem lookup_linked (h : Linked w A O H) (l : Lookup) (hnew : ∀ c, l.new = some c → w.alloc c = false) :
    ∃ w' o A' H', ipfNatLookup M proxyMatch w l = some (w', o) ∧ Linked w' A' O H' ∧
      ∀ x ∈ A, x ∈ A' ∧ Follows (w.nat x) (w'.nat x) := by
  unfold ipfNatLookup
  cases if has l.flags SI_WILDP then none else exactFound M proxyMatch w l with
  | some e =>
    obtain ⟨ifps, hset⟩ := setIfp_keeps (w.nat e) l.out l.fin.finIfp
    refine ⟨_, some e, A, H, rfl, h.upd (by rw [hset]), fun x hx => ⟨hx, ?_⟩⟩
    by_cases hxe : x = e
    · subst hxe
      intro hs
      simp only [Softn.upd, Function.update_self]
      rw [hset]
      exact ⟨hs.fixed, hs.v4, ⟨hs.kinded.pr, hs.kinded.ports, hs.kinded.query⟩, hs.hashed⟩
    · exact follows_of_eq (by simp [Softn.upd, hxe])
  | none =>
    dsimp only
    cases hw : wildFound M w l with
    | none => exact ⟨w, none, A, H, rfl, h, fun x hx => ⟨hx, follows_of_eq rfl⟩⟩
    | some e =>
      dsimp only
      by_cases hig : has l.fin.finFlx FI_IGNORE = true
      · rw [if_pos hig]
        exact ⟨w, some e, A, H, rfl, h, fun x hx => ⟨hx, follows_of_eq rfl⟩⟩
      · rw [if_neg hig]
        unfold wildFound at hw
        dsimp only at hw
        split at hw
        · exact absurd hw (by simp)
        split at hw
        · exact absurd hw (by simp)
        obtain ⟨he, -, htest⟩ := h.find_some hw
        rw [Bool.and_eq_true] at htest
        have hm := htest.1
        simp only [NatT.wildMatches, decide_eq_true_eq] at hm
        obtain ⟨w', o, A', H', heq, hlinked, hx⟩ := resolve_linked (M := M) h l hnew he hm.2.2.2
        exact ⟨w', o, A', H', heq, hlinked, fun x hxA => ⟨(hx x hxA).1, (hx x hxA).2.2⟩⟩

/-- **Every call keeps the lists**, and the hash values of the entries it does not delete. -/
theorem step_linked (h : Linked w A O H) {op : Op} (hl : Legal w op) (hs : step M proxyMatch w op = some w') :
    ∃ A' O' H', Linked w' A' O' H' ∧ ∀ x ∈ A, op.spares x → x ∈ A' ∧ Follows (w.nat x) (w'.nat x) := by
  cases op with
  | add e nat natsave ifps =>
    obtain ⟨A', O', H', hlinked, hx⟩ := add_linked (M := M) h hl nat natsave ifps
    cases hs
    exact ⟨A', O', H', hlinked, fun x hxA _ => ⟨(hx x hxA).1, follows_of_eq (hx x hxA).2⟩⟩
  | lookup l =>
    have hlook : ∃ w' o A' H', ipfNatLookup M proxyMatch w l = some (w', o) ∧ Linked w' A' O H' ∧
        ∀ x ∈ A, x ∈ A' ∧ Follows (w.nat x) (w'.nat x) := lookup_linked h l hl
    obtain ⟨u, o, A', H', heq, hlinked, hx⟩ := hlook
    rw [step, heq] at hs
    obtain rfl : u = w' := Option.some.inj hs
    exact ⟨A', O, H', hlinked, fun x hxA _ => hx x hxA⟩
  | delete e destroy =>
    obtain ⟨u, O', H', heq, hlinked⟩ := delete_linked h hl destroy
    obtain rfl : u = w' := mem_unique heq hs
    exact ⟨_, O', H', hlinked, fun x hxA hxe => ⟨(List.mem_erase_of_ne hxe.symm).2 hxA,
      follows_of_eq (delete_nat_ne hs hxe.symm)⟩⟩
  | hold e =>
    cases hs
    refine ⟨A, O, H, h.upd rfl, fun x hxA _ => ⟨hxA, fun hsess => ?_⟩⟩
    by_cases hxe : x = e
    · subst hxe
      simp only [Softn.upd, Function.update_self]
      exact ⟨hsess.fixed, hsess.v4, ⟨hsess.kinded.pr, hsess.kinded.ports, hsess.kinded.query⟩, hsess.hashed⟩
    · simpa [Softn.upd, hxe] using hsess
  | deref e =>
    obtain ⟨u, A', O', H', heq, hlinked, hA⟩ := deref_linked h hl
    obtain rfl : u = w' := mem_unique heq hs
    exact ⟨A', O', H', hlinked, fun x hxA hxe => ⟨hA x hxA hxe.symm, follows_of_eq (deref_nat_ne hs hxe.symm)⟩⟩
  | rehash newsize notab nolen =>
    by_cases hsame : newsize = w.size ∨ nolen = true
    · have hw : ipfNatRehash w newsize notab nolen = some w := by
        unfold ipfNatRehash
        rcases hsame with hsz | hsz
        · rw [if_pos hsz]
        · simp [hsz]
      obtain rfl : w = w' := mem_unique hw hs
      exact ⟨A, O, H, h, fun x hxA _ => ⟨hxA, follows_of_eq rfl⟩⟩
    · rw [not_or] at hsame
      have hnt : ¬notab = true := by
        intro hnt
        rw [step, ipfNatRehash, if_neg hsame.1, if_neg hsame.2, if_pos hnt] at hs
        exact absurd hs (by simp)
      obtain ⟨u, t, H', heq, hu, -, hlinked⟩ := rehash_linked h hl hsame.1 hsame.2 hnt
      obtain rfl : u = w' := mem_unique heq hs
      exact ⟨A, O, H', hlinked, fun x hxA _ => ⟨hxA, follows_of_eq (by rw [hu])⟩⟩

theorem init_linked {size : Word} (hs : 0 < size.toNat) (max maxbucket : ℤ) :
    Linked (Softn.init size max maxbucket) [] [] fun _ _ => [] where
  list _ := ⟨trivial, rfl⟩
  orphan := by simp
  nodup := List.nodup_nil
  disjoint := by simp
  alloc := by simp [Softn.init]
  rep _ := (counted_empty 0).rep
  place := by simp
  active := rfl
  size := hs

/-- **The lists hold in every state of the table.** -/
theorem reach_linked {size : Word} (hs : 0 < size.toNat) {max maxbucket : ℤ}
    (hr : Reach M proxyMatch (Softn.init size max maxbucket) w) : ∃ A O H, Linked w A O H := by
  induction hr with
  | start => exact ⟨_, _, _, init_linked hs max maxbucket⟩
  | call op _ hl heq ih =>
    obtain ⟨A, O, H, h⟩ := ih
    obtain ⟨A', O', H', hlinked, -⟩ := step_linked h hl heq
    exact ⟨A', O', H', hlinked⟩

/-- **An entry stays where `ipf_nat_insert` put it** until it is deleted. -/
theorem placed_session {size : Word} (hs : 0 < size.toNat) {max maxbucket : ℤ}
    (hp : Placed M proxyMatch (Softn.init size max maxbucket) e w) :
    ∃ A O H, Linked w A O H ∧ e ∈ A ∧ (w.nat e).Session := by
  induction hp with
  | insert nat ifps wilds proto saved hr he hf hv hk hins =>
    obtain ⟨A, O, H, h⟩ := reach_linked hs hr
    rcases insert_linked h he nat ifps with ⟨u, heq, -⟩ | ⟨u, H', heq, hlinked, hnat, -⟩
    · rw [hins] at heq
      exact absurd (congrArg Prod.snd heq) (by simp)
    · obtain rfl : _ = u := congrArg Prod.fst (hins.symm.trans heq)
      refine ⟨e :: A, O, H', hlinked.congr rfl (fun _ => rfl) rfl rfl rfl fun _ _ => rfl, List.mem_cons_self, ?_⟩
      have hself := congrFun hnat e
      rw [Function.update_self] at hself
      have hsess : (nat.insert ifps).Session := ⟨hf, hv, ⟨hk.pr, hk.ports, hk.query⟩, rfl⟩
      rw [← hself] at hsess
      exact hsess
  | call op _ hl hspare heq ih =>
    obtain ⟨A, O, H, h, he, hsess⟩ := ih
    obtain ⟨A', O', H', hlinked, hx⟩ := step_linked h hl heq
    exact ⟨A', O', H', hlinked, (hx e he hspare).1, (hx e he hspare).2 hsess⟩

/-! ## Hash values -/

/-- Reducing a sum modulo `0xffffffff` adds 1 to one that is all ones. -/
theorem mod_ones (x : Word) : x % 0xffffffff = x + if x = ONES then 1 else 0 := by
  unfold ONES
  split
  · rename_i h
    rw [h]
    decide
  · rename_i h
    have h0 : x + (0 : Word) = x := BitVec.add_zero x
    rw [h0]
    apply BitVec.eq_of_toNat_eq
    rw [BitVec.toNat_umod]
    have hne : x.toNat ≠ 4294967295 := fun hx => h (BitVec.eq_of_toNat_eq hx)
    have hlt := x.isLt
    exact Nat.mod_eq_of_lt (by change x.toNat < 4294967295; omega)

theorem natHash_eq (src dst sp dp : Word) : natHash src dst sp dp =
    (spread src + spread dst + sp + dp + if spread src + sp = ONES then 1 else 0) % 0xffffffff := by
  unfold natHash NAT_HASH_FN
  rw [mod_ones (src + (src >>> 12) + sp)]
  unfold spread
  congr 1
  generalize (if src + src >>> 12 + sp = ONES then (1 : Word) else 0) = c
  ac_rfl

theorem succ_mod_eq {n s : ℕ} : (s + 1) % n = s % n ↔ n = 1 := by
  constructor
  · intro h
    have hd : n ∣ s + 1 - s := Nat.dvd_of_mod_eq_zero (Nat.sub_mod_eq_zero_of_mod_eq h)
    rw [Nat.add_sub_cancel_left] at hd
    exact Nat.dvd_one.1 hd
  · intro h
    rw [h, Nat.mod_one, Nat.mod_one]

/-- A sum that is all ones ends in bucket 0. -/
theorem mod_ones_mod (x size : Word) :
    (x % 0xffffffff % size).toNat = (if x = ONES then 0 else x.toNat) % size.toNat := by
  rw [BitVec.toNat_umod, mod_ones]
  split
  · rename_i h
    rw [h]
    rfl
  · exact congrArg (fun y : Word => y.toNat % size.toNat) (BitVec.add_zero x)

/-- **The two hash values fall in one bucket exactly when they meet.** -/
theorem meets_iff (out : Bool) {size s f g : Word} : (if out then (s + if g = ONES then 1 else 0) % size
      else (s + if g = ONES then 1 else 0) % 0xffffffff % size).toNat =
      ((s + if f = ONES then 1 else 0) % 0xffffffff % size).toNat ↔ Meets out size s f g := by
  have hlook : ∀ y : Word, (if out then y % size else y % 0xffffffff % size).toNat =
      (if out = false ∧ y = ONES then 0 else y.toNat) % size.toNat := by
    intro y
    cases out with
    | false => simpa using mod_ones_mod y size
    | true => simp
  rw [hlook, mod_ones_mod]
  unfold Meets
  have hz : ∀ x : Word, x + (0 : Word) = x := BitVec.add_zero
  by_cases hfg : f = ONES ↔ g = ONES
  · -- the same sum, reduced in two ways or one
    rw [if_pos hfg]
    have hif : (if g = ONES then (1 : Word) else 0) = if f = ONES then 1 else 0 := by simp only [hfg]
    rw [hif]
    generalize s + (if f = ONES then (1 : Word) else 0) = x
    by_cases hx : x = ONES
    · cases out <;> simp [hx, Nat.dvd_iff_mod_eq_zero]
    · simp [hx]
  · -- the two values that are compared are `s` and `s + 1`, each reduced
    rw [if_neg hfg]
    have hone : size = 1 ↔ size.toNat = 1 := ⟨fun h => by rw [h]; rfl, fun h => BitVec.eq_of_toNat_eq h⟩
    have hlast : s = ONES → s + 1 ≠ ONES ∧ (s + 1).toNat = 0 ∧ s.toNat = ONES.toNat := by
      rintro rfl
      decide
    have hnext : s ≠ ONES → (s + 1).toNat = s.toNat + 1 := by
      intro hs
      have hne : s.toNat ≠ 4294967295 := fun hx => hs (BitVec.eq_of_toNat_eq hx)
      have hlt := s.isLt
      rw [BitVec.toNat_add]
      change (s.toNat + 1) % 4294967296 = _
      omega
    have hprev : s + 1 = ONES → s ≠ ONES → s.toNat = ONES.toNat - 1 := by
      intro h1 hs
      have hn := hnext hs
      rw [h1] at hn
      omega
    by_cases hf : f = ONES
    · have hg : ¬g = ONES := fun hg => hfg ⟨fun _ => hg, fun _ => hf⟩
      simp only [hf, hg, if_true, if_false, hz, and_false, forall_const]
      by_cases hs : s = ONES
      · obtain ⟨h1, h0, hmax⟩ := hlast hs
        rw [if_neg h1, h0, if_pos hs, Nat.zero_mod, hmax]
        cases out <;> simp [hs, Nat.dvd_iff_mod_eq_zero]
      · rw [if_neg hs, if_neg (fun h => hs h.2)]
        by_cases h1 : s + 1 = ONES
        · rw [if_pos h1, if_pos h1, hprev h1 hs, Nat.zero_mod, Nat.dvd_iff_mod_eq_zero]
        · rw [if_neg h1, if_neg h1, hnext hs, hone, eq_comm, succ_mod_eq]
    · have hg : g = ONES := by
        by_contra hg
        exact hfg ⟨fun h => absurd h hf, fun h => absurd h hg⟩
      simp only [hf, hg, if_true, if_false, hz, and_true, false_imp_iff, imp_true_iff]
      by_cases hs : s = ONES
      · obtain ⟨h1, h0, -⟩ := hlast hs
        simp only [h1, and_false, if_false, h0, if_pos hs]
      · rw [if_neg hs, if_neg hs]
        by_cases h1 : s + 1 = ONES
        · rw [if_pos h1, hnext hs]
          cases out with
          | false =>
            rw [if_pos ⟨rfl, h1⟩, if_neg Bool.false_ne_true, hprev h1 hs, Nat.zero_mod, Nat.dvd_iff_mod_eq_zero, eq_comm]
          | true => rw [if_neg (fun h => absurd h.1 (by simp)), if_pos rfl, hone, succ_mod_eq]
        · rw [if_neg h1, if_neg (fun h => h1 h.2), hnext hs, hone, succ_mod_eq]

/-- What `ipf_nat_insert` hashes of an entry, in terms of its protocol. -/
theorem NatT.Session.hashPorts {nat : NatT} (h : nat.Session) (s d id : BitVec 16) : nat.hashPorts s d id =
    if nat.natPr false = IPPROTO_TCP ∨ nat.natPr false = IPPROTO_UDP then (word s, word d)
    else if nat.natPr false = IPPROTO_ICMP then (0, word id) else (0, 0) := by
  unfold NatT.hashPorts
  rw [if_neg (by simp [h.fixed])]
  simp only [h.kinded.ports, h.kinded.query]

/-- The hash value on the side that a lookup searches is that of the old tuple if the packet goes the way of the
session, else that of the new one. -/
theorem NatT.Session.natHv {nat : NatT} (h : nat.Session) (out : Bool) :
    nat.natHv (!out) = if out = nat.forward then nat.hv0 else nat.hv1 := by
  rw [h.hashed]
  unfold Dir.hv NatT.forward
  cases nat.natDir <;> cases out <;> rfl

variable {nat : NatT} {l : Lookup}

/-- The sum of the packet's addresses and ports is that of the tuple the entry was hashed by. -/
theorem sum_eq (h : nat.Session) (hm : nat.Matched M proxyMatch l) : l.sum M = if l.out = nat.forward then
      spread nat.natOsrcaddr + spread nat.natOdstaddr + (nat.hashPorts nat.natOsport nat.natOdport nat.natOicmpid).1 +
        (nat.hashPorts nat.natOsport nat.natOdport nat.natOicmpid).2 else
      spread nat.natNsrcaddr + spread nat.natNdstaddr + (nat.hashPorts nat.natNsport nat.natNdport nat.natNicmpid).1 +
        (nat.hashPorts nat.natNsport nat.natNdport nat.natNicmpid).2 := by
  have ht := hm.tuple
  unfold Lookup.tuple NatT.expects at ht
  unfold Lookup.sum
  rw [h.hashPorts, h.hashPorts, ← hm.proto]
  have hw : word 0 = 0 := rfl
  by_cases hout : l.out = nat.forward
  · rw [if_pos hout] at ht ⊢
    simp only [Prod.mk.injEq] at ht
    obtain ⟨h1, h2, h3⟩ := ht
    rw [h1, h2, h3]
    by_cases hp : l.p = IPPROTO_TCP ∨ l.p = IPPROTO_UDP
    · simp only [if_pos hp]
    · by_cases hi : l.p = IPPROTO_ICMP
      · simp only [if_neg hp, if_pos hi, hw]
      · simp only [if_neg hp, if_neg hi, hw]
  · rw [if_neg hout] at ht ⊢
    simp only [Prod.mk.injEq] at ht
    obtain ⟨h1, h2, h3⟩ := ht
    rw [h1, h2, h3]
    by_cases hp : l.p = IPPROTO_TCP ∨ l.p = IPPROTO_UDP
    · simp only [if_pos hp]
      ac_rfl
    · by_cases hi : l.p = IPPROTO_ICMP
      · simp only [if_neg hp, if_pos hi, hw]
        ac_rfl
      · simp only [if_neg hp, if_neg hi, hw]
        ac_rfl

/-- **A lookup looks in the bucket of an entry** exactly when the two hash values meet. -/
theorem bucket_meets (h : nat.Session) (hm : nat.Matched M proxyMatch l) (w : Softn) :
    l.bucket M w = w.bucket (nat.natHv (!l.out)) ↔
      Meets l.out w.size (l.sum M) (nat.firstSum l.out) (l.firstSum M) := by
  -- both are the reduced sum of the addresses and ports, with a carry from the first step
  have hins : nat.natHv (!l.out) = (l.sum M + if nat.firstSum l.out = ONES then 1 else 0) % 0xffffffff := by
    rw [h.natHv, sum_eq h hm, NatT.firstSum]
    by_cases hout : l.out = nat.forward
    · rw [if_pos hout, if_pos hout, if_pos hout, NatT.hv0]
      exact natHash_eq _ _ _ _
    · rw [if_neg hout, if_neg hout, if_neg hout, NatT.hv1]
      exact natHash_eq _ _ _ _
  have hlook : l.bucket M w = (if l.out then (l.sum M + if l.firstSum M = ONES then 1 else 0) % w.size
      else (l.sum M + if l.firstSum M = ONES then 1 else 0) % 0xffffffff % w.size).toNat := by
    unfold Lookup.bucket lookupBucket Softn.bucket NAT_HASH_FN Lookup.sum Lookup.firstSum
    generalize (lookupPorts M l.fin l.flags l.p).1 = s
    generalize (lookupPorts M l.fin l.flags l.p).2 = d
    cases l.out with
    | false =>
      simp only [Bool.false_eq_true, if_false]
      rw [mod_ones (l.dst + (l.dst >>> 12) + word d)]
      unfold spread
      generalize (if l.dst + l.dst >>> 12 + word d = ONES then (1 : Word) else 0) = c
      congr 3
      ac_rfl
    | true =>
      simp only [if_true]
      rw [mod_ones (l.src + (l.src >>> 12) + word s)]
      unfold spread
      generalize (if l.src + l.src >>> 12 + word s = ONES then (1 : Word) else 0) = c
      congr 2
      ac_rfl
  rw [hlook, hins, Softn.bucket, meets_iff]

/-! ## The first loop -/

/-- The two tests as one: the old tuple for packets that go the way of the session, else the reply to the new one. -/
theorem matches_iff (nat : NatT) (out : Bool) (ifp : Option ℕ) (p : ℕ) (src dst : Word) (s d : BitVec 16) :
    nat.matches out ifp p src dst s d = true ↔ nat.admits out ifp = true ∧ nat.natPr out = p ∧
      if out = nat.forward then nat.natV false = 4 ∧ nat.natOsrcaddr = src ∧ nat.natOdstaddr = dst ∧
          nat.samePorts p nat.natOsport nat.natOdport nat.natOicmpid s d = true else
        nat.natV true = 4 ∧ (out = false → nat.natDir = .outbound → nat.natDlocal = false) ∧ nat.natNdstaddr = src ∧
          nat.natNsrcaddr = dst ∧ nat.samePorts p nat.natNdport nat.natNsport nat.natNicmpid s d = true := by
  unfold NatT.matches NatT.outMatches NatT.inMatches NatT.forward
  cases hdir : nat.natDir <;> cases out <;> simp [and_assoc]

/-- An entry passes the test of the packets that match it. -/
theorem passes_of_matched (h : nat.Session) (hm : nat.Matched M proxyMatch l) : l.passes M proxyMatch nat = true := by
  have ht := hm.tuple
  unfold Lookup.tuple NatT.expects at ht
  have hpr : nat.natPr l.out = l.p := by
    rw [hm.proto]
    cases l.out
    · rfl
    · exact h.kinded.pr
  have hports : ∀ es ed id s d, nat.samePorts l.p es ed id s d =
      if l.p = IPPROTO_TCP ∨ l.p = IPPROTO_UDP then decide (es = s ∧ ed = d)
      else decide (l.p = IPPROTO_ICMP → id = d) := by
    intro es ed id s d
    unfold NatT.samePorts
    simp only [h.kinded.ports, hm.proto]
  unfold Lookup.passes
  rw [Bool.and_eq_true, matches_iff]
  refine ⟨⟨hm.admits, hpr, ?_⟩, hm.accepts⟩
  rw [hports, hports]
  by_cases hout : l.out = nat.forward
  · rw [if_pos hout] at ht ⊢
    simp only [Prod.mk.injEq] at ht
    obtain ⟨h1, h2, h3⟩ := ht
    refine ⟨h.v4 false, h1.symm, h2.symm, ?_⟩
    rw [h3]
    split
    · simp
    · simp +contextual
  · rw [if_neg hout] at ht ⊢
    simp only [Prod.mk.injEq] at ht
    obtain ⟨h1, h2, h3⟩ := ht
    refine ⟨h.v4 true, hm.remote, h1.symm, h2.symm, ?_⟩
    rw [h3]
    split
    · simp
    · simp +contextual

/-! ## Findability -/

/-- **Findability.** In any state of the table, a packet that matches an entry where `ipf_nat_insert` put it reaches
its bucket and an entry with its tuple exactly when the hash values meet and no entry without ports comes first. -/
theorem placed_found {size : Word} (hs : 0 < size.toNat) {max maxbucket : ℤ}
    (hp : Placed M proxyMatch (Softn.init size max maxbucket) e w) (hm : (w.nat e).Matched M proxyMatch l) :
    Finds M proxyMatch w l e ↔
      Meets l.out w.size (l.sum M) ((w.nat e).firstSum l.out) (l.firstSum M) ∧ Clear M proxyMatch w l := by
  obtain ⟨A, O, H, h, he, hsess⟩ := placed_session hs hp
  rw [Finds, bucket_meets hsess hm]
  refine and_congr_right fun hmeet => ?_
  have hb := (bucket_meets hsess hm w).2 hmeet
  -- the entry itself is on the chain and passes, so the first loop ends with an entry
  have hmem : e ∈ H (!l.out) (l.bucket M w) := (h.place _ e _).2 ⟨he, hb.symm⟩
  have hpass := passes_of_matched hsess hm
  have hfind : exactFound M proxyMatch w l = (H (!l.out) (l.bucket M w)).find? fun x => l.passes M proxyMatch (w.nat x) :=
    h.find (!l.out) (l.bucket M w) (l.passes M proxyMatch)
  obtain ⟨x, hx⟩ : ∃ x, exactFound M proxyMatch w l = some x := by
    rw [hfind, ← isSome_iff_exists, List.find?_isSome]
    exact ⟨e, hmem, hpass⟩
  have hlookup : ipfNatLookup M proxyMatch w l = some (w.upd x fun nat => nat.setIfp l.out l.fin.finIfp, some x) := by
    unfold ipfNatLookup
    rw [if_neg (by simp [hm.flags]), hx]
  obtain ⟨hxpass, l₁, l₂, hsplit, hfirst⟩ := List.find?_eq_some_iff_append.1 (hfind.symm.trans hx)
  constructor
  · rintro ⟨w', y, hy, htuple⟩ L hL m₁ z m₂ hz hzpass hzne
    rw [hlookup] at hy
    obtain rfl : x = y := by simpa using congrArg (Option.map Prod.snd) hy
    have hLH : L (l.bucket M w) = H (!l.out) (l.bucket M w) := (hL _).unique (h.rep _ _)
    refine ⟨x, ?_, by simpa using hxpass, htuple⟩
    -- `z` passes, so that it is not before `x`, and it is not `x`
    rw [hLH, hsplit] at hz
    rcases List.append_eq_append_iff.1 hz with ⟨a, ha, hz'⟩ | ⟨a, ha, hz'⟩
    · cases a with
      | nil =>
        obtain rfl : x = z := (List.cons.inj hz').1
        exact absurd htuple hzne
      | cons y a =>
        obtain rfl : x = y := (List.cons.inj hz').1
        rw [ha]
        simp
    · cases a with
      | nil =>
        obtain rfl : z = x := (List.cons.inj hz').1
        exact absurd htuple hzne
      | cons y a =>
        obtain rfl : z = y := (List.cons.inj hz').1
        have hz0 := hfirst z (by rw [ha]; simp)
        simp [hzpass] at hz0
  · intro hclear
    refine ⟨_, x, hlookup, ?_⟩
    by_contra hne
    obtain ⟨y, hy, hypass, -⟩ := hclear (H (!l.out)) (h.rep _) l₁ x l₂ hsplit (by simpa using hxpass) hne
    have := hfirst y hy
    simp [hypass] at this

/-! ## A session and its packets -/

def littleEndian : Machine := ⟨true, 0⟩

/-- 10.0.0.1 to port 80 of 192.0.239.254, mapped to 203.0.113.5, from the source port `sport`. -/
def outgoing (sport : BitVec 16) : NatT :=
  { NatT.zero with
    natFlags := IPN_TCP
    natDir := .outbound
    natPr := fun _ => IPPROTO_TCP
    natV := fun _ => 4
    natOsrcaddr := 0x0100000a
    natOdstaddr := 0xfeef00c0
    natNsrcaddr := 0x057100cb
    natNdstaddr := 0xfeef00c0
    natOsport := sport
    natOdport := 0x5000
    natNsport := sport
    natNdport := 0x5000 }

/-- A packet of that session, as `ipf_nat_outlookup` gets it. -/
def outgoingPacket (sport : BitVec 16) : Lookup where
  out := true
  fin :=
    { finP := IPPROTO_TCP, finOut := true, finRev := false, finFlx := 0, finOff := 0, finCksum := 0, finDlen := 0
      finIfp := none, finSaddr := 0x0100000a, finDaddr := 0xfeef00c0
      finData := fun i => if i then 80 else littleEndian.htons sport
      finIp := ⟨0x0100000a, 0xfeef00c0, 0, []⟩, finDp := ⟨sport, 0x5000, 0, 0, true, [], []⟩ }
  flags := IPN_TCP ||| NAT_SEARCH
  p := IPPROTO_TCP
  src := 0x0100000a
  dst := 0xfeef00c0
  new := none
  ifps := fun _ => none

/-- The table, of the default size, with that session. -/
def withOutgoing (sport : BitVec 16) : Softn :=
  (ipfNatInsert ((Softn.init 2047 30000 22).malloc 0 (outgoing sport)) 0 fun _ => none).1

theorem outgoing_placed (sport : BitVec 16)
    (hroom : (ipfNatInsert ((Softn.init 2047 30000 22).malloc 0 (outgoing sport)) 0 fun _ => none).2 = true) :
    Placed littleEndian (fun _ _ => true) (Softn.init 2047 30000 22) 0 (withOutgoing sport) := by
  have hk : (outgoing sport).Kinded := by
    refine ⟨rfl, ?_, ?_⟩
    · simp [outgoing, has, IPN_TCPUDP, IPN_TCP, IPN_UDP]
    · simp [outgoing, has, IPN_ICMPQUERY, IPN_TCP]
      decide
  have hw : has IPN_TCP SI_WILDP = false := by decide
  exact Placed.insert (outgoing sport) (fun _ => none) 0 (fun _ => 0) (fun _ => none) .start rfl hw (fun _ => rfl) hk
    (Prod.ext rfl hroom)

/-- That table with a second session, which a rule makes afterwards. -/
def withBoth : Softn :=
  (ipfNatAdd littleEndian (withOutgoing 0xb145) 1 (outgoing 0xb245) none fun _ => none).1

/-- The packets of the session from port 17841 find it, also when there is another session. -/
theorem placed_found_outgoing : Finds littleEndian (fun _ _ => true) withBoth (outgoingPacket 0xb145) 0 := by
  have hp : Placed littleEndian (fun _ _ => true) (Softn.init 2047 30000 22) 0 withBoth :=
    (outgoing_placed 0xb145 (by decide)).call (.add 1 (outgoing 0xb245) none fun _ => none)
      (show (withOutgoing 0xb145).alloc 1 = false by decide) trivial rfl
  have hm : (withBoth.nat 0).Matched littleEndian (fun _ _ => true) (outgoingPacket 0xb145) :=
    ⟨by decide, by decide, by decide, by decide, rfl, rfl, fun h => absurd h (by decide)⟩
  refine (placed_found (by decide) hp hm).2 ⟨by unfold Meets; decide, ?_⟩
  intro L hL l₁ x l₂ hsplit _ hne
  have hseg : Seg (withBoth.side false).table (.head ((outgoingPacket 0xb145).bucket littleEndian withBoth)) [0] :=
    ⟨⟨by decide, by decide, trivial⟩, by decide⟩
  have hx : x ∈ [0] := by
    rw [← (hL _).unique hseg, hsplit]
    simp
  obtain rfl := List.mem_singleton.1 hx
  exact absurd (by decide) hne

/-- **The packets of the session from port 17840 do not:** their sum is `0xffffffff`, which `ipf_nat_insert` reduces to
0 and `ipf_nat_outlookup` does not. -/
theorem outgoing_not_found : Placed littleEndian (fun _ _ => true) (Softn.init 2047 30000 22) 0 (withOutgoing 0xb045) ∧
    ((withOutgoing 0xb045).nat 0).Matched littleEndian (fun _ _ => true) (outgoingPacket 0xb045) ∧
    (ipfNatLookup littleEndian (fun _ _ => true) (withOutgoing 0xb045) (outgoingPacket 0xb045)).map Prod.snd = some none ∧
    ¬Finds littleEndian (fun _ _ => true) (withOutgoing 0xb045) (outgoingPacket 0xb045) 0 := by
  refine ⟨outgoing_placed 0xb045 (by decide), ⟨rfl, rfl, rfl, by decide, rfl, rfl, fun h => absurd h (by decide)⟩,
    by decide, ?_⟩
  rintro ⟨hb, -⟩
  exact absurd hb (by decide)

end Ipfilter.NatTab
