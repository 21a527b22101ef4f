import Ipfilter.Spec.Synclist

/-!
# What the synchronisation of rules leaves behind

The unwinding loop compares the first rule with the cursor of the loop before it and moves that cursor, which never comes to the
first rule.

* `syncRules_stop` — the rules fail whose destination list is not there;
* `unwind_none` — unwinding from any rule but the first one follows a `NULL` pointer;
* `synclist_iff` — **exactly which lists are synchronised or unwound cleanly**: only the first rule may fail, and where none
  does the dynamic destinations are those of the source's interface. `synclist_second` — two rules, of which the second one
  fails.
-/

namespace Ipfilter.Synclist

open Masks Frrequest List
open scoped Rules

variable {env : Env} {ifp : Option ℕ} {l l' : Lookups} {front names : List Char} {v : ℕ}

/-! ## Lookups -/

/-- What can be found is the same. -/
def SameFind (l l' : Lookups) : Prop := ∀ type unit name, l'.find type unit name = l.find type unit name

theorem SameFind.trans {l'' : Lookups} (h : SameFind l l') (h' : SameFind l' l'') : SameFind l l'' :=
  fun type unit name => (h' type unit name).trans (h type unit name)

/-- A reference changes nothing else of a table. -/
theorem any_addRef (l : Lookups) (o p : Obj) {f : Table → Bool} (hf : ∀ t : Table, f t.incr = f t) :
    ((l.addRef o).tab p).any f = (l.tab p).any f := by
  unfold Lookups.addRef
  dsimp only
  by_cases hp : p = o
  · subst hp
    rw [Function.update_self]
    cases l.tab p with
    | none => rfl
    | some t => exact hf t
  · rw [Function.update_of_ne hp]

/-- A reference does not change what can be found. -/
theorem addRef_sameFind (l : Lookups) (o : Obj) : SameFind l (l.addRef o) := by
  have hexist : ∀ type unit name, (l.addRef o).exist type unit name = l.exist type unit name := fun type unit name => by
    unfold Lookups.exist
    exact congrArg (fun f => l.objs.find? f) (funext fun p => any_addRef l o p fun _ => rfl)
  have hlive : (l.addRef o).live = l.live := funext fun p => any_addRef l o p fun _ => rfl
  intro type unit name
  cases type with
  | pool => simp only [Lookups.find, ipfPoolFind, hexist, hlive]
  | hash => exact hexist _ _ _
  | dstlist => exact hexist _ _ _

/-- **Looking up by number** finds nothing: there is no backend whose type is the device. -/
theorem ipfLookupResNum_none (l : Lookups) (unit number : ℕ) (func : Bool) :
    ipfLookupResNum l unit IPL_LOGIPF number func = (l, none, false) := rfl

/-- No lookup is resolved again. -/
theorem syncLookup_eq (l : Lookups) (ipf : Bool) (d : Side) :
    (syncLookup l ipf d).1 = l ∧ (syncLookup l ipf d).2.ptr = d.ptr ∧
    (syncLookup l ipf d).2.addr = d.addr ∧ (syncLookup l ipf d).2.mask = d.mask := by
  unfold syncLookup
  split
  · rename_i h
    rw [ipfLookupResNum_none]
    exact ⟨rfl, h.2.2.symm, rfl, rfl⟩
  · exact ⟨rfl, rfl, rfl, rfl⟩

/-! ## Destinations -/

/-- The destination needs no list, or its list is there. -/
def Found (ifp : Option ℕ) (l : Lookups) (names : List Char) (fdp : Frdest) : Prop :=
  (ifp = none ∨ some fdp.fdPtr = ifp.map .nic) → fdp.fdName ≠ -1 → fdp.dstlist = true →
    l.find .dstlist .logipf (frName names fdp.fdName) ≠ none

theorem Found.congr (h : SameFind l l') (fdp : Frdest) : Found ifp l' names fdp ↔ Found ifp l names fdp := by
  unfold Found
  rw [h]

theorem syncDest_spec (env : Env) (ifp : Option ℕ) (l : Lookups) (names : List Char) (fdp : Frdest) (v : ℕ) :
    SameFind l (syncDest env ifp l names fdp v).1 ∧ ((syncDest env ifp l names fdp v).2.2 = 0 ↔ Found ifp l names fdp) := by
  have hself : SameFind l l := fun _ _ _ => rfl
  unfold syncDest Found
  split
  · rename_i hifp
    unfold ipfResolvedest
    split
    · rename_i hname
      split
      · rename_i hlist
        unfold ipfLookupResName
        rw [show backend IPLT_DSTLIST = some .dstlist from rfl]
        dsimp only
        cases hfind : l.find .dstlist .logipf (frName names fdp.fdName) with
        | none => exact ⟨hself, iff_of_false (show ¬ESRCH = 0 by decide) fun h => h hifp hname hlist rfl⟩
        | some o => exact ⟨addRef_sameFind l o, iff_of_true rfl fun _ _ _ => Option.some_ne_none o⟩
      · rename_i hlist
        split
        · exact ⟨hself, iff_of_true rfl fun _ _ h => absurd h hlist⟩
        · exact ⟨hself, iff_of_true rfl fun _ _ h => absurd h hlist⟩
    · rename_i hname
      exact ⟨hself, iff_of_true rfl fun _ h => absurd h hname⟩
  · rename_i hifp
    exact ⟨hself, iff_of_true rfl fun h => absurd h hifp⟩

/-- **The rule has all the lists it needs.** -/
def Resolves (ifp : Option ℕ) (l : Lookups) (fr : Frentry) : Prop :=
  Found ifp l fr.frNames (fr.frTifs 0) ∧ Found ifp l fr.frNames (fr.frTifs 1) ∧ Found ifp l fr.frNames fr.frDif

theorem Resolves.congr (h : SameFind l l') (fr : Frentry) : Resolves ifp l' fr ↔ Resolves ifp l fr := by
  unfold Resolves
  rw [Found.congr h, Found.congr h, Found.congr h]

/-- The destinations of a rule: nothing else of it is changed. -/
theorem syncDests_spec (env : Env) (ifp : Option ℕ) (l : Lookups) (fr : Frentry) (v : ℕ) :
    SameFind l (syncDests env ifp l fr v).1 ∧ ((syncDests env ifp l fr v).2.2 = 0 ↔ Resolves ifp l fr) ∧
      (syncDests env ifp l fr v).2.1.src = fr.src ∧ (syncDests env ifp l fr v).2.1.dst = fr.dst := by
  unfold syncDests
  obtain ⟨h0, herr0⟩ := syncDest_spec env ifp l fr.frNames (fr.frTifs 0) v
  generalize syncDest env ifp l fr.frNames (fr.frTifs 0) v = r at h0 herr0 ⊢
  obtain ⟨l0, d0, e0⟩ := r
  dsimp only at h0 herr0 ⊢
  split
  · rename_i hne
    exact ⟨h0, iff_of_false hne fun h => hne (herr0.2 h.1), rfl, rfl⟩
  rename_i he0
  obtain ⟨h1, herr1⟩ := syncDest_spec env ifp l0 fr.frNames (Function.update fr.frTifs 0 d0 1) v
  generalize syncDest env ifp l0 fr.frNames (Function.update fr.frTifs 0 d0 1) v = r at h1 herr1 ⊢
  obtain ⟨l1, d1, e1⟩ := r
  dsimp only at h1 herr1 ⊢
  rw [Found.congr h0, show Function.update fr.frTifs 0 d0 1 = fr.frTifs 1 from Function.update_of_ne (by decide) _ _] at herr1
  split
  · rename_i hne
    exact ⟨h0.trans h1, iff_of_false hne fun h => hne (herr1.2 h.2.1), rfl, rfl⟩
  rename_i he1
  obtain ⟨h2, herr2⟩ := syncDest_spec env ifp l1 fr.frNames fr.frDif v
  rw [Found.congr (h0.trans h1)] at herr2
  refine ⟨(h0.trans h1).trans h2, herr2.trans ?_, rfl, rfl⟩
  exact ⟨fun h => ⟨herr0.1 (not_not.1 he0), herr1.1 (not_not.1 he1), h⟩, fun h => h.2.2⟩

/-! ## The first loop -/

theorem Side.dynamic_ptr (d : Side) {idx : ℤ} : (d.dynamic env front names idx v).ptr = d.ptr := by
  unfold Side.dynamic
  split
  · rfl
  · rfl

/-- The addresses of the sides are those of the interfaces at these indices. -/
structure FromIfs (env : Env) (fr fr' : Frentry) (sidx didx : ℤ) : Prop where
  src : (fr'.src.addr, fr'.src.mask) =
    ((fr.src.dynamic env fr.frFront fr.frNames sidx (version fr.frFamily)).addr,
      (fr.src.dynamic env fr.frFront fr.frNames sidx (version fr.frFamily)).mask)
  dst : (fr'.dst.addr, fr'.dst.mask) =
    ((fr.dst.dynamic env fr.frFront fr.frNames didx (version fr.frFamily)).addr,
      (fr.dst.dynamic env fr.frFront fr.frNames didx (version fr.frFamily)).mask)

/-- **A rule:** it fails without its lists, no lookup is resolved, and both addresses are taken from the index of the source. -/
theorem syncRule_spec (env : Env) (ifp : Option ℕ) (l : Lookups) (fr : Frentry) :
    SameFind l (syncRule env ifp l fr).1 ∧ ((syncRule env ifp l fr).2.2 = 0 ↔ Resolves ifp l fr) ∧
      (syncRule env ifp l fr).2.1.src.ptr = fr.src.ptr ∧ (syncRule env ifp l fr).2.1.dst.ptr = fr.dst.ptr ∧
      (fr.ipf = true → FromIfs env fr (syncRule env ifp l fr).2.1 fr.src.ifpidx fr.src.ifpidx) := by
  have haddrs : ∀ v, (syncAddrs env ifp fr v).frNames = fr.frNames ∧ (syncAddrs env ifp fr v).frTifs = fr.frTifs ∧
      (syncAddrs env ifp fr v).frDif = fr.frDif ∧ (syncAddrs env ifp fr v).src.ptr = fr.src.ptr ∧
      (syncAddrs env ifp fr v).dst.ptr = fr.dst.ptr := by
    intro v
    unfold syncAddrs
    dsimp only
    split
    · exact ⟨rfl, rfl, rfl, Side.dynamic_ptr _, Side.dynamic_ptr _⟩
    · exact ⟨rfl, rfl, rfl, rfl, rfl⟩
  obtain ⟨hnames, htifs, hdif, hsrc, hdst⟩ := haddrs (version fr.frFamily)
  have hres : Resolves ifp l (syncAddrs env ifp fr (version fr.frFamily)) ↔ Resolves ifp l fr := by
    unfold Resolves
    rw [hnames, htifs, hdif]
  have hfrom : fr.ipf = true → FromIfs env fr (syncAddrs env ifp fr (version fr.frFamily)) fr.src.ifpidx fr.src.ifpidx := by
    intro hipf
    unfold syncAddrs
    dsimp only
    rw [if_pos hipf]
    exact ⟨rfl, rfl⟩
  obtain ⟨hfind, herr, hs, hd⟩ :=
    syncDests_spec env ifp l (syncAddrs env ifp fr (version fr.frFamily)) (version fr.frFamily)
  unfold syncRule
  dsimp only
  generalize syncDests env ifp l (syncAddrs env ifp fr (version fr.frFamily)) (version fr.frFamily) = r at hfind herr hs hd ⊢
  obtain ⟨l1, fr1, e1⟩ := r
  dsimp only at hfind herr hs hd ⊢
  split
  · rename_i hne
    refine ⟨hfind, iff_of_false hne fun h => hne (herr.2 (hres.2 h)), hs ▸ hsrc, hd ▸ hdst, fun hipf => ?_⟩
    obtain ⟨h1, h2⟩ := hfrom hipf
    exact ⟨hs ▸ h1, hd ▸ h2⟩
  · rename_i he
    obtain ⟨hl, hp, ha, hm⟩ := syncLookup_eq l1 fr1.ipf fr1.src
    obtain ⟨hl', hp', ha', hm'⟩ := syncLookup_eq (syncLookup l1 fr1.ipf fr1.src).1 fr1.ipf fr1.dst
    dsimp only
    rw [hl', hl]
    refine ⟨hfind, iff_of_true rfl (hres.1 (herr.1 (not_not.1 he))), ?_, ?_, fun hipf => ?_⟩
    · rw [hp, hs, hsrc]
    · rw [hl] at hp'
      rw [hp', hd, hdst]
    · obtain ⟨h1, h2⟩ := hfrom hipf
      rw [hl] at ha' hm'
      refine ⟨?_, ?_⟩
      · dsimp only
        rw [ha, hm, hs]
        exact h1
      · dsimp only
        rw [ha', hm', hd]
        exact h2

/-- **The first loop** stops at the first rule that fails. -/
theorem syncRules_stop (env : Env) (ifp : Option ℕ) (l : Lookups) (rules : List Frentry) :
    ((syncRules env ifp l rules).2.2 = none ↔ ∀ fr ∈ rules, Resolves ifp l fr) := by
  induction rules generalizing l with
  | nil => exact iff_of_true rfl (forall_mem_nil _)
  | cons fr rest ih =>
    obtain ⟨hfind, herr, -⟩ := syncRule_spec env ifp l fr
    unfold syncRules
    generalize syncRule env ifp l fr = r at hfind herr ⊢
    obtain ⟨l1, fr1, e1⟩ := r
    dsimp only at hfind herr ⊢
    rw [forall_mem_cons, ← herr]
    split
    · rename_i hne
      exact iff_of_false (Option.some_ne_none _) fun h => hne h.1
    · rename_i he
      rw [Option.map_eq_none_iff, ih l1, and_iff_right (not_not.1 he)]
      exact forall₂_congr fun fr' _ => Resolves.congr hfind fr'

/-- **Where no rule fails:** all of them, with their addresses. -/
theorem syncRules_done {rules' : List Frentry} {rules : List Frentry} (h : syncRules env ifp l rules = (l', rules', none)) :
    List.Forall₂ (fun fr fr' => fr.ipf = true → FromIfs env fr fr' fr.src.ifpidx fr.src.ifpidx) rules rules' := by
  induction rules generalizing l rules' with
  | nil =>
    cases h
    exact .nil
  | cons fr rest ih =>
    obtain ⟨-, -, -, -, hfrom⟩ := syncRule_spec env ifp l fr
    unfold syncRules at h
    generalize syncRule env ifp l fr = r at hfrom h
    obtain ⟨l1, fr1, e1⟩ := r
    dsimp only at hfrom h
    split at h
    · cases h
    · generalize hrest : syncRules env ifp l1 rest = r at h
      obtain ⟨l2, rest2, stop⟩ := r
      dsimp only at h
      cases stop with
      | some x => cases h
      | none =>
        cases h
        exact .cons hfrom (ih hrest)

/-- **Where the first rule fails:** nothing was done for another one. -/
theorem syncRules_first {fr : Frentry} {rest : List Frentry} (h : ¬Resolves ifp l fr) :
    ∃ l' fr' error, syncRules env ifp l (fr :: rest) = (l', fr' :: rest, some (0, error)) ∧ error ≠ 0 ∧
      fr'.src.ptr = fr.src.ptr ∧ fr'.dst.ptr = fr.dst.ptr := by
  obtain ⟨-, herr, hsrc, hdst, -⟩ := syncRule_spec env ifp l fr
  unfold syncRules
  generalize syncRule env ifp l fr = r at herr hsrc hdst ⊢
  obtain ⟨l1, fr1, e1⟩ := r
  dsimp only at herr hsrc hdst ⊢
  have hne : e1 ≠ 0 := fun h0 => h (herr.1 h0)
  rw [if_pos hne]
  exact ⟨l1, fr1, e1, rfl, hne, hsrc, hdst⟩

/-- **Where another rule fails:** it is behind the first one. -/
theorem syncRules_later {fr : Frentry} {rest : List Frentry} (h : Resolves ifp l fr)
    (hrest : ¬∀ fr' ∈ rest, Resolves ifp l fr') :
    ∃ l' fr' rest' pos error, syncRules env ifp l (fr :: rest) = (l', fr' :: rest', some (pos + 1, error)) := by
  obtain ⟨hfind, herr, -⟩ := syncRule_spec env ifp l fr
  unfold syncRules
  generalize syncRule env ifp l fr = r at hfind herr ⊢
  obtain ⟨l1, fr1, e1⟩ := r
  dsimp only at hfind herr ⊢
  rw [if_neg (not_not.2 (herr.2 h))]
  have hstop := syncRules_stop env ifp l1 rest
  generalize syncRules env ifp l1 rest = r at hstop ⊢
  obtain ⟨l2, rest2, stop⟩ := r
  cases stop with
  | none => exact absurd (fun fr' hfr' => (Resolves.congr hfind fr').1 (hstop.1 rfl fr' hfr')) hrest
  | some x => exact ⟨l2, fr1, rest2, x.1, x.2, rfl⟩

/-! ## The second loop -/

/-- **Unwinding** never comes to an end but where it starts. -/
theorem unwind_none (frt : Frentry) {pos : ℕ} (behind : ℕ) (l : Lookups) (h : pos ≠ 0) :
    unwind frt pos behind l = none := by
  induction behind generalizing pos l with
  | zero =>
    unfold unwind
    rw [if_neg h]
  | succ behind ih =>
    unfold unwind
    rw [if_neg h]
    exact ih _ (Nat.succ_ne_zero pos)

/-- The lookup of a side was resolved: it had no pointer, and has one. -/
def Side.resolved (d d' : Side) : List (ℕ × Obj) :=
  match d.ptr, d'.ptr with
  | none, some o => [(d'.type, o)]
  | _, _ => []

/-- The lookups that were resolved on the way from these rules to those. -/
def resolved (rules rules' : List Frentry) : List (ℕ × Obj) :=
  (rules.zip rules').flatMap fun p => p.1.src.resolved p.2.src ++ p.1.dst.resolved p.2.dst

/-- A reference of each is dropped. -/
def dropAll (l : Lookups) (os : List (ℕ × Obj)) : Lookups := os.foldl (fun l o => ipfLookupDeref l o.1 (some o.2)) l

/-- **The rules are synchronised**, or what was resolved is given back, once, and the rules behind the one that failed are as
they were. -/
structure Synced (env : Env) (ifp : Option ℕ) (l : Lookups) (rules : List Frentry) (l' : Lookups) (rules' : List Frentry)
    (error : ℕ) : Prop where
  unwound : error ≠ 0 → ∃ pos, (syncRules env ifp l rules).2.2 = some (pos, error) ∧
    l' = dropAll (syncRules env ifp l rules).1 (resolved (rules.take (pos + 1)) rules') ∧
      rules'.drop (pos + 1) = rules.drop (pos + 1)
  done : error = 0 → List.Forall₂ (fun fr fr' => fr.ipf = true → FromIfs env fr fr' fr.src.ifpidx fr.dst.ifpidx) rules
    rules'

/-- Both indices give the dynamic destination the same address. -/
def SameAddr (env : Env) (fr : Frentry) : Prop :=
  let d := fun idx => fr.dst.dynamic env fr.frFront fr.frNames idx (version fr.frFamily)
  ((d fr.src.ifpidx).addr, (d fr.src.ifpidx).mask) = ((d fr.dst.ifpidx).addr, (d fr.dst.ifpidx).mask)

theorem Side.resolved_eq_nil {d d' : Side} (h : d'.ptr = d.ptr) : d.resolved d' = [] := by
  unfold Side.resolved
  rw [h]
  cases d.ptr with
  | none => rfl
  | some o => rfl

theorem fromIfs_iff {fr fr' : Frentry} (h : FromIfs env fr fr' fr.src.ifpidx fr.src.ifpidx) :
    FromIfs env fr fr' fr.src.ifpidx fr.dst.ifpidx ↔ SameAddr env fr :=
  ⟨fun h' => h.dst.symm.trans h'.dst, fun hsame => ⟨h.src, h.dst.trans hsame⟩⟩

/-- The addresses of all rules. -/
theorem forall₂_fromIfs_iff {rules rules' : List Frentry}
    (h : List.Forall₂ (fun fr fr' => fr.ipf = true → FromIfs env fr fr' fr.src.ifpidx fr.src.ifpidx) rules rules') :
    List.Forall₂ (fun fr fr' => fr.ipf = true → FromIfs env fr fr' fr.src.ifpidx fr.dst.ifpidx) rules rules' ↔
      ∀ fr ∈ rules, fr.ipf = true → SameAddr env fr := by
  induction h with
  | nil => exact iff_of_true .nil (forall_mem_nil _)
  | cons hone _ ih =>
    rw [forall₂_cons, forall_mem_cons, ih]
    exact and_congr_left fun _ => forall_congr' fun hipf => fromIfs_iff (hone hipf)

/-- **Which lists are synchronised or unwound cleanly**, for all rules and whatever there is of interfaces and lookup
objects. -/
theorem synclist_iff (env : Env) (ifp : Option ℕ) (l : Lookups) (rules : List Frentry) :
    (∃ l' rules' error, ipfSynclist env ifp l rules = some (l', rules', error) ∧ Synced env ifp l rules l' rules' error) ↔
      ((∀ fr ∈ rules.head?, Resolves ifp l fr) → ∀ fr ∈ rules, Resolves ifp l fr ∧
        (fr.ipf = true → SameAddr env fr)) := by
  cases rules with
  | nil =>
    refine iff_of_true ⟨l, [], 0, rfl, fun h => absurd rfl h, fun _ => .nil⟩ fun _ => forall_mem_nil _
  | cons fr rest =>
    by_cases hfirst : Resolves ifp l fr
    · have hhead : ∀ fr' ∈ (fr :: rest).head?, Resolves ifp l fr' := by
        intro fr' hfr'
        cases hfr'
        exact hfirst
      by_cases hrest : ∀ fr' ∈ rest, Resolves ifp l fr'
      · -- all rules
        have hall : ∀ fr' ∈ fr :: rest, Resolves ifp l fr' := List.forall_mem_cons.2 ⟨hfirst, hrest⟩
        have hstop := (syncRules_stop env ifp l (fr :: rest)).2 hall
        generalize hrun : syncRules env ifp l (fr :: rest) = r at hstop
        obtain ⟨l1, rules1, stop⟩ := r
        obtain rfl : stop = none := hstop
        have hret : ipfSynclist env ifp l (fr :: rest) = some (l1, rules1, 0) := by
          unfold ipfSynclist
          rw [hrun]
        have hiff := forall₂_fromIfs_iff (syncRules_done hrun)
        constructor
        · rintro ⟨l2, rules2, error, hret2, hsync⟩ - fr' hfr'
          obtain ⟨rfl, rfl, rfl⟩ : l1 = l2 ∧ rules1 = rules2 ∧ 0 = error := by
            rw [hret] at hret2
            simpa using hret2
          exact ⟨hall fr' hfr', hiff.1 (hsync.done rfl) fr' hfr'⟩
        · intro hcond
          exact ⟨l1, rules1, 0, hret, fun h => absurd rfl h, fun _ => hiff.2 fun fr' hfr' => (hcond hhead fr' hfr').2⟩
      · -- a later one fails, and unwinding follows a `NULL` pointer
        obtain ⟨l1, fr1, rest1, pos, error, hrun⟩ := @syncRules_later env _ _ _ _ hfirst hrest
        have hret : ipfSynclist env ifp l (fr :: rest) = none := by
          unfold ipfSynclist
          rw [hrun]
          dsimp only
          rw [unwind_none _ _ _ (Nat.succ_ne_zero pos)]
          rfl
        refine iff_of_false ?_ fun hcond => hrest fun fr' hfr' => (hcond hhead fr' (mem_cons_of_mem _ hfr')).1
        rintro ⟨l2, rules2, error, hret2, -⟩
        rw [hret] at hret2
        cases hret2
    · -- the first one fails
      obtain ⟨l1, fr1, error, hrun, hne, hsrc, hdst⟩ := @syncRules_first env _ _ _ rest hfirst
      have hret : ipfSynclist env ifp l (fr :: rest) = some (l1, fr1 :: rest, error) := by
        unfold ipfSynclist
        rw [hrun]
        rfl
      refine iff_of_true ⟨l1, fr1 :: rest, error, hret, fun _ => ⟨0, ?_, ?_, rfl⟩, fun h => absurd h hne⟩ fun hhead =>
        absurd (hhead fr rfl) hfirst
      · rw [hrun]
      · have hnone : resolved ((fr :: rest).take (0 + 1)) (fr1 :: rest) = [] := by
          change (fr.src.resolved fr1.src ++ fr.dst.resolved fr1.dst) ++ [] = []
          rw [Side.resolved_eq_nil hsrc, Side.resolved_eq_nil hdst]
          rfl
        rw [hrun, hnone]
        rfl

/-- A rule without interfaces and addresses, whose first destination is this one. -/
def ruleTo (names : List Char) (dest : Frdest) : Frentry :=
  { frFamily := AF_INET, frIfnames := fun _ => -1, frIfas := fun _ => .null, ipf := true
    frFront := [Char.ofNat names.length, NUL, NUL, NUL], frNames := names
    src := ⟨FRI_NORMAL, -1, .zero, .zero, 0, 0, none, false⟩
    dst := ⟨FRI_NORMAL, -1, .zero, .zero, 0, 0, none, false⟩
    frTifs := fun i => if i = 0 then dest else ⟨-1, false, .null, .zero, false⟩
    frDif := ⟨-1, false, .null, .zero, false⟩ }

/-- The second rule is `to` a destination list that is not there: unwinding follows a `NULL` pointer. -/
theorem synclist_second :
    ipfSynclist ⟨fun _ _ => none, fun _ _ _ x => x, fun _ _ _ => false⟩ none ⟨[], fun _ => none⟩
      [ruleTo [] ⟨-1, false, .null, .zero, false⟩, ruleTo ['d'] ⟨0, true, .null, .zero, false⟩] = none := by
  rfl

end Ipfilter.Synclist
