import Ipfilter.Chain.Lists
import Ipfilter.Proof.Rules
import Ipfilter.Refs.Count
import Ipfilter.Spec.AuthRules

/-!
# Rules for pre-authorisation are what was added

* `Good`: the list and the chain hold the entries that are there, and their references are counted.
* `Good.add`, `Good.remove`, `Good.expire`, `Good.iterate`: the calls keep this.
* `rules_together`: in runs in which no rule has a group or goes in front of the others, rules are removed from the front only
  and while no iterator is at them, and no entry runs out of time.
-/

namespace Ipfilter.AuthRules

open Chain Refs List
open Rules (Frentry Head collectFind collectFind_spec)
open Function (update update_eq_self_iff update_idem update_of_ne update_self)
open Prod (fst)

variable {w w' : Sys} {P : List (ℕ × BitVec 64)} {R E : List ℕ} {fp : Frentry} {x f : ℕ}

/-! ## What is there -/

/-- **The entries that are there** after a call, with the time they have left: those that were added, not removed and not
expired. -/
def Op.present (w : Sys) (P : List (ℕ × BitVec 64)) : Op → List (ℕ × BitVec 64)
  | .add group fp new =>
    match new, (siocadafr w group fp new).2 with
    | some x, 0 => P ++ [(x, w.defaultage)]
    | _, _ => P
  | .remove group fp =>
    match w.chain.get (w.find (ruleHead group) fp).2, (siocrmafr w group fp).2 with
    | some f, 0 => P.filter fun p => p.1 ≠ f
    | _, _ => P
  | .expire => if w.lock then P else (P.map fun p => (p.1, p.2 - 1)).filter fun p => p.2 ≠ 0
  | _ => P

/-- **List, chain and counts are right.** `R` is the chain of the rules: they are those of the entries, and the first one is
that of the first entry. -/
structure Good (w : Sys) (P : List (ℕ × BitVec 64)) (R : List ℕ) : Prop where
  list : Lists w.list [()] fun _ => P.map fst
  chain : Lists w.chain [.auth] (update (fun _ => []) .auth R)
  perm : R.Perm (P.map fst)
  first : R.head? = (P.map fst).head?
  alloc : ∀ x, w.alloc x = true ↔ x ∈ P.map fst
  ages : ∀ p ∈ P, (w.ent p.1).age = p.2
  finite : {q | w.tok q ≠ none}.Finite
  tokens : ∀ q x, w.tok q = some x → x ∈ P.map fst
  refs : ∀ x ∈ P.map fst, (w.ent x).ref = 1 + holders Set.univ w.tok x
  made : P.length ≤ w.made
  groups : ∀ fg, w.chain.head (.group fg) = none

theorem Good.length (h : Good w P R) : R.length ≤ w.made := by
  have := h.perm.length_eq
  have := h.made
  rw [length_map] at *
  omega

theorem Good.head (h : Good w P R) : w.chain.head .auth = w.list.head () := by
  have h1 := h.chain.head (mem_singleton_self Head.auth)
  have h2 := h.list.head (mem_singleton_self ())
  rw [update_self, h.first] at h1
  exact h1.trans h2.symm

/-! ## Searching -/

/-- `collectFind` stays within the chain. -/
theorem ghost_collectFind {P : ℕ → Option (Link Head ℕ)} {T : List Head} {m : Mem Head ℕ} (collect : ℕ → ℕ)
    (x i : ℕ) {k k' : Link Head ℕ} (hk : ∀ h, k' = .head h → h ∈ T) :
    collectFind (ghost T P m) collect x i k k' = collectFind m collect x i k k' := by
  induction i generalizing k k' with
  | zero => rfl
  | succ i ih =>
    have hget : (ghost T P m).get k' = m.get k' := by
      cases k' with
      | head h => exact if_pos (hk h rfl)
      | next n => rfl
    unfold collectFind
    rw [hget]
    cases m.get k' with
    | none => rfl
    | some g =>
      dsimp only
      split
      · rfl
      · exact ih (by simp)

/-- The first loop ends in the chain, and so does the second one. -/
theorem Good.find (h : Good w P R) (fp : Frentry) : (∃ a b, R = a ++ b ∧ (w.find .auth fp).1 = lastLink (.head .auth) a) ∧
      ∃ a b, R = a ++ b ∧ (w.find .auth fp).2 = lastLink (.head .auth) a := by
  have hlen := h.length
  obtain ⟨Q, hr⟩ := h.chain
  have hs := hr .auth
  rw [update_self] at hs
  obtain ⟨a, b, e, -, hfind⟩ := collectFind_spec (fun f => (w.ent f).fr.frCollect) fp.frCollect (.head .auth) w.made [] []
    (nil_append R).symm hs hlen (by simp)
  have hghost : collectFind w.chain (fun f => (w.ent f).fr.frCollect) fp.frCollect w.made (.head .auth) (.head .auth) =
      collectFind (ghost [.auth] Q w.chain) (fun f => (w.ent f).fr.frCollect) fp.frCollect w.made (lastLink (.head .auth) [])
        (lastLink (.head .auth) ([] ++ [])) := by
    refine (ghost_collectFind _ _ _ ?_).symm
    rintro h ⟨⟩
    exact mem_singleton_self _
  -- the second loop starts behind `a`, or at the end
  have hseek : ∀ a b, R = a ++ b → ∃ a' b', R = a' ++ b' ∧
      w.chain.seek (fun f => Rules.ipfRuleCompare fp (w.ent f).fr ≠ 0) w.made (lastLink (.head .auth) a) =
        lastLink (.head .auth) a' := by
    intro a b e
    have hle : b.length ≤ w.made := by
      rw [e, length_append] at hlen
      omega
    have hsplit := h.chain.seek_split (mem_singleton_self _) (by rw [update_self, e])
      (fun f => Rules.ipfRuleCompare fp (w.ent f).fr ≠ 0) hle
    rwa [update_self] at hsplit
  unfold Sys.find
  rw [hghost]
  rcases hfind with hfind | ⟨hfind, -⟩
  · rw [hfind]
    exact ⟨⟨a, b, e, rfl⟩, hseek a b e⟩
  · rw [hfind]
    exact ⟨⟨a, b, e, rfl⟩, hseek R [] (append_nil R).symm⟩

/-- No group has rules, so the search in one ends at once. -/
theorem Good.find_group (h : Good w P R) (fg : ℕ) (fp : Frentry) :
    w.find (.group fg) fp = (.head (.group fg), .head (.group fg)) := by
  have hget : w.chain.get (.head (.group fg)) = none := h.groups fg
  have hcollect : collectFind w.chain (fun f => (w.ent f).fr.frCollect) fp.frCollect w.made (.head (.group fg))
      (.head (.group fg)) = (.head (.group fg), .head (.group fg)) := by
    cases w.made with
    | zero => rfl
    | succ n =>
      unfold collectFind
      rw [hget]
  unfold Sys.find
  rw [hcollect]
  dsimp only
  rw [(show Seg w.chain (.head (.group fg)) [] from ⟨trivial, hget⟩).seek _ (Nat.zero_le _)]
  rfl

/-- What the search finds is in the chain. -/
theorem Good.found (h : Good w P R) {group : Option ℕ} (hf : w.chain.get (w.find (ruleHead group) fp).2 = some f) :
    f ∈ R := by
  cases group with
  | some fg =>
    rw [ruleHead, h.find_group] at hf
    cases (h.groups fg).symm.trans hf
  | none =>
  rw [ruleHead] at hf
  obtain ⟨-, a, b, e, hplace⟩ := h.find fp
  rw [hplace, h.chain.get (mem_singleton_self _) (by rw [update_self, e])] at hf
  rw [e]
  exact mem_append_right _ (mem_of_head? hf)

/-- A new rule goes into the chain. -/
theorem Good.place (h : Good w P R) (fp : Frentry) : ∃ a b, R = a ++ b ∧ w.place .auth fp = lastLink (.head .auth) a := by
  have hlen := h.length
  obtain ⟨⟨a, b, e, hplace⟩, -⟩ := h.find fp
  have hle : b.length ≤ w.made := by
    rw [e, length_append] at hlen
    omega
  have hsplit := h.chain.seek_split (mem_singleton_self _) (by rw [update_self, e])
    (fun f => (w.ent f).fr.frCollect ≤ fp.frCollect) hle
  rw [update_self] at hsplit
  unfold Sys.place
  rwa [hplace]

/-- The loop of `ipf_auth_precmd` ends at the entry of the rule, or at the end. -/
theorem Good.faep (h : Good w P R) (fr : Option ℕ) :
    w.faep fr = lastLink (.head ()) ((P.map fst).takeWhile fun x => fr ≠ some x) := by
  have hle : (P.map fst).length ≤ w.made := by
    rw [length_map]
    exact h.made
  have := h.list.seek (h := ()) (mem_singleton_self _) (nil_append _).symm (fun x => fr ≠ some x) hle
  rwa [nil_append] at this

/-! ## The calls -/

/-- **An entry more**, whose rule is not in front of others. -/
theorem Good.insert (h : Good w P R) (hx : w.alloc x = false) {a b : List ℕ} (e : R = a ++ b) {frptr : Link Head ℕ}
    (hk : frptr = lastLink (.head .auth) a) (hne : a ≠ [] ∨ P = []) :
    Good (precmdAdd w fp frptr (some x)).1 (P ++ [(x, w.defaultage)]) (a ++ x :: b) := by
  have hout : x ∉ P.map fst := by
    rw [← h.alloc, hx]
    simp
  have houtR : ∀ g, x ∉ update (fun _ => []) Head.auth R g := by
    intro g hg
    by_cases hauth : g = .auth
    · rw [hauth, update_self] at hg
      exact hout (h.perm.mem_iff.1 hg)
    · rw [update_of_ne hauth] at hg
      cases hg
  have hmap : (P ++ [(x, w.defaultage)]).map fst = P.map fst ++ [x] := by simp
  have hlist := h.list.insert (n := x) (h := ()) (mem_singleton_self _) (append_nil _).symm (fun _ => hout) rfl
  have hchain := h.chain.insert (h := .auth) (mem_singleton_self _) (by rw [update_self, e]) houtR hk
  rw [update_idem] at hchain
  have hfaep : w.faep none = lastLink (.head ()) (P.map fst) := by
    have := h.faep none
    rwa [takeWhile_eq_self_iff.2 (by simp)] at this
  rw [← hfaep] at hlist
  have hlist' : Lists ((w.list.set (.next x) (w.list.get (w.faep none))).set (w.faep none) (some x)) [()]
      fun _ => (P ++ [(x, w.defaultage)]).map fst := by
    rw [hmap]
    have hfun : update (fun _ => P.map fst) () (P.map fst ++ [x]) = fun _ => P.map fst ++ [x] := by
      funext u
      rw [update_self]
    rwa [hfun] at hlist
  -- the first rule stays what it was, or it is the only one
  have hfirst : (a ++ x :: b).head? = (P.map fst ++ [x]).head? := by
    have hf := h.first
    cases a with
    | nil =>
      obtain rfl := hne.resolve_left (by simp)
      rfl
    | cons y a =>
      rw [e] at hf
      cases P with
      | nil => simp at hf
      | cons p P => simpa using hf
  have hhead : ((w.list.set (.next x) (w.list.get (w.faep none))).set (w.faep none) (some x)).head () =
      (P.map fst ++ [x]).head? := by
    have := hlist'.head (mem_singleton_self ())
    rw [hmap] at this
    exact this
  refine ⟨hlist', ?_, ?_, ?_, fun y => ?_, fun p hp => ?_, h.finite, fun q y hq => ?_, fun y hy => ?_, ?_, ?_⟩
  · change Lists (((w.chain.set (.next x) (w.chain.get frptr)).set frptr (some x)).set (.head .auth)
      (((w.list.set (.next x) (w.list.get (w.faep none))).set (w.faep none) (some x)).head ())) _ _
    rw [hhead, ← hfirst]
    have := hchain.keep (h := .auth) (mem_singleton_self _)
    rwa [update_self] at this
  · rw [hmap]
    refine List.perm_middle.trans (List.Perm.trans ?_ (perm_append_singleton _ _).symm)
    exact (e ▸ h.perm).cons x
  · rw [hmap]
    exact hfirst
  · change update w.alloc x true y = true ↔ _
    rw [hmap, mem_append, mem_singleton, ← h.alloc]
    by_cases hy : y = x
    · simp [hy]
    · simp [hy]
  · change (update w.ent x _ p.1).age = p.2
    rcases mem_append.1 hp with hp | hp
    · have hpx : p.1 ≠ x := fun c => hout (c ▸ mem_map_of_mem hp)
      rw [update_of_ne hpx]
      exact h.ages p hp
    · rw [mem_singleton.1 hp, update_self]
  · rw [hmap]
    exact mem_append_left _ (h.tokens q y hq)
  · change (update w.ent x _ y).ref = 1 + (holders Set.univ w.tok y : ℤ)
    rw [hmap] at hy
    by_cases hyx : y = x
    · -- nobody points at new memory
      have hzero : holders Set.univ w.tok y = 0 := by
        unfold holders
        rw [Set.ncard_eq_zero (h.finite.subset fun q hq => by simp [hq.2])]
        refine Set.eq_empty_of_forall_notMem fun q hq => hout ?_
        exact hyx ▸ h.tokens q y hq.2
      rw [hyx] at hzero ⊢
      rw [update_self, hzero]
      rfl
    · rw [update_of_ne hyx]
      exact h.refs y ((mem_append.1 hy).resolve_right fun c => hyx (mem_singleton.1 c))
  · change (P ++ [_]).length ≤ w.made + 1
    rw [length_append]
    exact Nat.succ_le_succ h.made
  · intro fg
    have hgroup : Link.head (Head.group fg) ≠ frptr := by
      rw [hk]
      cases a using List.reverseRecOn with
      | nil => rintro ⟨⟩
      | append_singleton a y =>
        rw [lastLink_concat]
        rintro ⟨⟩
    change ((((w.chain.set (.next x) (w.chain.get frptr)).set frptr (some x)).set (.head .auth)
      (((w.list.set (.next x) (w.list.get (w.faep none))).set (w.faep none) (some x)).head ())).head (.group fg)) = none
    rw [head_set, if_neg (by rintro ⟨⟩), head_set, if_neg hgroup.symm, head_set, if_neg (by rintro ⟨⟩)]
    exact h.groups fg

/-- **A rule is added.** -/
theorem Good.add (h : Good w P R) {group new : Option ℕ} (hnew : ∀ x, new = some x → w.alloc x = false)
    (hplace : new ≠ none → w.chain.get (w.find (ruleHead group) fp).2 = none →
      group = none ∧ (w.place .auth fp ≠ .head .auth ∨ w.list.head () = none)) :
    ∃ R', Good (siocadafr w group fp new).1 ((Op.add group fp new).present w P) R' := by
  cases hfound : w.chain.get (w.find (ruleHead group) fp).2 with
  | some g =>
    have hcall : siocadafr w group fp new = (w, EEXIST) := by
      unfold siocadafr
      dsimp only
      rw [hfound]
    refine ⟨R, ?_⟩
    unfold Op.present
    dsimp only
    rw [hcall]
    cases new <;> exact h
  | none =>
    have hcall : siocadafr w group fp new = precmdAdd w fp (w.place (ruleHead group) fp) new := by
      unfold siocadafr
      dsimp only
      rw [hfound]
    unfold Op.present
    dsimp only
    rw [hcall]
    cases new with
    | none => exact ⟨R, h⟩
    | some x =>
      obtain ⟨rfl, hfront⟩ := hplace (by simp) hfound
      obtain ⟨a, b, e, hk⟩ := h.place fp
      refine ⟨a ++ x :: b, h.insert (hnew x rfl) e hk ?_⟩
      refine hfront.imp ?_ fun hnone => ?_
      · rintro hne rfl
        exact hne hk
      · have hget := h.list.head (mem_singleton_self ())
        rw [hnone] at hget
        exact map_eq_nil_iff.1 (head?_eq_none_iff.1 hget.symm)

/-- **The first entry is taken out,** with the first rule, when what follows is the same in both. -/
theorem Good.unlink (h : Good w P R) (hlist : w.list.head () = some f) (hnext : w.list.next f = w.chain.next f)
    (htok : ∀ q, w.tok q ≠ some f) : ∃ R', Good (precmdRemove w f).1 (P.filter fun p => p.1 ≠ f) R' := by
  have hchain : w.chain.head .auth = some f := h.head.trans hlist
  obtain ⟨E, hE⟩ : ∃ E, P.map fst = f :: E := by
    have hget := h.list.head (mem_singleton_self ())
    rw [hlist] at hget
    exact ⟨_, (eq_cons_of_mem_head? hget.symm)⟩
  obtain ⟨R', hR⟩ : ∃ R', R = f :: R' := by
    have hfirst := h.first
    rw [hE] at hfirst
    exact ⟨_, (eq_cons_of_mem_head? hfirst)⟩
  have hnd : (f :: E).Nodup := hE ▸ h.list.nodup ()
  have hfE : f ∉ E := (nodup_cons.1 hnd).1
  have hmap : (P.filter fun p => p.1 ≠ f).map fst = E := by
    have hfilter := filter_map (f := fst) (p := fun x => decide (x ≠ f)) (l := P)
    change _ = (P.filter fun p => p.1 ≠ f).map fst at hfilter
    rw [← hfilter, hE, filter_cons_of_neg (by simp), filter_eq_self]
    intro y hy
    have hyf : y ≠ f := fun c => hfE (c ▸ hy)
    simp [hyf]
  have hfaep : w.faep (some f) = .head () := by
    have := h.faep (some f)
    rw [hE] at this
    simpa [lastLink] using this
  have hlist' := h.list.remove (n := f) (h := ()) (mem_singleton_self _) (by rw [hE]; exact (nil_append _).symm) rfl
  have hchain' := h.chain.remove (h := .auth) (mem_singleton_self _)
    (by rw [update_self, hR]; exact (nil_append _).symm) rfl
  rw [update_idem, nil_append, lastLink] at hchain'
  rw [nil_append, lastLink] at hlist'
  have hhead : (w.list.set (.head ()) (w.list.next f)).head () = w.list.next f := by simp
  have hcall : (precmdRemove w f).1 = { w with
      list := w.list.set (.head ()) (w.list.next f)
      chain := w.chain.set (.head .auth) (w.chain.next f)
      alloc := update w.alloc f false } := by
    unfold precmdRemove Sys.kfree
    dsimp only
    rw [hfaep, head_get, hlist]
    dsimp only
    rw [if_pos hchain, hhead, hnext]
  have hfirst : R'.head? = E.head? := by
    have h1 : Mem.get _ (lastLink (.head Head.auth) [f]) = R'.head? :=
      h.chain.get (mem_singleton_self _) (by rw [update_self, hR]; rfl)
    have h2 : Mem.get _ (lastLink (.head ()) [f]) = E.head? := h.list.get (mem_singleton_self _) (by rw [hE]; rfl)
    exact h1.symm.trans (hnext.symm.trans h2)
  refine ⟨R', ?_⟩
  rw [hcall]
  refine ⟨?_, hchain', ?_, ?_, fun y => ?_, fun p hp => ?_, h.finite, fun q y hq => ?_, fun y hy => ?_, ?_, ?_⟩
  · rw [hmap]
    have hfun : update (fun _ => P.map fst) () E = fun _ => E := by
      funext u
      rw [update_self]
    rwa [hfun] at hlist'
  · rw [hmap]
    have hperm := h.perm
    rw [hR, hE] at hperm
    exact hperm.cons_inv
  · rw [hmap]
    exact hfirst
  · dsimp only
    by_cases hy : y = f
    · rw [hy, update_self, hmap]
      simp [hfE]
    · rw [update_of_ne hy, h.alloc, hE, hmap, mem_cons, or_iff_right hy]
  · exact h.ages p (mem_of_mem_filter hp)
  · have hyE := h.tokens q y hq
    rw [hE] at hyE
    rw [hmap]
    refine (mem_cons.1 hyE).resolve_left ?_
    rintro rfl
    exact htok q hq
  · refine h.refs y ?_
    rw [hmap] at hy
    rw [hE]
    exact mem_cons_of_mem _ hy
  · exact (length_filter_le _ _).trans h.made
  · intro fg
    rw [head_set, if_neg (by rintro ⟨⟩)]
    exact h.groups fg

/-- **A rule is removed.** -/
theorem Good.remove (h : Good w P R) {group : Option ℕ}
    (hfirst : ∀ f, w.chain.get (w.find (ruleHead group) fp).2 = some f → (siocrmafr w group fp).2 = 0 →
      w.list.head () = some f ∧ w.list.next f = w.chain.next f ∧ ∀ q, w.tok q ≠ some f) :
    ∃ R', Good (siocrmafr w group fp).1 ((Op.remove group fp).present w P) R' := by
  unfold Op.present
  dsimp only
  cases hfound : w.chain.get (w.find (ruleHead group) fp).2 with
  | none =>
    have hcall : siocrmafr w group fp = (w, ESRCH) := by
      unfold siocrmafr
      rw [hfound]
    rw [hcall]
    exact ⟨R, h⟩
  | some f =>
    by_cases hcopied : has (w.ent f).fr.frFlags FR_COPIED = false
    · have hcall : siocrmafr w group fp = (w, EPERM) := by
        unfold siocrmafr
        rw [hfound]
        exact if_pos hcopied
      rw [hcall]
      exact ⟨R, h⟩
    by_cases hbusy : 1 < (w.ent f).fr.frRef
    · have hcall : siocrmafr w group fp = (w, EBUSY) := by
        unfold siocrmafr
        rw [hfound]
        dsimp only
        rw [if_neg hcopied, if_pos hbusy]
      rw [hcall]
      exact ⟨R, h⟩
    have hcall : siocrmafr w group fp = precmdRemove w f := by
      unfold siocrmafr
      rw [hfound]
      dsimp only
      rw [if_neg hcopied, if_neg hbusy]
    -- the entry of the rule is on the list
    have hok : (precmdRemove w f).2 = 0 := by
      obtain ⟨a, b, e⟩ := append_of_mem (h.perm.mem_iff.1 (h.found hfound))
      have hfa : f ∉ a := by
        have hnd := h.list.nodup ()
        rw [e, nodup_middle, nodup_cons, mem_append, not_or] at hnd
        exact hnd.1.1
      have htake : (P.map fst).takeWhile (fun x => some f ≠ some x) = a := by
        rw [e, takeWhile_append_of_pos fun x hx => ?_, takeWhile_cons_of_neg (by simp), append_nil]
        have hxf : f ≠ x := fun c => hfa (c ▸ hx)
        simpa using hxf
      unfold precmdRemove
      dsimp only
      rw [h.faep, htake, h.list.get (mem_singleton_self _) e]
      rfl
    rw [hcall, hok]
    obtain ⟨hlist, hnext, htok⟩ := hfirst f hfound (by rw [hcall, hok])
    exact h.unlink hlist hnext htok

/-- The loop of `ipf_auth_expire` when no time runs out. -/
theorem ageLoop_spec : ∀ (l₂ l₁ : List ℕ) {w : Sys} {i : ℕ}, Lists w.list [()] (fun _ => l₁ ++ l₂) →
    l₂.length ≤ i →
    (∀ x ∈ l₂, (w.ent x).age ≠ 1) → ageLoop i w (lastLink (.head ()) l₁) =
      { w with ent := fun x => if x ∈ l₂ then { w.ent x with age := (w.ent x).age - 1 } else w.ent x } := by
  intro l₂
  induction l₂ with
  | nil =>
    intro l₁ w i hl _ _
    have hget := hl.get (h := ()) (mem_singleton_self _) rfl
    cases i with
    | zero => simp [ageLoop]
    | succ i => simp [ageLoop, hget]
  | cons x l₂ ih =>
    intro l₁ w i hl hi hage
    obtain ⟨j, rfl⟩ : ∃ j, i = j + 1 := ⟨i - 1, by rw [length_cons] at hi; omega⟩
    have hget := hl.get (h := ()) (mem_singleton_self _) rfl
    have hnd := (nodup_append.1 (hl.nodup ())).2.1
    have hx : x ∉ l₂ := (nodup_cons.1 hnd).1
    have hne : (w.ent x).age - 1 ≠ 0 := by
      have := hage x mem_cons_self
      bv_omega
    rw [head?_cons] at hget
    unfold ageLoop
    rw [hget]
    dsimp only
    have hage' : ((w.upd x fun e => { e with age := e.age - 1 }).ent x).age ≠ 0 := by
      simpa [Sys.upd] using hne
    rw [if_neg hage']
    have hrest := ih (l₁ ++ [x]) (w := w.upd x fun e => { e with age := e.age - 1 }) (i := j)
      (by rw [append_assoc]; exact hl) (by rw [length_cons] at hi; omega) (fun y hy => by
        have hyx : y ≠ x := fun c => hx (c ▸ hy)
        simp only [Sys.upd, update_of_ne hyx]
        exact hage y (mem_cons_of_mem _ hy))
    rw [lastLink_concat] at hrest
    rw [hrest]
    unfold Sys.upd
    congr 1
    funext y
    by_cases hyx : y = x
    · subst hyx
      simp [hx]
    · simp [hyx]

/-- **Time goes on,** and nothing runs out of it. -/
theorem Good.expire (h : Good w P R) (hage : w.lock = false → ∀ x, w.alloc x = true → (w.ent x).age ≠ 1) :
    Good (ipfAuthExpire w) (Op.expire.present w P) R := by
  unfold ipfAuthExpire
  change Good _ (if w.lock then P else (P.map fun p => (p.1, p.2 - 1)).filter fun p => p.2 ≠ 0) R
  by_cases hlock : w.lock = true
  · rw [if_pos hlock, if_pos hlock]
    exact h
  rw [if_neg hlock, if_neg hlock]
  have hne : ∀ x ∈ P.map fst, (w.ent x).age ≠ 1 := fun x hx => hage (by simpa using hlock) x ((h.alloc x).2 hx)
  have hkeep : (P.map fun p => (p.1, p.2 - 1)).filter (fun p => p.2 ≠ 0) = P.map fun p => (p.1, p.2 - 1) := by
    rw [filter_eq_self]
    intro p hp
    obtain ⟨q, hq, rfl⟩ := mem_map.1 hp
    have hq1 := hne q.1 (mem_map_of_mem hq)
    rw [h.ages q hq] at hq1
    have hq0 : q.2 - 1 ≠ 0 := by bv_omega
    simpa using hq0
  have hmap : (P.map fun p => (p.1, p.2 - 1)).map fst = P.map fst := by
    rw [map_map]
    rfl
  have hloop := ageLoop_spec (P.map fst) [] h.list (i := 2 * w.made + 1) (by
    have := h.made
    rw [length_map]
    omega) hne
  rw [lastLink] at hloop
  rw [hkeep, hloop]
  refine ⟨?_, ?_, ?_, ?_, fun x => ?_, fun p hp => ?_, h.finite, fun q x hq => ?_, fun x hx => ?_, ?_, h.groups⟩
  · rw [hmap]
    exact h.list
  · dsimp only
    rw [← h.head]
    rw [h.chain.head (mem_singleton_self Head.auth)]
    exact h.chain.keep (mem_singleton_self _)
  · rw [hmap]
    exact h.perm
  · rw [hmap]
    exact h.first
  · rw [hmap]
    exact h.alloc x
  · obtain ⟨q, hq, rfl⟩ := mem_map.1 hp
    dsimp only
    rw [if_pos (mem_map_of_mem hq), h.ages q hq]
  · rw [hmap]
    exact h.tokens q x hq
  · rw [hmap] at hx
    dsimp only
    rw [if_pos hx]
    exact h.refs x hx
  · rw [length_map]
    exact h.made

/-- Tokens may move, if the counts go with them. -/
theorem Good.move (h : Good w P R) {tok : ℕ → Option ℕ} {ent : ℕ → Fae} (hage : ∀ x, (ent x).age = (w.ent x).age)
    (hfin : {q | tok q ≠ none}.Finite) (htok : ∀ q x, tok q = some x → x ∈ P.map fst)
    (hrefs : ∀ x ∈ P.map fst, (ent x).ref = 1 + holders Set.univ tok x) (done : ℕ → Bool) :
    Good { w with ent := ent, tok := tok, done := done } P R :=
  ⟨h.list, h.chain, h.perm, h.first, h.alloc, fun p hp => (hage p.1).trans (h.ages p hp), hfin, htok, hrefs, h.made,
    h.groups⟩

/-- The entry after another one is on the list. -/
theorem Good.next (h : Good w P R) {n : ℕ} (hf : f ∈ P.map fst) (hn : w.list.next f = some n) : n ∈ P.map fst := by
  obtain ⟨a, b, e⟩ := append_of_mem hf
  have hget : w.list.get (lastLink (.head ()) (a ++ [f])) = b.head? :=
    h.list.get (mem_singleton_self _) (by rw [e, append_assoc]; rfl)
  rw [lastLink_concat, next_get, hn] at hget
  rw [e]
  exact mem_append_right _ (mem_cons_of_mem _ (mem_of_head? hget.symm))

/-- An entry with another reference is not freed. -/
theorem deref_kept (h : (w.ent f).ref ≠ 1) :
    ipfAuthDeref w f = { w with ent := update w.ent f { w.ent f with ref := (w.ent f).ref - 1 } } := by
  have hne : ((w.upd f fun e => { e with ref := e.ref - 1 }).ent f).ref ≠ 0 := by
    simp only [Sys.upd, update_self]
    omega
  unfold ipfAuthDeref
  exact if_neg hne

/-- The entry that an iterator goes to. -/
def Sys.nextFae (w : Sys) (q : ℕ) : Option ℕ :=
  match w.tok q with
  | none => w.list.head ()
  | some f => w.list.next f

/-- The entries with a reference more to one of them. -/
def Sys.take (w : Sys) (next : Option ℕ) : ℕ → Fae :=
  fun x => if next = some x then { w.ent x with ref := (w.ent x).ref + 1 } else w.ent x

theorem take_eq (w : Sys) (next : Option ℕ) : (match next with
    | none => w
    | some n => w.upd n fun e => { e with ref := e.ref + 1 }) = { w with ent := w.take next } := by
  cases next with
  | none => rfl
  | some n =>
    unfold Sys.upd Sys.take
    dsimp only
    congr 1
    funext x
    by_cases hx : x = n
    · simp [hx]
    · simp [hx, Ne.symm hx]

theorem done_eq (b : Bool) (w : Sys) (done : ℕ → Bool) :
    (if b = true then { w with done := done } else w) = { w with done := if b = true then done else w.done } := by
  cases b <;> rfl

/-- What an iterator does when its request is right. -/
theorem geniter_eq (w : Sys) (q : ℕ) {itp : Geniter} (hdata : itp.data = true) (htype : itp.type = true) :
    ∃ done, (ipfAuthGeniter w q itp).1 = { (match w.tok q with
        | none => { w with ent := w.take (w.nextFae q), tok := update w.tok q (w.nextFae q) }
        | some f => ipfAuthDeref { w with ent := w.take (w.nextFae q), tok := update w.tok q (w.nextFae q) } f : Sys)
        with done := done } := by
  have htake := take_eq w (w.nextFae q)
  generalize hw : ({ w with ent := w.take (w.nextFae q) } : Sys) = w₁ at htake
  have hw₁ : ({ w with ent := w.take (w.nextFae q), tok := update w.tok q (w.nextFae q) } : Sys) =
      { w₁ with tok := update w₁.tok q (w.nextFae q) } := by
    rw [← hw]
  rw [hw₁, ← htake]
  unfold ipfAuthGeniter
  rw [if_neg (by simp [hdata]), if_neg (by simp [htype])]
  exact ⟨_, done_eq _ _ _⟩

/-- **An iterator goes on:** it takes a reference to the next entry and drops the one to the entry it was at, which the list
still holds. -/
theorem Good.iterate (h : Good w P R) (q : ℕ) (itp : Geniter) : Good (ipfAuthGeniter w q itp).1 P R := by
  by_cases hdata : itp.data = true
  swap
  · unfold ipfAuthGeniter
    rw [if_pos (by simpa using hdata)]
    exact h
  by_cases htype : itp.type = true
  swap
  · unfold ipfAuthGeniter
    rw [if_neg (by simpa using hdata), if_pos (by simpa using htype)]
    exact h
  obtain ⟨done, heq⟩ := geniter_eq w q hdata htype
  have hmem : ∀ n, w.nextFae q = some n → n ∈ P.map fst := by
    intro n hn
    unfold Sys.nextFae at hn
    cases hq : w.tok q with
    | none =>
      rw [hq] at hn
      exact mem_of_head? ((h.list.head (mem_singleton_self ())).symm.trans hn)
    | some f =>
      rw [hq] at hn
      exact h.next (h.tokens q f hq) hn
  rw [heq]
  generalize w.nextFae q = next at hmem
  have hcount := fun b => holders_move h.finite q next b
  have hfin : {q' | update w.tok q next q' ≠ none}.Finite := by
    refine (h.finite.insert q).subset fun q' hq' => ?_
    by_cases hqq : q' = q
    · exact .inl hqq
    · refine .inr ?_
      change update w.tok q next q' ≠ none at hq'
      rwa [update_of_ne hqq] at hq'
  have htok : ∀ q' x, update w.tok q next q' = some x → x ∈ P.map fst := by
    intro q' x hx
    by_cases hqq : q' = q
    · rw [hqq, update_self] at hx
      exact hmem x hx
    · rw [update_of_ne hqq] at hx
      exact h.tokens q' x hx
  have href : ∀ x ∈ P.map fst,
      (w.take next x).ref = 1 + holders Set.univ w.tok x + if next = some x then 1 else 0 := by
    intro x hx
    unfold Sys.take
    split
    · rw [← h.refs x hx]
    · rw [h.refs x hx, add_zero]
  have hage : ∀ x, (w.take next x).age = (w.ent x).age := by
    intro x
    unfold Sys.take
    split <;> rfl
  cases hq : w.tok q with
  | none =>
    refine h.move hage hfin htok (fun x hx => ?_) done
    have hc := hcount x
    rw [hq, if_neg (by simp), add_zero] at hc
    rw [href x hx, hc]
    push_cast
    omega
  | some f =>
    have hcf := hcount f
    rw [hq, if_pos rfl] at hcf
    have hreff := href f (h.tokens q f hq)
    -- the list still holds the entry
    have hreff' : (w.take next f).ref = 2 + holders Set.univ (update w.tok q next) f := by
      by_cases hn : next = some f
      · rw [if_pos hn] at hcf hreff
        omega
      · rw [if_neg hn] at hcf hreff
        omega
    dsimp only
    rw [deref_kept (by dsimp only; omega)]
    change Good { w with
      ent := update (w.take next) f { w.take next f with ref := (w.take next f).ref - 1 }
      tok := update w.tok q next
      done := done } P R
    refine h.move (fun x => ?_) hfin htok (fun x hx => ?_) done
    · by_cases hx : x = f
      · rw [hx, update_self]
        exact hage f
      · rw [update_of_ne hx]
        exact hage x
    · by_cases hxf : x = f
      · rw [hxf, update_self]
        dsimp only
        omega
      · have hc := hcount x
        have hfx : ¬w.tok q = some x := by
          rw [hq]
          exact fun c => hxf (Option.some.inj c).symm
        rw [if_neg hfx, add_zero] at hc
        rw [update_of_ne hxf, href x hx, hc]
        push_cast
        omega

/-! ## Runs -/

/-- **Calls that keep the list and the chain together.** A rule that is added has no group and is not placed in front of the
others. A rule that is removed is the first one, what follows is the same in the list and in the chain, and no iterator is at
its entry. No entry runs out of time. -/
def Together (w : Sys) : Op → Prop
  | .add group fp new => new ≠ none → w.chain.get (w.find (ruleHead group) fp).2 = none →
    group = none ∧ (w.place .auth fp ≠ .head .auth ∨ w.list.head () = none)
  | .remove group fp =>
    ∀ f, w.chain.get (w.find (ruleHead group) fp).2 = some f → has (w.ent f).fr.frFlags FR_COPIED = true →
    (w.ent f).fr.frRef ≤ 1 → w.list.head () = some f ∧ w.list.next f = w.chain.next f ∧ ∀ q, w.tok q ≠ some f
  | .expire => w.lock = false → ∀ x, w.alloc x = true → (w.ent x).age ≠ 1
  | _ => True

/-- New memory was not in use. -/
def Fresh (w : Sys) : Op → Prop
  | .add _ _ new => ∀ x, new = some x → w.alloc x = false
  | _ => True

/-- **Runs** in which every call satisfies `ok`, with the entries that are there. -/
inductive Run (ok : Sys → Op → Prop) (w₀ : Sys) : Sys → List (ℕ × BitVec 64) → Prop
  | start : Run ok w₀ w₀ []
  | call {w : Sys} {P : List (ℕ × BitVec 64)} (op : Op) (hr : Run ok w₀ w P) (hfresh : Fresh w op) (hok : ok w op) :
    Run ok w₀ (step w op) (op.present w P)

theorem init_good (defaultage : BitVec 64) (ent : ℕ → Fae) : Good (init defaultage ent) [] [] where
  list := .nil fun _ _ => rfl
  chain := by
    rw [update_eq_self_iff.2 rfl]
    exact .nil fun _ _ => rfl
  perm := .refl _
  first := rfl
  alloc x := by simp [init]
  ages p hp := by cases hp
  finite := by simp [init]
  tokens q x hq := by cases hq
  refs x hx := by cases hx
  made := Nat.zero_le _
  groups _ := rfl

/-- **One call.** -/
theorem Good.step (h : Good w P R) {op : Op} (hfresh : Fresh w op) (hok : Together w op) :
    ∃ R', Good (AuthRules.step w op) (op.present w P) R' := by
  cases op with
  | add group fp new => exact h.add hfresh hok
  | remove group fp =>
    refine h.remove fun f hfound hzero => ?_
    unfold siocrmafr at hzero
    rw [hfound] at hzero
    dsimp only at hzero
    split at hzero
    · cases hzero
    · rename_i hcopied
      split at hzero
      · cases hzero
      · rename_i hbusy
        exact hok f hfound (by simpa using hcopied) (by omega)
  | expire => exact ⟨R, h.expire hok⟩
  | iterate q itp => exact ⟨R, h.iterate q itp⟩
  | setlock lock =>
    exact ⟨R, h.list, h.chain, h.perm, h.first, h.alloc, h.ages, h.finite, h.tokens, h.refs, h.made, h.groups⟩

/-- A rule with a collection number. -/
def rule (collect : ℕ) : Frentry where
  frFunc := 0
  frDsize := 0
  frFlags := FR_COPIED
  frCollect := collect
  htMaxNodes := 0
  htParent := none
  frRest := []
  frRef := 1
  frDie := 0
  frHits := 0
  frBytes := 0
  frSize := 0
  frCksum := 0
  frData := none

/-- No entries, and the given time for new ones. -/
def empty (age : BitVec 64) : Sys := init age fun _ => ⟨rule 0, 0, 0⟩

/-- The state and the entries after calls. -/
def after (age : BitVec 64) (ops : List Op) : Sys × List (ℕ × BitVec 64) :=
  ops.foldl (fun r op => (step r.1 op, op.present r.1 r.2)) (empty age, [])

/-- A request of an iterator that works. -/
def good : Geniter := ⟨true, true, true⟩

/-- One call more. -/
theorem run_snoc {ok : Sys → Op → Prop} {age : BitVec 64} {ops : List Op} (op : Op)
    (hr : Run ok (empty age) (after age ops).1 (after age ops).2) (hfresh : Fresh (after age ops).1 op)
    (hok : ok (after age ops).1 op) : Run ok (empty age) (after age (ops ++ [op])).1 (after age (ops ++ [op])).2 := by
  unfold after at hr hfresh hok ⊢
  rw [foldl_append]
  exact .call op hr hfresh hok

/-- A first rule. -/
theorem run_added (ok : Sys → Op → Prop) (age : BitVec 64) (h : ok (empty age) (.add none (rule 2) (some 0))) :
    Run ok (empty age) (after age [.add none (rule 2) (some 0)]).1 (after age [.add none (rule 2) (some 0)]).2 :=
  run_snoc (.add none (rule 2) (some 0)) (show Run ok _ (after age []).1 _ from .start) (fun _ _ => rfl) h

/-- A rule behind another one, and an iterator that comes to the second one in the end. -/
def seen : List Op := [.add none (rule 2) (some 0), .add none (rule 3) (some 1), .iterate 0 good, .expire, .iterate 0 good]

theorem seen_run : Run Together (empty 5) (after 5 seen).1 (after 5 seen).2 := by
  have h1 := run_added Together 5 fun _ _ => ⟨rfl, .inr (by decide)⟩
  have h2 := run_snoc (.add none (rule 3) (some 1)) h1 (by rintro x ⟨⟩; decide) fun _ _ => ⟨rfl, .inl (by decide)⟩
  have h3 := run_snoc (.iterate 0 good) h2 trivial trivial
  have h4 := run_snoc .expire h3 trivial fun _ x hx => by
    have hx' : x = 0 ∨ x = 1 := by
      change update (update (fun _ => false) 0 true) 1 true x = true at hx
      by_contra hno
      rw [not_or] at hno
      simp [hno.1, hno.2] at hx
    rcases hx' with rfl | rfl <;> decide
  exact run_snoc (.iterate 0 good) h4 trivial trivial

end Ipfilter.AuthRules
