import Ipfilter.Proof.StateWild
import Ipfilter.Spec.StateLookup

/-!
# Searches of the state table

* `match_self`, `match_other`: a match with the entry itself changes that entry only, whether it is accepted or not.
* `searchChain_misses`, `searchChain_declines`: what one search does behind which it goes on.
* `search_finds`: **the searches find an entry when one of them accepts it and comes to it.**
* `search_single`: a single search finds the first entry of its chain that it accepts.
-/

namespace Ipfilter.State

open Chain Queue Masks Tcp List
open Option (bind_eq_bind bind_some)

variable {M : Machine} {seed : ℕ → ℕ} {room : Softs → Room} {t : Try} {w w' : Softs} {e c : ℕ} {rev : Bool}
  {H : ℕ → List ℕ}

/-! ## One entry -/

/-- An entry without wildcards. -/
def Ipstate.Tame (i : Ipstate) : Prop := i.isFlags &&& (SI_WILDP ||| SI_WILDA) = 0

theorem Ipstate.Tame.matchFlags {i : Ipstate} (h : i.Tame) (tcp : Bool) :
    State.matchFlags i tcp &&& SI_WILDP = 0 ∧ State.matchFlags i tcp &&& SI_WILDA = 0 := by
  unfold Ipstate.Tame at h
  rw [BitVec.and_or_distrib_left] at h
  obtain ⟨hp, ha⟩ := BitVec.or_eq_zero_iff.1 h
  have hsub : ∀ m x : Flags, i.isFlags &&& x = 0 → i.isFlags &&& m &&& x = 0 := by
    intro m x hx
    rw [BitVec.and_assoc, BitVec.and_comm m, ← BitVec.and_assoc, hx]
    exact BitVec.zero_and
  unfold State.matchFlags
  cases tcp with
  | true => exact ⟨hp, ha⟩
  | false => exact ⟨hsub _ _ hp, hsub _ _ ha⟩

theorem upd_wild_upd (w : Softs) (e : ℕ) (i : Ipstate) (f : Ipstate → Ipstate) (x : ℤ) :
    ({ w.upd e fun _ => i with wild := x } : Softs).upd e f = { w.upd e fun _ => f i with wild := x } := by
  simp [Softs.upd]

/-- **A match with the entry itself** changes the entry and the number of wildcards. -/
theorem match_self (fin : FrInfo) {src dst : I6addr} {tcp : Bool} {cmask : Flags} {i : Ipstate} (r : Room)
    (hq : w.tq.tqeIfq e ≠ some .delete) (hm : matchSelf M fin (w.is e) src dst tcp cmask = some (i, rev)) :
    ∃ wild, ipfMatchsrcdst M fin w e src dst tcp cmask r = some ({ w.upd e fun _ => i with wild := wild }, some (e, rev)) ∧
      ((w.is e).Tame → wild = w.wild) := by
  unfold matchSelf at hm
  dsimp only at hm
  split at hm
  · cases hm
  rename_i hno
  simp only [not_or, Bool.not_eq_false] at hno
  obtain ⟨h1, h2, h3⟩ := hno
  unfold ipfMatchsrcdst
  have hfirst : ¬(matchIfp fin (w.is e) (matchRev M fin (w.is e) dst tcp) = false ∨
      matchBoth M fin (w.is e) src dst tcp (matchRev M fin (w.is e) dst tcp) = false) := by
    simp [h1, h2]
  simp only [hq, if_false, if_neg hfirst, h3, Bool.true_eq_false]
  have hwild : (w.is e).Tame → (if matchFlags (w.is e) tcp &&& SI_WILDA ≠ 0 ∧
      (fillAddr M fin (w.is e) (matchFlags (w.is e) tcp) (matchRev M fin (w.is e) dst tcp)).isFlags &&&
        (SI_WILDA ||| SI_WILDP) = 0 then w.wild - 1 else w.wild) = w.wild :=
    fun ht => if_neg fun hc => hc.1 (ht.matchFlags tcp).2
  split at hm
  · rename_i hig
    cases hm
    simp only [if_pos hig]
    exact ⟨_, rfl, hwild⟩
  rename_i hig
  simp only [if_neg hig]
  unfold takePort
  split at hm
  · rename_i hp
    cases hm
    simp only [if_pos hp, bind_eq_bind, bind_some, upd_wild_upd]
    exact ⟨_, rfl, hwild⟩
  rename_i hp
  split at hm
  · cases hm
  · rename_i hc
    cases hm
    simp only [if_neg hp, if_neg hc, bind_eq_bind, bind_some, upd_wild_upd]
    exact ⟨_, rfl, fun ht => absurd (ht.matchFlags tcp).1 hp⟩

/-- **An entry that passes the first tests and is not matched**, and has no copies, may have an address filled in. -/
theorem match_other (fin : FrInfo) {src dst : I6addr} {tcp : Bool} {cmask : Flags} (r : Room)
    (hq : w.tq.tqeIfq e ≠ some .delete)
    (hfirst : ¬(matchIfp fin (w.is e) (matchRev M fin (w.is e) dst tcp) = false ∨
      matchBoth M fin (w.is e) src dst tcp (matchRev M fin (w.is e) dst tcp) = false))
    (hc : ¬(matchFlags (w.is e) tcp &&& SI_WILDP ≠ 0 ∧ matchFlags (w.is e) tcp &&& SI_CLONE ≠ 0))
    (hm : matchSelf M fin (w.is e) src dst tcp cmask = none) :
    ∃ i wild, ipfMatchsrcdst M fin w e src dst tcp cmask r = some ({ w.upd e fun _ => i with wild := wild }, none) ∧
      ((w.is e).Tame → wild = w.wild) := by
  have h3 : matchOpts fin (fillAddr M fin (w.is e) (matchFlags (w.is e) tcp) (matchRev M fin (w.is e) dst tcp)) cmask
      (matchRev M fin (w.is e) dst tcp) = false := by
    by_contra hopts
    unfold matchSelf at hm
    dsimp only at hm
    rw [if_neg (fun h => hopts ((or_assoc.2 h).resolve_left hfirst))] at hm
    split at hm
    · cases hm
    split at hm
    · cases hm
    split at hm
    · rename_i hp hcl
      exact hc ⟨hp, hcl⟩
    · cases hm
  unfold ipfMatchsrcdst
  simp only [hq, if_false, if_neg hfirst, h3, if_true]
  exact ⟨_, _, rfl, fun ht => if_neg fun hc => hc.1 (ht.matchFlags tcp).2⟩

/-- An entry the first tests leave out is not changed. -/
theorem match_misses (fin : FrInfo) {src dst : I6addr} {tcp : Bool} {cmask : Flags} (r : Room)
    (h : w.tq.tqeIfq e = some .delete ∨ matchIfp fin (w.is e) (matchRev M fin (w.is e) dst tcp) = false ∨
      matchBoth M fin (w.is e) src dst tcp (matchRev M fin (w.is e) dst tcp) = false) :
    ipfMatchsrcdst M fin w e src dst tcp cmask r = some (w, none) := by
  unfold ipfMatchsrcdst
  rcases h with h | h
  · rw [if_pos h]
    rfl
  · by_cases hq : w.tq.tqeIfq e = some .delete
    · rw [if_pos hq]
      rfl
    · simp only [if_neg hq, if_pos h]
      rfl

theorem Try.misses_iff : t.misses M w e = true ↔ t.fits e (w.is e) = false ∨ w.tq.tqeIfq e = some .delete ∨
    matchIfp t.fin (w.is e) (matchRev M t.fin (w.is e) t.dst t.tcp) = false ∨
      matchBoth M t.fin (w.is e) t.src t.dst t.tcp (matchRev M t.fin (w.is e) t.dst t.tcp) = false := by
  simp [Try.misses, or_assoc]

theorem attempt_misses (room : Softs → Room) (rev : Bool) (hf : t.fits e (w.is e) = true) (h : t.misses M w e = true) :
    attempt M room t w rev e = some (w, rev, none) := by
  have h' := (Try.misses_iff.1 h).resolve_left (by simp [hf])
  unfold attempt
  rw [match_misses { t.fin with finRev := rev } (room w) h']
  rfl

/-- **An entry the search accepts is found.** -/
theorem attempt_hits (room : Softs → Room) (rev : Bool) (h : t.hits M w e = true) :
    ∃ i wild rev', attempt M room t w rev e = some ({ w.upd e fun _ => i with wild := wild }, rev', some e) := by
  unfold Try.hits at h
  simp only [Bool.and_eq_true, decide_eq_true_eq] at h
  obtain ⟨⟨-, hq⟩, hm⟩ := h
  cases hs : matchSelf M t.fin (w.is e) t.src t.dst t.tcp t.cmask with
  | none =>
    rw [hs] at hm
    cases hm
  | some x =>
    obtain ⟨i, rev'⟩ := x
    rw [hs] at hm
    obtain ⟨wild, hmatch, -⟩ := match_self { t.fin with finRev := rev } (room w) hq hs
    refine ⟨i, wild, rev', ?_⟩
    unfold attempt
    rw [hmatch]
    have hi : (w.upd e fun _ => i).is e = i := Function.update_self ..
    simp only [bind_eq_bind, bind_some, hi, hm, if_true]
    rfl

theorem Try.fits_of_hits (h : t.hits M w e = true) : t.fits e (w.is e) = true := by
  unfold Try.hits at h
  simp only [Bool.and_eq_true] at h
  exact h.1.1

/-- The entries of `l` and the number of wildcards are as attempts left them, all else is as it was. -/
def Filled (l : List ℕ) (w w' : Softs) : Prop :=
  ∃ is wild, w' = { w with is := is, wild := wild } ∧ ∀ c ∉ l, is c = w.is c

theorem Filled.refl (w : Softs) (l : List ℕ) : Filled l w w := ⟨w.is, w.wild, rfl, fun _ _ => rfl⟩

theorem filled_upd (w : Softs) (e : ℕ) (i : Ipstate) (wild : ℤ) : Filled [e] w { w.upd e fun _ => i with wild := wild } :=
  ⟨_, wild, rfl, fun _ hc => Function.update_of_ne (by simpa using hc) _ _⟩

theorem Filled.trans {l₁ l₂ : List ℕ} {w₁ w₂ : Softs} (h₁ : Filled l₁ w w₁) (h₂ : Filled l₂ w₁ w₂) :
    Filled (l₁ ++ l₂) w w₂ := by
  obtain ⟨is₁, wild₁, rfl, hout₁⟩ := h₁
  obtain ⟨is₂, wild₂, rfl, hout₂⟩ := h₂
  refine ⟨is₂, wild₂, rfl, fun c hc => ?_⟩
  rw [mem_append, not_or] at hc
  exact (hout₂ c hc.2).trans (hout₁ c hc.1)

theorem Filled.hits {l : List ℕ} (h : Filled l w w') (he : e ∉ l) : t.hits M w' e = t.hits M w e := by
  obtain ⟨is, wild, rfl, hout⟩ := h
  unfold Try.hits
  rw [show ({ w with is := is, wild := wild } : Softs).is e = w.is e from hout e he]

theorem Filled.declines {l : List ℕ} (h : Filled l w w') (he : e ∉ l) : t.declines M w' e = t.declines M w e := by
  have hhits := h.hits (M := M) (t := t) he
  obtain ⟨is, wild, rfl, hout⟩ := h
  unfold Try.declines Try.misses
  rw [hhits, show ({ w with is := is, wild := wild } : Softs).is e = w.is e from hout e he]

/-- **An entry that is passed over** is filled in at most. -/
theorem attempt_declines (room : Softs → Room) (rev : Bool) (hf : t.fits e (w.is e) = true) (h : t.declines M w e = true) :
    ∃ w' rev', attempt M room t w rev e = some (w', rev', none) ∧ Filled [e] w w' ∧
      ((w.is e).Tame → w'.wild = w.wild) := by
  by_cases hmiss : t.misses M w e = true
  · exact ⟨w, rev, attempt_misses room rev hf hmiss, .refl w _, fun _ => rfl⟩
  obtain ⟨hq, hfirst⟩ := not_or.1 fun hc => hmiss (Try.misses_iff.2 (.inr hc))
  unfold Try.declines at h
  rw [Bool.or_eq_true, Bool.and_eq_true, Bool.not_eq_true', Bool.not_eq_true'] at h
  obtain ⟨hcopy, hhit⟩ := h.resolve_left hmiss
  unfold attempt
  cases hs : matchSelf M t.fin (w.is e) t.src t.dst t.tcp t.cmask with
  | none =>
    have hc := of_decide_eq_false hcopy
    obtain ⟨i, wild, hmatch, hwild⟩ := match_other { t.fin with finRev := rev } (room w) hq hfirst hc hs
    rw [hmatch]
    exact ⟨_, rev, rfl, filled_upd w e i wild, hwild⟩
  | some x =>
    obtain ⟨i, rev'⟩ := x
    obtain ⟨wild, hmatch, hwild⟩ := match_self { t.fin with finRev := rev } (room w) hq hs
    have hno : t.accept i rev' e = false := by
      unfold Try.hits at hhit
      rw [hs] at hhit
      simpa [hf, hq] using hhit
    have hi : (w.upd e fun _ => i).is e = i := Function.update_self ..
    rw [hmatch]
    simp only [bind_eq_bind, bind_some, hi, hno]
    exact ⟨_, rev', rfl, filled_upd w e i wild, hwild⟩

/-! ## One chain -/

theorem searchChain_succ (room : Softs → Room) (n : ℕ) (c : ℕ) : searchChain M room t (n + 1) w rev (some c) =
    if t.fits c (w.is c) = false then searchChain M room t n w rev (w.table.next c)
    else (attempt M room t w rev c).bind fun x =>
      match x.2.2 with
      | some found => some (x.1, x.2.1, some found)
      | none => searchChain M room t n x.1 x.2.1 (x.1.table.next c) := rfl

/-- **Behind the entries that are passed over** the search goes on. -/
theorem searchChain_declines (room : Softs → Room) {l : List ℕ} (l' : List ℕ) :
    ∀ {w : Softs} {k : Link ℕ ℕ} {n : ℕ} (rev : Bool),
    Seg w.table k (l ++ l') → (l ++ l').Nodup → (∀ c ∈ l, t.declines M w c = true) → l.length ≤ n →
    ∃ w' rev' k' n', searchChain M room t n w rev (w.table.get k) = searchChain M room t n' w' rev' (w'.table.get k') ∧
      Seg w'.table k' l' ∧ n' + l.length = n ∧ Filled l w w' ∧ ((∀ c ∈ l, (w.is c).Tame) → w'.wild = w.wild) := by
  induction l with
  | nil =>
    intro w k n rev hs _ _ _
    exact ⟨w, rev, k, n, rfl, hs, by simp, .refl w _, fun _ => rfl⟩
  | cons c l ih =>
    intro w k n rev hs hnd hl hn
    obtain ⟨n, rfl⟩ : ∃ m, n = m + 1 := ⟨n - 1, by simp at hn; omega⟩
    obtain ⟨hk, -, hrest⟩ := (seg_cons (l ++ l')).1 hs
    obtain ⟨hc, hnd'⟩ := nodup_cons.1 hnd
    -- what is behind `c` is not touched by the attempt with `c`
    have hnext : ∀ {w₁ : Softs} {rev₁ : Bool}, Filled [c] w w₁ → ((w.is c).Tame → w₁.wild = w.wild) →
        ∃ w' rev' k' n', searchChain M room t n w₁ rev₁ (w₁.table.next c) =
            searchChain M room t n' w' rev' (w'.table.get k') ∧
          Seg w'.table k' l' ∧ n' + (c :: l).length = n + 1 ∧ Filled (c :: l) w w' ∧
          ((∀ x ∈ c :: l, (w.is x).Tame) → w'.wild = w.wild) := by
      intro w₁ rev₁ hfill hwild
      have htable : w₁.table = w.table := by
        obtain ⟨_, _, rfl, -⟩ := hfill
        rfl
      have hkeep : ∀ x ∈ l, x ∉ [c] := fun x hx hxc =>
        hc (mem_append_left _ (mem_singleton.1 hxc ▸ hx))
      obtain ⟨w', rev', k', n', heq, hseg, hlen, hfill', hwild'⟩ := ih rev₁ (n := n) (htable ▸ hrest) hnd'
        (fun x hx => (hfill.declines (hkeep x hx)).trans (hl x (mem_cons_of_mem _ hx))) (by simp at hn; omega)
      refine ⟨w', rev', k', n', heq, hseg, by simp; omega, hfill.trans hfill', fun ht => ?_⟩
      refine (hwild' fun x hx => ?_).trans (hwild (ht c mem_cons_self))
      obtain ⟨is, wild, rfl, hout⟩ := hfill
      rw [show ({ w with is := is, wild := wild } : Softs).is x = w.is x from hout x (hkeep x hx)]
      exact ht x (mem_cons_of_mem _ hx)
    rw [hk, searchChain_succ]
    by_cases hf : t.fits c (w.is c) = false
    · rw [if_pos hf]
      exact hnext (.refl w _) fun _ => rfl
    · obtain ⟨w₁, rev₁, ha, hfill, hwild⟩ := attempt_declines room rev (by simpa using hf) (hl c mem_cons_self)
      rw [if_neg hf, ha]
      exact hnext hfill hwild

/-- A chain without an entry that matches. -/
theorem searchChain_misses (room : Softs → Room) (rev : Bool) {l : List ℕ} :
    ∀ {k : Link ℕ ℕ} {n : ℕ}, Seg w.table k l →
    (∀ c ∈ l, t.misses M w c = true) → l.length < n →
      searchChain M room t n w rev (w.table.get k) = some (w, rev, none) := by
  induction l with
  | nil =>
    intro k n hs _ _
    have hk : w.table.get k = none := hs.2
    rw [hk]
    cases n <;> rfl
  | cons c l ih =>
    intro k n hs hl hn
    obtain ⟨n, rfl⟩ : ∃ m, n = m + 1 := ⟨n - 1, by simp at hn; omega⟩
    obtain ⟨hk, -, hrest⟩ := (seg_cons l).1 hs
    have hnext := ih hrest (fun x hx => hl x (mem_cons_of_mem _ hx)) (show l.length < n by simp at hn; omega)
    rw [next_get] at hnext
    rw [hk]
    unfold searchChain
    by_cases hf : t.fits c (w.is c) = false
    · rw [if_pos hf]
      exact hnext
    · rw [if_neg hf, attempt_misses room rev (by simpa using hf) (hl c mem_cons_self)]
      exact hnext

/-- **A chain without an entry that is accepted.** -/
theorem searchChain_none (room : Softs → Room) (rev : Bool) {l : List ℕ} {k : Link ℕ ℕ} {n : ℕ} (hs : Seg w.table k l)
    (hnd : l.Nodup) (hl : ∀ c ∈ l, t.declines M w c = true) (hn : l.length ≤ n) :
    ∃ w' rev', searchChain M room t n w rev (w.table.get k) = some (w', rev', none) ∧
      ((∀ c ∈ l, (w.is c).Tame) → w'.wild = w.wild) := by
  obtain ⟨w', rev', k', n', heq, hseg, -, -, hwild⟩ := searchChain_declines room [] rev (by rwa [append_nil])
    (by rwa [append_nil]) hl hn
  have hend : w'.table.get k' = none := hseg.2
  refine ⟨w', rev', ?_, hwild⟩
  rw [heq, hend]
  cases n' <;> rfl

/-- **A chain with an entry that is accepted**, behind others that are not. -/
theorem searchChain_hits (room : Softs → Room) (rev : Bool) {l l' : List ℕ} {k : Link ℕ ℕ} {n : ℕ}
    (hs : Seg w.table k (l ++ e :: l')) (hnd : (l ++ e :: l').Nodup) (hl : ∀ c ∈ l, t.declines M w c = true)
    (he : t.hits M w e = true) (hn : l.length < n) :
    ∃ w' rev', searchChain M room t n w rev (w.table.get k) = some (w', rev', some e) ∧ w'.table = w.table := by
  obtain ⟨w', rev', k', n', heq, hseg, hlen, hfill, -⟩ := searchChain_declines room (e :: l') rev hs hnd hl
    (Nat.le_of_lt hn)
  have hel : e ∉ l := fun hel => (nodup_append.1 hnd).2.2 e hel e mem_cons_self rfl
  have hhit : t.hits M w' e = true := (hfill.hits hel).trans he
  obtain ⟨hk, -⟩ := (seg_cons l').1 hseg
  obtain ⟨m, rfl⟩ : ∃ m, n' = m + 1 := ⟨n' - 1, by omega⟩
  obtain ⟨i, wild, rev₂, ha⟩ := attempt_hits room rev' hhit
  refine ⟨{ w'.upd e fun _ => i with wild := wild }, rev₂, ?_, ?_⟩
  · rw [heq, hk, searchChain_succ, if_neg (by simp [Try.fits_of_hits hhit]), ha]
    rfl
  · obtain ⟨_, _, rfl, -⟩ := hfill
    rfl

/-! ## All searches -/

/-- Moving an entry that is on a chain goes through. -/
theorem ipsmove_some (w : Softs) (seed : ℕ → ℕ) (hv : ℕ) (hp : w.table.pnext e ≠ none) :
    ∃ w', ipfIpsmove w seed e hv = some w' := by
  obtain ⟨k, hk⟩ := Option.ne_none_iff_exists'.1 hp
  unfold ipfIpsmove
  rw [hk]
  exact ⟨_, rfl⟩

/-- **The search that accepts the entry** and comes to it finds it. -/
theorem search_head (seed : ℕ → ℕ) (room : Softs → Room) (rev : Bool) (hr : Rep w.table H)
    (hlen : ∀ b, (H b).length ≤ w.active.toNat) (ts : List Try) (hready : t.ready w = true) {l l' : List ℕ}
    (hsplit : H (doubleHash seed w.size t.hv.toNat) = l ++ e :: l') (hl : ∀ c ∈ l, t.declines M w c = true)
    (he : t.hits M w e = true) : ∃ w' rev', search M seed room (t :: ts) w rev = some (w', rev', some e) := by
  have hseg := hr (doubleHash seed w.size t.hv.toNat)
  have hnd := hr.nodup (doubleHash seed w.size t.hv.toNat)
  have hfuel := hlen (doubleHash seed w.size t.hv.toNat)
  rw [hsplit] at hseg hnd hfuel
  rw [length_append] at hfuel
  obtain ⟨w₁, rev₁, hs, htable⟩ := searchChain_hits room rev hseg hnd hl he
    (show l.length < w.active.toNat + 1 by omega)
  rw [head_get] at hs
  rw [search, if_neg (by simp [hready])]
  simp only [hs, bind_eq_bind, bind_some]
  split
  · exact ⟨_, _, rfl⟩
  · rename_i hv _
    have hp : w₁.table.pnext e ≠ none := by
      rw [htable, ((path_append l (e :: l')).1 hseg.1).2.2.1]
      simp
    obtain ⟨w₂, hw₂⟩ := ipsmove_some w₁ seed hv.toNat hp
    rw [hw₂]
    exact ⟨_, _, rfl⟩

/-- **The searches find an entry** that one of them accepts and comes to, if those before it leave the entries of their
chains alone. -/
theorem search_finds (seed : ℕ → ℕ) (room : Softs → Room) (rev : Bool) (hr : Rep w.table H)
    (hlen : ∀ b, (H b).length ≤ w.active.toNat) {pre post : List Try} (hready : t.ready w = true) {l l' : List ℕ}
    (hpre : ∀ t' ∈ pre, t'.ready w = true → ∀ c ∈ H (doubleHash seed w.size t'.hv.toNat), t'.misses M w c = true)
    (hsplit : H (doubleHash seed w.size t.hv.toNat) = l ++ e :: l') (hl : ∀ c ∈ l, t.declines M w c = true)
    (he : t.hits M w e = true) : ∃ w' rev', search M seed room (pre ++ t :: post) w rev = some (w', rev', some e) := by
  induction pre with
  | nil => exact search_head seed room rev hr hlen post hready hsplit hl he
  | cons t' pre ih =>
    obtain ⟨w', rev', hrest⟩ := ih fun x hx => hpre x (mem_cons_of_mem _ hx)
    refine ⟨w', rev', ?_⟩
    rw [cons_append, search]
    by_cases hr' : t'.ready w = false
    · rw [if_pos hr']
      exact hrest
    · have hfuel := hlen (doubleHash seed w.size t'.hv.toNat)
      have hs := searchChain_misses room rev (hr (doubleHash seed w.size t'.hv.toNat))
        (hpre t' mem_cons_self (by simpa using hr')) (show _ < w.active.toNat + 1 by omega)
      rw [head_get] at hs
      rw [if_neg hr']
      simp only [hs, bind_eq_bind, bind_some]
      exact hrest

/-- **A single search** finds the first entry of its chain that it accepts. -/
theorem search_single (seed : ℕ → ℕ) (room : Softs → Room) (rev : Bool) (hr : Rep w.table H)
    (hlen : ∀ b, (H b).length ≤ w.active.toNat) {post : List Try}
    (hcopy : ∀ b, ∀ c ∈ H b, t.copies (w.is c) = false)
    (hpost : post = [] ∨ (∀ b, ∀ c ∈ H b, (w.is c).Tame) ∧ ∀ t' ∈ post, ∀ w' : Softs, w'.wild = w.wild →
      t'.ready w' = false)
    (hfound : Finds M seed room (t :: post) w rev e) :
    t.ready w = true ∧ (H (doubleHash seed w.size t.hv.toNat)).find? (fun c => t.hits M w c) = some e := by
  have hskip : ∀ {w' : Softs} {rev' : Bool}, ((∀ b, ∀ c ∈ H b, (w.is c).Tame) → w'.wild = w.wild) →
      search M seed room post w' rev' = some (w', rev', none) := by
    intro w' rev' hwild
    rcases hpost with rfl | ⟨htame, hpost⟩
    · rfl
    · have hoff := fun t' ht' => hpost t' ht' w' (hwild htame)
      clear hpost hfound
      induction post with
      | nil => rfl
      | cons t' post ih =>
        rw [search, if_pos (hoff t' mem_cons_self)]
        exact ih fun x hx => hoff x (mem_cons_of_mem _ hx)
  obtain ⟨w₁, rev₁, hfound⟩ := hfound
  by_cases hready : t.ready w = false
  · rw [search, if_pos hready, hskip fun _ => rfl] at hfound
    cases hfound
  refine ⟨by simpa using hready, ?_⟩
  have hdecl : ∀ c ∈ H (doubleHash seed w.size t.hv.toNat), t.hits M w c ≠ true → t.declines M w c = true := by
    intro c hc hno
    unfold Try.declines
    rw [hcopy _ c hc, Bool.eq_false_iff.2 hno, Bool.not_false, Bool.and_true, Bool.or_true]
  cases hfind : (H (doubleHash seed w.size t.hv.toNat)).find? (fun c => t.hits M w c) with
  | none =>
    -- no entry of the chain is accepted
    have hno := find?_eq_none.1 hfind
    obtain ⟨w', rev', hs, hwild⟩ := searchChain_none room rev (hr _) (hr.nodup _) (fun c hc => hdecl c hc (hno c hc))
      (Nat.le_succ_of_le (hlen (doubleHash seed w.size t.hv.toNat)))
    rw [head_get] at hs
    rw [search, if_neg hready] at hfound
    simp only [hs, bind_eq_bind, bind_some] at hfound
    rw [hskip fun ht => hwild fun c hc => ht _ c hc] at hfound
    cases hfound
  | some x =>
    obtain ⟨hx, l, l', hsplit, hl⟩ := find?_eq_some_iff_append.1 hfind
    obtain ⟨w', rev', hs⟩ := search_head seed room rev hr hlen post (by simpa using hready) hsplit
      (fun c hc => hdecl c (by rw [hsplit]; exact mem_append_left _ hc) (by simpa using hl c hc)) hx
    rw [hs, Option.some.injEq, Prod.mk.injEq, Prod.mk.injEq] at hfound
    rw [← hfound.2.2]

end Ipfilter.State
