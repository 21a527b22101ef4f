import Ipfilter.Proof.FragKnown
import Ipfilter.Proof.NatCksum
import Ipfilter.Spec.Ipid

/-!
# One id for the fragments of a datagram

* `update_valid`: the checksum stays right.
* `Knows.step`: an id that is known for a datagram stays, whatever else happens to the cache.
* `updateipid_agrees`: **all fragments behind the first one get its id,** unless there was an entry for them already.
  `updateipid_stale`: the id of an earlier datagram.
-/

namespace Ipfilter.Frag

open Chain BitVec
open Masks (Machine Word)
open NatTab (htons_htons recombined compl_setWidth)

variable {M : Machine} {ip ip' : Ip} {D : Key → Prop} {d : ℕ} {w w' : Sys} {s s' : Softf} {t : Tab} {b : Tab × ℕ}
  {fin : FrInfo} {L L' : Tab → List ℕ} {B B' : Tab × ℕ → List ℕ} {tok tok' : Tab × ℕ → Option ℕ} {x : ℕ}
  {new : Option ℕ} {junk : Ipfr}

/-! ## The checksum -/

theorem CALC_SUMD_toNat (s1 s2 : BitVec 16) :
    (CALC_SUMD s1 s2).toNat ≤ 131070 ∧ ((CALC_SUMD s1 s2).toNat + s1.toNat) % 65535 = s2.toNat % 65535 := by
  have h1 := s1.isLt
  have h2 := s2.isLt
  unfold CALC_SUMD
  dsimp only
  rw [Inet.fold_toNat]
  by_cases hlt : s1 > s2
  · have hlt' : s2.toNat < s1.toNat := hlt
    rw [if_pos hlt]
    by_cases h0 : s2.toNat = 0
    · -- 0 becomes all ones, which is the other zero
      have hsub : ((s2 - 1).setWidth 32 - s1.setWidth 32).toNat = 65535 - s1.toNat := by bv_omega
      omega
    · have hsub : ((s2 - 1).setWidth 32 - s1.setWidth 32).toNat = 2 ^ 32 - (s1.toNat - s2.toNat) - 1 := by bv_omega
      omega
  · have hle : s1.toNat ≤ s2.toNat := Nat.le_of_not_lt hlt
    rw [if_neg hlt]
    have hsub : (s2.setWidth 32 - s1.setWidth 32).toNat = s2.toNat - s1.toNat := by bv_omega
    omega

/-- **The header checksum** stays right. -/
theorem update_valid (h : Inet.Valid (ip.words M)) (id : BitVec 16) : Inet.Valid ((ip.update M id).words M) := by
  have hv := ip.version
  have hsum := (M.htons ip.ipSum).isLt
  unfold Ip.update
  dsimp only
  split
  · exact h
  · obtain ⟨hle, hmod⟩ := CALC_SUMD_toNat (M.htons ip.ipId) id
    unfold Ip.words at h ⊢
    dsimp only
    rw [Inet.valid_iff, Inet.total_cons, Inet.total_cons] at h ⊢
    rw [recombined, htons_htons]
    obtain ⟨hfold, hfmod, -⟩ := Inet.fold_fold ((~~~M.htons ip.ipSum).setWidth 32 + CALC_SUMD (M.htons ip.ipId) id)
    rw [toNat_add, compl_setWidth] at hfmod
    omega

theorem update_id (id : BitVec 16) : (ip.update M id).ipId = M.htons id := by
  unfold Ip.update
  dsimp only
  split
  · rename_i h
    rw [h, htons_htons]
  · rfl

/-! ## What the entries hold -/

/-- The entries have the fields that are compared, and what they point at. -/
def Same (s s' : Softf) : Prop := ∀ x, (s'.ent x).key = (s.ent x).key ∧ (s'.ent x).data = (s.ent x).data

theorem Same.trans {s'' : Softf} (h : Same s s') (h' : Same s' s'') : Same s s'' :=
  fun x => ⟨(h' x).1.trans (h x).1, (h' x).2.trans (h x).2⟩

theorem same_upd (s : Softf) (f : ℕ)
    {g : Ipfr → Ipfr} (hg : (g (s.ent f)).key = (s.ent f).key ∧ (g (s.ent f)).data = (s.ent f).data) :
    Same s (s.upd f g) := by
  intro x
  by_cases hx : x = f
  · rw [hx]
    simpa [Softf.upd] using hg
  · simp [Softf.upd, hx]

theorem same_offer (s : Softf) (b : Tab × ℕ) (fin : FrInfo) (f : ℕ) : Same s (offer s b fin f).1 := by
  have hfront : ∀ s : Softf, Same s (s.front b f) := fun s x => by rw [front_ent]; exact ⟨rfl, rfl⟩
  unfold offer
  dsimp only
  split
  · exact fun _ => ⟨rfl, rfl⟩
  split
  · exact fun _ => ⟨rfl, rfl⟩
  generalize hs₁ : (if (!(s.ent f).seen0 && decide (fin.off = 0)) = true then
    s.upd f fun e => { e with seen0 := true } else s) = s₁
  have hs : Same s s₁ := by
    rw [← hs₁]
    split
    · exact same_upd s f ⟨rfl, rfl⟩
    · exact fun _ => ⟨rfl, rfl⟩
  have h := hs.trans (hfront s₁)
  split
  · apply h.trans
    dsimp only
    apply same_upd
    exact ⟨rfl, rfl⟩
  · have hbad : Same s ((s₁.front b f).upd f fun e => { e with badorder := e.badorder + 1 }) := by
      apply h.trans
      apply same_upd
      exact ⟨rfl, rfl⟩
    split
    · exact hbad
    · apply hbad.trans
      dsimp only
      apply same_upd
      exact ⟨rfl, rfl⟩

theorem same_lookup (s : Softf) (t : Tab) (fin : FrInfo) : Same s (ipfFragLookup s t fin).softf := by
  have hloop : ∀ (b : Tab × ℕ) (fuel : ℕ) (s : Softf) (o : Option ℕ), Same s (lookupLoop b fin fuel s o).softf := by
    intro b fuel
    induction fuel with
    | zero => exact fun s o x => ⟨rfl, rfl⟩
    | succ fuel ih =>
      rintro s (_ | f)
      · exact fun x => ⟨rfl, rfl⟩
      · unfold lookupLoop
        split
        · have hoff := same_offer s b fin f
          split <;> rename_i heq <;> rw [heq] at hoff
          · exact hoff
          · exact hoff.trans (ih _ _)
          · exact hoff
        · exact ih _ _
  unfold ipfFragLookup
  split
  · exact fun x => ⟨rfl, rfl⟩
  · exact hloop _ _ _ _

theorem same_known (s : Softf) (fin : FrInfo) :
    Same s (ipfFragKnown s fin).softf ∧ Same s (ipfFragIpidknown s fin).1 := by
  constructor
  · unfold ipfFragKnown
    split
    · exact fun x => ⟨rfl, rfl⟩
    · dsimp only
      split
      · exact same_lookup _ _ _
      · split <;> exact same_lookup _ _ _
  · unfold ipfFragIpidknown
    split
    · exact fun x => ⟨rfl, rfl⟩
    · dsimp only
      split <;> exact same_lookup _ _ _

/-- A lookup finds an entry of its table with the same fields. -/
theorem Good.found (hg : Good s tok L B) {f : ℕ} (h : (ipfFragLookup s t fin).found = some f) :
    f ∈ L t ∧ (s.ent f).key = fin.key := by
  rcases hg.lookup t fin with ⟨-, heq⟩ | ⟨-, ⟨-, heq⟩ | ⟨g, hg', hkey, heq⟩⟩
  · rw [heq] at h
    cases h
  · rw [heq] at h
    cases h
  · have hfg : g = f := by
      rw [heq] at h
      rcases hoff : offer s (t, fin.idx s.size) fin g with ⟨s', o⟩
      rw [hoff] at h
      cases o <;> cases h
      rfl
    exact hfg ▸ ⟨(hg.place t g).2 ⟨_, hg'⟩, hkey⟩

theorem same_ref (s : Softf) (f : ℕ) (n : ℤ) : Same s (s.upd f fun e => { e with ref := e.ref + n }) :=
  same_upd s f ⟨rfl, rfl⟩

theorem same_deref (s : Softf) (f : ℕ) : Same s (ipfFragDeref s f) ∧ Same s (ipfFragDerefMain s f) := by
  unfold ipfFragDeref ipfFragDerefMain
  dsimp only
  constructor <;> split <;> exact same_ref s f (-1)

theorem same_hold (s : Softf) (next : Option ℕ) : Same s (match next with
    | none => s
    | some n => s.upd n fun e => { e with ref := e.ref + 1 }) := by
  cases next with
  | none => exact fun x => ⟨rfl, rfl⟩
  | some n => exact same_ref s n 1

theorem same_next (w : Sys) (t : Tab) (i : ℕ) (itp : Geniter) : Same w.softf (ipfFragNext w t i itp).1.softf := by
  unfold ipfFragNext
  split
  · exact fun x => ⟨rfl, rfl⟩
  split
  · exact fun x => ⟨rfl, rfl⟩
  dsimp only
  cases w.tok (t, i) with
  | none => exact same_hold _ _
  | some f => exact (same_hold _ _).trans (same_deref _ f).2

theorem same_close (w : Sys) (t : Tab) (i : ℕ) : Same w.softf (closeToken w t i).softf := by
  unfold closeToken
  split
  · exact fun x => ⟨rfl, rfl⟩
  · exact (same_deref _ _).1

/-! ## The id that is known -/

/-- **The id** of the packets with the fields `D`: the entries with them have it. -/
def Knows (D : Key → Prop) (d : ℕ) (s : Softf) (tok : Tab × ℕ → Option ℕ) : Prop :=
  ∃ L B, Good s tok L B ∧ ∀ x ∈ L .ipid, D (s.ent x).key → (s.ent x).data = d

/-- No entry is new. -/
theorem knows_of (hk : ∀ x ∈ L .ipid, D (s.ent x).key → (s.ent x).data = d) (hg : Good s' tok L' B')
    (hsub : ∀ x ∈ L' .ipid, x ∈ L .ipid ∧ (s'.ent x).key = (s.ent x).key ∧ (s'.ent x).data = (s.ent x).data) :
      Knows D d s' tok := by
  refine ⟨L', B', hg, fun x hx hD => ?_⟩
  obtain ⟨hx', hkey, hdata⟩ := hsub x hx
  rw [hkey] at hD
  rw [hdata]
  exact hk x hx' hD

/-- One is. -/
theorem knows_joined (hk : ∀ x ∈ L .ipid, D (s.ent x).key → (s.ent x).data = d) (hg : Good s tok L B)
    (hx : s.alloc x = false) (hno : ∀ y ∈ B (t, fin.idx s.size), (s.ent y).key ≠ fin.key) (hj : Joined s s' t fin x)
    (hD : t = .ipid → D fin.key → (s'.ent x).data = d) : Knows D d s' tok := by
  refine ⟨_, _, hg.join hx hno hj, fun y hy hDy => ?_⟩
  by_cases ht : .ipid = t
  · subst ht
    rw [Function.update_self, List.mem_append, List.mem_singleton] at hy
    by_cases hyx : y = x
    · subst hyx
      exact hD rfl (hj.key ▸ hDy)
    · rw [hj.others y hyx] at hDy ⊢
      exact hk y (hy.resolve_right hyx) hDy
  · rw [Function.update_of_ne ht] at hy
    have hyx : y ≠ x := fun h => (hg.fresh hx).1 _ (h ▸ hy)
    rw [hj.others y hyx] at hDy ⊢
    exact hk y hy hDy

/-- **An add,** with what it does after `ipfr_frag_new`. -/
theorem knows_add {pass : Flags} {r : Bool} {after : Softf → ℕ → Softf}
    (hk : ∀ x ∈ L .ipid, D (s.ent x).key → (s.ent x).data = d) (hg : Good s tok L B)
    (hnew : ∀ x, new = some x → s.alloc x = false) (hfind : Reaches s fin pass new → s.find t fin = none)
    (hj : ∀ x, Joined s (after (made s t fin pass x junk) x) t fin x)
    (hD : ∀ x, t = .ipid → D fin.key → ((after (made s t fin pass x junk) x).ent x).data = d) :
    Knows D d (if s.lock then (s, r) else match ipfrFragNew s t fin pass new junk with
      | (s, none) => (s, false)
      | (s, some fra) => (after s fra, true)).1 tok := by
  by_cases hlock : s.lock = true
  · rw [if_pos hlock]
    exact ⟨L, B, hg, hk⟩
  rw [if_neg hlock]
  rcases hg.new_cases t junk hnew fun h => hfind ⟨by simpa using hlock, h⟩ with heq | ⟨x, -, hx, -, hno, heq⟩
  · rw [heq]
    exact ⟨L, B, hg, hk⟩
  · rw [heq]
    exact knows_joined hk hg hx hno (hj x) (hD x)

theorem knows_ipidnew (hk : ∀ x ∈ L .ipid, D (s.ent x).key → (s.ent x).data = d) (hg : Good s tok L B)
    (hnew : ∀ x, new = some x → s.alloc x = false) (hfind : Reaches s fin 0 new → s.find .ipid fin = none) {ipid : Word}
    (hD : D fin.key → ipid.toNat = d) : Knows D d (ipfFragIpidnew s fin ipid new junk).1 tok := by
  apply knows_add hk hg hnew hfind
  · exact fun x => made_joined s .ipid fin 0 x junk s.natData ipid.toNat
  · intro x _ h
    simpa [Softf.append, Softf.upd] using hD h

theorem forgetLoop_data (ptr : ℕ) : ∀ (fuel : ℕ) {s : Softf} {k : Link Tab ℕ} {l : List ℕ}, Seg s.list k l →
    x ∉ l →
    ((forgetLoop ptr fuel s (s.list.get k)).ent x).data = (s.ent x).data
  | 0, _, _, _, _, _ => rfl
  | fuel + 1, s, k, [], hs, _ => by rw [show s.list.get k = none from hs.2]; rfl
  | fuel + 1, s, k, f :: l, hs, hx => by
    obtain ⟨hget, -, hs'⟩ := (seg_cons _).1 hs
    have hxf : x ≠ f := fun h => hx (h ▸ List.mem_cons_self)
    rw [hget, forgetLoop]
    split
    · refine (forgetLoop_data ptr fuel (s := s.upd f fun e => { e with data := 0 }) hs' fun h =>
        hx (List.mem_cons_of_mem f h)).trans ?_
      simp [Softf.upd, hxf]
    · exact forgetLoop_data ptr fuel hs' fun h => hx (List.mem_cons_of_mem f h)

/-! ## Runs -/

/-- No other datagram with these fields begins. -/
def Apart (D : Key → Prop) : Op → Prop
  | .ipidnew fin _ _ _ => ¬D fin.key
  | _ => True

/-- **Whatever else happens** to the cache, the id is known. -/
theorem Knows.step (h : Knows D d w.softf w.tok) {op : Op} (hl : Legal w op) (hs : Steady w op) (ha : Apart D op) :
    Knows D d (Frag.step w op).softf (Frag.step w op).tok := by
  obtain ⟨L, B, hg, hk⟩ := h
  have hsame : ∀ {s' : Softf} {B' : Tab × ℕ → List ℕ} {tok' : Tab × ℕ → Option ℕ}, Good s' tok' L B' →
      Same w.softf s' → Knows D d s' tok' :=
    fun hg' hs' => knows_of hk hg' fun x hx => ⟨hx, hs' x⟩
  cases op with
  | new fin pass new junk =>
    apply knows_add hk hg hl hs
    · intro x
      refine ⟨rfl, rfl, rfl, rfl, fun y hy => ?_, ?_, ?_, ?_, rfl⟩ <;> simp_all [Softf.append, made, entry]
    · intro x hx
      cases hx
  | natnew fin pass nat new junk =>
    apply knows_add hk hg hl hs
    · exact fun x => made_joined w.softf .nat fin pass x junk (Function.update w.softf.natData nat (some x)) nat
    · intro x hx
      cases hx
  | ipidnew fin ipid new junk => exact knows_ipidnew hk hg hl hs fun h => absurd h ha
  | known fin =>
    obtain ⟨B', hstir⟩ := hg.known fin
    exact hsame (hg.stir hstir) (same_known _ fin).1
  | natknown fin =>
    obtain ⟨B', hg'⟩ := hg.natknown fin
    refine knows_of hk hg' fun x hx => ⟨hx, ?_⟩
    have hlook := same_lookup w.softf .nat fin x
    change ((ipfFragNatknown w.softf fin).1.ent x).key = _ ∧ ((ipfFragNatknown w.softf fin).1.ent x).data = _
    unfold ipfFragNatknown
    split
    · exact ⟨rfl, rfl⟩
    · dsimp only
      split
      · exact hlook
      · rename_i fra hfra
        -- the entry that is found is one for NAT
        have hnat : fra ∈ L .nat := (hg.found hfra).1
        have hne : x ≠ fra := by
          rintro rfl
          cases hg.only hx hnat
        split
        · simpa [Softf.upd, hne] using hlook
        · exact hlook
  | ipidknown fin =>
    obtain ⟨B', hstir⟩ := hg.ipidknown fin
    exact hsame (hg.stir hstir) (same_known _ fin).2
  | natforget ptr =>
    have hstir := forgetLoop_stirred ptr w.softf.inuse.toNat (w.softf.list.head .nat) hg.hash
    refine knows_of hk (hg.stir hstir) fun x hx => ⟨hx, (hstir.keeps x).1, ?_⟩
    refine forgetLoop_data ptr _ (hg.list .nat) fun h => ?_
    cases hg.only hx h
  | clear =>
    obtain ⟨L', B', hg', hr⟩ := hg.clear
    refine knows_of hk hg' fun x hx => ⟨(hr _ x hx).1, ?_⟩
    rw [show (Frag.step w .clear).softf.ent x = w.softf.ent x from (hr _ x hx).2]
    exact ⟨rfl, rfl⟩
  | expire =>
    obtain ⟨L', B', hg', hr⟩ := hg.expire
    refine knows_of hk hg' fun x hx => ⟨hr.sub _ x hx, ?_⟩
    rw [show (Frag.step w .expire).softf.ent x = w.softf.ent x from hr.stay _ x hx]
    exact ⟨rfl, rfl⟩
  | setlock lock | tick =>
    exact ⟨L, B, ⟨hg.list, hg.tail, hg.hash, hg.place, hg.uniq, hg.tokens, hg.refs, hg.live, hg.inuse⟩, hk⟩
  | next t i itp => exact hsame (hg.next hs) (same_next w t i itp)
  | close t i => exact hsame (hg.close t i) (same_close w t i)

/-- **A fragment** gets the id, or none. -/
theorem Knows.ipidknown (h : Knows D d w.softf w.tok) (hD : D fin.key) :
    (ipfFragIpidknown w.softf fin).2 = 0xffffffff ∨ (ipfFragIpidknown w.softf fin).2 = BitVec.ofNat 32 d := by
  obtain ⟨L, B, hg, hk⟩ := h
  unfold ipfFragIpidknown
  split
  · exact .inl rfl
  · dsimp only
    split
    · exact .inl rfl
    · rename_i fra hfra
      obtain ⟨hmem, hkey⟩ := hg.found hfra
      rw [(same_lookup w.softf .ipid fin fra).2, hk fra hmem (hkey ▸ hD)]
      exact .inr rfl

/-- **All fragments get one id:** after the first fragment of a datagram, for whose fields `D` there was no entry, each other
one gets its id or is refused, in every run where no other datagram with these fields begins. The checksum of a header stays
right. -/
theorem updateipid_agrees {size ttl : ℕ} {ent : ℕ → Ipfr} {frFlags : ℕ → Flags} {w₀ : Sys} {first : FrInfo}
    {ip₀ : Ip} {id : BitVec 16} (hr₀ : Run Steady (init size ttl ent frFlags) w₀) (h0 : first.finOff = 0)
    (hfirst : D first.key) (hno : ∀ L B, Good w₀.softf w₀.tok L B → ∀ x ∈ L .ipid, ¬D (w₀.softf.ent x).key)
    (hnew : ∀ x, new = some x → w₀.softf.alloc x = false)
    (hr : Run (fun w op => Steady w op ∧ Apart D op)
      { w₀ with softf := (ipfUpdateipid M w₀.softf first ip₀ id new junk).1 } w) :
    (∃ ip, (ipfUpdateipid M w₀.softf first ip₀ id new junk).2 = some ip ∧ ip.ipId = M.htons id) ∧
    (∀ (fin : FrInfo) ip next new junk ip', fin.finOff ≠ 0 → D fin.key →
      (ipfUpdateipid M w.softf fin ip next new junk).2 = some ip' → ip'.ipId = M.htons id) ∧
    ∀ s fin (ip : Ip) next new junk ip', Inet.Valid (ip.words M) → (ipfUpdateipid M s fin ip next new junk).2 = some ip' →
      Inet.Valid (ip'.words M) := by
  have hknows : Knows D id.toNat w.softf w.tok := by
    induction hr with
    | start =>
      obtain ⟨L, B, hg, -⟩ := fragments_kept hr₀
      have hk : ∀ x ∈ L .ipid, D (w₀.softf.ent x).key → (w₀.softf.ent x).data = id.toNat :=
        fun x hx hD => absurd hD (hno L B hg x hx)
      unfold ipfUpdateipid
      rw [if_neg (not_not_intro h0)]
      dsimp only
      split
      · refine knows_ipidnew hk hg hnew (fun _ => ?_) fun _ => toNat_setWidth_of_le (by decide)
        rw [hg.find_eq, List.find?_eq_none]
        intro x hx hkey
        rw [decide_eq_true_eq] at hkey
        exact hno L B hg x ((hg.place _ x).2 ⟨_, hx⟩) (hkey ▸ hfirst)
      · exact ⟨L, B, hg, hk⟩
    | call op _ hl hok ih => exact ih.step hl hok.1 hok.2
  refine ⟨?_, ?_, ?_⟩
  · refine ⟨ip₀.update M id, ?_, update_id id⟩
    unfold ipfUpdateipid
    rw [if_neg (not_not_intro h0)]
  · intro fin ip next new junk ip' hoff hD h
    unfold ipfUpdateipid at h
    rw [if_pos hoff] at h
    dsimp only at h
    rcases hknows.ipidknown hD with hmiss | hid
    · rw [if_pos hmiss] at h
      cases h
    · split at h
      · cases h
      · cases h
        rw [update_id, hid, ofNat_toNat, setWidth_setWidth_of_le _ (by decide), setWidth_eq]
  · intro s fin ip next new junk ip' hv h
    unfold ipfUpdateipid at h
    split at h
    · dsimp only at h
      split at h
      · cases h
      · cases h
        exact update_valid hv _
    · cases h
      exact update_valid hv next

/-- A header of 20 bytes. -/
def header : Ip := ⟨7, 0x7ab8, [0x4500, 44, 0, 0x4011, 0, 1, 0, 2], by decide⟩

/-- Two fragments, in an empty cache. -/
theorem updateipid_agrees_two : Inet.Valid (header.words ⟨false, 0⟩) ∧
    ∃ ip, (ipfUpdateipid ⟨false, 0⟩ (ipfUpdateipid ⟨false, 0⟩ four.softf lead header 9 (some 0) blank).1 second
      header 0 none blank).2 =
      some ip ∧ ip.ipId = 9 := by
  refine ⟨by decide, ?_⟩
  obtain ⟨ip, hip, -⟩ := Option.map_eq_some_iff.1 (by decide : (ipfUpdateipid ⟨false, 0⟩
    (ipfUpdateipid ⟨false, 0⟩ four.softf lead header 9 (some 0) blank).1 second header 0 none blank).2.map Ip.ipId = some 9)
  refine ⟨ip, hip, ?_⟩
  have hnone : ∀ L B, Good four.softf four.tok L B → ∀ x ∈ L .ipid, ¬(four.softf.ent x).key = lead.key := by
    intro L B hg x hx
    have hhead : (L .ipid).head? = none := (hg.list .ipid).head?.symm.trans rfl
    rw [List.head?_eq_none_iff.1 hhead] at hx
    cases hx
  have hstart : Run Steady (init 4 2 (fun _ => blank) fun _ => 0) four := .start
  have hrun : Run (fun w op => Steady w op ∧ Apart (· = lead.key) op)
      { four with softf := (ipfUpdateipid ⟨false, 0⟩ four.softf lead header 9 (some 0) blank).1 } _ := .start
  exact (updateipid_agrees (D := (· = lead.key)) hstart rfl rfl hnone (fun _ _ => rfl) hrun).2.1 second header 0 none blank
    ip (by decide) rfl hip

/-- A cache with room for one entry, which has the id of an earlier datagram with the same fields. -/
def full : Sys := Frag.step (init 1 2 (fun _ => blank) fun _ => 0) (.ipidnew lead 5 (some 0) blank)

/-- **An earlier datagram:** its entry is not replaced, and gives the second fragment another id than the first. -/
theorem updateipid_stale : ¬∀ (w : Sys) (first fin : FrInfo) (ip ip₁ ip₂ : Ip) (id : BitVec 16) (new : Option ℕ),
    Run Steady (init 1 2 (fun _ => blank) fun _ => 0) w → first.finOff = 0 → fin.finOff ≠ 0 → fin.key = first.key →
    (ipfUpdateipid ⟨false, 0⟩ w.softf first ip id new blank).2 = some ip₁ →
    (ipfUpdateipid ⟨false, 0⟩ (ipfUpdateipid ⟨false, 0⟩ w.softf first ip id new blank).1 fin ip id none blank).2 =
      some ip₂ →
    ip₂.ipId = ip₁.ipId := by
  intro h
  obtain ⟨ip₁, h₁, hid₁⟩ := Option.map_eq_some_iff.1
    (by decide : (ipfUpdateipid ⟨false, 0⟩ full.softf lead header 9 (some 1) blank).2.map Ip.ipId = some 9)
  obtain ⟨ip₂, h₂, hid₂⟩ := Option.map_eq_some_iff.1 (by decide : (ipfUpdateipid ⟨false, 0⟩
    (ipfUpdateipid ⟨false, 0⟩ full.softf lead header 9 (some 1) blank).1 second header 9 none blank).2.map Ip.ipId = some 5)
  have hrun : Run Steady (init 1 2 (fun _ => blank) fun _ => 0) full :=
    .call (.ipidnew lead 5 (some 0) blank) .start (by rintro x ⟨⟩; rfl) fun _ => by decide
  have hsame := h full lead second header ip₁ ip₂ 9 (some 1) hrun rfl (by decide) rfl h₁ h₂
  rw [hid₁, hid₂] at hsame
  exact absurd hsame (by decide)

end Ipfilter.Frag
