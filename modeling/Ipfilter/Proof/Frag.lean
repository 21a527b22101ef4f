import Ipfilter.Proof.FragTable

/-!
# Runs of the fragment cache

`fragments_kept`: over any sequence of new fragments, lookups, expiry, flushes and iterators, the tables fit together, as long
as no fragment is added twice and no iterator goes on from an entry that has been dropped.
-/

namespace Ipfilter.Frag

open Chain Refs List
open Function (update update_eq_self update_of_ne update_self)

variable {w w' : Sys} {s s' : Softf} {t : Tab} {b : Tab × ℕ} {fin : FrInfo} {pass : Flags} {new : Option ℕ} {junk : Ipfr}
  {L L' : Tab → List ℕ} {B B' : Tab × ℕ → List ℕ} {tok : Tab × ℕ → Option ℕ} {x y f fra : ℕ}
  {p : Ipfr → Bool}

/-! ## Entries are dropped from the start of a list -/

/-- **Entries have gone** for which `p` holds. -/
structure Reaped (p : Ipfr → Bool) (s s' : Softf) (L L' : Tab → List ℕ) : Prop where
  sub : ∀ t, ∀ x ∈ L' t, x ∈ L t
  gone : ∀ t, ∀ x ∈ L t, x ∉ L' t → p (s.ent x) = true
  stay : ∀ t, ∀ x ∈ L' t, s'.ent x = s.ent x
  rest : s'.size = s.size ∧ s'.lock = s.lock ∧ s'.ticks = s.ticks ∧ s'.ttl = s.ttl

theorem Reaped.refl (p : Ipfr → Bool) (s : Softf) (L : Tab → List ℕ) : Reaped p s s L L :=
  ⟨fun _ _ hx => hx, fun _ _ hx hno => absurd hx hno, fun _ _ _ => rfl, rfl, rfl, rfl, rfl⟩

theorem Reaped.trans {s'' : Softf} {L'' : Tab → List ℕ} (h : Reaped p s s' L L') (h' : Reaped p s' s'' L' L'') :
    Reaped p s s'' L L'' := by
  obtain ⟨h1, h2, h3, h4⟩ := h.rest
  obtain ⟨h1', h2', h3', h4'⟩ := h'.rest
  refine ⟨fun t x hx => h.sub t x (h'.sub t x hx), fun t x hx hno => ?_, fun t x hx => ?_, h1'.trans h1, h2'.trans h2,
    h3'.trans h3, h4'.trans h4⟩
  · by_cases hx' : x ∈ L' t
    · rw [← h.stay t x hx']
      exact h'.gone t x hx' hno
    · exact h.gone t x hx hx'
  · rw [h'.stay t x hx, h.stay t x (h'.sub t x hx)]

/-- **One entry.** -/
theorem Good.drop (hg : Good s tok L B) {l : List ℕ} (hl : L t = x :: l) (hp : p (s.ent x) = true) :
    ∃ B', Good (s.drop t x) tok (update L t l) B' ∧ Reaped p s (s.drop t x) L (update L t l) := by
  have hx : x ∈ L t := by simp [hl]
  have hnd := hg.list.nodup t
  rw [hl, nodup_cons] at hnd
  have hfilter : (L t).filter (· ≠ x) = l := by
    rw [hl, filter_cons_of_neg (by simp), filter_eq_self]
    intro y hy
    have hyx : y ≠ x := fun h => hnd.1 (h ▸ hy)
    simp [hyx]
  obtain ⟨i, hi⟩ := (hg.place t x).1 hx
  obtain ⟨h₁, h₂, e'⟩ := append_of_mem hi
  have hk : s.list.pnext x = some (.head t) := (hl ▸ (hg.list t).1 : Path s.list _ (x :: l)).2.1
  have hk' : s.hash.pnext x = some (lastLink (.head (t, i)) h₁) := hg.hash.pnext e'
  have hd : Dropped s (s.drop t x) t x := drop_dropped hk hk'
  obtain ⟨B', hg'⟩ := hg.leave hx hd
  rw [hfilter] at hg'
  have hmem : ∀ t' y, y ∈ update L t l t' ↔ y ∈ L t' ∧ y ≠ x := by
    intro t' y
    by_cases ht : t' = t
    · rw [ht, update_self, ← hfilter]
      simp
    · rw [update_of_ne ht]
      exact ⟨fun hy => ⟨hy, fun h => ht (hg.only hx (h ▸ hy))⟩, fun hy => hy.1⟩
  refine ⟨B', hg', fun t' y hy => ((hmem t' y).1 hy).1, fun t' y hy hno => ?_, fun t' y hy => ?_, hd.rest⟩
  · have hyx : y = x := by
      by_contra hne
      exact hno ((hmem t' y).2 ⟨hy, hne⟩)
    rw [hyx]
    exact hp
  · exact hd.others y ((hmem t' y).1 hy).2

/-- **The loop** drops entries up to the first one for which `p` does not hold. -/
theorem Good.reap (p : Ipfr → Bool) (t : Tab) :
    ∀ (fuel : ℕ) {s : Softf} {L : Tab → List ℕ} {B : Tab × ℕ → List ℕ},
    Good s tok L B → (L t).length ≤ fuel → ∃ L' B', Good (reap p t fuel s) tok L' B' ∧
      Reaped p s (Frag.reap p t fuel s) L L' ∧ ∀ x ∈ (L' t).head?, p ((Frag.reap p t fuel s).ent x) = false
  | 0, s, L, B, hg, hlen => by
    have hnil : L t = [] := List.length_eq_zero_iff.1 (by omega)
    exact ⟨L, B, hg, .refl p s L, by simp [hnil]⟩
  | fuel + 1, s, L, B, hg, hlen => by
    have hhead : s.list.head t = (L t).head? := (hg.list t).head?
    cases hl : L t with
    | nil =>
      have heq : Frag.reap p t (fuel + 1) s = s := by rw [Frag.reap, hhead, hl]; rfl
      rw [heq]
      exact ⟨L, B, hg, .refl p s L, by simp [hl]⟩
    | cons x l =>
      rw [hl] at hhead
      by_cases hp : p (s.ent x) = true
      · have heq : Frag.reap p t (fuel + 1) s = Frag.reap p t fuel (s.drop t x) := by
          rw [Frag.reap, hhead]
          exact if_pos hp
        obtain ⟨B₁, hg₁, hr₁⟩ := hg.drop hl hp
        obtain ⟨L', B', hg', hr', hend⟩ := Good.reap p t fuel hg₁ (by
          rw [update_self]
          rw [hl, length_cons] at hlen
          omega)
        rw [heq]
        exact ⟨L', B', hg', hr₁.trans hr', hend⟩
      · have heq : Frag.reap p t (fuel + 1) s = s := by
          rw [Frag.reap, hhead]
          exact if_neg hp
        rw [heq]
        exact ⟨L, B, hg, .refl p s L, by simpa [hl] using hp⟩

/-- **`ipf_frag_expire`** drops entries whose time has come, and no others. -/
theorem Good.expire (hg : Good s tok L B) : ∃ L' B', Good (ipfFragExpire s) tok L' B' ∧
    Reaped (fun e => decide (e.ttl ≤ s.ticks)) s (ipfFragExpire s) L L' := by
  unfold ipfFragExpire
  by_cases hlock : s.lock = true
  · rw [if_pos hlock]
    exact ⟨L, B, hg, .refl _ s L⟩
  rw [if_neg hlock]
  dsimp only
  obtain ⟨L₁, B₁, hg₁, hr₁, -⟩ := hg.reap (fun e => decide (e.ttl ≤ s.ticks)) .pkt _ (hg.list_le .pkt)
  obtain ⟨L₂, B₂, hg₂, hr₂, -⟩ := hg₁.reap (fun e => decide (e.ttl ≤ s.ticks)) .ipid _ (hg₁.list_le .ipid)
  split
  · exact ⟨L₂, B₂, hg₂, hr₁.trans hr₂⟩
  · obtain ⟨L₃, B₃, hg₃, hr₃, -⟩ := hg₂.reap (fun e => decide (e.ttl ≤ s.ticks)) .nat _ (hg₂.list_le .nat)
    exact ⟨L₃, B₃, hg₃, (hr₁.trans hr₂).trans hr₃⟩

/-- A list is emptied, and its tail is reset. -/
theorem Good.empty (hg : Good s tok L B) (t : Tab) : ∃ L' B', let s' := Frag.reap (fun _ => true) t s.inuse.toNat s
    Good { s' with tail := update s'.tail t (.head t) } tok L' B' ∧ Reaped (fun _ => true) s s' L L' := by
  obtain ⟨L', B', hg', hr, hend⟩ := hg.reap (fun _ => true) t _ (hg.list_le t)
  have hnil : L' t = [] := by
    cases hl : L' t with
    | nil => rfl
    | cons x l => exact absurd (hend x (by simp [hl])) (by simp)
  have htail := hg'.tail t
  rw [hnil] at htail
  refine ⟨L', B', ?_⟩
  dsimp only
  rw [← show _ = Link.head t from htail, update_eq_self]
  exact ⟨hg', hr⟩

/-- **`ipf_frag_clear`.** -/
theorem Good.clear (hg : Good s tok L B) : ∃ L' B', Good (ipfFragClear s) tok L' B' ∧
    ∀ t, ∀ x ∈ L' t, x ∈ L t ∧ (ipfFragClear s).ent x = s.ent x := by
  obtain ⟨L₁, B₁, hg₁, hr₁⟩ := hg.empty .pkt
  obtain ⟨L₂, B₂, hg₂, hr₂⟩ := hg₁.empty .nat
  refine ⟨L₂, B₂, hg₂, fun t x hx => ?_⟩
  have hx₁ := hr₂.sub t x hx
  exact ⟨hr₁.sub t x hx₁, (hr₂.stay t x hx).trans (hr₁.stay t x hx₁)⟩

/-- **`ipf_frag_natforget`.** -/
theorem forgetLoop_stirred (ptr : ℕ) : ∀ (fuel : ℕ) {s : Softf} (o : Option ℕ), Rep s.hash B →
    Stirred s (forgetLoop ptr fuel s o) B B
  | 0, _, _, hr => .refl hr
  | _ + 1, _, none, hr => .refl hr
  | fuel + 1, s, some fr, hr => by
    unfold forgetLoop
    dsimp only
    split
    · have hstir : Stirred s (s.upd fr fun e => { e with data := 0 }) B B := stirred_upd hr fr ⟨rfl, rfl, rfl⟩
      exact hstir.trans (forgetLoop_stirred ptr fuel _ hstir.rep)
    · exact forgetLoop_stirred ptr fuel _ hr

/-! ## Iterators -/

/-- **A token moves on:** from an entry that others hold too, to one that is still there. -/
theorem Good.move (hg : Good s tok L B) {q : Tab × ℕ} {v : Option ℕ} (hv : ∀ g, v = some g → s.alloc g = true)
    (hf : ∀ f, tok q = some f → (s.ent f).ref ≠ 1) (hrest : s' = { s with ent := s'.ent })
    (hkey : ∀ x, (s'.ent x).key = (s.ent x).key)
    (href : ∀ x, (s'.ent x).ref = (s.ent x).ref + (if v = some x then 1 else 0) - if tok q = some x then 1 else 0) :
    Good s' (update tok q v) L B := by
  generalize s'.ent = ent at hrest hkey href
  subst hrest
  have hmove : ∀ x, places (update tok q v) L x + (if tok q = some x then 1 else 0) =
      places tok L x + if v = some x then 1 else 0 := fun x => by
    have := holders_move hg.tokens q v x
    unfold places
    omega
  refine ⟨hg.list, hg.tail, hg.hash, hg.place, fun b x hx y hy hk => ?_, ?_, ⟨fun x hx => ?_, fun x => ?_⟩, hg.live,
    hg.inuse⟩
  · rw [hkey, hkey] at hk
    exact hg.uniq b x hx y hy hk
  · refine (hg.tokens.insert q).subset fun q' hq' => ?_
    rw [Set.mem_ofPred_eq] at hq'
    rw [Set.mem_insert_iff]
    by_cases hqq : q' = q
    · exact .inl hqq
    · exact .inr (by rwa [update_of_ne hqq] at hq')
  · have hold := hg.refs.exact x hx
    have hnew := hmove x
    dsimp only
    rw [href, hold]
    split_ifs at hnew ⊢ <;> omega
  · have hnew := hmove x
    have hpos := hg.refs.pos x
    constructor
    · intro hx
      have hold := hg.refs.exact x hx
      have hpos' := hpos.1 hx
      by_cases hq : tok q = some x
      · have hone := hf x hq
        rw [if_pos hq] at hnew
        omega
      · rw [if_neg hq] at hnew
        omega
    · intro hx
      by_cases hvx : v = some x
      · exact hv x hvx
      · rw [if_neg hvx] at hnew
        exact hpos.2 (by omega)

/-- `ipf_frag_next` can go on from where it is. -/
def Sys.Goes (w : Sys) (q : Tab × ℕ) : Prop :=
  ∀ f, w.tok q = some f → (w.softf.ent f).ref ≠ 1 ∧ ∀ g, w.softf.list.next f = some g → w.softf.alloc g = true

theorem upd_ref (s : Softf) (n x : ℕ) (d : ℤ) :
    ((s.upd n fun e => { e with ref := e.ref + d }).ent x).key = (s.ent x).key ∧
    ((s.upd n fun e => { e with ref := e.ref + d }).ent x).ref = (s.ent x).ref + if n = x then d else 0 := by
  by_cases hx : x = n
  · subst hx
    simp [Softf.upd]
  · simp [Softf.upd, hx, Ne.symm hx]

/-- **`ipf_frag_next`.** -/
theorem Good.next (hg : Good w.softf w.tok L B) {i : ℕ} {itp : Geniter}
    (hgo : itp.data = true → itp.nitems = 1 → w.Goes (t, i)) :
    Good (ipfFragNext w t i itp).1.softf (ipfFragNext w t i itp).1.tok L B := by
  unfold ipfFragNext
  by_cases hdata : itp.data = true
  · rw [if_neg (by simp [hdata])]
    by_cases hitems : itp.nitems = 1
    · rw [if_neg (by simp [hitems])]
      specialize hgo hdata hitems
      dsimp only
      cases htok : w.tok (t, i) with
      | none =>
        dsimp only
        have hhead : w.softf.list.head t = (L t).head? := (hg.list t).head?
        cases hn : w.softf.list.head t with
        | none =>
          dsimp only
          rw [← htok, update_eq_self]
          exact hg
        | some n =>
          dsimp only
          have hmem : n ∈ L t := mem_of_head? (hhead.symm.trans hn)
          refine hg.move (q := (t, i)) (v := some n) (fun g hgn => ?_) (fun f hf => ?_) rfl (fun x => (upd_ref _ n x 1).1)
            fun x => ?_
          · exact Option.some.inj hgn ▸ hg.alloc hmem
          · rw [htok] at hf
            cases hf
          · rw [htok]
            simpa using (upd_ref w.softf n x 1).2
      | some f =>
        obtain ⟨hone, halive⟩ := hgo f htok
        have hpos := (hg.refs.pos f).1 (hg.alloc_tok htok)
        have hexact := hg.refs.exact f (hg.alloc_tok htok)
        dsimp only at hexact ⊢
        -- the entry stays, for others hold it
        have hstay : ∀ s : Softf, 2 ≤ (s.ent f).ref →
            ipfFragDerefMain s f = s.upd f fun e => { e with ref := e.ref + -1 } := by
          intro s hs
          unfold ipfFragDerefMain
          dsimp only
          rw [if_neg]
          · rfl
          · simp [Softf.upd]
            omega
        cases hn : w.softf.list.next f with
        | none =>
          dsimp only
          rw [hstay _ (by omega)]
          refine hg.move (q := (t, i)) (v := none) (fun g hgn => by cases hgn) (fun f' hf' => ?_) rfl
            (fun x => (upd_ref _ f x (-1)).1) fun x => ?_
          · rw [htok] at hf'
            cases hf'
            exact hone
          · have := (upd_ref w.softf f x (-1)).2
            rw [htok]
            simp only [Option.some.injEq, reduceCtorEq, if_false]
            split_ifs at this ⊢ <;> omega
        | some g =>
          dsimp only
          have hup := upd_ref w.softf g
          rw [hstay _ (by rw [(hup f 1).2]; split <;> omega)]
          have hdown := fun x => upd_ref (w.softf.upd g fun e => { e with ref := e.ref + 1 }) f x (-1)
          refine hg.move (q := (t, i)) (v := some g) (fun g' hg' => ?_) (fun f' hf' => ?_) rfl
            (fun x => (hdown x).1.trans (hup x 1).1) fun x => ?_
          · exact Option.some.inj hg' ▸ halive g hn
          · rw [htok] at hf'
            cases hf'
            exact hone
          · have h1 := (hup x 1).2
            have h2 := (hdown x).2
            rw [htok]
            simp only [Option.some.injEq]
            split_ifs at h1 h2 ⊢ <;> omega
    · rw [if_pos hitems]
      exact hg
  · rw [if_pos (by simpa using hdata)]
    exact hg

/-- **A token goes away.** -/
theorem Good.close (hg : Good w.softf w.tok L B) (t : Tab) (i : ℕ) :
    Good (closeToken w t i).softf (closeToken w t i).tok L B := by
  unfold closeToken
  cases htok : w.tok (t, i) with
  | none => exact hg
  | some f =>
    dsimp only
    have hless : Less w.softf (ipfFragDeref w.softf f) f := by
      unfold ipfFragDeref
      apply free_less <;> rfl
    have hplaces : ∀ y, places w.tok L y =
        places (update w.tok (t, i) none) L y + if y = f then 1 else 0 := fun y => by
      have := holders_move hg.tokens (t, i) none y
      rw [htok] at this
      simp only [Option.some.injEq, reduceCtorEq, if_false, add_zero] at this
      simp only [places, ← this, eq_comm (a := f)]
      omega
    obtain ⟨hrefs, hlive, hinuse⟩ := hg.less hless hplaces
    obtain ⟨hlist, htail, hhash, -⟩ :=
      free_keeps (((w.softf.upd f fun e => { e with ref := e.ref - 1 }).ent f).ref ≤ 0)
        (w.softf.upd f fun e => { e with ref := e.ref - 1 }) f
    refine ⟨?_, ?_, ?_, hg.place, fun b x hx y hy hk => ?_, ?_, hrefs, hlive, hinuse⟩
    · exact hlist ▸ hg.list
    · intro t'
      exact (congrFun htail t').trans (hg.tail t')
    · exact hhash ▸ hg.hash
    · rw [hless.key_eq, hless.key_eq] at hk
      exact hg.uniq b x hx y hy hk
    · refine hg.tokens.subset fun q hq => ?_
      rw [Set.mem_ofPred_eq] at hq ⊢
      by_cases hqq : q = (t, i)
      · simp [hqq] at hq
      · rwa [update_of_ne hqq] at hq

/-! ## New entries -/

/-- **What an add does:** it refuses, and nothing changes, or the tables have one entry more. -/
def Adds (s : Softf) (tok : Tab × ℕ → Option ℕ) (r : Softf × Bool) : Prop :=
  (∃ L B, Good r.1 tok L B) ∧ (r.2 = false → r.1 = s)

theorem Good.adds (hg : Good s tok L B) (hx : s.alloc x = false)
    (hno : ∀ y ∈ B (t, fin.idx s.size), (s.ent y).key ≠ fin.key) (hj : Joined s s' t fin x) : Adds s tok (s', true) :=
  ⟨⟨_, _, hg.join hx hno hj⟩, fun h => absurd h (by simp)⟩

theorem Good.refused (hg : Good s tok L B) (r : Bool) : Adds s tok (s, r) := ⟨⟨L, B, hg⟩, fun _ => rfl⟩

/-- **`ipf_frag_new`.** -/
theorem Good.fragNew (hg : Good s tok L B) (hnew : ∀ x, new = some x → s.alloc x = false)
    (hfind : Reaches s fin pass new → s.find .pkt fin = none) : Adds s tok (ipfFragNew s fin pass new junk) := by
  unfold ipfFragNew
  by_cases hlock : s.lock = true
  · rw [if_pos hlock]
    exact hg.refused _
  rw [if_neg hlock]
  rcases hg.new_cases .pkt junk hnew fun h => hfind ⟨by simpa using hlock, h⟩ with
    heq | ⟨x, -, hx, -, hno, heq⟩
  · rw [heq]
    exact hg.refused _
  · rw [heq]
    have hj := made_joined s .pkt fin pass x junk s.natData 0
    have hdata : { (made s .pkt fin pass x junk).upd x fun e => { e with data := 0 } with natData := s.natData } =
        made s .pkt fin pass x junk := by simp [made, Softf.upd, entry]
    rw [hdata] at hj
    exact hg.adds hx hno hj

/-- **`ipf_frag_natnew`.** -/
theorem Good.natnew (hg : Good s tok L B) (hnew : ∀ x, new = some x → s.alloc x = false)
    (hfind : Reaches s fin pass new → s.find .nat fin = none) (nat : ℕ) :
    Adds s tok (ipfFragNatnew s fin pass nat new junk) := by
  unfold ipfFragNatnew
  by_cases hlock : s.lock = true
  · rw [if_pos hlock]
    exact hg.refused _
  rw [if_neg hlock]
  rcases hg.new_cases .nat junk hnew fun h => hfind ⟨by simpa using hlock, h⟩ with
    heq | ⟨x, -, hx, -, hno, heq⟩
  · rw [heq]
    exact hg.refused _
  · rw [heq]
    exact hg.adds hx hno (made_joined s .nat fin pass x junk (update s.natData nat (some x)) nat)

/-- **`ipf_frag_ipidnew`.** -/
theorem Good.ipidnew (hg : Good s tok L B) (hnew : ∀ x, new = some x → s.alloc x = false)
    (hfind : Reaches s fin 0 new → s.find .ipid fin = none) (ipid : Masks.Word) :
    Adds s tok (ipfFragIpidnew s fin ipid new junk) := by
  unfold ipfFragIpidnew
  by_cases hlock : s.lock = true
  · rw [if_pos hlock]
    exact hg.refused _
  rw [if_neg hlock]
  rcases hg.new_cases .ipid junk hnew fun h => hfind ⟨by simpa using hlock, h⟩ with
    heq | ⟨x, -, hx, -, hno, heq⟩
  · rw [heq]
    exact hg.refused _
  · rw [heq]
    exact hg.adds hx hno (made_joined s .ipid fin 0 x junk s.natData ipid.toNat)

/-! ## Lookups -/

theorem Good.known (hg : Good s tok L B) (fin : FrInfo) : ∃ B', Stirred s (ipfFragKnown s fin).softf B B' := by
  obtain ⟨B', hstir⟩ := hg.lookup_stirred .pkt fin
  unfold ipfFragKnown
  split
  · exact ⟨B, .refl hg.hash⟩
  · refine ⟨B', ?_⟩
    dsimp only
    split
    · exact hstir
    · split <;> exact hstir

theorem Good.setNatData (hg : Good s tok L B) (nd : ℕ → Option ℕ) : Good { s with natData := nd } tok L B :=
  ⟨hg.list, hg.tail, hg.hash, hg.place, hg.uniq, hg.tokens, hg.refs, hg.live, hg.inuse⟩

theorem Good.note (hg : Good s tok L B) {g : Ipfr → Ipfr}
    (hkeeps : (g (s.ent x)).key = (s.ent x).key ∧ (g (s.ent x)).ref = (s.ent x).ref ∧ (g (s.ent x)).ttl = (s.ent x).ttl) :
    Good (s.upd x g) tok L B := hg.stir (stirred_upd hg.hash x hkeeps)

theorem Good.natknown (hg : Good s tok L B) (fin : FrInfo) : ∃ B', Good (ipfFragNatknown s fin).1 tok L B' := by
  obtain ⟨B', hstir⟩ := hg.lookup_stirred .nat fin
  unfold ipfFragNatknown
  split
  · exact ⟨B, hg⟩
  · refine ⟨B', ?_⟩
    have hg' := hg.stir hstir
    dsimp only
    split
    · exact hg'
    · split
      · -- the session is forgotten
        dsimp only
        apply Good.note
        · exact hg'.setNatData _
        · exact ⟨rfl, rfl, rfl⟩
      · exact hg'

theorem Good.ipidknown (hg : Good s tok L B) (fin : FrInfo) : ∃ B', Stirred s (ipfFragIpidknown s fin).1 B B' := by
  obtain ⟨B', hstir⟩ := hg.lookup_stirred .ipid fin
  unfold ipfFragIpidknown
  split
  · exact ⟨B, .refl hg.hash⟩
  · refine ⟨B', ?_⟩
    dsimp only
    split <;> exact hstir

/-! ## Runs -/

/-- `KMALLOC` gives memory that is not in use. -/
def Legal (w : Sys) : Op → Prop
  | .new _ _ new _ => ∀ x, new = some x → w.softf.alloc x = false
  | .natnew _ _ _ new _ => ∀ x, new = some x → w.softf.alloc x = false
  | .ipidnew _ _ new _ => ∀ x, new = some x → w.softf.alloc x = false
  | _ => True

/-- **No duplicates, and no iterator on an entry that was dropped:** an add that gets as far as the search finds no entry
with the same fields. An iterator moves on from an entry that is held by others too, and the entry behind it, if there is
one, has not been freed. -/
def Steady (w : Sys) : Op → Prop
  | .new fin pass new _ => Reaches w.softf fin pass new → w.softf.find .pkt fin = none
  | .natnew fin pass _ new _ => Reaches w.softf fin pass new → w.softf.find .nat fin = none
  | .ipidnew fin _ new _ => Reaches w.softf fin 0 new → w.softf.find .ipid fin = none
  | .next t i itp => itp.data = true → itp.nitems = 1 → w.Goes (t, i)
  | _ => True

/-- The call is an add, and returns an error. -/
def turnedDown (w : Sys) : Op → Bool
  | .new fin pass new junk => !(ipfFragNew w.softf fin pass new junk).2
  | .natnew fin pass nat new junk => !(ipfFragNatnew w.softf fin pass nat new junk).2
  | .ipidnew fin ipid new junk => !(ipfFragIpidnew w.softf fin ipid new junk).2
  | _ => false

/-- **Every call.** -/
theorem Good.step (hg : Good w.softf w.tok L B) {op : Op} (hl : Legal w op) (hs : Steady w op) :
    (∃ L' B', Good (step w op).softf (step w op).tok L' B') ∧ (turnedDown w op = true → Frag.step w op = w) := by
  have hadds : ∀ {r : Softf × Bool}, Adds w.softf w.tok r → (∃ L' B', Good r.1 w.tok L' B') ∧
      ((!r.2) = true → { w with softf := r.1 } = w) := by
    rintro ⟨s, r⟩ ⟨hgood, hsame⟩
    refine ⟨hgood, fun hr => ?_⟩
    have hs : s = w.softf := hsame (by simpa using hr)
    rw [hs]
  cases op with
  | new fin pass new junk => exact hadds (hg.fragNew hl hs)
  | natnew fin pass nat new junk => exact hadds (hg.natnew hl hs nat)
  | ipidnew fin ipid new junk => exact hadds (hg.ipidnew hl hs ipid)
  | known fin =>
    obtain ⟨B', h⟩ := hg.known fin
    exact ⟨⟨L, B', hg.stir h⟩, fun h => absurd h (by simp [turnedDown])⟩
  | natknown fin =>
    obtain ⟨B', h⟩ := hg.natknown fin
    exact ⟨⟨L, B', h⟩, fun h => absurd h (by simp [turnedDown])⟩
  | ipidknown fin =>
    obtain ⟨B', h⟩ := hg.ipidknown fin
    exact ⟨⟨L, B', hg.stir h⟩, fun h => absurd h (by simp [turnedDown])⟩
  | natforget ptr =>
    exact ⟨⟨L, B, hg.stir (forgetLoop_stirred ptr _ _ hg.hash)⟩, fun h => absurd h (by simp [turnedDown])⟩
  | clear =>
    obtain ⟨L', B', h, -⟩ := hg.clear
    exact ⟨⟨L', B', h⟩, fun h => absurd h (by simp [turnedDown])⟩
  | expire =>
    obtain ⟨L', B', h, -⟩ := hg.expire
    exact ⟨⟨L', B', h⟩, fun h => absurd h (by simp [turnedDown])⟩
  | setlock lock | tick =>
    exact ⟨⟨L, B, hg.list, hg.tail, hg.hash, hg.place, hg.uniq, hg.tokens, hg.refs, hg.live, hg.inuse⟩,
      fun h => absurd h (by simp [turnedDown])⟩
  | next t i itp => exact ⟨⟨L, B, hg.next hs⟩, fun h => absurd h (by simp [turnedDown])⟩
  | close t i => exact ⟨⟨L, B, hg.close t i⟩, fun h => absurd h (by simp [turnedDown])⟩

/-- **Runs** in which every call satisfies `ok`. -/
inductive Run (ok : Sys → Op → Prop) (w₀ : Sys) : Sys → Prop
  | start : Run ok w₀ w₀
  | call {w : Sys} (op : Op) : Run ok w₀ w → Legal w op → ok w op → Run ok w₀ (step w op)

theorem init_good (size ttl : ℕ) (ent : ℕ → Ipfr) (frFlags : ℕ → Flags) :
    Good (init size ttl ent frFlags).softf (init size ttl ent frFlags).tok (fun _ => []) fun _ => [] := by
  have hempty : ∀ x, places (init size ttl ent frFlags).tok (fun _ => []) x = 0 := fun x => by
    simp [places, holders, init]
  refine ⟨fun t => ⟨trivial, rfl⟩, fun t => rfl, fun b => ⟨trivial, rfl⟩,
    fun t x => by simp, fun b x hx => by simp at hx,
    by simp [init], ⟨fun x hx => by simp [init] at hx, fun x => ?_⟩, by simp [init], by simp [init]⟩
  rw [hempty]
  simp [init]

/-- **The tables fit together** in every state of a run without duplicates and without iterators on dropped entries. A
refused add changes nothing, and what expires has reached its time. -/
theorem fragments_kept {size ttl : ℕ} {ent : ℕ → Ipfr} {frFlags : ℕ → Flags}
    (hr : Run Steady (init size ttl ent frFlags) w) :
    ∃ L B, Good w.softf w.tok L B ∧
      (∀ op, Legal w op → Steady w op → turnedDown w op = true → step w op = w) ∧
      ∃ L' B', Good (step w .expire).softf (step w .expire).tok L' B' ∧
        ∀ t, ∀ x ∈ L t, x ∉ L' t → (w.softf.ent x).ttl ≤ w.softf.ticks := by
  have hgood : ∃ L B, Good w.softf w.tok L B := by
    induction hr with
    | start => exact ⟨_, _, init_good size ttl ent frFlags⟩
    | call op _ hl hs ih =>
      obtain ⟨L, B, hg⟩ := ih
      exact (hg.step hl hs).1
  obtain ⟨L, B, hg⟩ := hgood
  obtain ⟨L', B', hg', hreap⟩ := hg.expire
  refine ⟨L, B, hg, fun op hl hs => (hg.step hl hs).2, L', B', hg', fun t x hx hno => ?_⟩
  simpa using hreap.gone t x hx hno

/-! ## The same fragment twice -/

/-- Memory that was never used. -/
def blank : Ipfr := ⟨0, none, 0, 0, 0, 0, 0, 0, 0, false, ⟨0, ⟨0, 0, 0, 0⟩, ⟨0, 0, 0, 0⟩, 0, 0, 0, 0⟩, 0, 0⟩

/-- A cache of four entries. -/
def four : Sys := init 4 2 (fun _ => blank) fun _ => 0

/-- The first fragment of a packet: 24 bytes behind a header of 20. -/
def lead : FrInfo :=
  { finV := 4, finP := 17, finId := 7, finSrc := ⟨1, 0, 0, 0⟩, finDst := ⟨2, 0, 0, 0⟩, finIfp := 1, finOptmsk := 0
    finSecmsk := 0, finAuth := 0, finOff := 0, finPlen := 44, finDlen := 24, finStart := 20, finFlx := FI_FRAG
    finFr := some 1 }

/-- The fragment is added, an iterator looks at it, and a tick goes by. -/
def aged : Sys := step (step (step four (.new lead 0 (some 0) blank)) (.next .pkt 0 ⟨true, 1, true⟩)) .tick

/-- The entry expires while the iterator holds it. -/
theorem fragments_kept_lead : Run Steady four (step (step aged .tick) .expire) ∧
    ∃ L B, Good (step (step aged .tick) .expire).softf (step (step aged .tick) .expire).tok L B := by
  have hrun : Run Steady four aged := by
    refine .call .tick (.call (.next .pkt 0 ⟨true, 1, true⟩) (.call (.new lead 0 (some 0) blank) .start ?_ ?_)
      trivial ?_) trivial trivial
    · rintro x ⟨⟩
      decide
    · intro _
      decide
    · intro _ _ f hf
      cases (show (none : Option ℕ) = some f from hf)
  have hexp : Run Steady four (step (step aged .tick) .expire) :=
    .call .expire (.call .tick hrun trivial trivial) trivial trivial
  obtain ⟨L, B, hg, -⟩ := fragments_kept hexp
  exact ⟨hexp, L, B, hg⟩

/-- The fragment comes twice. -/
def twice : Sys := step (step four (.new lead 0 (some 0) blank)) (.new lead 0 (some 1) blank)

/-- **A duplicate frees the entry that is there:** the add is refused, the entry is still on the list and in its chain, and
the new memory is lost. -/
theorem duplicate_frees : Run (fun _ _ => True) four twice ∧
    turnedDown (step four (.new lead 0 (some 0) blank)) (.new lead 0 (some 1) blank) = true ∧
    twice.softf.list.head .pkt = some 0 ∧ twice.softf.hash.head (.pkt, lead.idx 4) = some 0 ∧
    twice.softf.alloc 0 = false ∧ twice.softf.alloc 1 = true ∧ twice.softf.inuse = 1 ∧
    ¬∃ L B, Good twice.softf twice.tok L B := by
  refine ⟨?_, by decide, by decide, by decide, by decide, by decide, by decide, fun ⟨L, B, hg⟩ => ?_⟩
  · refine .call _ (.call _ .start ?_ trivial) ?_ trivial
    · rintro x ⟨⟩
      decide
    · rintro x ⟨⟩
      decide
  · have hhead : (L .pkt).head? = some 0 := (hg.list .pkt).head?.symm.trans (by decide)
    have halloc := hg.alloc (mem_of_head? hhead)
    exact absurd halloc (by decide)

end Ipfilter.Frag
