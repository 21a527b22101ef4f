import Mathlib.Data.List.Find
import Ipfilter.Refs.Count
import Ipfilter.Spec.Frag

/-!
# The tables of the fragment cache

* `Good`: the lists, the hash chains, the references and the count fit together.
* `Good.find_eq`: the search for an entry with the same fields.
* `Good.lookup`: what a lookup meets.
* `Good.new_cases`: what `ipfr_frag_new` can do.
* `Good.join`, `Good.leave`, `Good.stir`: an entry joins its list, leaves it, or moves within its chain.
-/

namespace Ipfilter.Frag

open Chain Refs List Option
open Function (update update_apply update_eq_self update_idem update_of_ne update_self)

variable {w w' : Sys} {s s' : Softf} {t : Tab} {b : Tab × ℕ} {fin : FrInfo} {pass : Flags} {new : Option ℕ} {junk : Ipfr}
  {L : Tab → List ℕ} {B B' : Tab × ℕ → List ℕ} {x y f fra : ℕ}

/-! ## The invariant -/

/-- The number of places that hold an entry: the list, and the tokens. -/
noncomputable def places (tok : Tab × ℕ → Option ℕ) (L : Tab → List ℕ) (x : ℕ) : ℕ :=
  (if x ∈ L .pkt ∨ x ∈ L .nat ∨ x ∈ L .ipid then 1 else 0) + holders Set.univ tok x

/-- **The tables fit together.** The lists are `L`, and the hash chains are `B`. -/
structure Good (s : Softf) (tok : Tab × ℕ → Option ℕ) (L : Tab → List ℕ) (B : Tab × ℕ → List ℕ) : Prop where
  list : Rep s.list L
  tail : ∀ t, s.tail t = lastLink (.head t) (L t)
  hash : Rep s.hash B
  place : ∀ t x, x ∈ L t ↔ ∃ i, x ∈ B (t, i)
  uniq : ∀ b, ∀ x ∈ B b, ∀ y ∈ B b, (s.ent x).key = (s.ent y).key → x = y
  tokens : {q | tok q ≠ none}.Finite
  refs : Counted (fun x => s.alloc x = true) (fun x => (s.ent x).ref) (places tok L)
  live : {x | s.alloc x = true}.Finite
  inuse : s.inuse = {x | s.alloc x = true}.ncard

variable {tok : Tab × ℕ → Option ℕ} {l l₁ l₂ : List ℕ} {k : Link (Tab × ℕ) ℕ}

theorem places_list (hx : x ∈ L t) : 0 < places tok L x := by
  have hmem : x ∈ L .pkt ∨ x ∈ L .nat ∨ x ∈ L .ipid := by cases t <;> tauto
  rw [places, if_pos hmem]
  omega

theorem Good.alloc (hg : Good s tok L B) (hx : x ∈ L t) : s.alloc x = true := (hg.refs.pos x).2 (places_list hx)

theorem Good.alloc_hash (hg : Good s tok L B) (hx : x ∈ B b) : s.alloc x = true :=
  hg.alloc ((hg.place b.1 x).2 ⟨b.2, hx⟩)

theorem Good.alloc_tok (hg : Good s tok L B) {q : Tab × ℕ} (hx : tok q = some x) : s.alloc x = true := by
  refine (hg.refs.pos x).2 ?_
  have hpos : 0 < holders Set.univ tok x := by
    refine (Set.ncard_pos (hg.tokens.subset fun q hq => ?_)).2 ⟨q, trivial, hx⟩
    rw [Set.mem_ofPred_eq] at hq ⊢
    rw [hq.2]
    exact some_ne_none _
  rw [places]
  omega

/-- Entries of a list or chain are counted. -/
theorem Good.length_le (hg : Good s tok L B) (hl : l.Nodup) (hsub : ∀ x ∈ l, s.alloc x = true) :
    l.length ≤ s.inuse.toNat := by
  rw [hg.inuse, Int.toNat_natCast, ← toFinset_card_of_nodup hl, ← Set.ncard_coe_finset]
  refine Set.ncard_le_ncard (fun x hx => hsub x ?_) hg.live
  simpa using hx

theorem Good.chain_le (hg : Good s tok L B) (b : Tab × ℕ) : (B b).length ≤ s.inuse.toNat :=
  hg.length_le (hg.hash.nodup b) fun _ hx => hg.alloc_hash hx

theorem Good.list_le (hg : Good s tok L B) (t : Tab) : (L t).length ≤ s.inuse.toNat :=
  hg.length_le (hg.list.nodup t) fun _ hx => hg.alloc hx

/-- An entry is in one list only. -/
theorem Good.only (hg : Good s tok L B) (hx : x ∈ L t) {t' : Tab} (hx' : x ∈ L t') : t' = t := by
  by_contra hne
  exact hg.list.disjoint (Ne.symm hne) hx hx'

/-! ## Searches -/

/-- **The search** goes through the whole chain. -/
theorem Good.find_eq (hg : Good s tok L B) (t : Tab) (fin : FrInfo) :
    s.find t fin = (B (t, fin.idx s.size)).find? fun x => (s.ent x).key = fin.key := by
  unfold Softf.find
  rw [(hg.hash (t, fin.idx s.size)).get_seek _ (hg.chain_le _)]
  congr 1
  funext x
  simp

/-! ## Entries move within their chains -/

/-- **The entries are stirred:** chains are in another order, and what has been seen of the packets is noted. -/
structure Stirred (s s' : Softf) (B B' : Tab × ℕ → List ℕ) : Prop where
  rest : s' = { s with hash := s'.hash, ent := s'.ent }
  rep : Rep s'.hash B'
  perm : ∀ b, (B' b).Perm (B b)
  keeps : ∀ x, (s'.ent x).key = (s.ent x).key ∧ (s'.ent x).ref = (s.ent x).ref ∧ (s'.ent x).ttl = (s.ent x).ttl

theorem Stirred.refl (hr : Rep s.hash B) : Stirred s s B B := ⟨rfl, hr, fun _ => .refl _, fun _ => ⟨rfl, rfl, rfl⟩⟩

theorem Stirred.trans {s'' : Softf} {B'' : Tab × ℕ → List ℕ} (h : Stirred s s' B B') (h' : Stirred s' s'' B' B'') :
    Stirred s s'' B B'' := by
  refine ⟨?_, h'.rep, fun b => (h'.perm b).trans (h.perm b), fun x => ?_⟩
  · rw [h'.rest, h.rest]
  · obtain ⟨h1, h2, h3⟩ := h.keeps x
    obtain ⟨h1', h2', h3'⟩ := h'.keeps x
    exact ⟨h1'.trans h1, h2'.trans h2, h3'.trans h3⟩

theorem Good.stir (hg : Good s tok L B) (h : Stirred s s' B B') : Good s' tok L B' := by
  have hrest := h.rest
  refine ⟨?_, ?_, h.rep, fun t x => ?_, fun b x hx y hy hk => ?_, hg.tokens, ?_, ?_, ?_⟩
  · rw [hrest]
    exact hg.list
  · rw [hrest]
    exact hg.tail
  · rw [hg.place]
    exact exists_congr fun i => (h.perm (t, i)).mem_iff.symm
  · rw [(h.keeps x).1, (h.keeps y).1] at hk
    exact hg.uniq b x ((h.perm b).mem_iff.1 hx) y ((h.perm b).mem_iff.1 hy) hk
  · refine hg.refs.congr (fun x => ?_) (fun x _ => (h.keeps x).2.1) fun _ => rfl
    rw [hrest]
  · rw [hrest]
    exact hg.live
  · rw [hrest]
    exact hg.inuse

/-- Fields of an entry that are neither compared nor counted. -/
theorem stirred_upd (hr : Rep s.hash B) (x : ℕ) {g : Ipfr → Ipfr}
    (hg : (g (s.ent x)).key = (s.ent x).key ∧ (g (s.ent x)).ref = (s.ent x).ref ∧ (g (s.ent x)).ttl = (s.ent x).ttl) :
    Stirred s (s.upd x g) B B := by
  refine ⟨rfl, hr, fun _ => .refl _, fun y => ?_⟩
  by_cases hy : y = x
  · rw [hy]
    simpa [Softf.upd] using hg
  · simp [Softf.upd, hy]

/-- **An entry goes to the front of its chain.** -/
theorem front_rep (hr : Rep s.hash B) (e : B b = l₁ ++ f :: l₂) :
    Rep (s.front b f).hash (update B b (f :: (l₁ ++ l₂))) := by
  unfold Softf.front
  by_cases hhead : s.hash.head b = some f
  · -- it is there already
    rw [if_pos hhead]
    have hnil : l₁ = [] := by
      have hpath := hr.pnext e
      cases l₁ with
      | nil => rfl
      | cons y l₁ =>
        have hy : s.hash.head b = some y := by
          have := (hr b).head?
          rw [e] at this
          exact this
        obtain rfl : f = y := mem_unique hhead hy
        have hd := hr.nodup b
        rw [e] at hd
        simp at hd
    subst hnil
    rw [nil_append] at e
    rw [nil_append, ← e, update_eq_self]
    exact hr
  · rw [if_neg hhead]
    have hpath := hr.pnext e
    rw [hpath]
    dsimp only
    -- first it leaves the chain
    have hrem : Removed s.hash ((s.hash.set (lastLink (.head b) l₁) (s.hash.next f)).setP? (s.hash.next f)
        (some (lastLink (.head b) l₁))) f (lastLink (.head b) l₁) := by
      refine ⟨fun _ => by simp, fun k h1 _ => by simp [h1], fun y hy _ => by simp [hy], fun y h1 _ => by simp [h1]⟩
    have hrep := hr.remove e rfl hrem
    have hnot : ∀ b', f ∉ update B b (l₁ ++ l₂) b' := by
      intro b'
      rw [hr.update_eq_filter e]
      simp
    generalize (s.hash.set (lastLink (.head b) l₁) (s.hash.next f)).setP? (s.hash.next f)
      (some (lastLink (.head b) l₁)) = m at hrep
    have hins : Inserted m ((((m.set (.next f) (m.head b)).setP? (m.head b) (some (.next f))).setP f
        (some (.head b))).set (.head b) (some f)) f (.head b) := by
      refine ⟨by simp, fun _ => by simp, by simp, fun k h1 h2 => by simp [h1, h2], fun y hy hyf => ?_, fun y h1 h2 => ?_⟩
      · have hy' : m.head b = some y := hy
        simp [hy', hyf]
      · have h1' : m.head b ≠ some y := h1
        simp [h1', h2]
    have e' : update B b (l₁ ++ l₂) b = [] ++ (l₁ ++ l₂) := update_self ..
    have hfin := hrep.insert e' hnot rfl hins
    rw [update_idem] at hfin
    exact hfin

theorem stirred_front (hr : Rep s.hash B) (e : B b = l₁ ++ f :: l₂) :
    Stirred s (s.front b f) B (update B b (f :: (l₁ ++ l₂))) := by
  refine ⟨?_, front_rep hr e, fun b' => ?_, fun x => ?_⟩
  · unfold Softf.front
    split
    · rfl
    · split <;> rfl
  · by_cases hb : b' = b
    · rw [hb, update_self, e]
      exact List.perm_middle.symm
    · rw [update_of_ne hb]
  · have hent : (s.front b f).ent = s.ent := by
      unfold Softf.front
      split
      · rfl
      · split <;> rfl
    rw [hent]
    exact ⟨rfl, rfl, rfl⟩

/-! ## Lookups -/

/-- **An entry with the fields of the packet:** it stays where it is, or goes to the front. -/
theorem offer_cases (fin : FrInfo) (hr : Rep s.hash B) (e : B b = l₁ ++ f :: l₂) :
    ∃ B', Stirred s (offer s b fin f).1 B B' ∧ (B' = B ∨ B' = update B b (f :: (l₁ ++ l₂))) := by
  unfold offer
  dsimp only
  by_cases h1 : ((s.ent f).seen0 && decide (fin.off = 0)) = true
  · rw [if_pos h1]
    exact ⟨B, .refl hr, .inl rfl⟩
  rw [if_neg h1]
  by_cases h2 : ((s.ent f).seen0 && decide ((s.ent f).firstend ≠ 0) && decide (fin.off < (s.ent f).firstend)) = true
  · rw [if_pos h2]
    exact ⟨B, .refl hr, .inl rfl⟩
  rw [if_neg h2]
  -- the entry is marked, goes to the front, and counts the packet
  have hmark : Stirred s (if (!(s.ent f).seen0 && decide (fin.off = 0)) = true then
      s.upd f fun e => { e with seen0 := true } else s) B B := by
    split
    · exact stirred_upd hr f ⟨rfl, rfl, rfl⟩
    · exact .refl hr
  have hfront := hmark.trans (stirred_front hmark.rep e)
  refine ⟨_, ?_, .inr rfl⟩
  split
  · dsimp only
    apply hfront.trans
    apply stirred_upd hfront.rep f
    exact ⟨rfl, rfl, rfl⟩
  · have hbad := hfront.trans (stirred_upd hfront.rep f
      (g := fun e => { e with badorder := e.badorder + 1 }) ⟨rfl, rfl, rfl⟩)
    split
    · exact hbad
    · dsimp only
      apply hbad.trans
      apply stirred_upd hbad.rep f
      exact ⟨rfl, rfl, rfl⟩

/-- What a lookup makes of an entry with the fields of the packet. -/
def Looked.of (fin : FrInfo) (f : ℕ) : Softf × Offer → Looked
  | (s, .hit) => ⟨s, fin, some f⟩
  | (s, .skip) => ⟨s, fin, none⟩
  | (s, .bad) => ⟨s, { fin with finFlx := fin.finFlx ||| FI_BAD }, none⟩

/-- Entries with other fields are passed over. -/
theorem lookupLoop_pass (hs : Path s.hash k l) (hl : ∀ x ∈ l, (s.ent x).key ≠ fin.key)
    (fuel : ℕ) : lookupLoop b fin (l.length + (fuel + 1)) s (s.hash.get k) =
      lookupLoop b fin (fuel + 1) s (s.hash.get (lastLink k l)) := by
  induction l generalizing k with
  | nil => simp [lastLink]
  | cons x l ih =>
    obtain ⟨hg, -, hs'⟩ := hs
    have hlen : (x :: l).length + (fuel + 1) = (l.length + (fuel + 1)) + 1 := by simp; omega
    rw [hg, hlen, lookupLoop, if_neg (hl x (by simp))]
    exact ih hs' fun y hy => hl y (by simp [hy])

/-- A chain without such entries. -/
theorem lookupLoop_miss (hs : Seg s.hash k l) (hl : ∀ x ∈ l, (s.ent x).key ≠ fin.key)
    {fuel : ℕ} (hfuel : l.length < fuel) : lookupLoop b fin fuel s (s.hash.get k) = ⟨s, fin, none⟩ := by
  obtain ⟨m, rfl⟩ : ∃ m, fuel = l.length + (m + 1) := ⟨fuel - l.length - 1, by omega⟩
  rw [lookupLoop_pass hs.1 hl, hs.2]
  rfl

/-- **A lookup** meets the one entry with the fields of the packet, if there is one. -/
theorem Good.lookup (hg : Good s tok L B) (t : Tab) (fin : FrInfo) :
    (has fin.finFlx FI_SHORT || has fin.finFlx FI_BAD) = true ∧ ipfFragLookup s t fin = ⟨s, fin, none⟩ ∨
    (has fin.finFlx FI_SHORT || has fin.finFlx FI_BAD) = false ∧
      ((∀ x ∈ B (t, fin.idx s.size), (s.ent x).key ≠ fin.key) ∧ ipfFragLookup s t fin = ⟨s, fin, none⟩ ∨
      ∃ f ∈ B (t, fin.idx s.size), (s.ent f).key = fin.key ∧
        ipfFragLookup s t fin = Looked.of fin f (offer s (t, fin.idx s.size) fin f)) := by
  unfold ipfFragLookup
  by_cases hflx : (has fin.finFlx FI_SHORT || has fin.finFlx FI_BAD) = true
  · exact .inl ⟨hflx, by rw [if_pos hflx]⟩
  refine .inr ⟨by simpa using hflx, ?_⟩
  rw [if_neg hflx]
  dsimp only
  set b : Tab × ℕ := (t, fin.idx s.size)
  have hlen := hg.chain_le b
  have hseg := hg.hash b
  by_cases hnone : ∀ x ∈ B b, (s.ent x).key ≠ fin.key
  · exact .inl ⟨hnone, lookupLoop_miss hseg hnone (by omega)⟩
  refine .inr ?_
  obtain ⟨f, hf, hkey⟩ : ∃ f ∈ B b, (s.ent f).key = fin.key := by
    by_contra hno
    exact hnone fun x hx hk => hno ⟨x, hx, hk⟩
  refine ⟨f, hf, hkey, ?_⟩
  obtain ⟨l₁, l₂, e⟩ := append_of_mem hf
  have hnodup := hg.hash.nodup b
  rw [e] at hnodup hseg hlen
  -- no other entry has these fields
  have hother : ∀ x ∈ l₁ ++ l₂, (s.ent x).key ≠ fin.key := fun x hx hk => by
    have hmem : x ∈ B b := by
      rw [e]
      simp only [mem_append, mem_cons] at hx ⊢
      tauto
    obtain rfl := hg.uniq b x hmem f hf (hk.trans hkey.symm)
    rw [nodup_middle, nodup_cons] at hnodup
    exact hnodup.1 hx
  have hlen' : l₁.length + l₂.length + 1 ≤ s.inuse.toNat := by simpa [add_assoc] using hlen
  obtain ⟨m, hm⟩ : ∃ m, 2 * s.inuse.toNat + 1 = l₁.length + (m + 1) := ⟨2 * s.inuse.toNat - l₁.length, by omega⟩
  obtain ⟨hpath, hrest⟩ := (seg_append _ _).1 hseg
  have hget : s.hash.get (lastLink (.head b) l₁) = some f := hrest.head?
  rw [← head_get, hm, lookupLoop_pass hpath (fun x hx => hother x (mem_append_left _ hx)), hget, lookupLoop,
    if_pos hkey]
  obtain ⟨B', hstir, hB'⟩ := offer_cases fin hg.hash e
  rcases hoff : offer s b fin f with ⟨s', o⟩
  rw [hoff] at hstir
  cases o with
  | hit => rfl
  | bad => rfl
  | skip =>
    -- the rest of the chain, or the chain from its start
    have hseg' : ∃ l, Seg s'.hash (.next f) l ∧ (∀ x ∈ l, x ∈ l₁ ++ l₂) ∧
        l.length ≤ l₁.length + l₂.length := by
      rcases hB' with rfl | rfl
      · have hs := hstir.rep b
        rw [e] at hs
        exact ⟨l₂, ((seg_cons _).1 hs.rest).2.2, fun x hx => mem_append_right _ hx, by omega⟩
      · have hs := hstir.rep b
        rw [update_self] at hs
        exact ⟨l₁ ++ l₂, ((seg_cons _).1 hs).2.2, fun x hx => hx, by simp⟩
    obtain ⟨l, hl, hsub, hle⟩ := hseg'
    exact lookupLoop_miss hl (fun x hx => by rw [(hstir.keeps x).1]; exact hother x (hsub x hx)) (by omega)

/-- A lookup stirs the entries. -/
theorem Good.lookup_stirred (hg : Good s tok L B) (t : Tab) (fin : FrInfo) :
    ∃ B', Stirred s (ipfFragLookup s t fin).softf B B' := by
  rcases hg.lookup t fin with ⟨-, h⟩ | ⟨-, ⟨-, h⟩ | ⟨f, hf, -, h⟩⟩
  · exact ⟨B, by rw [h]; exact .refl hg.hash⟩
  · exact ⟨B, by rw [h]; exact .refl hg.hash⟩
  · obtain ⟨l₁, l₂, e⟩ := append_of_mem hf
    obtain ⟨B', hstir, -⟩ := offer_cases fin hg.hash e
    refine ⟨B', ?_⟩
    rw [h]
    rcases hoff : offer s (t, fin.idx s.size) fin f with ⟨s', o⟩
    rw [hoff] at hstir
    cases o <;> exact hstir

/-! ## New entries -/

/-- **A new entry** is at the end of the list of its table and at the front of its chain. -/
structure Joined (s s' : Softf) (t : Tab) (fin : FrInfo) (x : ℕ) : Prop where
  list : s'.list = ((s.list.set (s.tail t) (some x)).setP x (some (s.tail t))).set (.next x) none
  tail : s'.tail = update s.tail t (.next x)
  hash : s'.hash = s.hash.link x (.head (t, fin.idx s.size))
  alloc : s'.alloc = update s.alloc x true
  others : ∀ y, y ≠ x → s'.ent y = s.ent y
  key : (s'.ent x).key = fin.key
  ref : (s'.ent x).ref = 1
  ttl : (s'.ent x).ttl = s.ticks + s.ttl
  inuse : s'.inuse = s.inuse + 1

theorem Good.fresh (hg : Good s tok L B) (hx : s.alloc x = false) : (∀ t, x ∉ L t) ∧ (∀ b, x ∉ B b) ∧
    ∀ q, tok q ≠ some x := by
  refine ⟨fun t hmem => ?_, fun b hmem => ?_, fun q hmem => ?_⟩
  · exact absurd (hg.alloc hmem) (by simp [hx])
  · exact absurd (hg.alloc_hash hmem) (by simp [hx])
  · exact absurd (hg.alloc_tok hmem) (by simp [hx])

/-- What one more place in the lists changes. -/
theorem places_join (tok : Tab × ℕ → Option ℕ) (hx : ∀ t, x ∉ L t) (t : Tab) (l : List ℕ)
    (hl : ∀ y, y ∈ l ↔ y = x ∨ y ∈ L t) (y : ℕ) :
      places tok (update L t l) y = places tok L y + if y = x then 1 else 0 := by
  have hmem : (y ∈ update L t l .pkt ∨ y ∈ update L t l .nat ∨ y ∈ update L t l .ipid) ↔
      y = x ∨ y ∈ L .pkt ∨ y ∈ L .nat ∨ y ∈ L .ipid := by
    cases t <;> simp [hl] <;> tauto
  unfold places
  by_cases hy : y = x
  · subst hy
    rw [if_pos (hmem.2 (.inl rfl)), if_neg (by simp [hx]), if_pos rfl]
    omega
  · simp only [hmem, hy, false_or, if_false, add_zero]

theorem Good.join (hg : Good s tok L B) (hx : s.alloc x = false)
    (hnew : ∀ y ∈ B (t, fin.idx s.size), (s.ent y).key ≠ fin.key) (hj : Joined s s' t fin x) :
    Good s' tok (update L t (L t ++ [x])) (update B (t, fin.idx s.size) (x :: B (t, fin.idx s.size))) := by
  obtain ⟨hxL, hxB, hxT⟩ := hg.fresh hx
  set b : Tab × ℕ := (t, fin.idx s.size)
  refine ⟨?_, fun t' => ?_, ?_, fun t' y => ?_, fun b' y hy z hz hk => ?_, hg.tokens, ?_, ?_, ?_⟩
  · rw [hj.list]
    -- the end of the list takes the fragment
    have hend : s.list.get (s.tail t) = none := by
      rw [hg.tail]
      exact (hg.list t).2
    have htx : s.tail t ≠ .next x := by
      rw [hg.tail]
      rcases lastLink_cases (k := Link.head (N := ℕ) t) (L t) with h | ⟨y, hy, h⟩
      · rw [h]
        simp
      · rw [h]
        rintro ⟨⟩
        exact hxL t hy
    refine hg.list.insert (append_nil (L t)).symm hxL (hg.tail t) ⟨?_, fun _ => ?_, ?_, fun k h1 h2 => ?_,
      fun y hy => ?_, fun y _ hy => ?_⟩
    · simp [htx]
    · simp [hend]
    · simp
    · simp [h1, h2]
    · exact absurd (hend.symm.trans hy) (by simp)
    · simp [hy]
  · rw [hj.tail]
    by_cases ht : t' = t
    · rw [ht, update_self, update_self, lastLink_concat]
    · rw [update_of_ne ht, update_of_ne ht, hg.tail]
  · rw [hj.hash]
    exact hg.hash.push hxB b
  · by_cases ht : t' = t
    · subst ht
      rw [update_self, mem_append, mem_singleton, hg.place]
      constructor
      · rintro (⟨i, hi⟩ | rfl)
        · by_cases hib : (t', i) = b
          · exact ⟨i, by rw [hib, update_self, ← hib]; exact mem_cons_of_mem _ hi⟩
          · exact ⟨i, by rw [update_of_ne hib]; exact hi⟩
        · exact ⟨fin.idx s.size, by rw [update_self]; exact mem_cons_self⟩
      · rintro ⟨i, hi⟩
        by_cases hib : (t', i) = b
        · rw [hib, update_self, mem_cons] at hi
          rcases hi with rfl | hi
          · exact .inr rfl
          · exact .inl ⟨i, by rw [hib]; exact hi⟩
        · rw [update_of_ne hib] at hi
          exact .inl ⟨i, hi⟩
    · rw [update_of_ne ht, hg.place]
      refine exists_congr fun i => ?_
      rw [update_of_ne fun h => ht (congrArg Prod.fst h)]
  · by_cases hb : b' = b
    · rw [hb, update_self, mem_cons] at hy hz
      -- no entry of the bucket has the key of the new one
      rcases hy with rfl | hy <;> rcases hz with rfl | hz
      · rfl
      · have hzx : z ≠ y := fun h => hxB b (h ▸ hz)
        rw [hj.key, hj.others z hzx] at hk
        exact absurd hk.symm (hnew z hz)
      · have hyx : y ≠ z := fun h => hxB b (h ▸ hy)
        rw [hj.key, hj.others y hyx] at hk
        exact absurd hk (hnew y hy)
      · have hyx : y ≠ x := fun h => hxB b (h ▸ hy)
        have hzx : z ≠ x := fun h => hxB b (h ▸ hz)
        rw [hj.others y hyx, hj.others z hzx] at hk
        exact hg.uniq b y hy z hz hk
    · rw [update_of_ne hb] at hy hz
      have hyx : y ≠ x := fun h => hxB b' (h ▸ hy)
      have hzx : z ≠ x := fun h => hxB b' (h ▸ hz)
      rw [hj.others y hyx, hj.others z hzx] at hk
      exact hg.uniq b' y hy z hz hk
  · refine hg.refs.make (b := x) (by simp [hx]) (fun y => ?_) hj.ref (fun y hy _ => by rw [hj.others y hy])
      (places_join _ hxL t _ fun y => by simp [or_comm])
    rw [hj.alloc]
    by_cases hy : y = x <;> simp [hy]
  · rw [hj.alloc]
    refine (hg.live.insert x).subset fun y hy => ?_
    rw [Set.mem_ofPred_eq, update_apply] at hy
    rw [Set.mem_insert_iff, Set.mem_ofPred_eq]
    by_cases hyx : y = x
    · exact .inl hyx
    · exact .inr (by simpa [hyx] using hy)
  · have hset : {y | s'.alloc y = true} = insert x {y | s.alloc y = true} := by
      ext y
      rw [hj.alloc, Set.mem_insert_iff, Set.mem_ofPred_eq, Set.mem_ofPred_eq, update_apply]
      by_cases hyx : y = x <;> simp [hyx]
    rw [hset, Set.ncard_insert_of_notMem (by simp [hx]) hg.live, hj.inuse, hg.inuse]
    simp

/-- What a new entry holds. -/
def entry (s : Softf) (fin : FrInfo) (pass : Flags) (junk : Ipfr) : Ipfr :=
  { junk with
    data := 0, rule := fin.finFr, key := fin.key, v := fin.finV, ttl := s.ticks + s.ttl
    firstend := fin.firstend, seen0 := if fin.off = 0 then true else junk.seen0, off := fin.next, pass := pass
    ref := 1, pkts := 1, bytes := fin.finPlen }

/-- The references of the rules with a new entry. -/
def Softf.holdRule (s : Softf) : Option ℕ → ℕ → ℤ
  | none => s.frRef
  | some fr => update s.frRef fr (s.frRef fr + 1)

/-- An entry is made, but not on a list yet. -/
def made (s : Softf) (t : Tab) (fin : FrInfo) (pass : Flags) (x : ℕ) (junk : Ipfr) : Softf :=
  { s with
    ent := update s.ent x (entry s fin pass junk)
    alloc := update s.alloc x true
    hash := s.hash.link x (.head (t, fin.idx s.size))
    frRef := s.holdRule fin.finFr
    inuse := s.inuse + 1 }

/-- Fresh memory is on no chain. -/
theorem Good.find_malloc (hg : Good s tok L B) (hx : s.alloc x = false) (junk : Ipfr) :
    (s.malloc x junk).find t fin = s.find t fin := by
  have hseg : Seg (s.malloc x junk).hash (.head (t, fin.idx s.size)) (B (t, fin.idx s.size)) := hg.hash _
  have hent : ∀ y ∈ B (t, fin.idx s.size), (s.malloc x junk).ent y = s.ent y := fun y hy =>
    update_of_ne (fun h => (hg.fresh hx).2.1 _ (h ▸ hy)) _ _
  rw [hg.find_eq]
  unfold Softf.find
  change (s.malloc x junk).hash.get ((s.malloc x junk).hash.seek _ s.inuse.toNat (.head (t, fin.idx s.size))) = _
  rw [hseg.get_seek _ (hg.chain_le _)]
  refine List.find?_congr fun y hy => ?_
  rw [hent y hy]
  simp

/-- **`ipfr_frag_new` without a duplicate.** -/
theorem Good.new_eq (hg : Good s tok L B) (hx : s.alloc x = false) (href : refuses s fin pass = false)
    (hfind : s.find t fin = none) : ipfrFragNew s t fin pass (some x) junk = (made s t fin pass x junk, some x) := by
  unfold ipfrFragNew
  rw [if_neg (by simp [href])]
  dsimp only
  rw [hg.find_malloc hx, hfind]
  dsimp only
  unfold made Softf.upd Softf.malloc entry
  cases hfr : fin.finFr with
  | none => simp [Softf.holdRule]
  | some fr => simp [Softf.holdRule]

/-- An add gets as far as the search for a duplicate. -/
def Reaches (s : Softf) (fin : FrInfo) (pass : Flags) (new : Option ℕ) : Prop :=
  s.lock = false ∧ refuses s fin pass = false ∧ new ≠ none

/-- **What `ipfr_frag_new` can do** if there is no duplicate. -/
theorem Good.new_cases (hg : Good s tok L B) (t : Tab) (junk : Ipfr) (hnew : ∀ x, new = some x → s.alloc x = false)
    (hfind : refuses s fin pass = false ∧ new ≠ none → s.find t fin = none) :
    ipfrFragNew s t fin pass new junk = (s, none) ∨
      ∃ x, new = some x ∧ s.alloc x = false ∧ refuses s fin pass = false ∧
        (∀ y ∈ B (t, fin.idx s.size), (s.ent y).key ≠ fin.key) ∧
        ipfrFragNew s t fin pass new junk = (made s t fin pass x junk, some x) := by
  by_cases href : refuses s fin pass = true
  · left
    unfold ipfrFragNew
    rw [if_pos href]
  · have href' : refuses s fin pass = false := by simpa using href
    cases new with
    | none =>
      left
      unfold ipfrFragNew
      rw [if_neg href]
    | some x =>
      have hnone := hfind ⟨href', by simp⟩
      refine .inr ⟨x, rfl, hnew x rfl, href', ?_, hg.new_eq (hnew x rfl) href' hnone⟩
      rw [hg.find_eq, List.find?_eq_none] at hnone
      simpa using hnone

/-- A new entry joins its list, whatever it points at. -/
theorem made_joined (s : Softf) (t : Tab) (fin : FrInfo) (pass : Flags) (x : ℕ) (junk : Ipfr) (nd : ℕ → Option ℕ)
    (data : ℕ) : Joined s
      (({ (made s t fin pass x junk).upd x fun e => { e with data := data } with natData := nd }).append t x) t fin x := by
  refine ⟨rfl, rfl, rfl, rfl, fun y hy => ?_, ?_, ?_, ?_, rfl⟩ <;> simp_all [Softf.append, Softf.upd, made, entry]

/-! ## A place less -/

/-- **A reference is dropped**, and the entry goes with the last one. -/
structure Less (s s' : Softf) (x : ℕ) : Prop where
  others : ∀ y, y ≠ x → s'.ent y = s.ent y
  key : (s'.ent x).key = (s.ent x).key
  ref : (s'.ent x).ref = (s.ent x).ref - 1
  alloc : s'.alloc = if (s.ent x).ref ≤ 1 then update s.alloc x false else s.alloc
  inuse : s'.inuse = if (s.ent x).ref ≤ 1 then s.inuse - 1 else s.inuse

theorem Less.key_eq (h : Less s s' x) (y : ℕ) : (s'.ent y).key = (s.ent y).key := by
  by_cases hy : y = x
  · rw [hy, h.key]
  · rw [h.others y hy]

/-- **The counts** when a place less holds an entry. -/
theorem Good.less (hg : Good s tok L B) {tok' : Tab × ℕ → Option ℕ} {L' : Tab → List ℕ} (h : Less s s' x)
    (hplaces : ∀ y, places tok L y = places tok' L' y + if y = x then 1 else 0) :
    Counted (fun x => s'.alloc x = true) (fun x => (s'.ent x).ref) (places tok' L') ∧ {x | s'.alloc x = true}.Finite ∧
      s'.inuse = {x | s'.alloc x = true}.ncard := by
  have hx : s.alloc x = true := (hg.refs.pos x).2 (by rw [hplaces, if_pos rfl]; omega)
  have href : (s.ent x).ref = places tok L x := hg.refs.exact x hx
  have hpos : 0 < places tok L x := (hg.refs.pos x).1 hx
  have halloc : ∀ y, s'.alloc y = true ↔ s.alloc y = true ∧ (y = x → (s.ent x).ref ≠ 1) := by
    intro y
    rw [h.alloc]
    by_cases hone : (s.ent x).ref ≤ 1
    · have hone' : (s.ent x).ref = 1 := by omega
      rw [if_pos hone, update_apply]
      by_cases hy : y = x <;> simp [hy, hone']
    · have hone' : (s.ent x).ref ≠ 1 := by omega
      rw [if_neg hone]
      simp [hone']
  refine ⟨hg.refs.drop (b := x) hplaces (fun y _ => ?_) halloc, hg.live.subset fun y hy => ((halloc y).1 hy).1, ?_⟩
  · by_cases hy : y = x
    · rw [hy, if_pos rfl]
      exact h.ref
    · rw [if_neg hy, h.others y hy]
      omega
  · rw [h.inuse, h.alloc]
    split
    · have hset : {y | update s.alloc x false y = true} = {y | s.alloc y = true} \ {x} := by
        ext y
        by_cases hy : y = x <;> simp [update_apply, hy]
      have hcard := Set.ncard_sdiff_singleton_add_one (a := x) (s := {y | s.alloc y = true}) hx hg.live
      rw [hset, hg.inuse, ← hcard]
      simp
    · exact hg.inuse

/-- **An entry leaves** its list and its chain. -/
structure Dropped (s s' : Softf) (t : Tab) (x : ℕ) : Prop extends Less s s' x where
  list : ∀ k, s.list.pnext x = some k → s'.list = (s.list.setP? (s.list.next x) (some k)).set k (s.list.next x)
  tail : ∀ k, s.list.pnext x = some k → s'.tail = if s.tail t = .next x then update s.tail t k else s.tail
  hash : ∀ k, s.hash.pnext x = some k → s'.hash = (s.hash.setP? (s.hash.next x) (some k)).set k (s.hash.next x)
  rest : s'.size = s.size ∧ s'.lock = s.lock ∧ s'.ticks = s.ticks ∧ s'.ttl = s.ttl

theorem unlist_eq {k : Link Tab ℕ} (hk : s.list.pnext x = some k) (t : Tab) : s.unlist t x = { s with
    list := (s.list.setP? (s.list.next x) (some k)).set k (s.list.next x)
    tail := if s.tail t = .next x then update s.tail t k else s.tail } := by
  rw [Softf.unlist, hk]

theorem unhash_eq (hk : s.hash.pnext x = some k) :
    s.unhash x = { s with hash := (s.hash.setP? (s.hash.next x) (some k)).set k (s.hash.next x) } := by
  rw [Softf.unhash, hk]

theorem derefrule_eq (s : Softf) (x : ℕ) :
    ∃ fr r, s.derefrule x = { s with frRef := fr, ent := update s.ent x { s.ent x with rule := r } } := by
  unfold Softf.derefrule
  cases hr : (s.ent x).rule with
  | none => exact ⟨s.frRef, (s.ent x).rule, by rw [update_eq_self]⟩
  | some fr => exact ⟨_, none, rfl⟩

/-- The last reference takes the entry with it. -/
theorem free_less {e : Ipfr} (hent : s'.ent = update s.ent x e) (hkey : e.key = (s.ent x).key)
    (href : e.ref = (s.ent x).ref - 1) (halloc : s'.alloc = s.alloc) (hinuse : s'.inuse = s.inuse) :
    Less s (if (s'.ent x).ref ≤ 0 then ipfFragFree s' x else s') x := by
  have hself : s'.ent x = e := by rw [hent, update_self]
  have hother : ∀ y, y ≠ x → s'.ent y = s.ent y := fun y hy => by rw [hent, update_of_ne hy]
  by_cases hone : (s.ent x).ref ≤ 1
  · rw [if_pos (by rw [hself, href]; omega)]
    refine ⟨hother, ?_, ?_, ?_, ?_⟩
    · exact (congrArg Ipfr.key hself).trans hkey
    · exact (congrArg Ipfr.ref hself).trans href
    · rw [if_pos hone, ← halloc]
      rfl
    · rw [if_pos hone, ← hinuse]
      rfl
  · rw [if_neg (by rw [hself, href]; omega)]
    refine ⟨hother, ?_, ?_, ?_, ?_⟩
    · rw [hself, hkey]
    · rw [hself, href]
    · rw [if_neg hone, halloc]
    · rw [if_neg hone, hinuse]

theorem free_keeps (c : Prop) [Decidable c] (s : Softf) (x : ℕ) : let s' := if c then ipfFragFree s x else s
    s'.list = s.list ∧ s'.tail = s.tail ∧ s'.hash = s.hash ∧ s'.size = s.size ∧ s'.lock = s.lock ∧
      s'.ticks = s.ticks ∧
      s'.ttl = s.ttl := by
  dsimp only
  split <;> exact ⟨rfl, rfl, rfl, rfl, rfl, rfl, rfl⟩

theorem drop_dropped {k : Link Tab ℕ} {k' : Link (Tab × ℕ) ℕ} (hk : s.list.pnext x = some k)
    (hk' : s.hash.pnext x = some k') : Dropped s (s.drop t x) t x := by
  unfold Softf.drop
  dsimp only
  -- what the NAT session points at does not matter
  generalize hs₁ : (if t = .nat ∧ (s.ent x).data ≠ 0 ∧ s.natData (s.ent x).data = some x then
    { s with natData := update s.natData (s.ent x).data none } else s) = s₁
  obtain ⟨nd, rfl⟩ : ∃ nd, s₁ = { s with natData := nd } := by
    rw [← hs₁]
    split
    · exact ⟨_, rfl⟩
    · exact ⟨s.natData, rfl⟩
  unfold ipfFragDelete
  dsimp only
  rw [unlist_eq (by exact hk), unhash_eq (by exact hk')]
  generalize hs₂ : Softf.derefrule _ x = s₂
  obtain ⟨fr, r, hd⟩ := derefrule_eq _ x
  rw [hd] at hs₂
  have hent : s₂.ent = update s.ent x { s.ent x with ref := (s.ent x).ref - 1, rule := r } := by
    rw [← hs₂]
    dsimp only [Softf.upd]
    rw [update_self, update_idem]
  obtain ⟨hlist, htail, hhash, hrest⟩ := free_keeps ((s₂.ent x).ref ≤ 0) s₂ x
  refine ⟨free_less hent rfl rfl (by rw [← hs₂]; rfl) (by rw [← hs₂]; rfl), fun _ h => ?_, fun _ h => ?_,
    fun _ h => ?_, ?_⟩
  · obtain rfl := mem_unique hk h
    rw [hlist, ← hs₂]
    rfl
  · obtain rfl := mem_unique hk h
    rw [htail, ← hs₂]
    rfl
  · obtain rfl := mem_unique hk' h
    rw [hhash, ← hs₂]
    rfl
  · obtain ⟨h1, h2, h3, h4⟩ := hrest
    rw [h1, h2, h3, h4, ← hs₂]
    exact ⟨rfl, rfl, rfl, rfl⟩

/-- What one place less in the lists changes. -/
theorem places_leave (hx : x ∈ L t) (honly : ∀ t', x ∈ L t' → t' = t) (hl : ∀ y, y ∈ l ↔ y ∈ L t ∧ y ≠ x)
    (y : ℕ) : places tok L y = places tok (update L t l) y + if y = x then 1 else 0 := by
  have hout : ∀ t', x ∉ update L t l t' := by
    intro t' hmem
    by_cases ht : t' = t
    · rw [ht, update_self, hl] at hmem
      exact hmem.2 rfl
    · rw [update_of_ne ht] at hmem
      exact ht (honly t' hmem)
  have hback := places_join tok hout t (L t) (fun z => ?_) y
  · rwa [update_idem, update_eq_self] at hback
  · rw [update_self, hl]
    by_cases hz : z = x
    · simp [hz, hx]
    · simp [hz]

/-- **An entry is dropped.** -/
theorem Good.leave (hg : Good s tok L B) (hx : x ∈ L t) (hd : Dropped s s' t x) :
    ∃ B', Good s' tok (update L t ((L t).filter (· ≠ x))) B' := by
  obtain ⟨l₁, l₂, e⟩ := append_of_mem hx
  obtain ⟨i, hi⟩ := (hg.place t x).1 hx
  obtain ⟨h₁, h₂, e'⟩ := append_of_mem hi
  have hk : s.list.pnext x = some (lastLink (.head t) l₁) := hg.list.pnext e
  have hk' : s.hash.pnext x = some (lastLink (.head (t, i)) h₁) := hg.hash.pnext e'
  have hL : update L t ((L t).filter (· ≠ x)) = update L t (l₁ ++ l₂) := by
    rw [hg.list.update_eq_filter e]
    funext t'
    by_cases ht : t' = t
    · rw [ht, update_self]
    · rw [update_of_ne ht, List.filter_eq_self.2 fun y hy => ?_]
      have hyx : y ≠ x := fun h => ht (hg.only hx (h ▸ hy))
      simp [hyx]
  have hB : ∀ b, update B (t, i) (h₁ ++ h₂) b = (B b).filter (· ≠ x) := fun b => by
    rw [hg.hash.update_eq_filter e']
  have hlen : ∀ y, y ∈ (L t).filter (· ≠ x) ↔ y ∈ L t ∧ y ≠ x := fun y => by simp
  obtain ⟨hrefs, hlive, hinuse⟩ := hg.less hd.toLess (places_leave hx (fun t' ht' => hg.only hx ht') hlen)
  have hlist : Rep s'.list _ := hg.list.remove e rfl (by rw [hd.list _ hk]; exact Mem.bypass_removed _)
  have hhash : Rep s'.hash _ := hg.hash.remove e' rfl (by rw [hd.hash _ hk']; exact Mem.bypass_removed _)
  refine ⟨_, ?_, fun t' => ?_, hhash, fun t' y => ?_, fun b y hy z hz hkey => ?_, hg.tokens, hrefs, hlive, hinuse⟩
  · rw [hL]
    exact hlist
  · -- the tail moves only if the entry was the last one
    rw [hd.tail _ hk, hL]
    by_cases ht : t' = t
    · subst ht
      rw [update_self]
      cases l₂ with
      | nil =>
        rw [append_nil, hg.tail, e, lastLink_concat, if_pos rfl, update_self]
      | cons z l₂ =>
        have hne : s.tail t' ≠ .next x := by
          rw [hg.tail, e, show l₁ ++ x :: z :: l₂ = (l₁ ++ [x]) ++ z :: l₂ by simp, lastLink_append]
          intro hlast
          have hnd := hg.list.nodup t'
          rw [e, nodup_middle, nodup_cons] at hnd
          rcases lastLink_cases (k := Link.next (H := Tab) z) l₂ with hc | ⟨y, hy, hc⟩
          · rw [lastLink, hc] at hlast
            cases hlast
            exact hnd.1 (by simp)
          · rw [lastLink, hc] at hlast
            cases hlast
            exact hnd.1 (by simp [hy])
        rw [if_neg hne, hg.tail, e, lastLink_append, lastLink_append]
        rfl
    · rw [update_of_ne ht, ← hg.tail t']
      split
      · exact update_of_ne ht _ _
      · rfl
  · have hmem : y ∈ update L t ((L t).filter (· ≠ x)) t' ↔ y ∈ L t' ∧ y ≠ x := by
      by_cases ht : t' = t
      · subst ht
        simp
      · rw [update_of_ne ht]
        exact ⟨fun hy => ⟨hy, fun h => ht (hg.only hx (h ▸ hy))⟩, fun hy => hy.1⟩
    rw [hmem, hg.place]
    constructor
    · rintro ⟨⟨j, hj⟩, hne⟩
      exact ⟨j, by rw [hB]; simp [hj, hne]⟩
    · rintro ⟨j, hj⟩
      rw [hB, mem_filter] at hj
      exact ⟨⟨j, hj.1⟩, by simpa using hj.2⟩
  · rw [hB, mem_filter] at hy hz
    rw [hd.key_eq, hd.key_eq] at hkey
    exact hg.uniq b y hy.1 z hz.1 hkey

end Ipfilter.Frag
