import Ipfilter.Spec.Tune

/-!
# Tuneables: the walk, and setting them

The cookie after the last tuneable of the first array is the address of the pointer to the first one, so that a walk goes over
the first array again; a request to set does not look at `IPFT_RDONLY`, stores fewer bits than it has checked, and can fail
after it has stored.

* `linked_of_chained` — arrays and tuneables that are added are all in the chain;
* `walks_iff` — a walk is right iff there is only one tuneable;
* `safe_iff_cond` — which requests are safe, one after the other;
* `tune_iff` — **both**, for all chains and all sequences of requests. `tune_iff_two` — two arrays; `tune_twice` — the
  walk over them.
-/

namespace Ipfilter.Tune

open List Option

variable {s s' : Tuners} {b n : ℕ} {cookie : Cookie} {id : Id} {arrays : List (List Ipftuneable)} {array : List Ipftuneable}

/-! ## Chains -/

/-- **Chains:** the main array is copied, one is linked, then others are linked and tuneables are added. -/
inductive Chained : Tuners → Prop
  | first (main array : List Ipftuneable) : main ≠ [] → array ≠ [] → Chained (ipfTuneArrayLink (tunersOf main) array).1
  | link {s : Tuners} (array : List Ipftuneable) : Chained s → Chained (ipfTuneArrayLink s array).1
  | add {s s' : Tuners} (newtune : Ipftuneable) (error : ℕ) : Chained s → ipfTuneAdd s newtune = some (s', error) →
      Chained s'

/-- All tuneables, array by array. -/
def allIds (arrays : List (List Ipftuneable)) : List Id := arrays.zipIdx.flatMap fun p => ids p.2 p.1.length

/-- **The chain has all tuneables**, and there is a first one. -/
structure Linked (s : Tuners) : Prop where
  chain : s.chain = allIds s.arrays
  first : ∃ t main arrays, s.arrays = (t :: main) :: arrays

theorem mem_ids : id ∈ ids b n ↔ id.1 = b ∧ id.2 < n := by
  unfold ids
  rw [List.mem_map]
  constructor
  · rintro ⟨i, hi, rfl⟩
    exact ⟨rfl, mem_range.1 hi⟩
  · rintro ⟨rfl, hi⟩
    exact ⟨id.2, mem_range.2 hi, rfl⟩

theorem mem_allIds : id ∈ allIds arrays ↔ ∃ array, arrays[id.1]? = some array ∧ id.2 < array.length := by
  unfold allIds
  rw [mem_flatMap]
  constructor
  · rintro ⟨p, hp, hid⟩
    obtain ⟨h1, h2⟩ := mem_ids.1 hid
    exact ⟨p.1, by rw [h1]; exact mem_zipIdx_iff_getElem?.1 hp, h2⟩
  · rintro ⟨array, harray, hlt⟩
    exact ⟨(array, id.1), mem_zipIdx_iff_getElem?.2 harray, mem_ids.2 ⟨rfl, hlt⟩⟩

theorem allIds_append (arrays : List (List Ipftuneable)) (array : List Ipftuneable) :
    allIds (arrays ++ [array]) = allIds arrays ++ ids arrays.length array.length := by
  unfold allIds
  rw [zipIdx_append, flatMap_append]
  simp

/-- A tuneable is one that has a name. -/
theorem tune_isSome_iff : (s.tune id).isSome ↔ id ∈ allIds s.arrays := by
  rw [mem_allIds]
  unfold Tuners.tune
  cases s.arrays[id.1]? with
  | none => simp
  | some array => simp

theorem Linked.tune_isSome (h : Linked s) (hid : id ∈ s.chain) : (s.tune id).isSome :=
  tune_isSome_iff.2 (h.chain ▸ hid)

theorem Linked.head (h : Linked s) : ∃ chain, s.chain = (0, 0) :: chain := by
  obtain ⟨t, main, arrays, harr⟩ := h.first
  rw [h.chain, harr]
  unfold allIds ids
  rw [zipIdx_cons, flatMap_cons, length_cons, range_succ_eq_map, map_cons, cons_append]
  exact ⟨_, rfl⟩

/-- An array that is linked is behind all that are there. -/
theorem link_chain (h : array ≠ [])
    (hchain : s.chain.takeWhile (fun t => (s.tune t).isSome) = allIds s.arrays)
    (hfirst : ∃ t main arrays, s.arrays = (t :: main) :: arrays) :
    Linked (ipfTuneArrayLink s array).1 := by
  unfold ipfTuneArrayLink
  rw [if_neg h]
  refine ⟨?_, ?_⟩
  · dsimp only
    rw [hchain, allIds_append]
  · obtain ⟨t, main, arrays, heq⟩ := hfirst
    exact ⟨t, main, arrays ++ [array], by dsimp only; rw [heq]; rfl⟩

/-- **Every chain** has all tuneables. -/
theorem linked_of_chained (h : Chained s) : Linked s := by
  induction h with
  | first main array hmain harray =>
    obtain ⟨t, main, rfl⟩ := exists_cons_of_ne_nil hmain
    refine link_chain harray ?_ ⟨t, main, [], rfl⟩
    have hall : allIds [t :: main] = ids 0 (t :: main).length := by simp [allIds]
    have hsplit : ids 0 ((t :: main).length + 1) = ids 0 (t :: main).length ++ [(0, (t :: main).length)] := by
      unfold ids
      rw [range_succ, map_append]
      rfl
    change (ids 0 ((t :: main).length + 1)).takeWhile _ = allIds [t :: main]
    rw [hall, hsplit, takeWhile_append_of_pos]
    · -- what is behind the last tuneable has no name
      have hnone : (tunersOf (t :: main)).tune (0, (t :: main).length) = none := by simp [Tuners.tune, tunersOf]
      rw [takeWhile_cons_of_neg (by rw [hnone]; simp), append_nil]
    · intro id hid
      exact tune_isSome_iff.2 (hall ▸ hid)
  | @link s array _ ih =>
    by_cases harray : array = []
    · unfold ipfTuneArrayLink
      rw [if_pos harray]
      exact ih
    · refine link_chain harray ?_ ih.first
      rw [← ih.chain, ← append_nil s.chain, takeWhile_append_of_pos fun id hid => ih.tune_isSome hid]
      rfl
  | @add s s' newtune error _ hadd ih =>
    unfold ipfTuneAdd at hadd
    cases hfind : ipfTuneFindbyname s newtune.ipftName with
    | none => rw [hfind] at hadd; cases hadd
    | some found =>
      rw [hfind] at hadd
      cases found with
      | some ta => cases hadd; exact ih
      | none =>
        cases hadd
        obtain ⟨t, main, arrays, heq⟩ := ih.first
        refine ⟨?_, t, main, arrays ++ [[newtune]], by dsimp only; rw [heq]; rfl⟩
        dsimp only
        rw [ih.chain, allIds_append]
        rfl

/-! ## Cookies -/

theorem findInArray_mem {i : ℕ} {next : Cookie}
    (h : findInArray cookie b i array = some (id, next)) : id.1 = b ∧ i ≤ id.2 ∧ id.2 < i + array.length := by
  induction array generalizing i with
  | nil => cases h
  | cons t array ih =>
    unfold findInArray at h
    rw [length_cons]
    split at h
    · cases h
      exact ⟨rfl, le_refl i, by dsimp only; omega⟩
    · obtain ⟨h1, h2, h3⟩ := ih h
      exact ⟨h1, by omega, by omega⟩

theorem findInChain_mem {tap : Cookie} {chain : List Id} {next : Cookie}
    (h : findInChain cookie tap chain = some (id, next)) : id ∈ chain := by
  induction chain generalizing tap with
  | nil => cases h
  | cons ta chain ih =>
    unfold findInChain at h
    split at h
    · cases h
      exact mem_cons_self
    · exact mem_cons_of_mem _ (ih h)

/-- **A search by cookie** ends, at a tuneable that has a name. -/
theorem ipfTuneFindbycookie_spec (h : Linked s) (cookie : Cookie) :
    ∃ r, ipfTuneFindbycookie s cookie = some r ∧ ∀ id, r.1 = some id → (s.tune id).isSome := by
  obtain ⟨t, main, arrays, harr⟩ := h.first
  obtain ⟨chain, hchain⟩ := h.head
  unfold ipfTuneFindbycookie
  rw [hchain]
  dsimp only
  rw [harr]
  simp only [getElem?_cons_zero, getD_some, drop_zero]
  cases hfirst : findInArray cookie 0 0 (t :: main) with
  | some r =>
    refine ⟨_, rfl, fun id hid => ?_⟩
    cases hid
    obtain ⟨h1, -, h3⟩ := findInArray_mem hfirst
    refine tune_isSome_iff.2 (mem_allIds.2 ⟨t :: main, ?_, by omega⟩)
    rw [h1, harr]
    rfl
  | none =>
    dsimp only
    cases hall : findInChain cookie .top ((0, 0) :: chain) with
    | some r =>
      refine ⟨_, rfl, fun id hid => ?_⟩
      cases hid
      exact h.tune_isSome (hchain ▸ findInChain_mem hall)
    | none => exact ⟨_, rfl, fun id hid => by cases hid⟩

/-! ## The walk -/

/-- A request for the tuneable of a cookie, which can be copied out. -/
def nextReq (cookie : Cookie) : Req where
  cmd := .getnext
  inobj := .ok { ipftCookie := cookie, ipftUn := 0, ipftMin := 0, ipftMax := 0, ipftSz := 0, ipftFlags := 0, ipftName := [] }
  outobj := 0
  func _ _ vals := vals

/-- At most `n` requests from a cookie on: the tuneables, when they come to the end. -/
def walk (s : Softc) : ℕ → Cookie → Option (List Id)
  | 0, _ => none
  | n + 1, cookie => do
    let r ← ipfIpftune s (nextReq cookie)
    let tu ← r.tu
    match r.ta with
    | none => if tu.ipftCookie = .null then some [] else none
    | some ta => do
      let ids ← walk s n tu.ipftCookie
      return ta :: ids

/-- **A walk from a zero cookie** has every tuneable exactly once, and comes to its end. -/
def Walks (s : Softc) : Prop := ∃ n ids, walk s n .null = some ids ∧ ids.Nodup ∧ ∀ id, id ∈ ids ↔ id ∈ s.chain

/-- What a request for the next tuneable finds. -/
def nextOf (s : Tuners) (cookie : Cookie) : Option (Option Id × Cookie) :=
  if cookie ≠ .null then ipfTuneFindbycookie s cookie
  else match s.chain with
    | [] => some (none, .other 1)
    | ta :: _ => some (some ta, .entry (ta.1, ta.2 + 1))

/-- One step of the walk. -/
theorem walk_succ (s : Softc) (n : ℕ) (cookie : Cookie) : walk s (n + 1) cookie = match nextOf s.toTuners cookie with
    | none => none
    | some (none, next) => if next = .null then some [] else none
    | some (some ta, next) =>
      match s.tune ta with
      | none => none
      | some t => if t.ipftSz > 8 then none else (walk s n next).map (ta :: ·) := by
  have hreq : ipfIpftune s (nextReq cookie) = getnext s (nextReq cookie)
      { ipftCookie := cookie, ipftUn := 0, ipftMin := 0, ipftMax := 0, ipftSz := 0, ipftFlags := 0, ipftName := [] } := rfl
  rw [walk, hreq]
  unfold getnext
  dsimp only
  change (bind (match nextOf s.toTuners cookie with | none => none | some (none, next) => _ | some (some ta, next) => _) _) = _
  cases nextOf s.toTuners cookie with
  | none => rfl
  | some r =>
    obtain ⟨found, next⟩ := r
    cases found with
    | none => rfl
    | some ta =>
      dsimp only
      cases s.tune ta with
      | none => rfl
      | some t =>
        dsimp only
        by_cases hsz : t.ipftSz > 8
        · rw [if_pos hsz, if_pos hsz]
          rfl
        · rw [if_neg hsz, if_neg hsz]
          change ((walk s n next).bind fun ids => some (ta :: ids)) = _
          cases walk s n next with
          | none => rfl
          | some ids => rfl

/-- A cookie of the first array is its tuneable; the last one is followed by the pointer to the first. -/
theorem findInArray_entry {i j : ℕ} (hi : i ≤ j) (hj : j < i + array.length) :
    findInArray (.entry (b, j)) b i array = some ((b, j), if j + 1 < i + array.length then .entry (b, j + 1) else .top) := by
  induction array generalizing i with
  | nil => exact absurd hj (by simp only [length_nil]; omega)
  | cons t array ih =>
    rw [length_cons] at hj ⊢
    unfold findInArray
    by_cases heq : i = j
    · subst heq
      rw [if_pos rfl]
      cases array with
      | nil => rw [if_neg (by simp), if_neg (by simp only [length_nil]; omega)]
      | cons t' array => rw [if_pos (by simp), if_pos (by simp only [length_cons]; omega)]
    · rw [if_neg (by simp [heq]), ih (by omega) (by omega), show i + 1 + array.length = i + (array.length + 1) by omega]

theorem findInArray_none {i : ℕ} (h : ∀ j, i ≤ j → j < i + array.length → .entry (b, j) ≠ cookie) :
    findInArray cookie b i array = none := by
  cases hfind : findInArray cookie b i array with
  | none => rfl
  | some r =>
    induction array generalizing i with
    | nil => cases hfind
    | cons t array ih =>
      rw [length_cons] at h
      unfold findInArray at hfind
      rw [if_neg (h i (le_refl i) (by omega))] at hfind
      exact ih (fun j h1 h2 => h j (by omega) (by omega)) hfind

theorem findInChain_entry {ta : Id} {tap : Cookie} (chain : List Id) (h : tap ≠ .entry ta) :
    findInChain (.entry ta) tap chain = none := by
  induction chain generalizing tap with
  | nil => rfl
  | cons id chain ih =>
    unfold findInChain
    rw [if_neg h]
    exact ih Cookie.noConfusion

variable {s : Softc} {t : Ipftuneable}

/-- The cookie of a tuneable of the first array. -/
theorem nextOf_entry {main : List Ipftuneable} (h : Linked s.toTuners)
    (harr : s.arrays = (t :: main) :: arrays) {j : ℕ} (hj : j < (t :: main).length) :
    nextOf s.toTuners (.entry (0, j)) = some (some (0, j), if j + 1 < (t :: main).length then .entry (0, j + 1) else .top) := by
  obtain ⟨chain, hchain⟩ := h.head
  unfold nextOf ipfTuneFindbycookie
  rw [if_pos (show Cookie.entry (0, j) ≠ .null from nofun), hchain]
  dsimp only
  rw [harr]
  simp only [getElem?_cons_zero, getD_some, drop_zero]
  rw [findInArray_entry (Nat.zero_le j) (by omega), Nat.zero_add]

/-- The pointer to the first tuneable as a cookie. -/
theorem nextOf_top (h : Linked s.toTuners) : nextOf s.toTuners .top = some (some (0, 0), .next (0, 0)) := by
  obtain ⟨chain, hchain⟩ := h.head
  unfold nextOf ipfTuneFindbycookie
  rw [if_pos (show Cookie.top ≠ .null from nofun), hchain]
  dsimp only
  rw [findInArray_none fun j _ _ => Cookie.noConfusion]
  rfl

/-- The cookie behind the only tuneable of the first array. -/
theorem nextOf_behind (h : Linked s.toTuners) (harr : s.arrays = [t] :: arrays) :
    nextOf s.toTuners (.entry (0, 1)) = some (none, .null) := by
  obtain ⟨chain, hchain⟩ := h.head
  unfold nextOf ipfTuneFindbycookie
  rw [if_pos (show Cookie.entry (0, 1) ≠ .null from nofun), hchain]
  dsimp only
  rw [harr]
  simp only [getElem?_cons_zero, getD_some, drop_zero]
  rw [findInArray_none fun j _ hj heq => by simp at heq hj; omega, findInChain_entry _ Cookie.noConfusion]

/-- **A walk that is in the first array** comes to its beginning again. -/
theorem walk_again {main : List Ipftuneable} (h : Linked s.toTuners)
    (harr : s.arrays = (t :: main) :: arrays) {n j : ℕ} {ids : List Id} (hj : j < (t :: main).length)
    (hwalk : walk s n (.entry (0, j)) = some ids) : (0, 0) ∈ ids := by
  have hmem : ∀ {n : ℕ} {ta : Id} {next : Cookie} {ids : List Id},
      (match s.tune ta with | none => none | some t => if t.ipftSz > 8 then none else (walk s n next).map (ta :: ·)) =
        some ids →
        ∃ ids', walk s n next = some ids' ∧ ids = ta :: ids' := by
    intro n ta next ids hids
    cases htune : s.tune ta with
    | none => rw [htune] at hids; cases hids
    | some t =>
      rw [htune] at hids
      dsimp only at hids
      split at hids
      · cases hids
      · obtain ⟨ids', h1, h2⟩ := map_eq_some_iff.1 hids
        exact ⟨ids', h1, h2.symm⟩
  induction n generalizing j ids with
  | zero => cases hwalk
  | succ n ih =>
    rw [walk_succ, nextOf_entry h harr hj] at hwalk
    obtain ⟨ids', hnext, rfl⟩ := hmem hwalk
    split at hnext
    · rename_i hlt
      exact mem_cons_of_mem _ (ih hlt hnext)
    · cases n with
      | zero => cases hnext
      | succ n =>
        rw [walk_succ, nextOf_top h] at hnext
        obtain ⟨ids'', -, rfl⟩ := hmem hnext
        exact mem_cons_of_mem _ mem_cons_self

/-- There is only one tuneable, and it fits into what is copied out. -/
def Single (s : Softc) : Prop := ∃ ta t, s.chain = [ta] ∧ s.tune ta = some t ∧ t.ipftSz ≤ 8

/-- A chain whose tuneables are all the first one has only that. -/
theorem chain_single (h : Linked s.toTuners) (harr : s.arrays = [t] :: arrays)
    (hall : ∀ id ∈ s.chain, id = (0, 0)) : s.chain = [(0, 0)] := by
  have hsplit : s.chain = (0, 0) :: (arrays.zipIdx 1).flatMap fun p => ids p.2 p.1.length := by
    rw [h.chain, harr]
    rfl
  have hrest : ((arrays.zipIdx 1).flatMap fun p => ids p.2 p.1.length) = [] := by
    rw [eq_nil_iff_forall_not_mem]
    intro id hid
    obtain ⟨p, hp, hid'⟩ := mem_flatMap.1 hid
    have h1 := le_snd_of_mem_zipIdx hp
    have h2 := (mem_ids.1 hid').1
    have h3 := hall id (hsplit ▸ mem_cons_of_mem _ hid)
    rw [h3] at h2
    omega
  rw [hsplit, hrest]

/-- **Which walks are right:** those over one tuneable. -/
theorem walks_iff (h : Linked s.toTuners) : Walks s ↔ Single s := by
  obtain ⟨t, main, arrays, harr⟩ := h.first
  obtain ⟨chain, hchain⟩ := h.head
  have hfirst : nextOf s.toTuners .null = some (some (0, 0), .entry (0, 1)) := by
    unfold nextOf
    rw [if_neg (fun hne => hne rfl), hchain]
  have htune : s.tune (0, 0) = some t := by
    unfold Tuners.tune
    rw [harr]
    rfl
  constructor
  · rintro ⟨n, ids, hwalk, hnodup, hall⟩
    cases n with
    | zero => cases hwalk
    | succ n =>
      rw [walk_succ, hfirst] at hwalk
      dsimp only at hwalk
      rw [htune] at hwalk
      dsimp only at hwalk
      split at hwalk
      · cases hwalk
      rename_i hsz
      obtain ⟨ids', hnext, rfl⟩ := map_eq_some_iff.1 hwalk
      cases main with
      | cons t' main =>
        -- the first tuneable comes twice
        have hagain := walk_again h harr (j := 1) (by simp) hnext
        exact absurd hagain (nodup_cons.1 hnodup).1
      | nil =>
        have hids : ids' = [] := by
          cases n with
          | zero => cases hnext
          | succ n =>
            rw [walk_succ, nextOf_behind h harr] at hnext
            cases hnext
            rfl
        refine ⟨(0, 0), t, ?_, htune, Nat.le_of_not_lt hsz⟩
        apply chain_single h harr
        intro id hid
        have hmem := (hall id).2 hid
        rw [hids] at hmem
        exact mem_singleton.1 hmem
  · rintro ⟨ta, t', hone, htune', hsz⟩
    obtain ⟨rfl, -⟩ : (0, 0) = ta ∧ chain = [] := by
      rw [hchain] at hone
      exact cons.inj hone
    obtain rfl : t = t' := mem_unique htune htune'
    obtain rfl : main = [] := by
      by_contra hne
      have hmem : ((0, 1) : Id) ∈ s.chain := by
        rw [h.chain, harr]
        refine mem_allIds.2 ⟨t :: main, rfl, ?_⟩
        have := length_pos_iff.2 hne
        simp only [length_cons]
        omega
      rw [hone] at hmem
      simp at hmem
    refine ⟨2, [(0, 0)], ?_, nodup_cons.2 ⟨not_mem_nil, nodup_nil⟩, fun id => by rw [hone]⟩
    rw [walk_succ, hfirst]
    dsimp only
    rw [htune]
    dsimp only
    rw [if_neg (by omega), walk_succ, nextOf_behind h harr]
    rfl

/-! ## Requests -/

/-- A request leaves these alone: read-only tuneables, on an error all of them; and what it stores is in the range. -/
structure Safe (s : Softc) (r : Reply) : Prop where
  rdonly : ∀ id t, s.tune id = some t → has t.ipftFlags IPFT_RDONLY → r.vals id = s.vals id
  range : ∀ id t, s.tune id = some t → r.vals id ≠ s.vals id → t.ipftMin ≤ r.vals id ∧ r.vals id ≤ t.ipftMax
  error : r.error ≠ 0 → ∀ id t, s.tune id = some t → r.vals id = s.vals id

/-- A value that a request changes. -/
def Allowed (t : Ipftuneable) (q : Req) (v : Ulong) : Prop :=
  has t.ipftFlags IPFT_RDONLY = false ∧ (t.ipftMin ≤ v ∧ v ≤ t.ipftMax) ∧ q.outobj = 0

/-- The request comes to storing a value in this tuneable. -/
structure Sets (s : Softc) (q : Req) (tu : Ipftune) (ta : Id) (t : Ipftuneable) : Prop where
  cmd : q.cmd = .set
  inobj : q.inobj = .ok tu
  found : lookup s { tu with ipftName := tu.ipftName.take 79 } = some (some ta)
  tune : s.tune ta = some t
  enabled : ¬(has t.ipftFlags IPFT_WRDISABLED ∧ s.ipfRunning > 0)
  min : t.ipftMin ≤ tu.ipftUn
  max : tu.ipftUn ≤ t.ipftMax

/-- **What keeps a request safe:** the value as it is stored is the old one, or the tuneable is not read-only, the value is in
the range in the bits that are stored, and the answer can be copied out; of a tuneable with a function, so is what that function
changes. -/
def Cond (s : Softc) (q : Req) : Prop :=
  ∀ tu ta t, Sets s q tu ta t →
    if t.ipftFunc then ∀ id t', s.tune id = some t' → q.func ta tu.ipftUn s.vals id ≠ s.vals id →
      Allowed t' q (q.func ta tu.ipftUn s.vals id)
    else ∀ m, sizeMask t.ipftSz = some m → tu.ipftUn &&& m ≠ s.vals ta → Allowed t q (tu.ipftUn &&& m)

theorem safe_same {r : Reply} (h : r.vals = s.vals) : Safe s r :=
  ⟨fun _ _ _ _ => by rw [h], fun id _ _ hne => absurd (by rw [h]) hne, fun _ _ _ _ => by rw [h]⟩

theorem reply_vals (q : Req) (vals : Id → Ulong) (tu : Ipftune) (ta : Option Id) : (reply q vals tu ta).vals = vals := by
  unfold reply
  split <;> rfl

theorem reply_error (q : Req) (vals : Id → Ulong) (tu : Ipftune) (ta : Option Id) :
    (reply q vals tu ta).error = q.outobj := by
  unfold reply
  split
  · rename_i h
    exact h.symm
  · rfl

/-- Safety of values that are stored before the answer is copied out. -/
theorem safe_reply_iff {q : Req} {vals : Id → Ulong} {tu : Ipftune} {ta : Option Id} :
    Safe s (reply q vals tu ta) ↔ ∀ id t, s.tune id = some t → vals id ≠ s.vals id → Allowed t q (vals id) := by
  constructor
  · intro h id t ht hne
    have hvals := reply_vals q vals tu ta
    refine ⟨?_, ?_, ?_⟩
    · by_contra hro
      exact hne (hvals ▸ h.rdonly id t ht (by simpa using hro))
    · have hrange := h.range id t ht
      rw [hvals] at hrange
      exact hrange hne
    · by_contra hout
      have herr := h.error (by rw [reply_error]; exact hout) id t ht
      rw [hvals] at herr
      exact hne herr
  · intro h
    refine ⟨fun id t ht hro => ?_, fun id t ht hne => ?_, fun herr id t ht => ?_⟩
    · rw [reply_vals]
      by_contra hne
      have := (h id t ht hne).1
      rw [hro] at this
      cases this
    · rw [reply_vals] at hne ⊢
      exact (h id t ht hne).2.1
    · rw [reply_error] at herr
      rw [reply_vals]
      by_contra hne
      exact herr (h id t ht hne).2.2

/-- **Storing a value.** -/
theorem store_safe_iff {q : Req} {tu : Ipftune} {ta : Id} {t : Ipftuneable} (htune : s.tune ta = some t) :
    Safe s (store s q tu ta t) ↔
      if t.ipftFunc then ∀ id t', s.tune id = some t' → q.func ta tu.ipftUn s.vals id ≠ s.vals id →
        Allowed t' q (q.func ta tu.ipftUn s.vals id)
      else ∀ m, sizeMask t.ipftSz = some m → tu.ipftUn &&& m ≠ s.vals ta → Allowed t q (tu.ipftUn &&& m) := by
  unfold store
  split
  · exact safe_reply_iff
  · cases hm : sizeMask t.ipftSz with
    | none => exact iff_of_true (safe_same (reply_vals _ _ _ _)) nofun
    | some m =>
      dsimp only
      rw [safe_reply_iff]
      constructor
      · rintro h m' heq hne
        cases heq
        have hta := h ta t htune
        rw [Function.update_self] at hta
        exact hta hne
      · intro h id t' ht' hne
        by_cases hid : id = ta
        · subst hid
          obtain rfl : t = t' := mem_unique htune ht'
          rw [Function.update_self] at hne ⊢
          exact h m rfl hne
        · rw [Function.update_of_ne hid] at hne
          exact absurd rfl hne

theorem findbyname_spec {s : Tuners} {name : List Char} {chain : List Id} (h : ∀ id ∈ chain, (s.tune id).isSome) :
    ∃ r, findbyname s name chain = some r ∧ ∀ id, r = some id → (s.tune id).isSome := by
  induction chain with
  | nil => exact ⟨none, rfl, fun id hid => by cases hid⟩
  | cons ta chain ih =>
    obtain ⟨hta, hchain⟩ := forall_mem_cons.1 h
    obtain ⟨t, ht⟩ := isSome_iff_exists.1 hta
    unfold findbyname
    rw [ht]
    dsimp only
    split
    · refine ⟨_, rfl, fun id hid => ?_⟩
      cases hid
      exact hta
    · exact ih hchain

/-- What a request names is a tuneable. -/
theorem lookup_spec (h : Linked s.toTuners) (tu : Ipftune) :
    ∃ r, lookup s tu = some r ∧ ∀ id, r = some id → (s.tune id).isSome := by
  unfold lookup
  split
  · obtain ⟨r, hr, hsome⟩ := ipfTuneFindbycookie_spec h tu.ipftCookie
    exact ⟨r.1, by rw [hr]; rfl, hsome⟩
  split
  · exact findbyname_spec fun id hid => h.tune_isSome hid
  · exact ⟨none, rfl, fun id hid => by cases hid⟩

theorem getnext_spec (h : Linked s.toTuners) (q : Req) (tu : Ipftune) : ∃ r, getnext s q tu = some r ∧ r.vals = s.vals := by
  have hnext : ∃ r, nextOf s.toTuners tu.ipftCookie = some r ∧ ∀ id, r.1 = some id → (s.tune id).isSome := by
    unfold nextOf
    split
    · exact ipfTuneFindbycookie_spec h tu.ipftCookie
    · obtain ⟨chain, hchain⟩ := h.head
      rw [hchain]
      refine ⟨_, rfl, fun id hid => ?_⟩
      cases hid
      exact h.tune_isSome (hchain ▸ mem_cons_self)
  obtain ⟨⟨found, next⟩, hfound, hsome⟩ := hnext
  unfold getnext
  dsimp only
  change ∃ r, (match nextOf s.toTuners tu.ipftCookie with
    | none => none
    | some (none, next) => _
    | some (some ta, next) => _) = some r ∧ _
  rw [hfound]
  cases found with
  | none => exact ⟨_, rfl, reply_vals _ _ _ _⟩
  | some ta =>
    obtain ⟨t, ht⟩ := isSome_iff_exists.1 (hsome ta rfl)
    dsimp only
    rw [ht]
    dsimp only
    split
    · exact ⟨_, rfl, rfl⟩
    · exact ⟨_, rfl, reply_vals _ _ _ _⟩

/-- **One request:** it is answered, and is safe iff the condition holds. -/
theorem safe_iff_cond (h : Linked s.toTuners) (q : Req) : ∃ r, ipfIpftune s q = some r ∧ (Safe s r ↔ Cond s q) := by
  unfold ipfIpftune
  cases hin : q.inobj with
  | error e =>
    refine ⟨_, rfl, iff_of_true (safe_same rfl) fun tu ta t hsets => ?_⟩
    have := hsets.inobj
    rw [hin] at this
    cases this
  | ok tu =>
    dsimp only
    cases hcmd : q.cmd with
    | getnext =>
      obtain ⟨r, hr, hvals⟩ := getnext_spec h q { tu with ipftName := tu.ipftName.take 79 }
      refine ⟨r, hr, iff_of_true (safe_same hvals) fun tu ta t hsets => ?_⟩
      have := hsets.cmd
      rw [hcmd] at this
      cases this
    | get =>
      have hnot : Cond s q := fun tu ta t hsets => by
        have := hsets.cmd
        rw [hcmd] at this
        cases this
      obtain ⟨r, hr, hsome⟩ := lookup_spec h { tu with ipftName := tu.ipftName.take 79 }
      dsimp only
      rw [hr]
      cases r with
      | none => exact ⟨_, rfl, iff_of_true (safe_same rfl) hnot⟩
      | some ta =>
        obtain ⟨t, ht⟩ := isSome_iff_exists.1 (hsome ta rfl)
        dsimp only
        rw [ht]
        exact ⟨_, rfl, iff_of_true (safe_same (reply_vals _ _ _ _)) hnot⟩
    | set =>
      have hcond : ∀ ta t, lookup s { tu with ipftName := tu.ipftName.take 79 } = some (some ta) → s.tune ta = some t →
          ∀ tu' ta' t', Sets s q tu' ta' t' → tu' = tu ∧ ta' = ta ∧ t' = t := by
        intro ta t hta ht tu' ta' t' hsets
        obtain rfl : tu = tu' := Except.ok.inj (hin.symm.trans hsets.inobj)
        obtain rfl : ta = ta' := some.inj (mem_unique hta hsets.found)
        exact ⟨rfl, rfl, mem_unique hsets.tune ht⟩
      obtain ⟨r, hr, hsome⟩ := lookup_spec h { tu with ipftName := tu.ipftName.take 79 }
      dsimp only
      rw [hr]
      cases r with
      | none =>
        refine ⟨_, rfl, iff_of_true (safe_same rfl) fun tu' ta t hsets => ?_⟩
        obtain rfl : tu = tu' := Except.ok.inj (hin.symm.trans hsets.inobj)
        have := hsets.found
        rw [hr] at this
        cases this
      | some ta =>
        obtain ⟨t, ht⟩ := isSome_iff_exists.1 (hsome ta rfl)
        dsimp only
        rw [ht]
        dsimp only
        rw [if_neg (show ¬Cmd.set = Cmd.get from nofun)]
        by_cases hbusy : has t.ipftFlags IPFT_WRDISABLED ∧ s.ipfRunning > 0
        · rw [if_pos hbusy]
          refine ⟨_, rfl, iff_of_true (safe_same rfl) fun tu' ta' t' hsets => ?_⟩
          obtain ⟨rfl, rfl, rfl⟩ := hcond ta t hr ht tu' ta' t' hsets
          exact absurd hbusy hsets.enabled
        rw [if_neg hbusy]
        by_cases hrange : tu.ipftUn < t.ipftMin ∨ tu.ipftUn > t.ipftMax
        · rw [if_pos hrange]
          refine ⟨_, rfl, iff_of_true (safe_same rfl) fun tu' ta' t' hsets => ?_⟩
          obtain ⟨rfl, rfl, rfl⟩ := hcond ta t hr ht tu' ta' t' hsets
          obtain hlt | hgt := hrange
          · exact absurd hsets.min (BitVec.not_le.2 hlt)
          · exact absurd hsets.max (BitVec.not_le.2 hgt)
        · rw [if_neg hrange]
          refine ⟨_, rfl, (@store_safe_iff _ _ { tu with ipftName := tu.ipftName.take 79 } ta t ht).trans ?_⟩
          constructor
          · intro hbody tu' ta' t' hsets
            obtain ⟨rfl, rfl, rfl⟩ := hcond ta t hr ht tu' ta' t' hsets
            exact hbody
          · intro hall
            obtain ⟨hmin, hmax⟩ := not_or.1 hrange
            exact hall tu ta t ⟨hcmd, hin, hr, ht, hbusy, BitVec.not_lt.1 hmin, BitVec.not_lt.1 hmax⟩

/-! ## Sequences of requests -/

/-- What every request of a sequence is like, in the state it is made in. -/
def Each (P : Softc → Req → Reply → Prop) : Softc → List Req → Prop
  | _, [] => True
  | s, q :: qs => ∃ r, ipfIpftune s q = some r ∧ P s q r ∧ Each P { s with vals := r.vals } qs

/-- **All requests are safe** iff the condition holds for each in its turn. -/
theorem each_safe_iff (h : Linked s.toTuners) (qs : List Req) :
    Each (fun s _ r => Safe s r) s qs ↔ Each (fun s q _ => Cond s q) s qs := by
  induction qs generalizing s with
  | nil => exact Iff.rfl
  | cons q qs ih =>
    obtain ⟨r, hr, hiff⟩ := safe_iff_cond h q
    unfold Each
    rw [hr]
    constructor
    · rintro ⟨r', heq, hsafe, hrest⟩
      cases heq
      exact ⟨r, rfl, hiff.1 hsafe, (ih (s := { s with vals := r.vals }) h).1 hrest⟩
    · rintro ⟨r', heq, hcond, hrest⟩
      cases heq
      exact ⟨r, rfl, hiff.2 hcond, (ih (s := { s with vals := r.vals }) h).2 hrest⟩

/-- **The walk and the requests**, for every chain and every sequence. -/
theorem tune_iff (s : Softc) (h : Chained s.toTuners) (qs : List Req) :
    (Walks s ↔ Single s) ∧ (Each (fun s _ r => Safe s r) s qs ↔ Each (fun s q _ => Cond s q) s qs) :=
  ⟨walks_iff (linked_of_chained h), each_safe_iff (linked_of_chained h) qs⟩

/-- `ipf_flags` and `active`, and behind them the tuneables of another array, of which there is one. -/
def twoArrays : Tuners :=
  (ipfTuneArrayLink (tunersOf
    [⟨"ipf_flags".toList, 0, 0xffffffff, 4, 0, false⟩, ⟨"active".toList, 0, 0, 4, IPFT_RDONLY, false⟩])
    [⟨"log_suppress".toList, 0, 1, 4, 0, false⟩]).1

/-- The second set of rules is active. -/
def twoActive : Softc := { twoArrays with vals := fun id => if id = (0, 1) then 1 else 0, ipfRunning := 1 }

/-- To set `active` to 0. -/
def setActive : Req where
  cmd := .set
  inobj := .ok {
    ipftCookie := .null, ipftUn := 0, ipftMin := 0, ipftMax := 0, ipftSz := 0, ipftFlags := 0
    ipftName := "active".toList }
  outobj := 0
  func _ _ vals := vals

/-- To set a tuneable of the other array, which takes 0 and 1. -/
def setSuppress (n : Ulong) : Req where
  cmd := .set
  inobj := .ok {
    ipftCookie := .null, ipftUn := n, ipftMin := 0, ipftMax := 0, ipftSz := 0, ipftFlags := 0
    ipftName := "log_suppress".toList }
  outobj := 0
  func _ _ vals := vals

theorem tune_iff_three :
    (Walks twoActive ↔ Single twoActive) ∧
      (Each (fun s _ r => Safe s r) twoActive [setSuppress 1, setActive, setSuppress 2] ↔
        Each (fun s q _ => Cond s q) twoActive [setSuppress 1, setActive, setSuppress 2]) :=
  tune_iff twoActive (.first _ _ (by decide) (by decide)) [setSuppress 1, setActive, setSuppress 2]

/-- The two tuneables of the first array come twice. -/
theorem tune_twice : walk twoActive 6 .null = some [(0, 0), (0, 1), (0, 0), (0, 1), (1, 0)] := by
  decide

end Ipfilter.Tune
