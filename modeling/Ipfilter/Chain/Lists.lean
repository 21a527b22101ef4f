import Ipfilter.Chain.Mem

/-!
# Lists without back links

Lists whose nodes have a forward pointer only, at some of the heads of a memory. They are chains with back
links that nobody stored.

* `Lists`: the heads in `T` spell out their lists.
* `Lists.get`, `Lists.seek`, `Lists.find`: what is at a place in a list, where a cursor stops, and what it finds there.
* `Lists.insert`, `Lists.remove`, `Lists.restrict`: the edits.
-/

namespace Chain

open List
open Function (update update_of_ne update_self)

variable {H N : Type} [DecidableEq H] {m m' : Mem H N} {T T' : List H} {L : H → List N} {h h' : H} {n : N}
  {l₁ l₂ : List N} {k : Link H N}

/-- The memory with the heads in `T` only and with back links. -/
def ghost (T : List H) (P : N → Option (Link H N)) (m : Mem H N) : Mem H N :=
  ⟨fun h => if h ∈ T then m.head h else none, m.next, P⟩

/-- **The heads in `T` spell out their lists.** -/
def Lists (m : Mem H N) (T : List H) (L : H → List N) : Prop := ∃ P, Rep (ghost T P m) L

theorem ghost_get {P : N → Option (Link H N)} (hh : h ∈ T) (l : List N) :
    (ghost T P m).get (lastLink (.head h) l) = m.get (lastLink (.head h) l) := by
  rcases lastLink_cases (k := Link.head (N := N) h) l with e | ⟨x, -, e⟩
  · rw [e]
    exact if_pos hh
  · rw [e]
    rfl

/-- What is at a place in a list. -/
theorem Lists.get (hl : Lists m T L) (hh : h ∈ T) (e : L h = l₁ ++ l₂) :
    m.get (lastLink (.head h) l₁) = l₂.head? := by
  obtain ⟨P, hr⟩ := hl
  have hs := hr h
  rw [e] at hs
  rw [← ghost_get (P := P) hh]
  exact hs.rest.head?

theorem Lists.head (hl : Lists m T L) (hh : h ∈ T) : m.head h = (L h).head? := hl.get hh (nil_append _).symm

/-- A cursor that starts in a list does not see the other heads. -/
theorem ghost_seek {P : N → Option (Link H N)} (p : N → Bool) (i : ℕ) (hk : ∀ h, k = .head h → h ∈ T) :
    (ghost T P m).seek p i k = m.seek p i k := by
  have hget : (ghost T P m).get k = m.get k := by
    cases k with
    | head h => exact if_pos (hk h rfl)
    | next n => rfl
  induction i generalizing k with
  | zero => rfl
  | succ i ih =>
    unfold Mem.seek
    rw [hget]
    cases m.get k with
    | none => rfl
    | some x =>
      dsimp only
      split
      · exact ih (by simp) rfl
      · rfl

omit [DecidableEq H] in
theorem lastLink_head (hh : h ∈ T) (l : List N) : ∀ h', lastLink (.head h) l = .head h' → h' ∈ T := by
  intro h' he
  rcases lastLink_cases (k := Link.head (N := N) h) l with e | ⟨x, -, e⟩
  · rw [e] at he
    cases he
    exact hh
  · rw [e] at he
    cases he

/-- Where a cursor stops in a list. -/
theorem Lists.seek (hl : Lists m T L) (hh : h ∈ T) (e : L h = l₁ ++ l₂) (p : N → Bool)
    {i : ℕ} (hi : l₂.length ≤ i) :
    m.seek p i (lastLink (.head h) l₁) = lastLink (.head h) (l₁ ++ l₂.takeWhile p) := by
  obtain ⟨P, hr⟩ := hl
  have hs := hr h
  rw [e] at hs
  rw [← ghost_seek (P := P) p i (lastLink_head hh l₁), hs.rest.seek p hi, lastLink_append]

/-- A cursor stays in its list. -/
theorem Lists.seek_split (hl : Lists m T L) (hh : h ∈ T) (e : L h = l₁ ++ l₂) (p : N → Bool)
    {i : ℕ} (hi : l₂.length ≤ i) :
    ∃ a b, L h = a ++ b ∧ m.seek p i (lastLink (.head h) l₁) = lastLink (.head h) a := by
  refine ⟨l₁ ++ l₂.takeWhile p, l₂.dropWhile p, ?_, hl.seek hh e p hi⟩
  rw [append_assoc, takeWhile_append_dropWhile, e]

/-- What a cursor finds in a list: the first node without its property. -/
theorem Lists.find (hl : Lists m T L) (hh : h ∈ T) (p : N → Bool) {i : ℕ} (hi : (L h).length ≤ i) :
    m.get (m.seek p i (.head h)) = (L h).find? fun x => !p x := by
  have hseek : m.seek p i (.head h) = lastLink (.head h) ([] ++ (L h).takeWhile p) :=
    hl.seek hh (nil_append (L h)).symm p hi
  have hg := fun P => ghost_get (m := m) (P := P) hh ([] ++ (L h).takeWhile p)
  have hout := fun P => ghost_seek (m := m) (P := P) (k := .head h) p i (lastLink_head hh [])
  obtain ⟨P, hr⟩ := hl
  have hfind := (hr h).get_seek p hi
  rw [hout P, hseek, hg P] at hfind
  rw [hseek]
  exact hfind

theorem Lists.nodup (hl : Lists m T L) (h : H) : (L h).Nodup := by
  obtain ⟨P, hr⟩ := hl
  exact hr.nodup h

theorem Lists.disjoint (hl : Lists m T L) (hne : h ≠ h') (hn : n ∈ L h) : n ∉ L h' := by
  obtain ⟨P, hr⟩ := hl
  exact hr.disjoint hne hn

theorem Lists.eq_nil (hl : Lists m T L) (hh : h ∉ T) : L h = [] := by
  obtain ⟨P, hr⟩ := hl
  have hs := (hr h).head?
  rw [head_get] at hs
  change (if h ∈ T then m.head h else none) = _ at hs
  rw [if_neg hh] at hs
  exact List.head?_eq_none_iff.1 hs.symm

/-- Heads that point to nothing. -/
theorem Lists.nil (hm : ∀ h ∈ T, m.head h = none) : Lists m T fun _ => [] := by
  refine ⟨fun _ => none, fun h => ⟨trivial, ?_⟩⟩
  change (if h ∈ T then m.head h else none) = none
  split
  · rename_i hh
    exact hm h hh
  · rfl

/-- Other memory may change. -/
theorem Lists.congr (hl : Lists m T L) (hh : ∀ h ∈ T, m'.head h = m.head h)
    (hn : ∀ h, ∀ n ∈ L h, m'.next n = m.next n) : Lists m' T L := by
  obtain ⟨P, hr⟩ := hl
  refine ⟨P, hr.congr ?_ hn fun _ _ _ => rfl⟩
  funext h
  change (if h ∈ T then m'.head h else none) = if h ∈ T then m.head h else none
  split
  · rename_i hm
    exact hh h hm
  · rfl

/-- More heads, with nothing there. -/
theorem Lists.extend (hl : Lists m T L) (hsub : ∀ h ∈ T, h ∈ T') (hnew : ∀ h ∈ T', h ∉ T → m.head h = none) :
    Lists m T' L := by
  obtain ⟨P, hr⟩ := hl
  refine ⟨P, hr.congr ?_ (fun _ _ _ => rfl) fun _ _ _ => rfl⟩
  funext h
  change (if h ∈ T' then m.head h else none) = if h ∈ T then m.head h else none
  by_cases h1 : h ∈ T
  · rw [if_pos h1, if_pos (hsub h h1)]
  · rw [if_neg h1]
    split
    · rename_i h2
      exact hnew h h2 h1
    · rfl

/-- Fewer heads. -/
theorem Lists.restrict (hl : Lists m T L) (hsub : ∀ h ∈ T', h ∈ T) :
    Lists m T' fun h => if h ∈ T' then L h else [] := by
  obtain ⟨P, hr⟩ := hl
  refine ⟨P, fun h => ?_⟩
  dsimp only
  by_cases h1 : h ∈ T'
  · rw [if_pos h1]
    refine (hr h).frame ?_ (fun _ _ => rfl) fun _ _ => rfl
    change (if h ∈ T' then m.head h else none) = if h ∈ T then m.head h else none
    rw [if_pos h1, if_pos (hsub h h1)]
  · rw [if_neg h1]
    refine ⟨trivial, ?_⟩
    change (if h ∈ T' then m.head h else none) = none
    rw [if_neg h1]

/-- What is on a list after a node came in. -/
theorem mem_added (e : L h = l₁ ++ l₂) {x : N} {g : H} :
    x ∈ update L h (l₁ ++ n :: l₂) g ↔ x ∈ L g ∨ x = n ∧ g = h := by
  by_cases hg : g = h
  · rw [hg, update_self, e, mem_append, mem_append, mem_cons]
    tauto
  · rw [update_of_ne hg]
    tauto

/-- What is on a list after a node went. -/
theorem Lists.mem_removed (hl : Lists m T L) (e : L h = l₁ ++ n :: l₂) {x : N} {g : H} :
    x ∈ update L h (l₁ ++ l₂) g ↔ x ∈ L g ∧ x ≠ n := by
  by_cases hg : g = h
  · have hnd := hl.nodup h
    rw [e, nodup_middle, nodup_cons, mem_append, not_or] at hnd
    rw [hg, update_self, e, mem_append, mem_append, mem_cons]
    constructor
    · intro hx
      refine ⟨by tauto, ?_⟩
      rintro rfl
      tauto
    · tauto
  · rw [update_of_ne hg]
    refine ⟨fun hx => ⟨hx, ?_⟩, fun hx => hx.1⟩
    rintro rfl
    exact hl.disjoint hg hx (by rw [e]; exact mem_append_right _ mem_cons_self)

variable [DecidableEq N]

/-- **A new node at a place.** -/
theorem Lists.insert (hl : Lists m T L) (hh : h ∈ T) (e : L h = l₁ ++ l₂) (hf : ∀ h, n ∉ L h)
    (hk : k = lastLink (.head h) l₁) :
    Lists ((m.set (.next n) (m.get k)).set k (some n)) T (update L h (l₁ ++ n :: l₂)) := by
  have hget := hl.get hh e
  rw [← hk] at hget
  obtain ⟨P, hr⟩ := hl
  have hgk : (ghost T P m).get k = m.get k := by
    rw [hk]
    exact ghost_get hh l₁
  have hkn : k ≠ .next n := by
    rcases lastLink_cases (k := Link.head (N := N) h) l₁ with c | ⟨y, hy, c⟩
    · rw [hk, c]
      simp
    · rw [hk, c]
      rintro ⟨⟩
      exact hf h (by rw [e]; exact mem_append_left _ hy)
  have hne : (ghost T P m).get k ≠ some n := by
    rw [hgk, hget]
    intro hc
    exact hf h (by rw [e]; exact mem_append_right _ (mem_of_head? hc))
  have hin := (ghost T P m).link_inserted hkn hne
  refine ⟨((ghost T P m).link n k).pnext, hr.insert e hf hk ⟨?_, fun _ => ?_, hin.back, fun x h1 h2 => ?_, hin.succ,
    hin.pnext⟩⟩
  · rw [hk, ghost_get hh, ← hk]
    simp
  · change ((m.set (.next n) (m.get k)).set k (some n)).next n = _
    rw [hgk, next_set, if_neg hkn, next_set, if_pos rfl]
  · cases x with
    | head h' =>
      change (if h' ∈ T then ((m.set (.next n) (m.get k)).set k (some n)).head h' else none) =
        if h' ∈ T then m.head h' else none
      have h3 : (Link.next n : Link H N) ≠ .head h' := by simp
      rw [head_set, if_neg h1.symm, head_set, if_neg h3]
    | next y =>
      change ((m.set (.next n) (m.get k)).set k (some n)).next y = m.next y
      rw [next_set, if_neg h1.symm, next_set, if_neg h2.symm]

/-- A head may be stored again. -/
theorem Lists.keep (hl : Lists m T L) (hh : h ∈ T) : Lists (m.set (.head h) (L h).head?) T L := by
  refine hl.congr (fun h' hh' => ?_) fun _ _ _ => by simp
  have hget := hl.get hh (nil_append (L h)).symm
  rw [head_set]
  split
  · rename_i heq
    cases heq
    exact hget.symm
  · rfl

/-- **A node is taken out.** -/
theorem Lists.remove (hl : Lists m T L) (hh : h ∈ T) (e : L h = l₁ ++ n :: l₂) (hk : k = lastLink (.head h) l₁) :
    Lists (m.set k (m.next n)) T (update L h (l₁ ++ l₂)) := by
  obtain ⟨P, hr⟩ := hl
  have hkn : k ≠ .next n := by
    rw [hk]
    exact hr.lastLink_ne e mem_cons_self
  refine ⟨((ghost T P m).setP? (m.next n) (some k)).pnext, hr.remove e hk ⟨fun _ => ?_, fun x h1 h2 => ?_, ?_, ?_⟩⟩
  · rw [hk, ghost_get hh, ← hk]
    simp [ghost]
  · cases x with
    | head h' =>
      change (if h' ∈ T then (m.set k (m.next n)).head h' else none) = if h' ∈ T then m.head h' else none
      rw [head_set, if_neg h1.symm]
    | next y =>
      change (m.set k (m.next n)).next y = m.next y
      rw [next_set, if_neg h1.symm]
  · intro y hy _
    have hy' : m.next n = some y := hy
    change ((ghost T P m).setP? (m.next n) (some k)).pnext y = some k
    simp [hy']
  · intro x hx _
    have hx' : m.next n ≠ some x := hx
    change ((ghost T P m).setP? (m.next n) (some k)).pnext x = P x
    simp [hx', ghost]

end Chain
