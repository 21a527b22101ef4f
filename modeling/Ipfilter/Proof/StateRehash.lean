import Ipfilter.Proof.StateLookup

/-!
# Lookups after a resize

* `reached_listed`: whatever is done to the table, the list of all entries stays a list.
* `rehashLoop_rep`: a resize puts every listed entry on the chain of its old hash value, modulo the new size.
* `rehash_lookup`: **when a packet still finds its entry**: the hash value of the entry must agree, modulo the new
  size, with that of the packet, and no other entry may get in the way.
-/

namespace Ipfilter.State

open Chain Queue Masks Tcp List Option
open Function (update update_of_ne update_self)

variable {M : Machine} {seed : ℕ → ℕ} {room : Softs → Room} {w w' : Softs} {A : List ℕ} {H : ℕ → List ℕ}
  {e c : ℕ} {rev : Bool} {fin : FrInfo} {t : Try}

/-! ## The list of all entries -/

theorem setqueue_listed {t : ℕ} (h : Listed w A) (hs : ipfStateSetqueue w e rev t = some w') : Listed w' A := by
  unfold ipfStateSetqueue at hs
  dsimp only at hs
  split at hs
  · rw [bind_eq_bind, bind_eq_some_iff] at hs
    obtain ⟨tq, -, hw⟩ := hs
    cases hw
    exact h.congr rfl rfl rfl
  · cases hs
    exact h.congr rfl rfl rfl

/-- An entry that is inserted is listed, or freed. -/
theorem insert_listed {i : Ipstate} {full ok : Bool} {t : ℕ} (h : Listed w A) (he : w.alloc e = false)
    (hs : ipfStateInsert (w.malloc e i) e rev full t = some (w', ok)) :
    (ok = true → Listed w' (e :: A)) ∧ (ok = false → Listed { w' with alloc := update w'.alloc e false } A) := by
  have heA : e ∉ A := fun hm => by rw [(h.alloc e).2 hm] at he; cases he
  unfold ipfStateInsert at hs
  dsimp only at hs
  split at hs
  · cases hs
    refine ⟨nofun, fun _ => h.congr rfl ?_ rfl⟩
    change update (update w.alloc e true) e false = w.alloc
    rw [Function.update_idem, ← he, Function.update_eq_self]
  · rw [map_eq_some_iff] at hs
    obtain ⟨w₁, hq, hw⟩ := hs
    cases hw
    exact ⟨fun _ => setqueue_listed (h.enlist heA rfl rfl rfl) hq, nofun⟩

theorem unqueue_listed (h : Listed w A) (hs : unqueue w e = some w') : Listed w' A := by
  unfold unqueue at hs
  split at hs
  · cases hs
    exact h
  · rw [bind_eq_bind, bind_eq_some_iff] at hs
    obtain ⟨tq, -, hw⟩ := hs
    cases hw
    exact h.congr rfl rfl rfl

theorem Listed.same (h : Listed w A) (hs : Same w w') : Listed w' A := h.congr hs.list hs.alloc hs.active

theorem unhash_listed (h : Listed w A) (e : ℕ) : Listed (unhash w e).1 A := by
  unfold unhash
  split
  · exact h
  · exact h.congr rfl rfl rfl

theorem del_listed {r : ℤ} (h : Listed w A) (he : e ∈ A) (hs : ipfStateDel w e = some (w', r)) : ∃ A', Listed w' A' := by
  unfold ipfStateDel at hs
  rw [if_neg (by rw [(h.alloc e).2 he]; simp)] at hs
  simp only [bind_eq_bind, bind_eq_some_iff] at hs
  obtain ⟨w₁, hq, hw⟩ := hs
  have h₁ := unqueue_listed ((unhash_listed h e).same (same_unwild _ e)) hq
  have h₂ := h₁.same (same_unref w₁ e)
  split at hw
  · cases hw
    exact ⟨A, h₂.congr rfl rfl rfl⟩
  · cases hw
    have h₃ := (h₂.same (same_dropTq _ (((unref w₁ e).is e).isTqehead false))).same
      (same_dropTq _ ((((unref w₁ e).dropTq (((unref w₁ e).is e).isTqehead false)).is e).isTqehead true))
    exact ⟨_, h₃.unlist he rfl rfl rfl⟩

theorem rehashLoop_frame : ∀ (i : ℕ) (o : Option ℕ) (w : Softs),
    ∃ t c n, rehashLoop i o w = { w with table := t, bucketlen := c, inuse := n } := by
  intro i
  induction i with
  | zero =>
    intro o w
    cases o <;> exact ⟨_, _, _, rfl⟩
  | succ i ih =>
    intro o w
    cases o with
    | none => exact ⟨_, _, _, rfl⟩
    | some e =>
      obtain ⟨t, c, n, heq⟩ := ih (w.list.next e) _
      exact ⟨t, c, n, heq⟩

/-- A resize leaves everything alone but the table. -/
theorem rehash_frame (w : Softs) (n : ℕ) (nomem : Bool) :
    ∃ t c m s, ipfStateRehash w n nomem = { w with table := t, bucketlen := c, inuse := m, size := s } := by
  unfold ipfStateRehash
  split
  · exact ⟨_, _, _, _, rfl⟩
  · obtain ⟨t, c, m, heq⟩ := rehashLoop_frame w.active.toNat (w.list.head ()) { w with
      table := { w.table with head := fun _ => none }
      bucketlen := fun _ => 0
      size := n
      inuse := 0 }
    rw [heq]
    exact ⟨_, _, _, _, rfl⟩

theorem ipsmove_listed {hv : ℕ} (h : Listed w A) (hs : ipfIpsmove w seed e hv = some w') : Listed w' A := by
  unfold ipfIpsmove at hs
  simp only [bind_eq_bind, bind_eq_some_iff] at hs
  obtain ⟨k, -, hw⟩ := hs
  cases hw
  exact h.congr rfl rfl rfl

theorem step_listed {op : Op} (h : Listed w A) (hl : Legal w op) (hs : step seed w op = some w') : ∃ A', Listed w' A' := by
  cases op with
  | insert e i rev full t =>
    simp only [step, bind_eq_bind, bind_eq_some_iff] at hs
    obtain ⟨⟨w₁, ok⟩, hins, hw⟩ := hs
    cases hw
    obtain ⟨h1, h2⟩ := insert_listed h hl hins
    cases ok with
    | true => exact ⟨_, h1 rfl⟩
    | false => exact ⟨_, h2 rfl⟩
  | del e =>
    simp only [step, map_eq_some_iff] at hs
    obtain ⟨⟨w₁, r⟩, hdel, rfl⟩ := hs
    exact del_listed h ((h.alloc e).1 hl) hdel
  | move e hv => exact ⟨A, ipsmove_listed h hs⟩
  | rehash n nomem =>
    cases hs
    obtain ⟨t, c, m, s, heq⟩ := rehash_frame w n nomem
    rw [heq]
    exact ⟨A, h.congr rfl rfl rfl⟩
  | hold e =>
    cases hs
    exact ⟨A, h.congr rfl rfl rfl⟩
  | deref e =>
    simp only [step, ipfStateDeref] at hs
    split at hs
    · cases hs
    split at hs
    · cases hs
      exact ⟨A, h.congr rfl rfl rfl⟩
    · rw [map_eq_some_iff] at hs
      obtain ⟨⟨w₁, r⟩, hdel, rfl⟩ := hs
      exact del_listed h ((h.alloc e).1 hl) hdel

/-! ## Packets and the list -/

theorem clone_listed {full ok : Bool} {t : ℕ} (h : Listed w A) (hc : w.alloc c = false)
    (hs : ipfStateClone w e c rev full t = some (w', ok)) : ∃ A', Listed w' A' := by
  simp only [ipfStateClone, bind_eq_bind, bind_eq_some_iff] at hs
  obtain ⟨⟨w₁, ok₁⟩, hins, hw⟩ := hs
  obtain ⟨h1, h2⟩ := insert_listed h hc hins
  cases ok₁ with
  | true =>
    cases hw
    exact ⟨_, (h1 rfl).congr rfl rfl rfl⟩
  | false =>
    cases hw
    exact ⟨_, h2 rfl⟩

theorem takePort_listed {flags : Flags} {tcp : Bool} {r : Room} {o : Option ℕ}
    (hs : takePort M fin w e flags rev tcp r = some (w', o)) (h : Listed w A)
    (hc : ∀ c, r.clone = some c → w.alloc c = false) : ∃ A', Listed w' A' := by
  unfold takePort at hs
  split at hs
  · cases hs
    exact ⟨A, h⟩
  split at hs
  · split at hs
    · cases hs
      exact ⟨A, h⟩
    · rename_i c hcl
      simp only [bind_eq_bind, bind_eq_some_iff] at hs
      obtain ⟨⟨w₁, ok⟩, hclone, hw⟩ := hs
      obtain ⟨A', h'⟩ := clone_listed h (hc c hcl) hclone
      split at hw
      · cases hw
        exact ⟨A', h'.congr rfl rfl rfl⟩
      · cases hw
        exact ⟨A', h'⟩
  · cases hs
    exact ⟨A, h.congr rfl rfl rfl⟩

theorem match_listed {src dst : I6addr} {tcp : Bool} {cmask : Flags} {r : Room} {o : Option (ℕ × Bool)}
    (h : Listed w A) (hc : ∀ c, r.clone = some c → w.alloc c = false)
    (hs : ipfMatchsrcdst M fin w e src dst tcp cmask r = some (w', o)) : ∃ A', Listed w' A' := by
  unfold ipfMatchsrcdst at hs
  split at hs
  · cases hs
    exact ⟨A, h⟩
  dsimp only at hs
  split at hs
  · cases hs
    exact ⟨A, h⟩
  split at hs
  · cases hs
    exact ⟨A, h.congr rfl rfl rfl⟩
  split at hs
  · cases hs
    exact ⟨A, h.congr rfl rfl rfl⟩
  simp only [bind_eq_bind, bind_eq_some_iff] at hs
  obtain ⟨⟨w₁, o₁⟩, hport, hw⟩ := hs
  obtain ⟨A', h'⟩ := takePort_listed hport (h.congr rfl rfl rfl) hc
  split at hw
  · cases hw
    exact ⟨A', h'⟩
  · cases hw
    exact ⟨A', h'.congr rfl rfl rfl⟩

theorem attempt_listed {rev' : Bool} {o : Option ℕ} (hf : Free room) (h : Listed w A)
    (hs : attempt M room t w rev e = some (w', rev', o)) : ∃ A', Listed w' A' := by
  simp only [attempt, bind_eq_bind, bind_eq_some_iff] at hs
  obtain ⟨⟨w₁, o₁⟩, hm, hw⟩ := hs
  obtain ⟨A', h'⟩ := match_listed h (hf w) hm
  split at hw <;> cases hw <;> exact ⟨A', h'⟩

theorem searchChain_listed (hf : Free room) : ∀ {n : ℕ} {w : Softs} {rev : Bool} {o : Option ℕ} {A : List ℕ}
    {rev' : Bool} {r : Option ℕ}, Listed w A → searchChain M room t n w rev o = some (w', rev', r) →
      ∃ A', Listed w' A' := by
  intro n
  induction n with
  | zero =>
    intro w rev o A rev' r h hs
    cases o with
    | none =>
      cases hs
      exact ⟨A, h⟩
    | some e => cases hs
  | succ n ih =>
    intro w rev o A rev' r h hs
    cases o with
    | none =>
      cases hs
      exact ⟨A, h⟩
    | some e =>
      unfold searchChain at hs
      split at hs
      · exact ih h hs
      · simp only [bind_eq_bind, bind_eq_some_iff] at hs
        obtain ⟨⟨w₁, rev₁, o₁⟩, ha, hw⟩ := hs
        obtain ⟨A', h'⟩ := attempt_listed hf h ha
        cases o₁ with
        | none => exact ih h' hw
        | some x =>
          cases hw
          exact ⟨A', h'⟩

theorem search_listed (hf : Free room) {ts : List Try} : ∀ {w : Softs} {rev : Bool} {A : List ℕ} {rev' : Bool}
    {r : Option ℕ}, Listed w A → search M seed room ts w rev = some (w', rev', r) → ∃ A', Listed w' A' := by
  induction ts with
  | nil =>
    intro w rev A rev' r h hs
    cases hs
    exact ⟨A, h⟩
  | cons t ts ih =>
    intro w rev A rev' r h hs
    unfold search at hs
    split at hs
    · exact ih h hs
    simp only [bind_eq_bind, bind_eq_some_iff] at hs
    obtain ⟨⟨w₁, rev₁, o₁⟩, hc, hw⟩ := hs
    obtain ⟨A', h'⟩ := searchChain_listed hf h hc
    cases o₁ with
    | none => exact ih h' hw
    | some x =>
      dsimp only at hw
      split at hw
      · cases hw
        exact ⟨A', h'⟩
      · rw [bind_eq_some_iff] at hw
        obtain ⟨w₂, hmove, hw⟩ := hw
        cases hw
        exact ⟨A', ipsmove_listed h' hmove⟩

/-- **The list stays a list**, whatever is done. -/
theorem reached_listed {size : ℕ} {is : ℕ → Ipstate} {tq : Tq Tqid ℕ} (hf : Free room)
    (hr : Reached M seed room Legal (Softs.init size is tq) w) : ∃ A, Listed w A := by
  induction hr with
  | init =>
    refine ⟨[], fun _ => ⟨trivial, rfl⟩, ?_, rfl⟩
    simp [Softs.init]
  | edit op _ hl hs ih =>
    obtain ⟨A, h⟩ := ih
    exact step_listed h hl hs
  | packet ts rev _ hs ih =>
    obtain ⟨A, h⟩ := ih
    exact search_listed hf h hs

/-! ## Resizing -/

/-- **The walk of a resize** puts the entries of the rest `l` of the list in front of the chains of their hash
values, so that the last one comes first. -/
theorem rehashLoop_rep {l : List ℕ} : ∀ {i : ℕ} {w : Softs} {H : ℕ → List ℕ} {k : Link Unit ℕ},
    Rep w.table H → Seg w.list k l → l.length ≤ i → l.Nodup → (∀ e ∈ l, ∀ b, e ∉ H b) →
    Rep (rehashLoop i (w.list.get k) w).table fun b => (l.filter fun e => (w.is e).isHv % w.size = b).reverse ++ H b := by
  induction l with
  | nil =>
    intro i w H k h hs _ _ _
    have hg : w.list.get k = none := hs.2
    rw [hg]
    have hloop : rehashLoop i none w = w := by cases i <;> rfl
    rw [hloop]
    exact h
  | cons e l ih =>
    intro i w H k h hs hlen hnd hl
    obtain ⟨i, rfl⟩ : ∃ j, i = j + 1 := ⟨i - 1, by simp at hlen; omega⟩
    obtain ⟨hk, -, hrest⟩ := (seg_cons l).1 hs
    obtain ⟨hel, hnd'⟩ := nodup_cons.1 hnd
    have hout := hl e mem_cons_self
    rw [hk]
    have hpush := (h.forget hout none none).push hout ((w.is e).isHv % w.size)
    have hrest' : ∀ x ∈ l, ∀ b, x ∉ update H ((w.is e).isHv % w.size) (e :: H ((w.is e).isHv % w.size)) b := by
      intro x hx b hb
      have hxe : x ≠ e := fun hxe => hel (hxe ▸ hx)
      have hxout := hl x (mem_cons_of_mem _ hx)
      by_cases hbe : b = (w.is e).isHv % w.size
      · rw [hbe, update_self] at hb
        exact hxout _ ((mem_cons.1 hb).resolve_left hxe)
      · rw [update_of_ne hbe] at hb
        exact hxout b hb
    simp only [rehashLoop]
    have hloop := ih (i := i) (k := .next e) (w := { w with
      inuse := if ((w.table.set (.next e) none).setP e none).head
        ((w.is e).isHv % w.size) ≠ none then w.inuse else w.inuse + 1
      table := ((w.table.set (.next e) none).setP e none).link e (.head ((w.is e).isHv % w.size))
      bucketlen := w.count ((w.is e).isHv % w.size) 1 }) hpush hrest (by simp at hlen; omega) hnd' hrest'
    have heq : (fun b => ((e :: l).filter fun x => (w.is x).isHv % w.size = b).reverse ++ H b) =
        fun b => (l.filter fun x => (w.is x).isHv % w.size = b).reverse ++
          update H ((w.is e).isHv % w.size) (e :: H ((w.is e).isHv % w.size)) b := by
      funext b
      by_cases hb : (w.is e).isHv % w.size = b
      · subst hb
        rw [update_self, filter_cons_of_pos (by simp)]
        simp
      · rw [update_of_ne (Ne.symm hb), filter_cons_of_neg (by simpa using hb)]
    rw [heq]
    exact hloop

/-- The chains after a resize. -/
theorem rehash_rep (h : Listed w A) {n : ℕ} (hn : n ≠ w.size) :
    Rep (ipfStateRehash w n false).table (fun b => (A.filter fun e => (w.is e).isHv % n = b).reverse) ∧
      ∃ t c m, ipfStateRehash w n false = { w with table := t, bucketlen := c, inuse := m, size := n } := by
  have hskip : ¬(n = w.size ∨ false = true) := by simp [hn]
  unfold ipfStateRehash
  rw [if_neg hskip]
  refine ⟨?_, ?_⟩
  · have hloop := rehashLoop_rep (i := w.active.toNat) (k := .head ()) (w := { w with
      table := { w.table with head := fun _ => none }
      bucketlen := fun _ => 0
      size := n
      inuse := 0 }) (H := fun _ => []) (fun b => ⟨trivial, rfl⟩) (h.list ()) (by simp [h.active]) (h.list.nodup ())
      (by simp)
    simp only [append_nil] at hloop
    exact hloop
  · obtain ⟨t, c, m, heq⟩ := rehashLoop_frame w.active.toNat (w.list.head ()) { w with
      table := { w.table with head := fun _ => none }
      bucketlen := fun _ => 0
      size := n
      inuse := 0 }
    rw [heq]
    exact ⟨_, _, _, rfl⟩

/-- What a search says of an entry does not depend on the table. -/
theorem Try.hits_congr (h1 : w'.is = w.is) (h2 : w'.tq = w.tq) : t.hits M w' e = t.hits M w e := by
  unfold Try.hits
  rw [h1, h2]

theorem Try.misses_congr (h1 : w'.is = w.is) (h2 : w'.tq = w.tq) : t.misses M w' e = t.misses M w e := by
  unfold Try.misses
  rw [h1, h2]

theorem Try.declines_congr (h1 : w'.is = w.is) (h2 : w'.tq = w.tq) : t.declines M w' e = t.declines M w e := by
  unfold Try.declines
  rw [Try.misses_congr h1 h2, Try.hits_congr h1 h2, h1]

theorem lookupTry_ready (fin : FrInfo) (hv : Word) (wild tcp : Bool) (accept : Ipstate → Bool → ℕ → Bool)
    (move : Ipstate → Option Word) (h : w'.wild = w.wild) :
    (lookupTry fin hv wild tcp accept move).ready w' = (lookupTry fin hv wild tcp accept move).ready w := by
  simp only [lookupTry, h]

theorem icmp6_ready {icmp : ℕ → Icmpstate} {q : Quoted}
    (ht : t ∈ ipfCheckicmp6matchingstate icmp fin q) : t.ready w = true := by
  unfold ipfCheckicmp6matchingstate at ht
  split at ht
  · cases ht
  dsimp only at ht
  split at ht
  · split at ht
    · cases ht
    · rw [mem_singleton.1 ht]
      rfl
  · rw [mem_singleton.1 ht]
    rfl

/-- Whether a search is made depends on the number of wildcards only. -/
theorem lookup_ready {icmp : ℕ → Icmpstate} {window : ℕ → Bool → Bool} {q : Quoted}
    (ht : t ∈ ipfStateLookup M icmp fin window q) (h : w'.wild = w.wild) : t.ready w' = t.ready w := by
  unfold ipfStateLookup at ht
  dsimp only at ht
  split at ht
  · rcases mem_cons.1 ht with rfl | ht
    · exact lookupTry_ready fin _ _ _ _ _ h
    rcases mem_append.1 ht with ht | ht
    · split at ht
      · rw [mem_singleton.1 ht]
        exact lookupTry_ready fin _ _ _ _ _ h
      · cases ht
    · rw [icmp6_ready ht, icmp6_ready ht]
  split at ht
  · rw [mem_singleton.1 ht]
    exact lookupTry_ready fin _ _ _ _ _ h
  split at ht
  · simp only [mem_cons, not_mem_nil, or_false] at ht
    rcases ht with rfl | rfl | rfl <;> exact lookupTry_ready fin _ _ _ _ _ h
  · rw [mem_singleton.1 ht]
    exact lookupTry_ready fin _ _ _ _ _ h

/-- The chain of a bucket after a resize: what is behind an entry on the list comes before it. -/
theorem split_chain {p : ℕ → Bool} {l₁ l₂ : List ℕ} (hA : A = l₁ ++ e :: l₂) (he : p e = true) :
    (A.filter p).reverse = (l₂.filter p).reverse ++ e :: (l₁.filter p).reverse := by
  rw [hA, filter_append, filter_cons_of_pos he, reverse_append, reverse_cons, append_assoc, singleton_append]

/-- A copy is made for a packet with ports of an entry with wildcards only. -/
theorem copies_single {post : List Try}
    (hs : post = [] ∧ t.tcp = false ∨ (∀ t' ∈ post, t'.ready w = false) ∧ ∀ c, w.alloc c = true → (w.is c).Tame)
    {c : ℕ} (hc : w.alloc c = true) : t.copies (w.is c) = false := by
  unfold Try.copies
  refine decide_eq_false fun hcopy => ?_
  rcases hs with ⟨-, htcp⟩ | ⟨-, htame⟩
  · refine hcopy.1 ?_
    unfold matchFlags
    rw [htcp]
    have hmask : ~~~(SI_WILDP ||| SI_NEWFR ||| SI_CLONE ||| SI_CLONED) &&& SI_WILDP = (0 : Flags) := by decide
    rw [if_neg Bool.false_ne_true, BitVec.and_assoc, hmask]
    exact BitVec.and_zero
  · exact hcopy.1 ((htame c hc).matchFlags t.tcp).1

section

variable {size n : ℕ} {is : ℕ → Ipstate} {tq : Tq Tqid ℕ} {nomem : Bool} {ts : List Try}

/-- The table after a resize, as the list of all entries gives it. -/
theorem rehash_chains (hA : Listed w A) (hn : n ≠ w.size) : ∃ v : Softs, ipfStateRehash w n false = v ∧ v.is = w.is ∧
    v.tq = w.tq ∧
    v.wild = w.wild ∧ v.size = n ∧ Rep v.table (fun b => (A.filter fun e => (w.is e).isHv % n = b).reverse) ∧
    ∀ b, ((A.filter fun e => (w.is e).isHv % n = b).reverse).length ≤ v.active.toNat := by
  obtain ⟨hrep, t, c, m, heq⟩ := rehash_rep hA hn
  refine ⟨_, rfl, by rw [heq], by rw [heq], by rw [heq], by rw [heq], hrep, fun b => ?_⟩
  have hle := length_filter_le (fun e => decide ((w.is e).isHv % n = b)) A
  rw [heq, length_reverse]
  change _ ≤ w.active.toNat
  rw [hA.active]
  omega

/-- **Enough:** the searches come to the entry. -/
theorem refound_finds (hA : Listed w A) (rev : Bool) (hn : n ≠ w.size)
    (hwild : ∀ t ∈ ts, ∀ v : Softs, v.wild = w.wild →
    t.ready v = t.ready w) (h : Refound M seed ts w n e) (he : w.alloc e = true) :
    Finds M seed room ts (ipfStateRehash w n false) rev e := by
  obtain ⟨v, heq, h1, h2, h3, h4, hrep, hlen⟩ := rehash_chains hA hn
  obtain ⟨pre, t, post, rfl, hready, hhit, hbucket, hpre, hbehind⟩ := h
  obtain ⟨l₁, l₂, hsplit⟩ := append_of_mem ((hA.alloc e).1 he)
  have hchain := split_chain (p := fun c => decide ((w.is c).isHv % n = (w.is e).isHv % n)) hsplit (by simp)
  have hbucket' : (A.filter fun c => (w.is c).isHv % n = doubleHash seed v.size t.hv.toNat).reverse =
      (l₂.filter fun c => decide ((w.is c).isHv % n = (w.is e).isHv % n)).reverse ++
        e :: (l₁.filter fun c => decide ((w.is c).isHv % n = (w.is e).isHv % n)).reverse := by
    rw [h4, hbucket]
    exact hchain
  rw [heq]
  refine search_finds seed room rev hrep hlen ?_ ?_ hbucket' ?_ ?_
  · rw [hwild t (by simp) v h3]
    exact hready
  · intro t' ht' hr' c hc
    rw [h4, mem_reverse, List.mem_filter, decide_eq_true_eq] at hc
    rw [hwild t' (by simp [ht']) v h3] at hr'
    rw [Try.misses_congr h1 h2]
    exact hpre t' ht' hr' c ((hA.alloc c).2 hc.1) hc.2
  · intro c hc
    rw [mem_reverse, List.mem_filter, decide_eq_true_eq] at hc
    rw [Try.declines_congr h1 h2]
    exact hbehind (fun _ => A) hA.list l₁ l₂ hsplit c hc.1 hc.2
  · rw [Try.hits_congr h1 h2]
    exact hhit

/-- **Necessary:** a single search that finds the entry comes to it. -/
theorem finds_refound (hA : Listed w A) {rev : Bool} (hn : n ≠ w.size)
    (hwild : ∀ t ∈ ts, ∀ v : Softs, v.wild = w.wild →
    t.ready v = t.ready w) (hs : Single ts w) (h : Finds M seed room ts (ipfStateRehash w n false) rev e) :
    Refound M seed ts w n e := by
  obtain ⟨v, heq, h1, h2, h3, h4, hrep, hlen⟩ := rehash_chains hA hn
  obtain ⟨t, post, rfl, hs⟩ := hs
  have hmem : ∀ {b c : ℕ}, c ∈ (A.filter fun e => (w.is e).isHv % n = b).reverse → w.alloc c = true := fun hc =>
    (hA.alloc _).2 (List.mem_filter.1 (mem_reverse.1 hc)).1
  rw [heq] at h
  obtain ⟨hready, hfind⟩ := search_single seed room rev hrep hlen
    (fun b c hc => by
      rw [h1]
      exact copies_single hs (hmem hc))
    (hs.imp (fun h => h.1) fun ⟨hoff, htame⟩ => ⟨fun b c hc => by
      rw [h1]
      exact htame c (hmem hc), fun t' ht' v' hv' => by
      rw [hwild t' (mem_cons_of_mem _ ht') v' (hv'.trans h3)]
      exact hoff t' ht'⟩) h
  obtain ⟨hhit, l, l', hsplit, hl⟩ := find?_eq_some_iff_append.1 hfind
  have hein : e ∈ (A.filter fun c => (w.is c).isHv % n = doubleHash seed v.size t.hv.toNat).reverse := by
    rw [hsplit]
    exact mem_append_right _ mem_cons_self
  have hbucket : (w.is e).isHv % n = doubleHash seed n t.hv.toNat := by
    rw [mem_reverse, List.mem_filter, decide_eq_true_eq, h4] at hein
    exact hein.2
  refine ⟨[], t, post, rfl, ?_, ?_, hbucket.symm, nofun, fun L hL l₁ l₂ hA' c hc hcb => ?_⟩
  · rwa [hwild t mem_cons_self v h3] at hready
  · rwa [Try.hits_congr h1 h2] at hhit
  · -- `c` is in front of the entry in the chain, so it was not accepted
    obtain rfl : A = L () := (hA.list ()).unique (hL ())
    have hchain := split_chain (p := fun c => decide ((w.is c).isHv % n = doubleHash seed v.size t.hv.toNat)) hA'
      (by rw [h4]; simpa using hbucket)
    rw [hchain] at hsplit
    have hnd := hrep.nodup (doubleHash seed v.size t.hv.toNat)
    rw [hchain] at hnd
    have hel₂ : e ∉ (l₂.filter fun c => decide ((w.is c).isHv % n = doubleHash seed v.size t.hv.toNat)).reverse :=
      fun hmem =>
      (nodup_append.1 hnd).2.2 e hmem e mem_cons_self rfl
    have hpre := (append_cons_inj_of_notMem hel₂ (nodup_cons.1 (nodup_append.1 hnd).2.1).1).1 hsplit
    have hno := hl c (by
      rw [← hpre.1, mem_reverse, List.mem_filter, decide_eq_true_eq, h4, ← hbucket]
      exact ⟨hc, hcb⟩)
    rw [Try.hits_congr h1 h2] at hno
    unfold Try.declines
    rw [copies_single hs ((hA.alloc c).2 (by rw [hA']; simp [hc])), Bool.not_false, Bool.true_and, hno, Bool.or_true]

/-- **Lookups after a resize**, in every table one can get to. The list of all entries is the same. A packet that found an
entry still finds it if nothing was resized or its searches come to the entry; where it makes a single search, it finds
the entry in no other case. -/
theorem rehash_lookup (hf : Free room) (hr : Reached M seed room Legal (Softs.init size is tq) w) (icmp : ℕ → Icmpstate)
    (fin : FrInfo) (window : ℕ → Bool → Bool) (q : Quoted) (rev : Bool) (n : ℕ) (nomem : Bool) (he : w.alloc e = true) :
    (ipfStateRehash w n nomem).list = w.list ∧
      (n = w.size ∨ nomem = true ∨ Refound M seed (ipfStateLookup M icmp fin window q) w n e →
        Finds M seed room (ipfStateLookup M icmp fin window q) w rev e →
        Finds M seed room (ipfStateLookup M icmp fin window q) (ipfStateRehash w n nomem) rev e) ∧
      (Single (ipfStateLookup M icmp fin window q) w →
        Finds M seed room (ipfStateLookup M icmp fin window q) (ipfStateRehash w n nomem) rev e →
        n = w.size ∨ nomem = true ∨ Refound M seed (ipfStateLookup M icmp fin window q) w n e) := by
  obtain ⟨t, c, m, s, hframe⟩ := rehash_frame w n nomem
  obtain ⟨A, hA⟩ := reached_listed hf hr
  have hwild : ∀ t ∈ ipfStateLookup M icmp fin window q, ∀ v : Softs, v.wild = w.wild → t.ready v = t.ready w :=
    fun t ht v hv => lookup_ready ht hv
  refine ⟨by rw [hframe], fun hcond hfound => ?_, fun hs hfound => ?_⟩
  · by_cases hskip : n = w.size ∨ nomem = true
    · have hsame : ipfStateRehash w n nomem = w := by
        unfold ipfStateRehash
        rw [if_pos hskip]
      rwa [hsame]
    · have hn : n ≠ w.size := fun hn => hskip (.inl hn)
      obtain rfl : nomem = false := by simpa using fun hm => hskip (.inr hm)
      exact refound_finds hA rev hn hwild ((or_assoc.2 hcond).resolve_left hskip) he
  · by_cases hskip : n = w.size ∨ nomem = true
    · exact or_assoc.1 (.inl hskip)
    · have hn : n ≠ w.size := fun hn => hskip (.inl hn)
      obtain rfl : nomem = false := by simpa using fun hm => hskip (.inr hm)
      exact .inr (.inr (finds_refound hA hn hwild hs hfound))

end

/-- A packet of protocol 9 without addresses: its hash value is 9. -/
def plainPacket : FrInfo where
  finV := 4
  finP := 9
  finSrc := I6addr.zero
  finDst := I6addr.zero
  finOut := false
  finRev := false
  finFlx := 0
  finIfp := none
  finIfname := []
  finData _ := 0
  finOptmsk := 0
  finSecmsk := 0
  finAuth := 0
  icmpType := 0
  icmpId := 0

def noRoom : Softs → Room := fun _ => ⟨none, true, 0⟩

theorem noRoom_free : Free noRoom := by
  intro w c hc
  cases hc

def noIcmp : ℕ → Icmpstate := fun _ => ⟨0, 0, fun _ _ => 0, fun _ _ => 0, false⟩

def noQuoted : Quoted := ⟨true, plainPacket, 0, I6addr.zero, I6addr.zero, 0, 0, 0⟩

/-- Its entry, in bucket 1 of 8. -/
def plainEntry : Op := .insert 0 { Ipstate.zero with isHv := 1, isRef := 1, isP := 9, isV := 4 } false false 0

def bigEndian : Machine := ⟨false, 0⟩

def plainTable : Softs :=
  ((step (fun _ => 0) eightBuckets plainEntry).getD eightBuckets)

theorem plainTable_reached : Reached bigEndian (fun _ => 0) noRoom Legal eightBuckets plainTable :=
  .edit plainEntry .init rfl rfl

theorem plainTable_finds :
    Finds bigEndian (fun _ => 0) noRoom (ipfStateLookup bigEndian noIcmp plainPacket (fun _ _ => true) noQuoted)
      plainTable false 0 := ⟨_, _, rfl⟩

/-- Of eight buckets to four: 1 is the bucket of 9 in both. -/
theorem rehash_lookup_shrink :
    Finds bigEndian (fun _ => 0) noRoom (ipfStateLookup bigEndian noIcmp plainPacket (fun _ _ => true) noQuoted)
      (ipfStateRehash plainTable 4 false) false 0 := by
  have hts : ipfStateLookup bigEndian noIcmp plainPacket (fun _ _ => true) noQuoted =
    [lookupTry plainPacket 9 false false (fun _ _ _ => true) fun _ => none] := rfl
  refine (rehash_lookup noRoom_free plainTable_reached noIcmp plainPacket (fun _ _ => true) noQuoted false 4 false rfl).2.1
    (.inr (.inr ?_)) plainTable_finds
  rw [hts]
  refine ⟨[], _, [], rfl, rfl, rfl, rfl, nofun, fun L hL l₁ l₂ hl c hc _ => ?_⟩
  obtain ⟨A, hA⟩ := reached_listed noRoom_free plainTable_reached
  have hAL : A = L () := (hA.list ()).unique (hL ())
  -- there is no other entry
  have hlen : (L ()).length = 1 := by rw [← hAL]; exact Int.ofNat.inj hA.active.symm
  rw [hl] at hlen
  simp only [length_append, length_cons] at hlen
  have hl₂ : l₂ = [] := length_eq_zero_iff.1 (by omega)
  rw [hl₂] at hc
  cases hc

/-- **A packet no longer finds its entry.** Of eight buckets to sixteen: the entry stays in bucket 1, and the
packet looks in bucket 9. -/
theorem rehash_loses : ¬∀ (M : Machine) (seed : ℕ → ℕ) (room : Softs → Room) (size : ℕ) (is : ℕ → Ipstate)
    (tq : Tq Tqid ℕ) (w : Softs), Free room → Reached M seed room Legal (Softs.init size is tq) w →
    ∀ (icmp : ℕ → Icmpstate) (fin : FrInfo) (window : ℕ → Bool → Bool) (q : Quoted) (rev : Bool) (n e : ℕ),
      0 < n →
      Finds M seed room (ipfStateLookup M icmp fin window q) w rev e →
        Finds M seed room (ipfStateLookup M icmp fin window q) (ipfStateRehash w n false) rev e := by
  intro hc
  obtain ⟨w', rev', hs⟩ := hc _ _ _ _ _ _ _ noRoom_free plainTable_reached noIcmp plainPacket (fun _ _ => true) noQuoted
    false 16 0 (by decide) plainTable_finds
  have hnone : (search bigEndian (fun _ => 0) noRoom
      (ipfStateLookup bigEndian noIcmp plainPacket (fun _ _ => true) noQuoted) (ipfStateRehash plainTable 16 false)
      false).map (·.2.2) = some none := rfl
  rw [hs] at hnone
  cases hnone

end Ipfilter.State
