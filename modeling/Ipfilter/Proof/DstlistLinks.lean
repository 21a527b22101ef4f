import Ipfilter.Chain.Linked
import Ipfilter.Spec.Dstlist

/-!
# Slots and chains of destination lists

* `Arrays`: the slots of an array and the chain at its first slot hold the same nodes in the same order.
* `Arrays.append`, `Arrays.enter`, `Arrays.grow`: a new node at the end, a first array, and a larger one.
* `Arrays.detach`: a node less.
* `Shape`: the same for the lists, without their arrays.
-/

namespace Ipfilter.Dstlist

open Chain List
open Function (update update_of_ne update_self)

variable {Name : Type} {w w' : Softd Name} {T : List ℕ} {L : ℕ → List ℕ} {d a x : ℕ} {l l₁ l₂ : List ℕ}

/-- **The first slots of an array** hold the nodes of `l`. -/
def Softd.Holds (w : Softd Name) (a : ℕ) (l : List ℕ) : Prop := ∀ j < l.length, w.slot a j = l[j]?

/-- **Slots and chains agree.** `T` are the arrays of lists, and `L` gives the nodes of each. -/
structure Arrays (w : Softd Name) (T : List ℕ) (L : ℕ → List ℕ) : Prop where
  linked : Linked w.mem T L
  tabs : ∀ a, a ∈ T ↔ ∃ d, w.allocTab d = true ∧ (w.tab d).dests = some a
  own : ∀ d d' a, w.allocTab d = true → w.allocTab d' = true → (w.tab d).dests = some a →
    (w.tab d').dests = some a → d = d'
  nodes : ∀ d a, w.allocTab d = true → (w.tab d).dests = some a →
    (L a).length = (w.tab d).nodes ∧ (w.tab d).nodes ≤ (w.tab d).maxnodes ∧ 0 < (w.tab d).maxnodes
  slots : ∀ a ∈ T, w.Holds a (L a)
  bare : ∀ d, w.allocTab d = true → (w.tab d).dests = none → (w.tab d).nodes = 0 ∧ (w.tab d).maxnodes = 0
  alloc : ∀ a ∈ T, w.allocArr a = true

/-- What is not looked at may change. -/
theorem Arrays.congr (h : Arrays w T L) (hmem : Linked w'.mem T L) (hhead : ∀ a ∈ T, w'.mem.head a = w.mem.head a)
    (hslots : w'.slots = w.slots) (htab : w'.allocTab = w.allocTab) (harr : w'.allocArr = w.allocArr)
    (hdst : ∀ d, (w'.tab d).dests = (w.tab d).dests ∧ (w'.tab d).nodes = (w.tab d).nodes ∧
      (w'.tab d).maxnodes = (w.tab d).maxnodes) : Arrays w' T L := by
  refine ⟨hmem, fun a => ?_, fun d d' a => ?_, fun d a => ?_, fun a ha j hj => ?_, fun d => ?_, fun a ha => ?_⟩
  · rw [htab]
    simp only [(hdst _).1]
    exact h.tabs a
  · rw [htab, (hdst d).1, (hdst d').1]
    exact h.own d d' a
  · rw [htab, (hdst d).1, (hdst d).2.1, (hdst d).2.2]
    exact h.nodes d a
  · rw [← h.slots a ha j hj]
    unfold Softd.slot
    rw [hslots, hhead a ha]
  · rw [htab, (hdst d).1, (hdst d).2.1, (hdst d).2.2]
    exact h.bare d
  · rw [harr]
    exact h.alloc a ha

/-- The array of a list is in use. -/
theorem Arrays.mem (h : Arrays w T L) (hd : w.allocTab d = true) (ha : (w.tab d).dests = some a) : a ∈ T :=
  (h.tabs a).2 ⟨d, hd, ha⟩

theorem Arrays.head (h : Arrays w T L) (ha : a ∈ T) : w.mem.head a = (L a).head? := (h.linked.seg ha).head?

variable {mem : Mem ℕ ℕ} {slots : ℕ → ℕ → Option ℕ}

/-- **The nodes of one list change,** and with them the slots of its array. -/
theorem Arrays.edit (h : Arrays w T L) (hd : w.allocTab d = true) (ha : (w.tab d).dests = some a)
    (slots : ℕ → ℕ → Option ℕ) (hlinked : Linked mem T (update L a l)) (hle : l.length ≤ (w.tab d).maxnodes)
    (hslots : ∀ j < l.length, j ≠ 0 → slots a j = l[j]?) (hother : ∀ b, b ≠ a → slots b = w.slots b) :
    Arrays { w with mem := mem, slots := slots, tab := update w.tab d { w.tab d with nodes := l.length } } T
      (update L a l) := by
  have htab : ∀ d₁, (update w.tab d { w.tab d with nodes := l.length } d₁).dests = (w.tab d₁).dests ∧
      (update w.tab d { w.tab d with nodes := l.length } d₁).maxnodes = (w.tab d₁).maxnodes := by
    intro d₁
    by_cases h1 : d₁ = d
    · subst h1
      simp
    · simp [h1]
  refine ⟨hlinked, fun b => ?_, fun d₁ d₂ b => ?_, fun d₁ b h1 hb => ?_, fun b hb j hj => ?_, fun d₁ h1 hb => ?_,
    h.alloc⟩
  · simp only [(htab _).1]
    exact h.tabs b
  · dsimp only
    rw [(htab d₁).1, (htab d₂).1]
    exact h.own d₁ d₂ b
  · dsimp only at hb ⊢
    rw [(htab d₁).1] at hb
    rw [(htab d₁).2]
    by_cases h2 : d₁ = d
    · subst h2
      obtain rfl : b = a := Option.mem_unique hb ha
      rw [update_self, update_self]
      exact ⟨rfl, hle, (h.nodes d₁ b h1 hb).2.2⟩
    · have hba : b ≠ a := by
        rintro rfl
        exact h2 (h.own d₁ d b h1 hd hb ha)
      rw [update_of_ne h2, update_of_ne hba]
      exact h.nodes d₁ b h1 hb
  · unfold Softd.slot
    by_cases hj0 : j = 0
    · -- the first slot is the head of the chain
      rw [if_pos hj0, hj0, ← head?_eq_getElem?]
      exact (hlinked.seg hb).head?
    rw [if_neg hj0]
    dsimp only
    by_cases hba : b = a
    · subst hba
      rw [update_self] at hj ⊢
      exact hslots j hj hj0
    · rw [update_of_ne hba] at hj ⊢
      rw [hother b hba, ← h.slots b hb j hj]
      exact (if_neg hj0).symm
  · dsimp only at hb ⊢
    rw [(htab d₁).1] at hb
    rw [(htab d₁).2]
    have h2 : d₁ ≠ d := by
      rintro rfl
      rw [ha] at hb
      cases hb
    rw [update_of_ne h2]
    exact h.bare d₁ h1 hb

/-! ## A node less -/

/-- `ipf_dstlist_node_free` up to the end, where the reference of the list is dropped. -/
def Softd.detach (w : Softd Name) (d a x : ℕ) : Softd Name :=
  let n := (w.tab d).nodes
  let w := w.compact a n (w.index a n x)
  let w := w.updTab d fun t => { t with nodes := t.nodes - 1 }
  let w := { w with mem := unlink w.mem x }
  if (w.node x).deleted then w
  else { w.updNode x fun n => { n with deleted := true } with numderefnodes := w.numderefnodes + 1 }

theorem nodeFree_eq (w : Softd Name) (d a x : ℕ) : ipfDstlistNodeFree w d a x = ipfDstlistNodeDeref (w.detach d a x) x := rfl

/-- The slot of a node is its place in the list. -/
theorem Arrays.index (h : Arrays w T L) (ha : a ∈ T) (e : L a = l₁ ++ x :: l₂) :
    w.index a (L a).length x = l₁.length := by
  have hslot := h.slots a ha
  have hlen : l₁.length < (L a).length := by
    rw [e]
    simp
  have hfind : (range (L a).length).find? (fun i => w.slot a i = some x) = some l₁.length := by
    rw [find?_eq_some_iff_getElem]
    refine ⟨?_, l₁.length, by simpa using hlen, by simp, fun j hj => ?_⟩
    · rw [decide_eq_true_eq, hslot _ hlen, e]
      simp
    · have hj' : j < (L a).length := lt_trans hj hlen
      rw [getElem_range, hslot j hj', e, getElem?_append_left hj]
      have hnd := h.linked.lists.nodup a
      rw [e, nodup_middle, nodup_cons, mem_append, not_or] at hnd
      have hne : l₁[j]? ≠ some x := fun hc => hnd.1.1 (mem_of_getElem? hc)
      simp [hne]
  unfold Softd.index
  rw [hfind]
  rfl

/-- A node leaves its chain, also after the slots have moved. -/
theorem unlink_removed {m m₁ : Mem ℕ ℕ} {k : Link ℕ ℕ} (hp : m.pnext x = some k) (hnext : m₁.next = m.next)
    (hpnext : m₁.pnext = m.pnext) (hget : ∀ y, y ≠ k → m₁.get y = m.get y) : Removed m (unlink m₁ x) x k := by
  have hcut : unlink m₁ x = m₁.cut x := by
    unfold unlink Mem.cut
    rw [hpnext, hp]
  have hr := m₁.cut_removed (by rw [hpnext]; exact hp : m₁.pnext x = some k)
  rw [hcut]
  refine ⟨fun hk => ?_, fun y h1 h2 => ?_, fun y => ?_, fun y => ?_⟩
  · rw [hr.place hk, hnext]
  · rw [hr.get y h1 h2, hget y h1]
  · rw [← hnext]
    exact hr.succ y
  · rw [← hnext, ← hpnext]
    exact hr.pnext y

theorem unlink_next {m : Mem ℕ ℕ} : (unlink m x).next x = none := by
  unfold unlink
  simp

/-- The memory after the slots have moved differs from before at the first slot only. -/
theorem compact_mem (w : Softd Name) (a n i : ℕ) : (w.compact a n i).mem.next = w.mem.next ∧
    (w.compact a n i).mem.pnext = w.mem.pnext ∧ ∀ y, (i = 0 → y ≠ .head a) →
    (w.compact a n i).mem.get y = w.mem.get y := by
  unfold Softd.compact
  split
  · dsimp only
    split
    · rename_i hi
      refine ⟨?_, by simp, fun y hy => by simp [hy hi]⟩
      funext z
      simp
    · exact ⟨rfl, rfl, fun _ _ => rfl⟩
  · exact ⟨rfl, rfl, fun _ _ => rfl⟩

theorem compact_node (w : Softd Name) (a n i : ℕ) : (w.compact a n i).node = w.node := by
  unfold Softd.compact
  split <;> rfl

theorem detach_eq (hdel : (w.node x).deleted = false) : w.detach d a x = { w with
    mem := unlink (w.compact a (w.tab d).nodes (w.index a (w.tab d).nodes x)).mem x
    slots := (w.compact a (w.tab d).nodes (w.index a (w.tab d).nodes x)).slots
    tab := update w.tab d { w.tab d with nodes := (w.tab d).nodes - 1 }
    numderefnodes := w.numderefnodes + 1
    node := update w.node x { w.node x with deleted := true } } := by
  have hnode := compact_node w a (w.tab d).nodes (w.index a (w.tab d).nodes x)
  unfold Softd.detach
  dsimp only [Softd.updTab, Softd.updNode]
  rw [if_neg (by rw [hnode, hdel]; simp)]
  unfold Softd.compact
  split <;> rfl

/-- **A node less:** the slots behind it move, and it leaves its chain. -/
theorem Arrays.detach (h : Arrays w T L) (hd : w.allocTab d = true) (ha : (w.tab d).dests = some a)
    (e : L a = l₁ ++ x :: l₂) (hdel : (w.node x).deleted = false) :
      Arrays (w.detach d a x) T (update L a (l₁ ++ l₂)) := by
  have haT := h.mem hd ha
  obtain ⟨hlen, hle, hmax⟩ := h.nodes d a hd ha
  have hn : (w.tab d).nodes = l₁.length + l₂.length + 1 := by
    rw [← hlen, e]
    simp
    omega
  have hindex := h.index haT e
  rw [hlen] at hindex
  obtain ⟨hnext, hpnext, hget⟩ := compact_mem w a (w.tab d).nodes l₁.length
  have hplace : ∀ y, y ≠ lastLink (.head a) l₁ → (w.compact a (w.tab d).nodes l₁.length).mem.get y = w.mem.get y := by
    intro y hy
    refine hget y fun h0 hc => hy ?_
    rw [length_eq_zero_iff.1 h0]
    exact hc
  have hremoved := unlink_removed (h.linked.pnext e) hnext hpnext hplace
  have hlinked := h.linked.remove haT e rfl hremoved
  have hslot : ∀ i, i < l₁.length + l₂.length + 1 → w.slot a i = (l₁ ++ x :: l₂)[i]? := by
    intro i hi
    rw [← e]
    exact h.slots a haT i (by omega)
  have hedit := h.edit hd ha (w.compact a (w.tab d).nodes l₁.length).slots hlinked
    (by rw [length_append]; omega) (fun j hj hj0 => ?_) fun b hba => ?_
  · have hnodes : (l₁ ++ l₂).length = (w.tab d).nodes - 1 := by
      rw [length_append]
      omega
    rw [hnodes] at hedit
    rw [detach_eq hdel, hindex]
    exact hedit.congr hedit.linked (fun _ _ => rfl) rfl rfl rfl fun _ => ⟨rfl, rfl, rfl⟩
  · rw [length_append] at hj
    unfold Softd.compact
    by_cases hji : j < l₁.length
    · -- before the node
      have hold : w.slots a j = l₁[j]? := by
        have := hslot j (by omega)
        rw [getElem?_append_left hji] at this
        rw [← this]
        exact (if_neg hj0).symm
      rw [getElem?_append_left hji, ← hold]
      split
      · dsimp only
        rw [update_self, if_neg (by omega)]
      · rfl
    · -- behind the node
      have hold : w.slot a (j + 1) = l₂[j - l₁.length]? := by
        rw [hslot (j + 1) (by omega), getElem?_append_right (by omega),
          show j + 1 - l₁.length = (j - l₁.length) + 1 by omega]
        rfl
      rw [if_pos (by omega)]
      dsimp only
      rw [update_self, if_pos (by omega), hold, getElem?_append_right (by omega)]
  · unfold Softd.compact
    split
    · dsimp only
      rw [update_of_ne hba]
    · rfl

/-! ## A node more -/

/-- A node is put at a place where nothing is, also after that place was written. -/
theorem plug_inserted {m m₀ : Mem ℕ ℕ} {k : Link ℕ ℕ} (hk : m.get k = none) (hnext : m.next x = none)
    (hkx : k ≠ .next x) (hget : ∀ y, y ≠ k → m₀.get y = m.get y) (hpnext : m₀.pnext = m.pnext) :
    Inserted m ((m₀.setP x (some k)).set k (some x)) x k := by
  refine ⟨by simp, fun _ => ?_, by simp, fun y h1 h2 => ?_, fun y hy => ?_, fun y _ hy => ?_⟩
  · have h1 := hget (.next x) (Ne.symm hkx)
    rw [next_get, next_get, hnext] at h1
    rw [next_set, if_neg hkx, next_setP, h1, hk]
  · rw [get_set, if_neg h1, get_setP]
    exact hget y h1
  · rw [hk] at hy
    cases hy
  · rw [pnext_set, pnext_setP, if_neg hy, hpnext]

theorem setSlot_eq (w : Softd Name) (a i : ℕ) (v : Option ℕ) :
    w.setSlot a i v = { w with mem := (w.setSlot a i v).mem, slots := (w.setSlot a i v).slots } := by
  unfold Softd.setSlot
  split <;> rfl

/-- The memory after a node is put into the next slot and to the end of the chain. -/
theorem append_eq (h : Arrays w T L) (hd : w.allocTab d = true) (ha : (w.tab d).dests = some a) :
    w.append d x = some { w with
      mem := ((w.setSlot a (w.tab d).nodes (some x)).mem.setP x (some (lastLink (.head a) (L a)))).set
        (lastLink (.head a) (L a)) (some x)
      slots := (w.setSlot a (w.tab d).nodes (some x)).slots
      tab := update w.tab d { w.tab d with nodes := (w.tab d).nodes + 1 } } := by
  obtain ⟨hlen, hle, hmax⟩ := h.nodes d a hd ha
  unfold Softd.append
  rw [ha]
  dsimp only
  rw [setSlot_eq]
  split
  · rename_i hn
    rw [hn] at hlen
    rw [length_eq_zero_iff.1 hlen]
    rfl
  · rename_i hn
    obtain ⟨l, y, hl⟩ : ∃ l y, L a = l ++ [y] := by
      have hne : L a ≠ [] := by
        intro hc
        rw [hc] at hlen
        exact hn hlen.symm
      exact ⟨_, _, (dropLast_append_getLast hne).symm⟩
    have hslot : (w.setSlot a (w.tab d).nodes (some x)).slot a ((w.tab d).nodes - 1) = some y := by
      have hlast := h.slots a (h.mem hd ha) ((w.tab d).nodes - 1) (by omega)
      have hy : (L a)[(w.tab d).nodes - 1]? = some y := by
        rw [← hlen, hl]
        simp
      rw [hy] at hlast
      rw [← hlast]
      unfold Softd.setSlot Softd.slot
      rw [if_neg hn]
      dsimp only
      have hne : (w.tab d).nodes - 1 ≠ (w.tab d).nodes := by omega
      rw [update_self, update_of_ne hne]
    rw [hl, lastLink_concat]
    split
    · rename_i hs
      cases hs.symm.trans hslot
    · rename_i hs
      obtain rfl := Option.mem_unique hs hslot
      rfl

/-- **A node more:** it goes into the next slot and to the end of the chain. -/
theorem Arrays.append (h : Arrays w T L) (hd : w.allocTab d = true) (ha : (w.tab d).dests = some a)
    (hroom : (w.tab d).nodes < (w.tab d).maxnodes) (hfresh : ∀ b, x ∉ L b) (hnext : w.mem.next x = none) :
    ∃ mem slots, w.append d x = some { w with
        mem := mem, slots := slots, tab := update w.tab d { w.tab d with nodes := (w.tab d).nodes + 1 } } ∧
      Arrays { w with
        mem := mem, slots := slots, tab := update w.tab d { w.tab d with nodes := (w.tab d).nodes + 1 } } T
        (update L a (L a ++ [x])) ∧
      ∀ z, z ≠ x → z ∉ L a → mem.next z = w.mem.next z := by
  have haT := h.mem hd ha
  obtain ⟨hlen, hle, hmax⟩ := h.nodes d a hd ha
  have hend := h.linked.lists.get haT (append_nil (L a)).symm
  rw [head?_nil] at hend
  have hkx : lastLink (.head a) (L a) ≠ .next x := by
    rcases lastLink_cases (k := Link.head (N := ℕ) a) (L a) with hc | ⟨z, hz, hc⟩
    · rw [hc]
      simp
    · rw [hc]
      rintro ⟨⟩
      exact hfresh a hz
  have hinserted : Inserted w.mem (((w.setSlot a (w.tab d).nodes (some x)).mem.setP x (some (lastLink (.head a) (L a)))).set
      (lastLink (.head a) (L a)) (some x)) x (lastLink (.head a) (L a)) := by
    refine plug_inserted hend hnext hkx (fun y hy => ?_) ?_
    · unfold Softd.setSlot
      split
      · -- the slot is where the node is linked in
        rename_i hn
        rw [hn] at hlen
        rw [length_eq_zero_iff.1 hlen, lastLink] at hy
        dsimp only
        rw [get_set, if_neg hy]
      · rfl
    · unfold Softd.setSlot
      split
      · simp
      · rfl
  have hlinked := h.linked.insert haT (append_nil (L a)).symm hfresh rfl hinserted
  have hlen' : (L a ++ [x]).length = (w.tab d).nodes + 1 := by
    rw [length_append, hlen]
    rfl
  have hedit := h.edit hd ha (w.setSlot a (w.tab d).nodes (some x)).slots hlinked (by omega) (fun j hj hj0 => ?_)
    fun b hba => ?_
  · rw [hlen'] at hedit
    refine ⟨_, _, append_eq h hd ha, hedit, fun z hzx hz => ?_⟩
    have hzk : Link.next z ≠ lastLink (.head a) (L a) := by
      rcases lastLink_cases (k := Link.head (N := ℕ) a) (L a) with hc | ⟨y, hy, hc⟩
      · rw [hc]
        simp
      · rw [hc]
        rintro ⟨⟩
        exact hz hy
    exact hinserted.get (.next z) hzk (by simpa using hzx)
  · unfold Softd.setSlot
    split
    · omega
    · dsimp only
      rw [update_self]
      by_cases hjn : j = (w.tab d).nodes
      · rw [hjn, update_self, ← hlen]
        simp
      · have hjl : j < (L a).length := by omega
        rw [update_of_ne hjn, getElem?_append_left hjl, ← h.slots a haT j hjl]
        exact (if_neg hj0).symm
  · unfold Softd.setSlot
    split
    · rfl
    · dsimp only
      rw [update_of_ne hba]

/-! ## A larger array -/

/-- A list gets the array `a`, with one slot more, into which `mem` and `slots` put what was there before. -/
def Softd.enter (w : Softd Name) (d a : ℕ) (mem : Mem ℕ ℕ) (slots : ℕ → ℕ → Option ℕ)
    (allocArr : ℕ → Bool) : Softd Name :=
  { w with
    mem := mem
    slots := slots
    tab := update w.tab d { w.tab d with dests := some a, maxnodes := (w.tab d).maxnodes + 1 }
    allocArr := update allocArr a true }

theorem Arrays.enter (h : Arrays w T L) (hd : w.allocTab d = true) (hfull : (w.tab d).nodes = (w.tab d).maxnodes)
    (haT : a ∉ T) {allocArr : ℕ → Bool} {T' : List ℕ} {L' : ℕ → List ℕ}
    (hT : ∀ b, b ∈ T' ↔ b = a ∨ b ∈ T ∧ (w.tab d).dests ≠ some b) (hlinked : Linked mem T' L')
    (hlen : (L' a).length = (w.tab d).nodes) (hslots : ∀ j < (L' a).length, j ≠ 0 → slots a j = (L' a)[j]?)
    (hother : ∀ b, b ≠ a → slots b = w.slots b)
    (hkeep : ∀ b ∈ T, (w.tab d).dests ≠ some b → allocArr b = true ∧ L' b = L b) :
    Arrays (w.enter d a mem slots allocArr) T' L' := by
  have hself : (update w.tab d { w.tab d with dests := some a, maxnodes := (w.tab d).maxnodes + 1 } d).dests = some a := by
    rw [update_self]
  have hnot : ∀ d₁, w.allocTab d₁ = true → (w.tab d₁).dests ≠ some a := fun d₁ h1 hc => haT (h.mem h1 hc)
  unfold Softd.enter
  refine ⟨hlinked, fun b => ?_, fun d₁ d₂ b h1 h2 hb1 hb2 => ?_, fun d₁ b h1 hb => ?_, fun b hb j hj => ?_,
    fun d₁ h1 hb => ?_, fun b hb => ?_⟩
  · dsimp only
    rw [hT]
    constructor
    · rintro (rfl | ⟨hbT, hbd⟩)
      · exact ⟨d, hd, hself⟩
      · obtain ⟨d₁, h1, hb⟩ := (h.tabs b).1 hbT
        have h2 : d₁ ≠ d := fun hc => hbd (hc ▸ hb)
        exact ⟨d₁, h1, by rw [update_of_ne h2]; exact hb⟩
    · rintro ⟨d₁, h1, hb⟩
      by_cases h2 : d₁ = d
      · rw [h2, hself] at hb
        exact .inl (Option.some.inj hb).symm
      · rw [update_of_ne h2] at hb
        exact .inr ⟨h.mem h1 hb, fun hc => h2 (h.own d₁ d b h1 hd hb hc)⟩
  · dsimp only at hb1 hb2
    by_cases h3 : d₁ = d <;> by_cases h4 : d₂ = d
    · rw [h3, h4]
    · rw [h3, hself] at hb1
      rw [update_of_ne h4, ← hb1] at hb2
      exact absurd hb2 (hnot d₂ h2)
    · rw [h4, hself] at hb2
      rw [update_of_ne h3, ← hb2] at hb1
      exact absurd hb1 (hnot d₁ h1)
    · rw [update_of_ne h3] at hb1
      rw [update_of_ne h4] at hb2
      exact h.own d₁ d₂ b h1 h2 hb1 hb2
  · dsimp only at hb ⊢
    by_cases h2 : d₁ = d
    · rw [h2, hself] at hb
      cases hb
      rw [h2, update_self]
      dsimp only
      omega
    · rw [update_of_ne h2] at hb ⊢
      have hbd : (w.tab d).dests ≠ some b := fun hc => h2 (h.own d₁ d b h1 hd hb hc)
      rw [(hkeep b (h.mem h1 hb) hbd).2]
      exact h.nodes d₁ b h1 hb
  · unfold Softd.slot
    by_cases hj0 : j = 0
    · rw [if_pos hj0, hj0, ← head?_eq_getElem?]
      exact (hlinked.seg hb).head?
    rw [if_neg hj0]
    dsimp only
    rcases (hT b).1 hb with rfl | ⟨hbT, hbd⟩
    · exact hslots j hj hj0
    · rw [(hkeep b hbT hbd).2] at hj ⊢
      rw [hother b fun hc => haT (hc ▸ hbT), ← h.slots b hbT j hj]
      exact (if_neg hj0).symm
  · dsimp only at hb ⊢
    have h2 : d₁ ≠ d := by
      rintro rfl
      rw [hself] at hb
      cases hb
    rw [update_of_ne h2] at hb ⊢
    exact h.bare d₁ h1 hb
  · dsimp only
    rcases (hT b).1 hb with rfl | ⟨hbT, hbd⟩
    · rw [update_self]
    · have hba : b ≠ a := fun hc => haT (hc ▸ hbT)
      rw [update_of_ne hba]
      exact (hkeep b hbT hbd).1

/-- **A first array.** What is in its first slot does not matter. -/
theorem Arrays.start (h : Arrays w T L) (hd : w.allocTab d = true) (hnone : (w.tab d).dests = none) (haT : a ∉ T) :
    w.grow d a = some (w.enter d a w.mem w.slots w.allocArr) ∧
      Arrays (w.enter d a (w.mem.set (.head a) none) w.slots w.allocArr) (a :: T) L := by
  obtain ⟨hn, hmax⟩ := h.bare d hd hnone
  have hnil := h.linked.lists.eq_nil haT
  refine ⟨?_, h.enter hd (hn.trans hmax.symm) haT (fun b => ?_) ?_ (by rw [hnil, hn]; rfl) (fun j hj => ?_) (fun _ _ => rfl)
    fun b hb _ => ⟨h.alloc b hb, rfl⟩⟩
  · unfold Softd.grow
    dsimp only
    rw [hnone]
    rfl
  · rw [mem_cons, hnone]
    simp
  · refine Linked.join (h.linked.congr (fun b hb => ?_) (fun _ _ _ => by simp) fun _ _ _ => by simp) haT (by simp)
    have hba : ¬a = b := fun hc => haT (hc ▸ hb)
    simp [hba]
  · rw [hnil] at hj
    cases hj

/-- **A larger array,** into which the slots are copied. -/
theorem Arrays.grow (h : Arrays w T L) (hd : w.allocTab d = true) {old : ℕ} (hold : (w.tab d).dests = some old)
    (hfull : (w.tab d).nodes = (w.tab d).maxnodes) (haT : a ∉ T) :
    ∃ mem slots allocArr, mem.next = w.mem.next ∧ w.grow d a = some (w.enter d a mem slots allocArr) ∧
      Arrays (w.enter d a mem slots allocArr) (a :: T.filter (· ≠ old)) (update (update L old []) a (L old)) := by
  have holdT := h.mem hd hold
  obtain ⟨hlen, -, hmax⟩ := h.nodes d old hd hold
  have hne : a ≠ old := fun hc => haT (hc ▸ holdT)
  obtain ⟨y, l, hl⟩ : ∃ y l, L old = y :: l := by
    refine exists_cons_of_ne_nil fun hc => ?_
    rw [hc, length_nil] at hlen
    omega
  have hT : ∀ b, b ∈ a :: T.filter (· ≠ old) ↔ b = a ∨ b ∈ T ∧ b ≠ old := by
    intro b
    simp
  have hlinked := h.linked.move holdT haT hl hT
  rw [← hl] at hlinked
  have hhead : w.mem.head old = some y := by
    rw [h.head holdT, hl]
    rfl
  refine ⟨_, update w.slots a fun i => if i < (w.tab d).maxnodes then w.slots old i else w.slots a i,
    update w.allocArr old false, ?_, ?_, h.enter hd hfull haT (fun b => ?_) hlinked ?_ (fun j hj hj0 => ?_)
    (fun b hba => ?_) fun b hb hbd => ?_⟩
  · funext z
    simp
  · unfold Softd.grow
    dsimp only
    rw [hold]
    dsimp only
    rw [if_neg (by omega), head_set, if_pos rfl, hhead]
    rfl
  · rw [hT, hold]
    simp [eq_comm]
  · rw [update_self]
    exact hlen
  · rw [update_self] at hj ⊢
    rw [update_self, if_pos (by omega), ← h.slots old holdT j hj]
    exact (if_neg hj0).symm
  · rw [update_of_ne hba]
  · have hbo : b ≠ old := by
      rintro rfl
      exact hbd hold
    have hba : b ≠ a := fun hc => haT (hc ▸ hb)
    refine ⟨?_, ?_⟩
    · rw [update_of_ne hbo]
      exact h.alloc b hb
    · rw [update_of_ne hba, update_of_ne hbo]

/-! ## The lists -/

/-- The nodes of a list, when `L` gives those of its array. -/
def Softd.nodesOf (w : Softd Name) (L : ℕ → List ℕ) (d : ℕ) : List ℕ :=
  match (w.tab d).dests with
  | none => []
  | some a => L a

/-- **The nodes of the lists** are those that `N` gives. -/
def Shape (w : Softd Name) (N : ℕ → List ℕ) : Prop :=
  ∃ T L, Arrays w T L ∧ ∀ d, w.allocTab d = true → N d = w.nodesOf L d

variable {N : ℕ → List ℕ} {d' : ℕ}

theorem Arrays.nodesOf (h : Arrays w T L) (hd : w.allocTab d = true) (hx : x ∈ w.nodesOf L d) :
    ∃ a ∈ T, (w.tab d).dests = some a ∧ x ∈ L a := by
  unfold Softd.nodesOf at hx
  cases ha : (w.tab d).dests with
  | none =>
    rw [ha] at hx
    cases hx
  | some a =>
    rw [ha] at hx
    exact ⟨a, h.mem hd ha, rfl, hx⟩

theorem nodesOf_some (ha : (w.tab d).dests = some a) : w.nodesOf L d = L a := by
  unfold Softd.nodesOf
  rw [ha]

theorem nodesOf_none (ha : (w.tab d).dests = none) : w.nodesOf L d = [] := by
  unfold Softd.nodesOf
  rw [ha]

/-- **The first slots and the chain at the first slot** are the nodes of the list, with right back pointers. -/
theorem Shape.array (h : Shape w N) (hd : w.allocTab d = true) (ha : (w.tab d).dests = some a) :
    Seg w.mem (.head a) (N d) ∧ w.Holds a (N d) ∧ (N d).length = (w.tab d).nodes := by
  obtain ⟨T, L, h, hN⟩ := h
  rw [hN d hd, nodesOf_some ha]
  exact ⟨h.linked.seg (h.mem hd ha), h.slots a (h.mem hd ha), (h.nodes d a hd ha).1⟩

theorem Shape.bare (h : Shape w N) (hd : w.allocTab d = true) (ha : (w.tab d).dests = none) :
    N d = [] ∧ (w.tab d).nodes = 0 := by
  obtain ⟨T, L, h, hN⟩ := h
  rw [hN d hd, nodesOf_none ha]
  exact ⟨rfl, (h.bare d hd ha).1⟩

theorem Shape.dests (h : Shape w N) (hd : w.allocTab d = true) (hx : x ∈ N d) : ∃ a, (w.tab d).dests = some a := by
  cases ha : (w.tab d).dests with
  | none =>
    rw [(h.bare hd ha).1] at hx
    cases hx
  | some a => exact ⟨a, rfl⟩

theorem Shape.unique (h : Shape w N) (hd : w.allocTab d = true) (hd' : w.allocTab d' = true) (hx : x ∈ N d)
    (hx' : x ∈ N d') : d = d' := by
  obtain ⟨T, L, h, hN⟩ := h
  rw [hN d hd] at hx
  rw [hN d' hd'] at hx'
  obtain ⟨a, -, ha, hxa⟩ := h.nodesOf hd hx
  obtain ⟨a', -, ha', hxa'⟩ := h.nodesOf hd' hx'
  by_cases haa : a = a'
  · exact h.own d d' a hd hd' ha (haa ▸ ha')
  · exact absurd hxa' (h.linked.lists.disjoint haa hxa)

theorem Shape.nodup (h : Shape w N) (hd : w.allocTab d = true) : (N d).Nodup := by
  obtain ⟨T, L, h, hN⟩ := h
  rw [hN d hd]
  unfold Softd.nodesOf
  split
  · exact .nil
  · exact h.linked.lists.nodup _

/-- The node after a node of a list. -/
theorem Shape.next_eq (h : Shape w N) (hd : w.allocTab d = true) (e : N d = l₁ ++ x :: l₂) : w.mem.next x = l₂.head? := by
  obtain ⟨a, ha⟩ := h.dests hd (by rw [e]; exact mem_append_right _ mem_cons_self : x ∈ N d)
  obtain ⟨hseg, -, -⟩ := h.array hd ha
  rw [e] at hseg
  exact hseg.next

/-- The node after a node of a list is on the list. -/
theorem Shape.next (h : Shape w N) (hd : w.allocTab d = true) (hx : x ∈ N d) {y : ℕ} (hy : w.mem.next x = some y) :
    y ∈ N d := by
  obtain ⟨l₁, l₂, e⟩ := append_of_mem hx
  rw [h.next_eq hd e] at hy
  rw [e]
  exact mem_append_right _ (mem_cons_of_mem _ (mem_of_head? hy))

/-- The memory of a node that is on no list may change. -/
theorem Shape.fresh (h : Shape w N) (hfresh : ∀ d, w.allocTab d = true → x ∉ N d) (hw : w' = { w with
    mem := (w.mem.set (.next x) none).setP x none, node := w'.node }) : Shape w' N := by
  obtain ⟨T, L, h, hN⟩ := h
  have hout : ∀ b, x ∉ L b := by
    intro b hb
    by_cases hbT : b ∈ T
    · obtain ⟨d₁, h1, hb1⟩ := (h.tabs b).1 hbT
      have hN1 := hN d₁ h1
      rw [nodesOf_some hb1] at hN1
      exact hfresh d₁ h1 (hN1 ▸ hb)
    · rw [h.linked.lists.eq_nil hbT] at hb
      cases hb
  have hne : ∀ b, ∀ z ∈ L b, z ≠ x := by
    rintro b z hz rfl
    exact hout b hz
  rw [hw]
  refine ⟨T, L, h.congr (h.linked.congr (by simp) (fun b z hz => ?_) fun b z hz => ?_) (by simp) rfl rfl rfl
    (fun _ => ⟨rfl, rfl, rfl⟩), hN⟩
  · have hzx : ¬x = z := fun hc => hne b z hz hc.symm
    simp [hzx]
  · simp [hne b z hz]

/-- What is not looked at may change. -/
theorem Shape.congr (h : Shape w N) (hmem : w'.mem = w.mem) (hslots : w'.slots = w.slots) (htab : w'.allocTab = w.allocTab)
    (harr : w'.allocArr = w.allocArr)
    (hdst : ∀ d, (w'.tab d).dests = (w.tab d).dests ∧ (w'.tab d).nodes = (w.tab d).nodes ∧
      (w'.tab d).maxnodes = (w.tab d).maxnodes) : Shape w' N := by
  obtain ⟨T, L, h, hN⟩ := h
  refine ⟨T, L, h.congr (by rw [hmem]; exact h.linked) (fun _ _ => by rw [hmem]) hslots htab harr hdst, fun d hd => ?_⟩
  rw [htab] at hd
  rw [hN d hd]
  unfold Softd.nodesOf
  rw [(hdst d).1]

/-- **A node less.** -/
theorem Shape.detach (h : Shape w N) (hd : w.allocTab d = true) (ha : (w.tab d).dests = some a) (e : N d = l₁ ++ x :: l₂)
    (hdel : (w.node x).deleted = false) : Shape (w.detach d a x) (update N d (l₁ ++ l₂)) := by
  obtain ⟨T, L, h, hN⟩ := h
  have hNd := hN d hd
  rw [nodesOf_some ha] at hNd
  refine ⟨T, _, h.detach hd ha (hNd.symm.trans e) hdel, fun d₁ h1 => ?_⟩
  rw [detach_eq hdel] at h1 ⊢
  by_cases h2 : d₁ = d
  · have hdests : (update w.tab d { w.tab d with nodes := (w.tab d).nodes - 1 } d).dests = some a := by
      rw [update_self]
      exact ha
    rw [h2, update_self]
    unfold Softd.nodesOf
    dsimp only
    rw [hdests]
    dsimp only
    rw [update_self]
  · rw [update_of_ne h2, hN d₁ h1]
    unfold Softd.nodesOf
    dsimp only
    rw [update_of_ne h2]
    cases hb : (w.tab d₁).dests with
    | none => rfl
    | some b =>
      have hba : b ≠ a := fun hc => h2 (h.own d₁ d a h1 hd (hc ▸ hb) ha)
      dsimp only
      rw [update_of_ne hba]

/-- The other nodes keep their successors, those of the list apart. -/
theorem Shape.detach_next (h : Shape w N) (hd : w.allocTab d = true) (ha : (w.tab d).dests = some a)
    (e : N d = l₁ ++ x :: l₂) (hdel : (w.node x).deleted = false) {z : ℕ} (hzx : z ≠ x) (hz : z ∉ N d) :
    (w.detach d a x).mem.next z = w.mem.next z := by
  obtain ⟨T, L, h, hN⟩ := h
  have hNd := hN d hd
  rw [nodesOf_some ha] at hNd
  have hL := hNd.symm.trans e
  have hindex := h.index (h.mem hd ha) hL
  rw [(h.nodes d a hd ha).1] at hindex
  obtain ⟨hnext, hpnext, hget⟩ := compact_mem w a (w.tab d).nodes l₁.length
  have hremoved := unlink_removed (h.linked.pnext hL) hnext hpnext fun y hy => by
    refine hget y fun h0 hc => hy ?_
    rw [length_eq_zero_iff.1 h0]
    exact hc
  rw [detach_eq hdel, hindex]
  refine hremoved.get (.next z) (fun hc => ?_) (by simpa using hzx)
  -- the link that changes is the head or in a node of the list
  rcases lastLink_cases (k := .head a) l₁ with hk | ⟨y, hy, hk⟩
  · rw [hk] at hc
    cases hc
  · rw [hk] at hc
    cases hc
    exact hz (by rw [e]; exact mem_append_left _ hy)

/-- Two lists differ in their array only. -/
def Dst.like (s t : Dst Name) : Prop := s.unit = t.unit ∧ s.name = t.name ∧ s.policy = t.policy ∧ s.ref = t.ref ∧
  s.deleted = t.deleted ∧ s.selected = t.selected

/-- **The list `d` has the node `x` more.** -/
structure Added (w w' : Softd Name) (N : ℕ → List ℕ) (d x : ℕ) : Prop where
  shape : Shape w' (update N d (N d ++ [x]))
  same : w' = { w with mem := w'.mem, slots := w'.slots, tab := w'.tab, allocArr := w'.allocArr }
  tab : ∀ d₁, (w'.tab d₁).like (w.tab d₁)
  next : ∀ z, z ≠ x → (∀ d₁, w.allocTab d₁ = true → z ∉ N d₁) → w'.mem.next z = w.mem.next z

theorem Arrays.added (h : Arrays w T L) (hd : w.allocTab d = true) (ha : (w.tab d).dests = some a)
    (hroom : (w.tab d).nodes < (w.tab d).maxnodes) (hfresh : ∀ d₁, w.allocTab d₁ = true → x ∉ w.nodesOf L d₁)
    (hnext : w.mem.next x = none) : ∃ w', w.append d x = some w' ∧ Added w w' (w.nodesOf L) d x := by
  have hout : ∀ b, x ∉ L b := by
    intro b hb
    by_cases hbT : b ∈ T
    · obtain ⟨d₁, h1, hb1⟩ := (h.tabs b).1 hbT
      exact hfresh d₁ h1 (by rw [nodesOf_some hb1]; exact hb)
    · rw [h.linked.lists.eq_nil hbT] at hb
      cases hb
  obtain ⟨mem, slots, heq, harrays, hother⟩ := h.append hd ha hroom hout hnext
  refine ⟨_, heq, ⟨_, _, harrays, fun d₁ h1 => ?_⟩, rfl, fun d₁ => ?_, fun z hzx hz => ?_⟩
  · by_cases h2 : d₁ = d
    · have hdests : (update w.tab d { w.tab d with nodes := (w.tab d).nodes + 1 } d).dests = some a := by
        rw [update_self]
        exact ha
      rw [h2, update_self, nodesOf_some ha]
      unfold Softd.nodesOf
      dsimp only
      rw [hdests]
      dsimp only
      rw [update_self]
    · rw [update_of_ne h2]
      unfold Softd.nodesOf
      dsimp only
      rw [update_of_ne h2]
      cases hb : (w.tab d₁).dests with
      | none => rfl
      | some b =>
        have hba : b ≠ a := fun hc => h2 (h.own d₁ d a h1 hd (hc ▸ hb) ha)
        dsimp only
        rw [update_of_ne hba]
  · dsimp only
    by_cases h2 : d₁ = d
    · subst h2
      rw [update_self]
      exact ⟨rfl, rfl, rfl, rfl, rfl, rfl⟩
    · rw [update_of_ne h2]
      exact ⟨rfl, rfl, rfl, rfl, rfl, rfl⟩
  · refine hother z hzx ?_
    have := hz d hd
    rwa [nodesOf_some ha] at this

/-- **A node more,** in a slot that is there. -/
theorem Shape.append (h : Shape w N) (hd : w.allocTab d = true) (hroom : (w.tab d).nodes ≠ (w.tab d).maxnodes)
    (hfresh : ∀ d₁, w.allocTab d₁ = true → x ∉ N d₁) (hnext : w.mem.next x = none) :
    ∃ w', w.append d x = some w' ∧ Added w w' N d x := by
  obtain ⟨T, L, h, hN⟩ := h
  cases ha : (w.tab d).dests with
  | none =>
    obtain ⟨h1, h2⟩ := h.bare d hd ha
    exact absurd (h1.trans h2.symm) hroom
  | some a =>
    obtain ⟨-, hle, -⟩ := h.nodes d a hd ha
    obtain ⟨w', heq, hadded⟩ := h.added hd ha (by omega) (fun d₁ h1 => by rw [← hN d₁ h1]; exact hfresh d₁ h1) hnext
    refine ⟨w', heq, ?_, hadded.same, hadded.tab, fun z hzx hz => hadded.next z hzx fun d₁ h1 => ?_⟩
    · obtain ⟨T', L', h', hN'⟩ := hadded.shape
      refine ⟨T', L', h', fun d₁ h1 => ?_⟩
      rw [← hN' d₁ h1]
      have h1' : w.allocTab d₁ = true := by
        rw [hadded.same] at h1
        exact h1
      by_cases h2 : d₁ = d
      · rw [h2, update_self, update_self, hN d hd]
      · rw [update_of_ne h2, update_of_ne h2, hN d₁ h1']
    · rw [← hN d₁ h1]
      exact hz d₁ h1

/-- What is in the first slot of an array without nodes does not matter. -/
theorem append_forget (ha : (w.tab d).dests = some a) (hn : (w.tab d).nodes = 0) (v : Option ℕ) :
    Softd.append { w with mem := w.mem.set (.head a) v } d x = w.append d x := by
  unfold Softd.append
  dsimp only
  rw [ha, hn]
  unfold Softd.setSlot
  simp [Mem.set]

/-- A new array does not matter for what a node more changes. -/
theorem Added.lift {allocArr : ℕ → Bool} {N' : ℕ → List ℕ}
    (h : Added (w.enter d a mem slots allocArr) w' N' d x) (hnext : mem.next = w.mem.next)
    (hN : ∀ d₁, w.allocTab d₁ = true → N' d₁ = N d₁) (hd : w.allocTab d = true) : Added w w' N d x := by
  refine ⟨?_, h.same, fun d₁ => ?_, fun z hzx hz => ?_⟩
  · obtain ⟨T', L', h', hN'⟩ := h.shape
    refine ⟨T', L', h', fun d₁ h1 => ?_⟩
    have h1' : w.allocTab d₁ = true := by
      rw [h.same] at h1
      exact h1
    rw [← hN' d₁ h1]
    by_cases h2 : d₁ = d
    · rw [h2, update_self, update_self, hN d hd]
    · rw [update_of_ne h2, update_of_ne h2, hN d₁ h1']
  · have hlike : ((w.enter d a mem slots allocArr).tab d₁).like (w.tab d₁) := by
      unfold Softd.enter
      dsimp only
      by_cases h2 : d₁ = d
      · subst h2
        rw [update_self]
        exact ⟨rfl, rfl, rfl, rfl, rfl, rfl⟩
      · rw [update_of_ne h2]
        exact ⟨rfl, rfl, rfl, rfl, rfl, rfl⟩
    obtain ⟨h1, h2, h3, h4, h5, h6⟩ := h.tab d₁
    obtain ⟨k1, k2, k3, k4, k5, k6⟩ := hlike
    exact ⟨h1.trans k1, h2.trans k2, h3.trans k3, h4.trans k4, h5.trans k5, h6.trans k6⟩
  · rw [h.next z hzx fun d₁ h1 => by rw [hN d₁ h1]; exact hz d₁ h1]
    exact congrFun hnext z

/-- **A node more,** after the array was made larger. -/
theorem Shape.grow (h : Shape w N) (hd : w.allocTab d = true) (hfull : (w.tab d).nodes = (w.tab d).maxnodes)
    (harr : w.allocArr a = false) (hfresh : ∀ d₁, w.allocTab d₁ = true → x ∉ N d₁) (hnext : w.mem.next x = none) :
    ∃ w', (w.grow d a).bind (fun w => w.append d x) = some w' ∧ Added w w' N d x := by
  obtain ⟨T, L, h, hN⟩ := h
  have haT : a ∉ T := by
    intro hc
    rw [h.alloc a hc] at harr
    cases harr
  have hself : ∀ mem slots allocArr, ((w.enter d a mem slots allocArr).tab d).dests = some a ∧
      ((w.enter d a mem slots allocArr).tab d).nodes < ((w.enter d a mem slots allocArr).tab d).maxnodes := by
    intro mem slots allocArr
    unfold Softd.enter
    dsimp only
    rw [update_self]
    exact ⟨rfl, by dsimp only; omega⟩
  -- the other lists keep their arrays
  have hother : ∀ mem slots allocArr (L' : ℕ → List ℕ), L' a = N d →
      (∀ b ∈ T, (w.tab d).dests ≠ some b → L' b = L b) →
      ∀ d₁, w.allocTab d₁ = true → (w.enter d a mem slots allocArr).nodesOf L' d₁ = N d₁ := by
    intro mem slots allocArr L' hL hL' d₁ h1
    by_cases h2 : d₁ = d
    · rw [h2, nodesOf_some (hself mem slots allocArr).1, hL]
    · rw [hN d₁ h1]
      unfold Softd.nodesOf Softd.enter
      dsimp only
      rw [update_of_ne h2]
      cases hb : (w.tab d₁).dests with
      | none => rfl
      | some b => exact hL' b (h.mem h1 hb) fun hc => h2 (h.own d₁ d b h1 hd hb hc)
  cases ha : (w.tab d).dests with
  | none =>
    obtain ⟨hn, -⟩ := h.bare d hd ha
    obtain ⟨heq, harrays⟩ := h.start hd ha haT
    have hL : L a = N d := by
      rw [h.linked.lists.eq_nil haT, hN d hd, nodesOf_none ha]
    have hNL := hother (w.mem.set (.head a) none) w.slots w.allocArr L hL fun _ _ _ => rfl
    obtain ⟨w', happend, hadded⟩ := harrays.added (x := x) hd (hself _ _ _).1 (hself _ _ _).2
      (fun d₁ h1 => by rw [hNL d₁ h1]; exact hfresh d₁ h1) (by unfold Softd.enter; simpa using hnext)
    refine ⟨w', ?_, hadded.lift (by funext z; simp) hNL hd⟩
    rw [heq, Option.bind_some, ← happend]
    have hnodes : ((w.enter d a w.mem w.slots w.allocArr).tab d).nodes = 0 := by
      unfold Softd.enter
      dsimp only
      rw [update_self]
      exact hn
    exact (append_forget (hself w.mem w.slots w.allocArr).1 hnodes none).symm
  | some old =>
    obtain ⟨mem, slots, allocArr, hmem, heq, harrays⟩ := h.grow hd ha hfull haT
    have hL : update (update L old []) a (L old) a = N d := by
      rw [update_self, hN d hd, nodesOf_some ha]
    have hNL := hother mem slots allocArr _ hL fun b hb hbo => by
      have hba : b ≠ a := fun hc => haT (hc ▸ hb)
      have hbo' : b ≠ old := by
        rintro rfl
        exact hbo ha
      rw [update_of_ne hba, update_of_ne hbo']
    obtain ⟨w', happend, hadded⟩ := harrays.added (x := x) hd (hself _ _ _).1 (hself _ _ _).2
      (fun d₁ h1 => by rw [hNL d₁ h1]; exact hfresh d₁ h1) (by unfold Softd.enter; dsimp only; rw [hmem]; exact hnext)
    refine ⟨w', ?_, hadded.lift hmem hNL hd⟩
    rw [heq, Option.bind_some, happend]

/-- **A list more.** -/
theorem Shape.tableAdd (h : Shape w N) (hd : w.allocTab d = false) {t : Dst Name} (hdests : t.dests = none)
    (hnodes : t.nodes = 0) (hmax : t.maxnodes = 0) (hmem : w'.mem = w.mem) (hslots : w'.slots = w.slots)
    (htab : w'.tab = update w.tab d t) (halloc : w'.allocTab = update w.allocTab d true)
    (harr : w'.allocArr = w.allocArr) : Shape w' (update N d []) := by
  obtain ⟨T, L, h, hN⟩ := h
  have hold : ∀ d₁, d₁ ≠ d → w'.allocTab d₁ = w.allocTab d₁ ∧ w'.tab d₁ = w.tab d₁ := by
    intro d₁ h1
    rw [halloc, htab, update_of_ne h1, update_of_ne h1]
    exact ⟨rfl, rfl⟩
  have hnew : (w'.tab d).dests = none := by
    rw [htab, update_self]
    exact hdests
  have hne : ∀ d₁ b, (w'.tab d₁).dests = some b → d₁ ≠ d := by
    rintro d₁ b hb rfl
    rw [hnew] at hb
    cases hb
  have hne' : ∀ d₁, w.allocTab d₁ = true → d₁ ≠ d := by
    rintro d₁ h1 rfl
    rw [hd] at h1
    cases h1
  refine ⟨T, L, ⟨by rw [hmem]; exact h.linked, fun b => ?_, fun d₁ d₂ b h1 h2 hb1 hb2 => ?_, fun d₁ b h1 hb => ?_,
    fun b hb j hj => ?_, fun d₁ h1 hb => ?_, fun b hb => by rw [harr]; exact h.alloc b hb⟩, fun d₁ h1 => ?_⟩
  · rw [h.tabs]
    constructor
    · rintro ⟨d₁, h1, hb⟩
      obtain ⟨k1, k2⟩ := hold d₁ (hne' d₁ h1)
      exact ⟨d₁, k1.trans h1, k2 ▸ hb⟩
    · rintro ⟨d₁, h1, hb⟩
      obtain ⟨k1, k2⟩ := hold d₁ (hne d₁ b hb)
      exact ⟨d₁, k1.symm.trans h1, k2 ▸ hb⟩
  · obtain ⟨k1, k2⟩ := hold d₁ (hne d₁ b hb1)
    obtain ⟨k3, k4⟩ := hold d₂ (hne d₂ b hb2)
    rw [k1] at h1
    rw [k2] at hb1
    rw [k3] at h2
    rw [k4] at hb2
    exact h.own d₁ d₂ b h1 h2 hb1 hb2
  · obtain ⟨k1, k2⟩ := hold d₁ (hne d₁ b hb)
    rw [k1] at h1
    rw [k2] at hb ⊢
    exact h.nodes d₁ b h1 hb
  · rw [← h.slots b hb j hj]
    unfold Softd.slot
    rw [hmem, hslots]
  · by_cases h2 : d₁ = d
    · rw [h2, htab, update_self]
      exact ⟨hnodes, hmax⟩
    · obtain ⟨k1, k2⟩ := hold d₁ h2
      rw [k1] at h1
      rw [k2] at hb ⊢
      exact h.bare d₁ h1 hb
  · by_cases h2 : d₁ = d
    · rw [h2, update_self, nodesOf_none hnew]
    · obtain ⟨k1, k2⟩ := hold d₁ h2
      rw [k1] at h1
      rw [update_of_ne h2, hN d₁ h1]
      unfold Softd.nodesOf
      rw [k2]

/-- **A list less,** which had no nodes. -/
theorem Shape.tableFree (h : Shape w N) (hd : w.allocTab d = true) (hnil : N d = []) : Shape (ipfDstlistTableFree w d) N := by
  obtain ⟨T, L, h, hN⟩ := h
  have hold : ∀ d₁, update w.allocTab d false d₁ = true ↔ w.allocTab d₁ = true ∧ d₁ ≠ d := by
    intro d₁
    by_cases h1 : d₁ = d
    · rw [h1, update_self]
      simp
    · rw [update_of_ne h1]
      simp [h1]
  rw [hN d hd] at hnil
  -- the array of the list is given back
  have hT : ∀ b, b ∈ T.filter (fun b => (w.tab d).dests ≠ some b) ↔ b ∈ T ∧ (w.tab d).dests ≠ some b := by
    intro b
    simp [mem_filter]
  refine ⟨T.filter fun b => (w.tab d).dests ≠ some b, L,
    ⟨?_, fun b => ?_, fun d₁ d₂ b h1 h2 => ?_, fun d₁ b h1 => ?_,
    fun b hb => h.slots b ((hT b).1 hb).1, fun d₁ h1 => ?_, fun b hb => ?_⟩, fun d₁ h1 => hN d₁ ((hold d₁).1 h1).1⟩
  · refine h.linked.leave (fun b hb => ((hT b).1 hb).1) fun b hb hbT => ?_
    have hdb : (w.tab d).dests = some b := by
      by_contra hc
      exact hbT ((hT b).2 ⟨hb, hc⟩)
    rwa [nodesOf_some hdb] at hnil
  · rw [hT, h.tabs]
    constructor
    · rintro ⟨⟨d₁, h1, hb⟩, hdb⟩
      exact ⟨d₁, (hold d₁).2 ⟨h1, fun hc => hdb (hc ▸ hb)⟩, hb⟩
    · rintro ⟨d₁, h1, hb⟩
      obtain ⟨h1, hne⟩ := (hold d₁).1 h1
      exact ⟨⟨d₁, h1, hb⟩, fun hc => hne (h.own d₁ d b h1 hd hb hc)⟩
  · exact h.own d₁ d₂ b ((hold d₁).1 h1).1 ((hold d₂).1 h2).1
  · exact h.nodes d₁ b ((hold d₁).1 h1).1
  · exact h.bare d₁ ((hold d₁).1 h1).1
  · obtain ⟨hbT, hdb⟩ := (hT b).1 hb
    unfold ipfDstlistTableFree
    dsimp only
    cases ha : (w.tab d).dests with
    | none => exact h.alloc b hbT
    | some a =>
      have hba : b ≠ a := fun hc => hdb (by rw [ha, hc])
      dsimp only
      rw [update_of_ne hba]
      exact h.alloc b hbT

end Ipfilter.Dstlist
