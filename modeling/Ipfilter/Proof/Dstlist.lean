import Ipfilter.Proof.DstlistLinks
import Ipfilter.Refs.Count

/-!
# Destination lists are what was added

* `Nodes`: slots and chains agree, references are counted, and so are the nodes that exist and those that are detached.
* `Nodes.detach`, `Nodes.deref`, `Nodes.point`: what `ipf_dstlist_node_free` and iterators do keeps this.
* `Tables`: which lists there are, and that a selected node is on its list.
* `choose_mem`: a selection ends, at a node of the list.
* `run_dstlist`: in runs in which nodes are not deleted by request from a list without an array, no list has an unknown policy
  when a node is selected, and no list with a selected node is flushed while a rule refers to it.
-/

namespace Ipfilter.Dstlist

open Chain Refs List Option
open Function (update update_eq_self update_idem update_of_ne update_self)

variable {Name : Type} {y : Layout} {w w' : Softd Name} {N : ℕ → List ℕ} {d a x q : ℕ} {e : Option ℕ}
  {l l₁ l₂ : List ℕ}

/-! ## Nodes -/

/-- A node is on a list. -/
def Live (N : ℕ → List ℕ) (x : ℕ) : Prop := ∃ d, x ∈ N d

open Classical in
/-- The references to a node: of its list, of iterators, and of the one that is about to be dropped. -/
noncomputable def total (N : ℕ → List ℕ) (tok : ℕ → Option ℕ) (e : Option ℕ) (x : ℕ) : ℕ :=
  (if Live N x then 1 else 0) + holders Set.univ tok x + if e = some x then 1 else 0

/-- **The nodes:** slots and chains agree, and references and nodes are counted. The node `e` has one reference more. -/
structure Nodes (y : Layout) (w : Softd Name) (N : ℕ → List ℕ) (e : Option ℕ) : Prop where
  shape : Shape w N
  known : ∀ d x, x ∈ N d → w.allocTab d = true
  counted : Counted (fun x => w.allocNode x = true) (fun x => (w.node x).ref) (total N w.tok e)
  tokens : {q | w.tok q ≠ none}.Finite
  finite : {x | w.allocNode x = true}.Finite
  deleted : ∀ x, w.allocNode x = true → ((w.node x).deleted = true ↔ ¬Live N x)
  alone : ∀ x, w.allocNode x = true → ¬Live N x → w.mem.next x = none
  num : w.numnodes = {x | w.allocNode x = true}.ncard
  numderef : w.numderefnodes = {x | w.allocNode x = true ∧ ¬Live N x}.ncard
  made : {x | w.allocNode x = true}.ncard ≤ w.made
  stored : ∀ x, w.allocNode x = true → (w.node x).dest.fdName ≤ 0 ∧ (y.dstnode : ℤ) - 1 ≤ (w.node x).size

theorem Nodes.alloc (h : Nodes y w N e) (hx : x ∈ N d) : w.allocNode x = true := by
  refine (h.counted.pos x).2 ?_
  unfold total
  rw [if_pos ⟨d, hx⟩]
  omega

/-- A node to which an iterator points. -/
theorem Nodes.alloc_tok (h : Nodes y w N e) (hq : w.tok q = some x) : w.allocNode x = true := by
  refine (h.counted.pos x).2 ?_
  have hpos := holders_pos (h.tokens.subset fun q hq => hq.2 : {q | q ∈ Set.univ ∧ w.tok q ≠ none}.Finite)
      ⟨trivial, by simp [hq]⟩ hq
  unfold total
  have : holders Set.univ w.tok x = holders {q | q ∈ Set.univ ∧ w.tok q ≠ none} w.tok x := by
    unfold holders
    congr 1
    ext z
    simp only [Set.mem_ofPred_eq, Set.mem_univ, true_and]
    constructor
    · intro hz
      exact ⟨by simp [hz], hz⟩
    · exact fun hz => hz.2
  omega

/-- A list is no longer than the number of nodes that were made. -/
theorem Nodes.length (h : Nodes y w N e) (d : ℕ) : (N d).length ≤ w.made := by
  by_cases hd : w.allocTab d = true
  · refine le_trans ?_ h.made
    rw [← toFinset_card_of_nodup (h.shape.nodup hd), ← Set.ncard_coe_finset]
    exact Set.ncard_le_ncard (fun x hx => h.alloc (mem_toFinset.1 hx)) h.finite
  · cases hl : N d with
    | nil => exact Nat.zero_le _
    | cons x l => exact absurd (h.known d x (by rw [hl]; exact mem_cons_self)) hd

/-- Two nodes differ in their address, interface, owner and states only. -/
def Dstnode.like (m n : Dstnode) : Prop :=
  m.ref = n.ref ∧ m.deleted = n.deleted ∧ m.size = n.size ∧ m.dest.fdName = n.dest.fdName

theorem Dstnode.like.refl (n : Dstnode) : n.like n := ⟨rfl, rfl, rfl, rfl⟩

/-- What is not looked at may change. -/
theorem Nodes.congr (h : Nodes y w N e) (hshape : Shape w' N)
    (htab : ∀ d, w.allocTab d = true → N d ≠ [] → w'.allocTab d = true)
    (hmem : ∀ x, w.allocNode x = true → w'.mem.next x = w.mem.next x)
    (hnode : ∀ x, w.allocNode x = true → (w'.node x).like (w.node x)) (htok : w'.tok = w.tok)
    (halloc : w'.allocNode = w.allocNode) (hnum : w'.numnodes = w.numnodes) (hderef : w'.numderefnodes = w.numderefnodes)
    (hmade : w'.made = w.made) : Nodes y w' N e := by
  refine ⟨hshape, fun d x hx => htab d (h.known d x hx) fun hc => ?_, ?_, by rw [htok]; exact h.tokens, ?_, fun x hx => ?_,
    fun x hx hlx => ?_, by rw [hnum, halloc]; exact h.num, by rw [hderef, halloc]; exact h.numderef,
    by rw [halloc, hmade]; exact h.made, fun x hx => ?_⟩
  · rw [hc] at hx
    cases hx
  · rw [halloc, htok]
    exact h.counted.congr (fun _ => Iff.rfl) (fun x hx => (hnode x hx).1) fun _ => rfl
  · rw [halloc]
    exact h.finite
  · rw [halloc] at hx
    rw [(hnode x hx).2.1]
    exact h.deleted x hx
  · rw [halloc] at hx
    rw [hmem x hx]
    exact h.alone x hx hlx
  · rw [halloc] at hx
    rw [(hnode x hx).2.2.1, (hnode x hx).2.2.2]
    exact h.stored x hx

/-- Who is on a list when `x` is on none any more. -/
theorem live_less (h : Nodes y w N e) (hN : N d = l₁ ++ x :: l₂) {z : ℕ} :
    Live (update N d (l₁ ++ l₂)) z ↔ Live N z ∧ z ≠ x := by
  have hx : x ∈ N d := by rw [hN]; simp
  have hd := h.known d x hx
  have hnd := h.shape.nodup hd
  rw [hN, nodup_middle, nodup_cons] at hnd
  constructor
  · rintro ⟨d₁, hz⟩
    by_cases h1 : d₁ = d
    · rw [h1, update_self] at hz
      refine ⟨⟨d, ?_⟩, ?_⟩
      · rw [hN]
        rcases mem_append.1 hz with hz | hz
        · exact mem_append_left _ hz
        · exact mem_append_right _ (mem_cons_of_mem _ hz)
      · rintro rfl
        exact hnd.1 hz
    · rw [update_of_ne h1] at hz
      refine ⟨⟨d₁, hz⟩, ?_⟩
      rintro rfl
      exact h1 (h.shape.unique (h.known d₁ z hz) hd hz hx)
  · rintro ⟨⟨d₁, hz⟩, hzx⟩
    refine ⟨d₁, ?_⟩
    by_cases h1 : d₁ = d
    · rw [h1, hN] at hz
      rw [h1, update_self]
      rcases mem_append.1 hz with hz | hz
      · exact mem_append_left _ hz
      · exact mem_append_right _ ((mem_cons.1 hz).resolve_left hzx)
    · rwa [update_of_ne h1]

/-- **A node leaves its list.** The reference of the list is still to be dropped. -/
theorem Nodes.detach (h : Nodes y w N none) (ha : (w.tab d).dests = some a) (hN : N d = l₁ ++ x :: l₂) :
    Nodes y (w.detach d a x) (update N d (l₁ ++ l₂)) (some x) := by
  classical
  have hx : x ∈ N d := by rw [hN]; simp
  have hd := h.known d x hx
  have hax := h.alloc hx
  have hdel : (w.node x).deleted = false := by
    have hiff := h.deleted x hax
    cases hc : (w.node x).deleted with
    | false => rfl
    | true => exact absurd ⟨d, hx⟩ (hiff.1 hc)
  have hlive : ∀ z, Live (update N d (l₁ ++ l₂)) z ↔ Live N z ∧ z ≠ x := fun z => live_less h hN
  have hshape := h.shape.detach hd ha hN hdel
  have hnext := fun z => h.shape.detach_next hd ha hN hdel (z := z)
  have hxnext : (w.detach d a x).mem.next x = none := by
    rw [detach_eq hdel]
    exact unlink_next
  have hnode : ∀ z, (w.detach d a x).node z = if z = x then { w.node x with deleted := true } else w.node z := by
    intro z
    rw [detach_eq hdel]
    by_cases hz : z = x
    · subst hz
      simp
    · simp [hz]
  have halloc : (w.detach d a x).allocNode = w.allocNode := by rw [detach_eq hdel]
  refine ⟨hshape, fun d₁ z hz => ?_,
    ?_, by rw [detach_eq hdel]; exact h.tokens, by rw [halloc]; exact h.finite, fun z hz => ?_,
    fun z hz hlz => ?_, by rw [detach_eq hdel]; exact h.num, ?_, by rw [detach_eq hdel]; exact h.made, fun z hz => ?_⟩
  · rw [detach_eq hdel]
    by_cases h1 : d₁ = d
    · rw [h1]
      exact hd
    · rw [update_of_ne h1] at hz
      exact h.known d₁ z hz
  · refine h.counted.congr (fun z => by rw [halloc]) (fun z _ => ?_) fun z => ?_
    · rw [hnode]
      split
      · rename_i hz
        rw [hz]
      · rfl
    · -- the reference of the list is in hand now
      have htok : (w.detach d a x).tok = w.tok := by rw [detach_eq hdel]
      unfold total
      rw [htok]
      by_cases hz : z = x
      · have hlx : ¬Live (update N d (l₁ ++ l₂)) x := fun hc => ((hlive x).1 hc).2 rfl
        have hlx' : Live N x := ⟨d, hx⟩
        rw [hz, if_neg hlx, if_pos hlx', if_pos rfl, if_neg (some_ne_none x).symm]
        omega
      · have hzx : ¬some x = some z := fun hc => hz (some.inj hc).symm
        have hiff : Live (update N d (l₁ ++ l₂)) z ↔ Live N z := by
          rw [hlive]
          exact and_iff_left hz
        rw [if_neg hzx, if_neg (some_ne_none z).symm, if_congr hiff rfl rfl]
  · rw [halloc] at hz
    rw [hnode, hlive]
    by_cases hzx : z = x
    · simp [hzx]
    · rw [if_neg hzx, h.deleted z hz]
      simp [hzx]
  · rw [halloc] at hz
    by_cases hzx : z = x
    · rw [hzx]
      exact hxnext
    · have hlz' : ¬Live N z := fun hc => hlz ((hlive z).2 ⟨hc, hzx⟩)
      rw [hnext z hzx fun hc => hlz' ⟨d, hc⟩]
      exact h.alone z hz hlz'
  · -- it is one of the nodes on no list now
    have hset : {z | (w.detach d a x).allocNode z = true ∧ ¬Live (update N d (l₁ ++ l₂)) z} =
        insert x {z | w.allocNode z = true ∧ ¬Live N z} := by
      ext z
      rw [halloc]
      simp only [Set.mem_ofPred_eq, Set.mem_insert_iff, hlive]
      by_cases hzx : z = x
      · simp [hzx, hax]
      · simp [hzx]
    have hout : x ∉ {z | w.allocNode z = true ∧ ¬Live N z} := fun hc => hc.2 ⟨d, hx⟩
    rw [hset, Set.ncard_insert_of_notMem hout (h.finite.subset fun z hz => hz.1), detach_eq hdel]
    have := h.numderef
    dsimp only
    omega
  · rw [halloc] at hz
    rw [hnode]
    split
    · rename_i hzx
      rw [hzx] at hz
      exact h.stored x hz
    · exact h.stored z hz

/-- The nodes with a reference to `x` less. -/
def Softd.drop (w : Softd Name) (x : ℕ) : ℕ → Dstnode := update w.node x { w.node x with ref := (w.node x).ref - 1 }

theorem drop_keep (w : Softd Name) (x z : ℕ) : (w.drop x z).deleted = (w.node z).deleted ∧
    (w.drop x z).dest = (w.node z).dest ∧
    (w.drop x z).size = (w.node z).size ∧ (w.drop x z).ref = (w.node z).ref - if z = x then 1 else 0 := by
  unfold Softd.drop
  by_cases hz : z = x
  · subst hz
    simp
  · simp [hz]

theorem deref_eq (w : Softd Name) (x : ℕ) : ipfDstlistNodeDeref w x =
    if 0 < (w.node x).ref - 1 then { w with node := w.drop x }
    else { w with
      node := w.drop x
      numderefnodes := if (w.node x).deleted then w.numderefnodes - 1 else w.numderefnodes
      allocNode := update w.allocNode x false
      numnodes := w.numnodes - 1 } := by
  have hself : w.drop x x = { w.node x with ref := (w.node x).ref - 1 } := update_self ..
  have href : (w.drop x x).ref = (w.node x).ref - 1 := by rw [hself]
  have hdel : (w.drop x x).deleted = (w.node x).deleted := by rw [hself]
  rw [← href, ← hdel]
  rfl

/-- **A reference to a node is dropped,** and with the last one the node. -/
theorem Nodes.deref (h : Nodes y w N (some x)) : Nodes y (ipfDstlistNodeDeref w x) N none := by
  have hax : w.allocNode x = true := by
    refine (h.counted.pos x).2 ?_
    unfold total
    rw [if_pos rfl]
    omega
  have htotal : ∀ z, total N w.tok (some x) z = total N w.tok none z + if z = x then 1 else 0 := by
    intro z
    unfold total
    rw [if_neg (some_ne_none z).symm, add_zero, if_congr (Option.some_inj.trans eq_comm) rfl rfl]
  have hexact := h.counted.exact x hax
  rw [deref_eq]
  split
  · -- others refer to the node
    rename_i hpos
    refine ⟨h.shape.congr rfl rfl rfl rfl fun _ => ⟨rfl, rfl, rfl⟩, h.known, ?_, h.tokens, h.finite, fun z hz => ?_,
      h.alone, h.num, h.numderef, h.made, fun z hz => ?_⟩
    · refine h.counted.drop htotal (fun z _ => (drop_keep w x z).2.2.2) fun z => ?_
      refine (and_iff_left ?_).symm
      rintro -
      omega
    · rw [(drop_keep w x z).1]
      exact h.deleted z hz
    · rw [(drop_keep w x z).2.1, (drop_keep w x z).2.2.1]
      exact h.stored z hz
  · rename_i hlast
    -- the last reference goes, and with it the node
    have hone : (w.node x).ref = 1 := by
      have := (h.counted.pos x).1 hax
      omega
    -- a list would be a second reference
    have hlx : ¬Live N x := by
      intro hc
      rw [hone, htotal] at hexact
      unfold total at hexact
      rw [if_pos hc, if_pos rfl] at hexact
      omega
    have hdel := (h.deleted x hax).2 hlx
    have halloc : ∀ z, update w.allocNode x false z = true ↔ w.allocNode z = true ∧ z ≠ x := by
      intro z
      by_cases hz : z = x
      · rw [hz, update_self]
        simp
      · rw [update_of_ne hz]
        simp [hz]
    have hset : {z | update w.allocNode x false z = true} = {z | w.allocNode z = true} \ {x} := by
      ext z
      simp [halloc]
    have hset' : {z | update w.allocNode x false z = true ∧ ¬Live N z} =
        {z | w.allocNode z = true ∧ ¬Live N z} \ {x} := by
      ext z
      simp [halloc]
      tauto
    have hcard := Set.ncard_sdiff_singleton_add_one (show x ∈ {z | w.allocNode z = true} from hax) h.finite
    have hcard' := Set.ncard_sdiff_singleton_add_one (show x ∈ {z | w.allocNode z = true ∧ ¬Live N z} from ⟨hax, hlx⟩)
      (h.finite.subset fun z hz => hz.1)
    have hnum := h.num
    have hderef := h.numderef
    have hmade := h.made
    refine ⟨h.shape.congr rfl rfl rfl rfl fun _ => ⟨rfl, rfl, rfl⟩, h.known, ?_, h.tokens, ?_, fun z hz => ?_,
      fun z hz hlz => ?_, ?_, ?_, ?_, fun z hz => ?_⟩
    · refine h.counted.drop htotal (fun z _ => (drop_keep w x z).2.2.2) fun z => ?_
      rw [halloc]
      refine and_congr_right fun _ => ⟨fun hz hc => absurd hc hz, fun hz hc => hz hc hone⟩
    · dsimp only
      rw [hset]
      exact h.finite.subset Set.sdiff_subset
    · rw [(drop_keep w x z).1]
      exact h.deleted z ((halloc z).1 hz).1
    · exact h.alone z ((halloc z).1 hz).1 hlz
    · dsimp only
      rw [hset]
      omega
    · dsimp only
      rw [hset', if_pos hdel]
      omega
    · dsimp only
      rw [hset]
      omega
    · rw [(drop_keep w x z).2.1, (drop_keep w x z).2.2.1]
      exact h.stored z ((halloc z).1 hz).1

/-- **An iterator goes to another node.** The reference to the one before is still to be dropped. -/
theorem Nodes.point (h : Nodes y w N none) (q : ℕ) (v : Option ℕ) (hv : ∀ n, v = some n → w.allocNode n = true)
    {node : ℕ → Dstnode} (href : ∀ z, (node z).ref = (w.node z).ref + if v = some z then 1 else 0)
    (hkeep : ∀ z, (node z).deleted = (w.node z).deleted ∧ (node z).dest = (w.node z).dest ∧
      (node z).size = (w.node z).size) :
    Nodes y { w with tok := update w.tok q v, node := node } N (w.tok q) := by
  -- the iterator lets its old node go and takes a new one
  have htotal : ∀ z, total N (update w.tok q v) (w.tok q) z = total N w.tok none z + if v = some z then 1 else 0 := by
    intro z
    have hmove := holders_move h.tokens q v z
    unfold total
    rw [if_neg (some_ne_none z).symm]
    omega
  refine ⟨h.shape.congr rfl rfl rfl rfl fun _ => ⟨rfl, rfl, rfl⟩, h.known, ?_, ?_, h.finite, fun z hz => ?_, h.alone,
    h.num, h.numderef, h.made, fun z hz => ?_⟩
  · -- one reference more, or none
    cases v with
    | none =>
      refine h.counted.congr (fun _ => Iff.rfl) (fun z _ => ?_) fun z => ?_
      · rw [href, if_neg (some_ne_none z).symm, add_zero]
      · rw [htotal, if_neg (some_ne_none z).symm, add_zero]
    | some n =>
      have hiff : ∀ z, some n = some z ↔ z = n := fun z => Option.some_inj.trans eq_comm
      refine h.counted.take (hv n rfl) (fun _ => Iff.rfl) (fun z _ => ?_) fun z => ?_
      · rw [href, if_congr (hiff z) rfl rfl]
      · rw [htotal, if_congr (hiff z) rfl rfl]
  · refine (h.tokens.insert q).subset fun p hp => ?_
    by_cases hpq : p = q
    · exact .inl hpq
    · right
      have hp' : update w.tok q v p ≠ none := hp
      rwa [update_of_ne hpq] at hp'
  · rw [(hkeep z).1]
    exact h.deleted z hz
  · rw [(hkeep z).2.1, (hkeep z).2.2]
    exact h.stored z hz

/-! ## A new node -/

/-- The node that `ipf_dstlist_node_add` makes, before it is put into a list. -/
def Softd.fill (w : Softd Name) (y : Layout) (x : ℕ) (dest : Frdest) (names : List (BitVec 8)) : Softd Name :=
  { w with
    node := update w.node x (newNode y dest names)
    mem := (w.mem.set (.next x) none).setP x none }

/-- The end of a request to add a node. -/
def Softd.done (w : Softd Name) (x : ℕ) (uid : ℤ) (resolved : ℕ × ℤ) : Softd Name :=
  { w.finish x uid resolved with allocNode := update w.allocNode x true, made := w.made + 1 }

theorem alloc_ne (h : w.allocNode x = false) {z : ℕ} (hz : w.allocNode z = true) : z ≠ x := by
  rintro rfl
  rw [h] at hz
  cases hz

theorem Nodes.out (h : Nodes y w N e) (hx : w.allocNode x = false) : ∀ d, x ∉ N d := by
  intro d hc
  rw [h.alloc hc] at hx
  cases hx

/-- A node that does not exist may be written. -/
theorem Nodes.fill (h : Nodes y w N none) (hx : w.allocNode x = false) (dest : Frdest) (names : List (BitVec 8)) :
    Nodes y (w.fill y x dest names) N none := by
  refine h.congr (h.shape.fresh (x := x) (fun d _ => h.out hx d) rfl) (fun d hd _ => hd) (fun z hz => ?_) (fun z hz => ?_)
    rfl rfl rfl rfl rfl
  · have hxz : ¬x = z := fun hc => alloc_ne hx hz hc.symm
    unfold Softd.fill
    simp [hxz]
  · unfold Softd.fill
    dsimp only
    rw [update_of_ne (alloc_ne hx hz)]
    exact .refl _

/-- Who is on a list when `x` is put on one. -/
theorem live_more {z : ℕ} : Live (update N d (N d ++ [x])) z ↔ Live N z ∨ z = x := by
  constructor
  · rintro ⟨d₁, hz⟩
    by_cases h1 : d₁ = d
    · rw [h1, update_self, mem_append, mem_singleton] at hz
      exact hz.imp_left fun hz => ⟨d, hz⟩
    · rw [update_of_ne h1] at hz
      exact .inl ⟨d₁, hz⟩
  · rintro (⟨d₁, hz⟩ | rfl)
    · refine ⟨d₁, ?_⟩
      by_cases h1 : d₁ = d
      · rw [h1, update_self]
        exact mem_append_left _ (h1 ▸ hz)
      · rwa [update_of_ne h1]
    · refine ⟨d, ?_⟩
      rw [update_self]
      simp

/-- **What a request does to the nodes** when its own goes on a list. -/
structure Born (y : Layout) (w w' : Softd Name) (x : ℕ) : Prop where
  alloc : ∀ z, w'.allocNode z = true ↔ w.allocNode z = true ∨ z = x
  old : ∀ z, z ≠ x → w'.node z = w.node z
  ref : (w'.node x).ref = 1
  deleted : (w'.node x).deleted = false
  stored : (w'.node x).dest.fdName ≤ 0 ∧ (y.dstnode : ℤ) - 1 ≤ (w'.node x).size
  tok : w'.tok = w.tok
  tabs : w'.allocTab = w.allocTab
  made : w'.made = w.made + 1
  num : w'.numnodes = w.numnodes + 1
  numderef : w'.numderefnodes = w.numderefnodes

theorem Added.born {dest : Frdest} {names : List (BitVec 8)} (hadd : Added (w.fill y x dest names) w' N d x)
    (hdest : -1 ≤ dest.fdName) (uid : ℤ) (resolved : ℕ × ℤ) : Born y w (w'.done x uid resolved) x := by
  have hw := hadd.same
  have hrest : (w'.done x uid resolved).tok = w.tok ∧ (w'.done x uid resolved).allocTab = w.allocTab ∧
      (w'.done x uid resolved).made = w.made + 1 ∧ (w'.done x uid resolved).numnodes = w.numnodes + 1 ∧
      (w'.done x uid resolved).numderefnodes = w.numderefnodes := by
    unfold Softd.done Softd.finish Softd.updNode
    rw [hw]
    exact ⟨rfl, rfl, rfl, rfl, rfl⟩
  obtain ⟨htok, htabs, hmade, hnum, hnumderef⟩ := hrest
  refine ⟨fun z => ?_, fun z hz => ?_, ?_, ?_, ?_, htok, htabs, hmade, hnum, hnumderef⟩
  · unfold Softd.done
    rw [hw]
    by_cases hz : z = x
    · simp [hz]
    · simp [hz, Softd.fill]
  · unfold Softd.done Softd.finish Softd.updNode
    rw [hw]
    simp [hz, Softd.fill]
  all_goals
    unfold Softd.done Softd.finish Softd.updNode
    rw [hw]
    unfold Softd.fill newNode
    dsimp only
    rw [update_self, update_self]
  -- the name is unset, and the size counts what is stored of it
  refine ⟨?_, ?_⟩
  · dsimp only
    split
    · split <;> simp
    · split <;> simp
  · dsimp only
    omega

open Classical in
/-- The new node is referred to by its list. -/
theorem Born.counted (h : Nodes y w N none) (hb : Born y w w' x) (hx : w.allocNode x = false) :
    Counted (fun z => w'.allocNode z = true) (fun z => (w'.node z).ref) (total (update N d (N d ++ [x])) w'.tok none) := by
  have hlx : ¬Live N x := fun ⟨d₁, hc⟩ => h.out hx d₁ hc
  refine h.counted.make (b := x) (by rw [hx]; simp) hb.alloc hb.ref (fun z hz _ => by rw [hb.old z hz]) fun z => ?_
  unfold total
  rw [hb.tok, if_neg (some_ne_none z).symm]
  by_cases hz : z = x
  · rw [hz, if_pos rfl, if_pos (live_more.2 (.inr rfl)), if_neg hlx]
    omega
  · have hiff : Live (update N d (N d ++ [x])) z ↔ Live N z := live_more.trans (or_iff_left hz)
    rw [if_neg hz, if_congr hiff rfl rfl]

/-- **A node more** on the list `d`. -/
theorem Nodes.added {dest : Frdest} {names : List (BitVec 8)} (h : Nodes y w N none) (hx : w.allocNode x = false)
    (hd : w.allocTab d = true) (hdest : -1 ≤ dest.fdName) (hadd : Added (w.fill y x dest names) w' N d x) (uid : ℤ)
    (resolved : ℕ × ℤ) : Nodes y (w'.done x uid resolved) (update N d (N d ++ [x])) none := by
  have hb := hadd.born hdest uid resolved
  have hset : {z | (w'.done x uid resolved).allocNode z = true} = insert x {z | w.allocNode z = true} := by
    ext z
    simp only [Set.mem_ofPred_eq, Set.mem_insert_iff, hb.alloc]
    tauto
  have hcard := Set.ncard_insert_of_notMem (fun hc : x ∈ {z | w.allocNode z = true} => alloc_ne hx hc rfl) h.finite
  refine ⟨hadd.shape.congr rfl rfl rfl rfl fun _ => ⟨rfl, rfl, rfl⟩, fun d₁ z hz => ?_, hb.counted h hx,
    by rw [hb.tok]; exact h.tokens, ?_, fun z hz => ?_, fun z hz hlz => ?_, ?_, ?_, ?_, fun z hz => ?_⟩
  · rw [hb.tabs]
    by_cases h1 : d₁ = d
    · rw [h1]
      exact hd
    · rw [update_of_ne h1] at hz
      exact h.known d₁ z hz
  · rw [hset]
    exact h.finite.insert x
  · rw [live_more]
    by_cases hzx : z = x
    · rw [hzx, hb.deleted]
      simp
    · rw [hb.old z hzx, h.deleted z (((hb.alloc z).1 hz).resolve_right hzx)]
      simp [hzx]
  · rw [live_more, not_or] at hlz
    have hz' := ((hb.alloc z).1 hz).resolve_right hlz.2
    have hxz : ¬x = z := fun hc => hlz.2 hc.symm
    refine (hadd.next z hlz.2 fun d₁ _ hc => hlz.1 ⟨d₁, hc⟩).trans ?_
    rw [← h.alone z hz' hlz.1]
    unfold Softd.fill
    simp [hxz]
  · rw [hset, hb.num, hcard, h.num]
    rfl
  · -- the new node is on a list: those on none are as many as before
    have hderef : {z | (w'.done x uid resolved).allocNode z = true ∧ ¬Live (update N d (N d ++ [x])) z} =
        {z | w.allocNode z = true ∧ ¬Live N z} := by
      ext z
      simp only [Set.mem_ofPred_eq, hb.alloc, live_more]
      have := @alloc_ne _ w x hx z
      tauto
    rw [hderef, hb.numderef]
    exact h.numderef
  · rw [hset, hb.made, hcard]
    exact Nat.succ_le_succ h.made
  · by_cases hzx : z = x
    · rw [hzx]
      exact hb.stored
    · rw [hb.old z hzx]
      exact h.stored z (((hb.alloc z).1 hz).resolve_right hzx)

/-- **Lists are the same,** their nodes apart. -/
structure Kept (w w' : Softd Name) : Prop where
  tables : w'.tables = w.tables
  alloc : w'.allocTab = w.allocTab
  tab : ∀ d, (w'.tab d).like (w.tab d)

theorem Kept.refl (w : Softd Name) : Kept w w := ⟨rfl, rfl, fun _ => ⟨rfl, rfl, rfl, rfl, rfl, rfl⟩⟩

theorem Kept.trans {w₁ : Softd Name} (h : Kept w w₁) (h' : Kept w₁ w') : Kept w w' := by
  refine ⟨h'.tables.trans h.tables, h'.alloc.trans h.alloc, fun d => ?_⟩
  obtain ⟨h1, h2, h3, h4, h5, h6⟩ := h.tab d
  obtain ⟨k1, k2, k3, k4, k5, k6⟩ := h'.tab d
  exact ⟨k1.trans h1, k2.trans h2, k3.trans h3, k4.trans h4, k5.trans h5, k6.trans h6⟩

theorem addNode_eq (w : Softd Name) (y : Layout) (d x : ℕ) (dest : Frdest) (names : List (BitVec 8)) (op : AddOp Name) :
    w.addNode y d x dest names op =
      if ((w.fill y x dest names).tab d).nodes = ((w.fill y x dest names).tab d).maxnodes then match op.nodes with
        | none => some ({ w.fill y x dest names with nomem := w.nomem + 1 }, ENOMEM)
        | some a =>
          ((w.fill y x dest names).grow d a).bind fun w =>
            (w.append d x).map fun w => (w.done x op.uid op.resolved, 0)
      else ((w.fill y x dest names).append d x).map fun w => (w.done x op.uid op.resolved, 0) := rfl

/-- **A new node goes to the end of the list,** or there is no memory for the array. -/
theorem Nodes.addNode {dest : Frdest} (h : Nodes y w N none) (hx : w.allocNode x = false) (hd : w.allocTab d = true)
    (hdest : -1 ≤ dest.fdName) (names : List (BitVec 8)) (op : AddOp Name)
    (harr : ∀ a, op.nodes = some a → w.allocArr a = false) :
    ∃ r, w.addNode y d x dest names op = some r ∧ Kept w r.1 ∧
      ((r.2 = 0 ∧ Nodes y r.1 (update N d (N d ++ [x])) none) ∨ (r.2 ≠ 0 ∧ Nodes y r.1 N none)) := by
  have hfill := h.fill hx dest names
  have hnext : (w.fill y x dest names).mem.next x = none := by
    unfold Softd.fill
    simp
  have hout : ∀ d₁, (w.fill y x dest names).allocTab d₁ = true → x ∉ N d₁ := fun d₁ _ => h.out hx d₁
  have hkept : ∀ w', Added (w.fill y x dest names) w' N d x → Kept w (w'.done x op.uid op.resolved) := by
    intro w' hadd
    have hw := hadd.same
    refine ⟨?_, ?_, hadd.tab⟩
    · unfold Softd.done Softd.finish Softd.updNode
      rw [hw]
      rfl
    · unfold Softd.done Softd.finish Softd.updNode
      rw [hw]
      rfl
  rw [addNode_eq]
  split
  · rename_i hfull
    cases ha : op.nodes with
    | none =>
      refine ⟨_, rfl, ⟨rfl, rfl, fun _ => ⟨rfl, rfl, rfl, rfl, rfl, rfl⟩⟩,
        .inr ⟨(by decide : ENOMEM ≠ 0), ?_⟩⟩
      exact hfill.congr (hfill.shape.congr rfl rfl rfl rfl fun _ => ⟨rfl, rfl, rfl⟩) (fun _ hd _ => hd) (fun _ _ => rfl)
        (fun _ _ => .refl _) rfl rfl rfl rfl rfl
    | some a =>
      obtain ⟨w', heq, hadd⟩ := hfill.shape.grow hd hfull (harr a ha) hout hnext
      obtain ⟨w₁, hw₁, happend⟩ := bind_eq_some_iff.1 heq
      dsimp only
      rw [hw₁, bind_some, happend]
      exact ⟨_, rfl, hkept w' hadd, .inl ⟨rfl, h.added hx hd hdest hadd op.uid op.resolved⟩⟩
  · rename_i hroom
    obtain ⟨w', heq, hadd⟩ := hfill.shape.append hd hroom hout hnext
    rw [heq]
    exact ⟨_, rfl, hkept w' hadd, .inl ⟨rfl, h.added hx hd hdest hadd op.uid op.resolved⟩⟩

/-! ## The lists -/

/-- **The lists:** those that can be found exist, the others are empty, and what is selected is on the list. -/
structure Tables (w : Softd Name) (N : ℕ → List ℕ) : Prop where
  nodup : w.tables.Nodup
  alloc : ∀ d ∈ w.tables, w.allocTab d = true
  empty : ∀ d, d ∉ w.tables → N d = []
  ref : ∀ d, w.allocTab d = true → 1 ≤ (w.tab d).ref
  selected : ∀ d x, w.allocTab d = true → (w.tab d).selected = some x → x ∈ N d

/-- Nodes may be added. -/
theorem Tables.kept {N' : ℕ → List ℕ} (h : Tables w N) (hk : Kept w w') (hsub : ∀ d x, x ∈ N d → x ∈ N' d)
    (hempty : ∀ d, d ∉ w.tables → N' d = []) : Tables w' N' := by
  refine ⟨by rw [hk.tables]; exact h.nodup, fun d => ?_, fun d => ?_, fun d hd => ?_, fun d x hd hx => ?_⟩
  · rw [hk.tables, hk.alloc]
    exact h.alloc d
  · rw [hk.tables]
    exact hempty d
  · rw [hk.alloc] at hd
    obtain ⟨-, -, -, href, -, -⟩ := hk.tab d
    rw [href]
    exact h.ref d hd
  · rw [hk.alloc] at hd
    obtain ⟨-, -, -, -, -, hsel⟩ := hk.tab d
    rw [hsel] at hx
    exact hsub d x (h.selected d x hd hx)

theorem Tables.same (h : Tables w N) (hk : Kept w w') : Tables w' N := h.kept hk (fun _ _ hx => hx) h.empty

/-- Nothing but the nodes of one list, and the node that goes, is changed. -/
theorem nodeFree_kept (w : Softd Name) (d a x : ℕ) (hdel : (w.node x).deleted = false) :
    Kept w (ipfDstlistNodeFree w d a x) ∧ ∀ d₁, ((ipfDstlistNodeFree w d a x).tab d₁).dests = (w.tab d₁).dests := by
  have htab : ∀ d₁, (update w.tab d { w.tab d with nodes := (w.tab d).nodes - 1 } d₁).like (w.tab d₁) ∧
      (update w.tab d { w.tab d with nodes := (w.tab d).nodes - 1 } d₁).dests = (w.tab d₁).dests := by
    intro d₁
    by_cases h1 : d₁ = d
    · subst h1
      rw [update_self]
      exact ⟨⟨rfl, rfl, rfl, rfl, rfl, rfl⟩, rfl⟩
    · rw [update_of_ne h1]
      exact ⟨⟨rfl, rfl, rfl, rfl, rfl, rfl⟩, rfl⟩
  rw [nodeFree_eq, deref_eq, detach_eq hdel]
  split
  · exact ⟨⟨rfl, rfl, fun d₁ => (htab d₁).1⟩, fun d₁ => (htab d₁).2⟩
  · exact ⟨⟨rfl, rfl, fun d₁ => (htab d₁).1⟩, fun d₁ => (htab d₁).2⟩

theorem Nodes.not_deleted (h : Nodes y w N e) (hx : x ∈ N d) : (w.node x).deleted = false := by
  have hiff := h.deleted x (h.alloc hx)
  cases hc : (w.node x).deleted with
  | false => rfl
  | true => exact absurd ⟨d, hx⟩ (hiff.1 hc)

/-- **All nodes leave a list.** -/
theorem Nodes.clearLoop (i : ℕ) (h : Nodes y w N none) (hd : w.allocTab d = true) (ha : (w.tab d).dests = some a)
    (hi : (N d).length ≤ i) : Nodes y (clearLoop d a i w) (update N d []) none ∧ Kept w (clearLoop d a i w) := by
  induction i generalizing w N with
  | zero =>
    rw [length_eq_zero_iff.1 (Nat.le_zero.1 hi) |>.symm, update_eq_self]
    exact ⟨h, .refl w⟩
  | succ i ih =>
    -- the first of the list is freed until there is none
    have hhead := ((h.shape.array hd ha).1).head?
    rw [head_get] at hhead
    unfold Dstlist.clearLoop
    cases hl : N d with
    | nil =>
      have hnone : w.mem.head a = none := by rw [hhead, hl]; rfl
      rw [hnone, ← hl, update_eq_self]
      exact ⟨h, .refl w⟩
    | cons x l =>
      rw [hhead, hl]
      have hx : x ∈ N d := by rw [hl]; exact mem_cons_self
      obtain ⟨hkept, hdests⟩ := nodeFree_kept w d a x (h.not_deleted hx)
      have hcons : N d = [] ++ x :: l := hl
      have hfree : Nodes y (ipfDstlistNodeFree w d a x) (update N d l) none := (h.detach ha hcons).deref
      rw [hl, length_cons] at hi
      obtain ⟨h1, h2⟩ := ih hfree (by rw [hkept.alloc]; exact hd) (by rw [hdests]; exact ha)
        (by rw [update_self]; omega)
      rw [update_idem] at h1
      exact ⟨h1, hkept.trans h2⟩

theorem Nodes.clearnodes (h : Nodes y w N none) (hd : w.allocTab d = true) :
    Nodes y (ipfDstlistTableClearnodes w d) (update N d []) none ∧ Kept w (ipfDstlistTableClearnodes w d) := by
  unfold ipfDstlistTableClearnodes
  cases ha : (w.tab d).dests with
  | none =>
    rw [← (h.shape.bare hd ha).1, update_eq_self]
    exact ⟨h, .refl w⟩
  | some a => exact h.clearLoop _ hd ha (h.length d)

/-- A list whose reference is dropped. -/
theorem tableDeref_eq (w : Softd Name) (d : ℕ) : ipfDstlistTableDeref w d =
    if 0 < (w.tab d).ref - 1 then w.updTab d fun t => { t with ref := t.ref - 1 }
    else ipfDstlistTableFree (w.updTab d fun t => { t with ref := t.ref - 1 }) d := by
  have hself : (w.updTab d fun t => { t with ref := t.ref - 1 }).tab d = { w.tab d with ref := (w.tab d).ref - 1 } :=
    update_self ..
  have href : ((w.updTab d fun t => { t with ref := t.ref - 1 }).tab d).ref = (w.tab d).ref - 1 := by rw [hself]
  rw [← href]
  rfl

/-- Fields of a list that are not about its nodes may change. -/
theorem Nodes.updTab (h : Nodes y w N e) (f : Dst Name → Dst Name)
    (hf : (f (w.tab d)).dests = (w.tab d).dests ∧ (f (w.tab d)).nodes = (w.tab d).nodes ∧
      (f (w.tab d)).maxnodes = (w.tab d).maxnodes) : Nodes y (w.updTab d f) N e := by
  refine h.congr (h.shape.congr rfl rfl rfl rfl fun d₁ => ?_) (fun _ hd _ => hd) (fun _ _ => rfl) (fun _ _ => .refl _)
    rfl rfl rfl rfl rfl
  unfold Softd.updTab
  dsimp only
  by_cases h1 : d₁ = d
  · subst h1
    rw [update_self]
    exact hf
  · rw [update_of_ne h1]
    exact ⟨rfl, rfl, rfl⟩

/-- **A reference to a list is dropped;** with the last one the list goes, which is empty then. -/
theorem Nodes.tableDeref (h : Nodes y w N none) (hd : w.allocTab d = true) (hnil : (w.tab d).ref ≤ 1 → N d = []) :
    Nodes y (ipfDstlistTableDeref w d) N none := by
  have hupd := h.updTab (d := d) (fun t => { t with ref := t.ref - 1 }) ⟨rfl, rfl, rfl⟩
  rw [tableDeref_eq]
  split
  · exact hupd
  · -- the list goes: it has no nodes left
    have hnil' := hnil (by omega)
    refine hupd.congr (hupd.shape.tableFree hd hnil') (fun d₁ h1 hne => ?_) (fun _ _ => rfl) (fun _ _ => .refl _) rfl rfl rfl
      rfl rfl
    have hdd : d₁ ≠ d := by
      rintro rfl
      exact hne hnil'
    unfold ipfDstlistTableFree
    dsimp only
    rw [update_of_ne hdd]
    exact h1

/-- The lists after a reference to one is dropped. -/
theorem tableDeref_tab (w : Softd Name) (d : ℕ) : (ipfDstlistTableDeref w d).tables = w.tables ∧
    (∀ d₁, d₁ ≠ d → (ipfDstlistTableDeref w d).allocTab d₁ = w.allocTab d₁ ∧
      (ipfDstlistTableDeref w d).tab d₁ = w.tab d₁) ∧
    ((ipfDstlistTableDeref w d).allocTab d = true → 1 < (w.tab d).ref ∧
      (ipfDstlistTableDeref w d).tab d = { w.tab d with ref := (w.tab d).ref - 1 }) ∧
    (1 < (w.tab d).ref → (ipfDstlistTableDeref w d).allocTab d = w.allocTab d) := by
  rw [tableDeref_eq]
  unfold ipfDstlistTableFree Softd.updTab
  split
  · refine ⟨rfl, fun d₁ h1 => ⟨rfl, update_of_ne h1 _ _⟩, fun _ => ⟨by omega, update_self ..⟩, fun _ => rfl⟩
  · refine ⟨rfl, fun d₁ h1 => ⟨update_of_ne h1 _ _, update_of_ne h1 _ _⟩, fun hc => ?_, fun hc => by omega⟩
    dsimp only at hc
    rw [update_self] at hc
    cases hc

theorem Tables.deref (h : Tables w N) (hd : d ∈ w.tables → 1 < (w.tab d).ref) : Tables (ipfDstlistTableDeref w d) N := by
  obtain ⟨htables, hother, hself, hkeep⟩ := tableDeref_tab w d
  have hback : ∀ d₁, (ipfDstlistTableDeref w d).allocTab d₁ = true → w.allocTab d₁ = true := by
    intro d₁ h1
    by_cases hdd : d₁ = d
    · rw [hdd] at h1 ⊢
      rw [← hkeep (hself h1).1]
      exact h1
    · rw [← (hother d₁ hdd).1]
      exact h1
  refine ⟨by rw [htables]; exact h.nodup, fun d₁ h1 => ?_, by rw [htables]; exact h.empty, fun d₁ h1 => ?_,
    fun d₁ x h1 hx => ?_⟩
  · rw [htables] at h1
    by_cases hdd : d₁ = d
    · rw [hdd] at h1 ⊢
      rw [hkeep (hd h1)]
      exact h.alloc d h1
    · rw [(hother d₁ hdd).1]
      exact h.alloc d₁ h1
  · by_cases hdd : d₁ = d
    · rw [hdd] at h1 ⊢
      obtain ⟨h2, h3⟩ := hself h1
      rw [h3]
      dsimp only
      omega
    · rw [(hother d₁ hdd).2]
      exact h.ref d₁ (hback d₁ h1)
  · refine h.selected d₁ x (hback d₁ h1) ?_
    by_cases hdd : d₁ = d
    · rw [hdd] at h1 hx ⊢
      rw [(hself h1).2] at hx
      exact hx
    · rwa [(hother d₁ hdd).2] at hx

/-- **A list that can be found is removed.** If it goes, or nothing is selected on it, this leaves nothing behind. -/
theorem remove_good (h : Nodes y w N none) (ht : Tables w N) (hd : d ∈ w.tables)
    (hsel : (w.tab d).selected = none ∨ (w.tab d).ref = 1) :
    Nodes y (ipfDstlistTableRemove w d) (update N d []) none ∧ Tables (ipfDstlistTableRemove w d) (update N d []) ∧
      (ipfDstlistTableRemove w d).tables = w.tables.erase d ∧
      ∀ d₁, d₁ ≠ d → ((ipfDstlistTableRemove w d).tab d₁).like (w.tab d₁) := by
  have hda := ht.alloc d hd
  have h0 : Nodes y { w with tables := w.tables.erase d } N none :=
    h.congr (h.shape.congr rfl rfl rfl rfl fun _ => ⟨rfl, rfl, rfl⟩) (fun _ hd _ => hd) (fun _ _ => rfl)
      (fun _ _ => .refl _)
      rfl rfl rfl rfl rfl
  -- its nodes go
  obtain ⟨h1, hkept⟩ := h0.clearnodes (d := d) hda
  generalize hw₁ : ipfDstlistTableClearnodes { w with tables := w.tables.erase d } d = w₁ at h1 hkept
  have hnil : update N d [] d = [] := update_self ..
  -- then it is marked, and dropped
  have h2 : Nodes y { w₁.updTab d fun t => { t with deleted := true } with numdereflists := w₁.numdereflists + 1 }
      (update N d []) none := by
    have hupd := h1.updTab (d := d) (fun t => { t with deleted := true }) ⟨rfl, rfl, rfl⟩
    exact hupd.congr (hupd.shape.congr rfl rfl rfl rfl fun _ => ⟨rfl, rfl, rfl⟩) (fun _ hd _ => hd) (fun _ _ => rfl)
      (fun _ _ => .refl _) rfl rfl rfl rfl rfl
  have heq : ipfDstlistTableRemove w d = ipfDstlistTableDeref
      { w₁.updTab d fun t => { t with deleted := true } with numdereflists := w₁.numdereflists + 1 } d := by
    rw [← hw₁]
    rfl
  generalize hw₂ : { w₁.updTab d fun t => { t with deleted := true } with numdereflists := w₁.numdereflists + 1 } =
    w₂ at h2 heq
  have htables : w₂.tables = w.tables.erase d := by
    rw [← hw₂]
    exact hkept.tables
  have halloc : w₂.allocTab = w.allocTab := by
    rw [← hw₂]
    exact hkept.alloc
  have htab : w₂.tab d = { w₁.tab d with deleted := true } := by
    rw [← hw₂]
    exact update_self ..
  have htab' : ∀ d₁, d₁ ≠ d → (w₂.tab d₁).like (w.tab d₁) := by
    intro d₁ hdd
    have hsame : w₂.tab d₁ = w₁.tab d₁ := by
      rw [← hw₂]
      exact update_of_ne hdd _ _
    rw [hsame]
    exact hkept.tab d₁
  obtain ⟨-, -, -, href, -, hselected⟩ := hkept.tab d
  obtain ⟨k1, k2, k3, -⟩ := tableDeref_tab w₂ d
  have hout : d ∉ w.tables.erase d := ht.nodup.not_mem_erase
  have hback : ∀ d₁, (ipfDstlistTableDeref w₂ d).allocTab d₁ = true → w.allocTab d₁ = true := by
    intro d₁ hd₁
    by_cases hdd : d₁ = d
    · rw [hdd]
      exact hda
    · rw [← halloc, ← (k2 d₁ hdd).1]
      exact hd₁
  rw [heq]
  refine ⟨h2.tableDeref (by rw [halloc]; exact hda) fun _ => hnil,
    ⟨?_, fun d₁ hd₁ => ?_, fun d₁ hd₁ => ?_, fun d₁ hd₁ => ?_,
    fun d₁ x hd₁ hx => ?_⟩, k1.trans htables, fun d₁ hdd => by rw [(k2 d₁ hdd).2]; exact htab' d₁ hdd⟩
  · rw [k1, htables]
    exact ht.nodup.erase d
  · rw [k1, htables] at hd₁
    have hdd : d₁ ≠ d := fun hc => hout (hc ▸ hd₁)
    rw [(k2 d₁ hdd).1, halloc]
    exact ht.alloc d₁ (mem_of_mem_erase hd₁)
  · by_cases hdd : d₁ = d
    · rw [hdd]
      exact hnil
    · rw [update_of_ne hdd]
      refine ht.empty d₁ fun hc => hd₁ ?_
      rw [k1, htables]
      exact (mem_erase_of_ne hdd).2 hc
  · by_cases hdd : d₁ = d
    · rw [hdd] at hd₁ ⊢
      obtain ⟨hpos, hsame⟩ := k3 hd₁
      rw [hsame]
      dsimp only
      omega
    · obtain ⟨-, -, -, hr, -, -⟩ := htab' d₁ hdd
      rw [(k2 d₁ hdd).2, hr]
      exact ht.ref d₁ (hback d₁ hd₁)
  · by_cases hdd : d₁ = d
    · -- the list is still there only if others refer to it
      rw [hdd] at hd₁ hx
      obtain ⟨hpos, hsame⟩ := k3 hd₁
      rw [htab] at hpos
      rw [hsame, htab] at hx
      dsimp only at hpos hx
      rw [href] at hpos
      rw [hselected] at hx
      rcases hsel with hsel | hsel
      · rw [hsel] at hx
        cases hx
      · exact absurd hpos (by rw [hsel]; omega)
    · obtain ⟨-, -, -, -, -, hs⟩ := htab' d₁ hdd
      rw [(k2 d₁ hdd).2, hs] at hx
      rw [update_of_ne hdd]
      exact ht.selected d₁ x (hback d₁ hd₁) hx

/-! ## Selection -/

/-- The node after another one, by their places. -/
theorem Nodes.around (h : Nodes y w N e) (hd : w.allocTab d = true) (ha : (w.tab d).dests = some a) {j : ℕ}
    (hj : (N d)[j]? = some x) : w.around a x = (N d)[(j + 1) % (N d).length]? := by
  obtain ⟨hlt, hx⟩ := List.getElem?_eq_some_iff.1 hj
  have hsplit : N d = (N d).take j ++ x :: (N d).drop (j + 1) := by
    rw [← hx, getElem_cons_drop, take_append_drop]
  have hnext := h.shape.next_eq hd hsplit
  rw [head?_drop] at hnext
  unfold Softd.around
  rw [hnext]
  by_cases hlast : j + 1 = (N d).length
  · have hhead := ((h.shape.array hd ha).1).head?
    rw [head_get, head?_eq_getElem?] at hhead
    rw [hlast, List.getElem?_length, Nat.mod_self]
    exact hhead
  · have hlt' : j + 1 < (N d).length := by omega
    rw [Nat.mod_eq_of_lt hlt', List.getElem?_eq_getElem hlt']

/-- The loop for `IPLDP_CONNECTION` ends: after `k` nodes it is back at the selected one. -/
theorem Nodes.connLoop (h : Nodes y w N e) (hd : w.allocTab d = true) (ha : (w.tab d).dests = some a) {s k : ℕ} :
    ∀ {j i node sel : ℕ} (connects : ℤ), (N d)[j]? = some node → (N d)[(j + k) % (N d).length]? = some s → k < i →
      sel ∈ N d →
      ∃ r ∈ N d, connLoop w a s i (some node) sel connects = some r := by
  induction k with
  | zero =>
    intro j i node sel connects hj hs hi hsel
    obtain ⟨hlt, -⟩ := List.getElem?_eq_some_iff.1 hj
    -- back at the selected node
    rw [add_zero, Nat.mod_eq_of_lt hlt, hj] at hs
    obtain ⟨i, rfl⟩ := Nat.exists_eq_succ_of_ne_zero (ne_of_gt hi)
    refine ⟨sel, hsel, ?_⟩
    unfold Dstlist.connLoop
    rw [if_pos (some.inj hs)]
  | succ k ih =>
    intro j i node sel connects hj hs hi hsel
    obtain ⟨i, rfl⟩ := Nat.exists_eq_succ_of_ne_zero (ne_of_gt (Nat.zero_lt_of_lt hi))
    have hnode : node ∈ N d := mem_of_getElem? hj
    have hpos : 0 < (N d).length := length_pos_of_mem hnode
    -- one step around the list
    have haround := h.around hd ha hj
    obtain ⟨z, hz⟩ : ∃ z, (N d)[(j + 1) % (N d).length]? = some z :=
      ⟨_, List.getElem?_eq_getElem (Nat.mod_lt _ hpos)⟩
    have hs' : (N d)[((j + 1) % (N d).length + k) % (N d).length]? = some s := by
      rw [Nat.mod_add_mod, show j + 1 + k = j + (k + 1) by omega]
      exact hs
    have hi' : k < i := by omega
    unfold Dstlist.connLoop
    rw [haround, hz]
    split
    · exact ⟨sel, hsel, rfl⟩
    · split
      · exact ⟨node, hnode, rfl⟩
      · split
        · exact ih _ hz hs' hi' hnode
        · exact ih _ hz hs' hi' hsel

/-- **A selection ends at a node of the list,** if the policy is known. -/
theorem choose_mem (h : Nodes y w N none) (ht : Tables w N) (hd : w.allocTab d = true) (ha : (w.tab d).dests = some a)
    (hne : N d ≠ []) (hpolicy : ∀ p, (w.tab d).policy ≠ .other p) (v : ℕ) : ∃ r ∈ N d, w.choose d a v = some r := by
  have hpos : 0 < (N d).length := length_pos_of_ne_nil hne
  obtain ⟨hseg, hslots, hlen⟩ := h.shape.array hd ha
  have hhead := hseg.head?
  rw [head_get, head?_eq_getElem?, List.getElem?_eq_getElem hpos] at hhead
  have hfirst : ∃ r ∈ N d, w.mem.head a = some r := ⟨_, getElem_mem hpos, hhead⟩
  have hplace : ∀ s, (w.tab d).selected = some s → ∃ j, (N d)[j]? = some s := fun s hs =>
    mem_iff_getElem?.1 (ht.selected d s hd hs)
  -- the hash and the random policies index the slots
  have hslot : ∃ r ∈ N d, w.slot a (v % (w.tab d).nodes) = some r := by
    have hlt : v % (w.tab d).nodes < (N d).length := by
      rw [hlen]
      exact Nat.mod_lt _ (by omega)
    refine ⟨_, getElem_mem hlt, ?_⟩
    rw [hslots _ hlt, List.getElem?_eq_getElem hlt]
  unfold Softd.choose
  cases hp : (w.tab d).policy with
  | other p => exact absurd hp (hpolicy p)
  | roundrobin =>
    cases hs : (w.tab d).selected with
    | none => exact hfirst
    | some s =>
      obtain ⟨j, hj⟩ := hplace s hs
      dsimp only
      rw [h.around hd ha hj, List.getElem?_eq_getElem (Nat.mod_lt _ hpos)]
      exact ⟨_, getElem_mem _, rfl⟩
  | connection =>
    cases hs : (w.tab d).selected with
    | none => exact hfirst
    | some s =>
      obtain ⟨j, hj⟩ := hplace s hs
      obtain ⟨hlt, -⟩ := List.getElem?_eq_some_iff.1 hj
      obtain ⟨z, hz⟩ : ∃ z, (N d)[(j + 1) % (N d).length]? = some z :=
        ⟨_, List.getElem?_eq_getElem (Nat.mod_lt _ hpos)⟩
      dsimp only
      rw [h.around hd ha hj, hz]
      -- from behind the selected node around to it
      refine h.connLoop hd ha (k := (N d).length - 1) _ hz ?_ ?_ (mem_of_getElem? hj)
      · -- around the whole list
        rw [Nat.mod_add_mod, show j + 1 + ((N d).length - 1) = j + (N d).length by omega, Nat.add_mod_right,
          Nat.mod_eq_of_lt hlt]
        exact hj
      · have := h.length d
        omega
  | random => exact hslot
  | hashed => exact hslot
  | srchash => exact hslot
  | dsthash => exact hslot

/-! ## Calls -/

/-- Memory is new, rules give back only the references they have, and they select from lists to which they refer. -/
def Legal (w : Softd Name) : Op Name → Prop
  | .tableAdd _ _ _ new => ∀ d, new = some d → w.allocTab d = false
  | .deref d => w.allocTab d = true ∧ (d ∈ w.tables → 1 < (w.tab d).ref)
  | .nodeAdd op => (∀ x, op.node = some x → w.allocNode x = false) ∧ ∀ a, op.nodes = some a → w.allocArr a = false
  | .select d _ _ _ => w.allocTab d = true
  | _ => True

/-- **No request that goes wrong:** to add a list for the last unit, to delete a node of a list without an array, to select from
a list with nodes by an unknown policy, and to flush a list that has a selected node while a rule refers to it. -/
def Calm [DecidableEq Name] (w : Softd Name) : Op Name → Prop
  | .tableAdd unit _ _ _ => unit ≠ IPL_LOGMAX
  | .nodeDel op => ∀ d, ipfDstlistTableFind w op.unit op.name = some d → (w.tab d).dests ≠ none
  | .select d _ _ _ => ∀ a, (w.tab d).dests = some a → w.mem.head a ≠ none → ∀ p, (w.tab d).policy ≠ .other p
  | .flush unit name =>
    ∀ d ∈ w.tables, (unit = none ∨ unit = some (w.tab d).unit) → (name = none ∨ name = some (w.tab d).name) →
      (w.tab d).selected = none ∨ (w.tab d).ref = 1
  | _ => True

theorem find_mem [DecidableEq Name] {unit : ℤ} {name : Name} (h : ipfDstlistTableFind w unit name = some d) :
    d ∈ w.tables :=
  mem_of_find?_eq_some h

/-- **A request to delete a node never finds one:** with the size of a node the name of a destination is longer than 0, but in a
node there is an offset, 0 or -1. -/
theorem hits_false (h : Nodes y w N e) (hx : w.allocNode x = true) (op : DelOp Name) (frd : Frdest) :
    w.hits y op frd x = false := by
  obtain ⟨hname, hsize⟩ := h.stored x hx
  have hcontains := y.contains
  unfold Softd.hits sameFrom
  by_cases hs : (w.node x).size = y.frdest + frd.fdName
  · have hne : (w.node x).dest.fdName ≠ frd.fdName := by omega
    simp [hne]
  · simp [hs]

theorem nodeDel_fails [DecidableEq Name] (h : Nodes y w N none) (ht : Tables w N) (op : DelOp Name)
    (hcalm : Calm w (.nodeDel op)) : ∃ w' r, ipfDstlistNodeDel y w op = some (w', r) ∧ r ≠ 0 ∧
      (w' = w ∨ w' = { w with nomem := w.nomem + 1 }) := by
  unfold ipfDstlistNodeDel
  cases hf : ipfDstlistTableFind w op.unit op.name with
  | none => exact ⟨w, ESRCH, rfl, by decide, .inl rfl⟩
  | some d =>
    cases op.dest with
    | none => exact ⟨w, EFAULT, rfl, by decide, .inl rfl⟩
    | some frd =>
      cases op.temp with
      | false => exact ⟨_, ENOMEM, rfl, by decide, .inr rfl⟩
      | true =>
        dsimp only
        rw [if_neg (by decide)]
        split
        · exact ⟨w, EFAULT, rfl, by decide, .inl rfl⟩
        · cases ha : (w.tab d).dests with
          | none => exact absurd ha (hcalm d hf)
          | some a =>
            have hd := ht.alloc d (find_mem hf)
            -- no node compares equal, in its size and its name
            have hfind := (h.shape.array hd ha).1.get_seek (fun x => !w.hits y op frd x) (h.length d)
            have hnone : (N d).find? (fun x => !!w.hits y op frd x) = none := by
              rw [find?_eq_none]
              intro x hx
              rw [hits_false h (h.alloc hx)]
              decide
            rw [hnone] at hfind
            dsimp only
            rw [hfind]
            exact ⟨w, ESRCH, rfl, by decide, .inl rfl⟩

theorem Nodes.nomem (h : Nodes y w N e) (n : ℕ) : Nodes y { w with nomem := n } N e :=
  h.congr (h.shape.congr rfl rfl rfl rfl fun _ => ⟨rfl, rfl, rfl⟩) (fun _ hd _ => hd) (fun _ _ => rfl)
    (fun _ _ => .refl _) rfl
    rfl rfl rfl rfl

theorem Kept.nomem (w : Softd Name) (n : ℕ) : Kept w { w with nomem := n } :=
  ⟨rfl, rfl, fun _ => ⟨rfl, rfl, rfl, rfl, rfl, rfl⟩⟩

/-- A call keeps nodes and lists right. -/
def Keeps (y : Layout) (w' : Softd Name) : Prop := ∃ N, Nodes y w' N none ∧ Tables w' N

theorem nodeAdd_good [DecidableEq Name] (h : Nodes y w N none) (ht : Tables w N) (op : AddOp Name)
    (hlegal : Legal w (.nodeAdd op)) : ∃ r, ipfDstlistNodeAdd y w op = some r ∧ Keeps y r.1 := by
  have hsame : Keeps y w := ⟨N, h, ht⟩
  have hnomem : Keeps y { w with nomem := w.nomem + 1 } := ⟨N, h.nomem _, ht.same (.nomem w _)⟩
  have hadd : ∀ d x dest names, ipfDstlistTableFind w op.unit op.name = some d → op.node = some x → -1 ≤ dest.fdName →
      ∃ r, w.addNode y d x dest names op = some r ∧ Keeps y r.1 := by
    intro d x dest names hf hx hdest
    have hmem := find_mem hf
    obtain ⟨r, heq, hkept, hr⟩ := h.addNode (hlegal.1 x hx) (ht.alloc d hmem) hdest names op hlegal.2
    refine ⟨r, heq, ?_⟩
    rcases hr with ⟨-, hr⟩ | ⟨-, hr⟩
    · refine ⟨_, hr, ht.kept hkept (fun d₁ z hz => ?_) fun d₁ h1 => ?_⟩
      · by_cases hdd : d₁ = d
        · rw [hdd, update_self]
          exact mem_append_left _ (hdd ▸ hz)
        · rwa [update_of_ne hdd]
      · have hdd : d₁ ≠ d := by
          rintro rfl
          exact h1 hmem
        rw [update_of_ne hdd]
        exact ht.empty d₁ h1
    · exact ⟨N, hr, ht.same hkept⟩
  unfold ipfDstlistNodeAdd
  split
  · exact ⟨_, rfl, hsame⟩
  cases op.dest with
  | none => exact ⟨_, rfl, hsame⟩
  | some dest =>
    cases hf : ipfDstlistTableFind w op.unit op.name with
    | none => exact ⟨_, rfl, hsame⟩
    | some d =>
      dsimp only
      split
      · exact ⟨_, rfl, hsame⟩
      split
      · exact ⟨_, rfl, hsame⟩
      rename_i hname
      cases hx : op.node with
      | none => exact ⟨_, rfl, hnomem⟩
      | some x =>
        dsimp only
        split
        · cases op.names with
          | none => exact ⟨_, rfl, hsame⟩
          | some names => exact hadd d x dest names hf hx (by omega)
        · exact hadd d x dest [] hf hx (by omega)

theorem tableAdd_good [DecidableEq Name] (h : Nodes y w N none) (ht : Tables w N) (unit : ℤ) (name : Name)
    (policy : Option Policy) (new : Option ℕ) (hlegal : Legal w (.tableAdd unit name policy new))
    (hcalm : Calm w (.tableAdd unit name policy new)) :
    ∃ w', step y w (.tableAdd unit name policy new) = some w' ∧ Keeps y w' := by
  change ∃ w', (ipfLookupAddtable w unit name policy new).map Prod.fst = some w' ∧ Keeps y w'
  unfold ipfLookupAddtable
  split
  · exact ⟨w, rfl, N, h, ht⟩
  unfold ipfDstlistTableAdd
  cases ipfDstlistTableFind w unit name with
  | some d => exact ⟨w, rfl, N, h, ht⟩
  | none =>
    cases policy with
    | none => exact ⟨w, rfl, N, h, ht⟩
    | some policy =>
      cases new with
      | none => exact ⟨_, rfl, N, h.nomem _, ht.same (.nomem w _)⟩
      | some d =>
        -- the last unit has no place for lists
        have hunit : ¬IPL_LOGMAX < unit + 1 := by
          rename_i hrange
          have hne : unit ≠ IPL_LOGMAX := hcalm
          simp only [IPL_LOGMAX, IPLT_ALL] at *
          omega
        refine ⟨_, by dsimp only; rw [if_neg hunit]; rfl, ?_⟩
        have hd := hlegal d rfl
        have hout : d ∉ w.tables := by
          intro hc
          rw [ht.alloc d hc] at hd
          cases hd
        -- the new list is empty
        have hN : update N d [] = N := by rw [← ht.empty d hout, update_eq_self]
        have hne : ∀ d₁, w.allocTab d₁ = true → d₁ ≠ d := by
          rintro d₁ h1 rfl
          rw [hd] at h1
          cases h1
        refine ⟨N, h.congr ?_ (fun d₁ h1 _ => ?_) (fun _ _ => rfl) (fun _ _ => .refl _) rfl rfl rfl rfl rfl, ?_,
          fun d₁ h1 => ?_, fun d₁ h1 => ?_, fun d₁ h1 => ?_, fun d₁ x h1 hx => ?_⟩
        · rw [← hN]
          exact h.shape.tableAdd hd (t := ⟨unit, name, policy, 1, false, 0, 0, none, none⟩) rfl rfl rfl rfl rfl rfl rfl rfl
        · dsimp only
          rw [update_of_ne (hne d₁ h1)]
          exact h1
        · exact List.Nodup.append ht.nodup (nodup_singleton d) fun z hz hzd => hout (mem_singleton.1 hzd ▸ hz)
        · dsimp only at h1 ⊢
          by_cases hdd : d₁ = d
          · rw [hdd, update_self]
          · rw [update_of_ne hdd]
            exact ht.alloc d₁ ((mem_append.1 h1).resolve_right fun hc => hdd (mem_singleton.1 hc))
        · exact ht.empty d₁ fun hc => h1 (mem_append_left _ hc)
        · dsimp only at h1 ⊢
          by_cases hdd : d₁ = d
          · rw [hdd, update_self]
          · rw [update_of_ne hdd] at h1 ⊢
            exact ht.ref d₁ h1
        · dsimp only at h1 hx
          by_cases hdd : d₁ = d
          · rw [hdd, update_self] at hx
            cases hx
          · rw [update_of_ne hdd] at h1 hx
            exact ht.selected d₁ x h1 hx

/-- **Lists are flushed** one after the other. -/
theorem removeAll_good (ds : List ℕ) (h : Nodes y w N none) (ht : Tables w N) (hnd : ds.Nodup)
    (hsub : ∀ d ∈ ds, d ∈ w.tables) (hsel : ∀ d ∈ ds, (w.tab d).selected = none ∨ (w.tab d).ref = 1) :
      Keeps y (ds.foldl ipfDstlistTableRemove w) := by
  induction ds generalizing w N with
  | nil => exact ⟨N, h, ht⟩
  | cons d ds ih =>
    obtain ⟨hd, hnd⟩ := nodup_cons.1 hnd
    obtain ⟨h1, h2, h3, h4⟩ := remove_good h ht (hsub d mem_cons_self) (hsel d mem_cons_self)
    have hne : ∀ d₁ ∈ ds, d₁ ≠ d := by
      rintro d₁ hd₁ rfl
      exact hd hd₁
    refine ih h1 h2 hnd (fun d₁ hd₁ => ?_) fun d₁ hd₁ => ?_
    · rw [h3]
      exact (mem_erase_of_ne (hne d₁ hd₁)).2 (hsub d₁ (mem_cons_of_mem _ hd₁))
    · obtain ⟨-, -, -, href, -, hselected⟩ := h4 d₁ (hne d₁ hd₁)
      rw [href, hselected]
      exact hsel d₁ (mem_cons_of_mem _ hd₁)

theorem tableDel_good [DecidableEq Name] (h : Nodes y w N none) (ht : Tables w N) (unit : ℤ) (name : Name) :
    Keeps y (ipfDstlistTableDel w unit name).1 := by
  unfold ipfDstlistTableDel
  cases hf : ipfDstlistTableFind w unit name with
  | none => exact ⟨N, h, ht⟩
  | some d =>
    dsimp only
    split
    · exact ⟨N, h, ht⟩
    · rename_i hdests
      have hd := find_mem hf
      have hda := ht.alloc d hd
      have hnil := (h.shape.bare hda (not_not.1 hdests)).1
      have hsel : (w.tab d).selected = none := by
        cases hs : (w.tab d).selected with
        | none => rfl
        | some x =>
          have hx := ht.selected d x hda hs
          rw [hnil] at hx
          cases hx
      obtain ⟨h1, h2, -, -⟩ := remove_good h ht hd (.inl hsel)
      exact ⟨_, h1, h2⟩

theorem select_good (h : Nodes y w N none) (ht : Tables w N) (family v finIfp : ℕ) (hd : w.allocTab d = true)
    (hcalm : ∀ a, (w.tab d).dests = some a → w.mem.head a ≠ none → ∀ p, (w.tab d).policy ≠ .other p) :
    ∃ r, ipfDstlistSelectNode w d family v finIfp = some r ∧ Keeps y r.1 := by
  have hsame : Keeps y w := ⟨N, h, ht⟩
  -- the selected node changes, then the interface and the number of states of a node
  have hselect : ∀ sel, (∀ z, sel = some z → z ∈ N d) → ∀ node,
      (∀ z, (node z : Dstnode).like (w.node z)) →
      Keeps y { w.updTab d fun t => { t with selected := sel } with node := node } := by
    intro sel hsel node hnode
    have hupd := h.updTab (d := d) (fun t => { t with selected := sel }) ⟨rfl, rfl, rfl⟩
    refine ⟨N, hupd.congr (hupd.shape.congr rfl rfl rfl rfl fun _ => ⟨rfl, rfl, rfl⟩) (fun _ hd _ => hd) (fun _ _ => rfl)
      (fun z _ => hnode z) rfl rfl rfl rfl rfl, ht.nodup, ht.alloc, ht.empty, fun d₁ h1 => ?_, fun d₁ x h1 hx => ?_⟩
    · unfold Softd.updTab
      dsimp only
      by_cases hdd : d₁ = d
      · subst hdd
        rw [update_self]
        exact ht.ref d₁ h1
      · rw [update_of_ne hdd]
        exact ht.ref d₁ h1
    · unfold Softd.updTab at hx
      dsimp only at hx
      by_cases hdd : d₁ = d
      · subst hdd
        rw [update_self] at hx
        exact hsel x hx
      · rw [update_of_ne hdd] at hx
        exact ht.selected d₁ x h1 hx
  unfold ipfDstlistSelectNode ipfDstlistSelect
  cases ha : (w.tab d).dests with
  | none => exact ⟨_, rfl, hsame⟩
  | some a =>
    dsimp only
    by_cases hhead : w.mem.head a = none
    · rw [if_pos hhead]
      exact ⟨_, rfl, hsame⟩
    · have hne : N d ≠ [] := by
        intro hc
        have hs := (h.shape.array hd ha).1.head?
        rw [hc] at hs
        exact hhead hs
      obtain ⟨z, hz, hchoose⟩ := choose_mem h ht hd ha hne (hcalm a ha hhead) v
      rw [if_neg hhead, hchoose]
      refine ⟨_, rfl, ?_⟩
      dsimp only
      -- a node of another family is not taken, and none is selected
      by_cases hf : (w.node z).dest.adfFamily ≠ family
      · rw [if_pos hf]
        exact hselect none (by simp) w.node fun _ => .refl _
      · rw [if_neg hf]
        refine hselect (some z) (fun z' hz' => by cases hz'; exact hz) _ fun z' => ?_
        unfold Softd.updTab
        dsimp only
        by_cases hzz : z' = z
        · subst hzz
          rw [update_self]
          refine ⟨rfl, rfl, rfl, ?_⟩
          dsimp only
          split <;> rfl
        · rw [update_of_ne hzz]
          exact .refl _

/-- The references to the next node and to the one before. -/
theorem advance_eq (w : Softd Name) (q : ℕ) (u v : Option ℕ) : ∃ node : ℕ → Dstnode, w.advance q u v = (match u with
      | none => { w with tok := update w.tok q v, node := node }
      | some x => ipfDstlistNodeDeref { w with tok := update w.tok q v, node := node } x) ∧
    (∀ z, (node z).ref = (w.node z).ref + if v = some z then 1 else 0) ∧
    ∀ z, (node z).deleted = (w.node z).deleted ∧ (node z).dest = (w.node z).dest ∧ (node z).size = (w.node z).size := by
  cases v with
  | none => exact ⟨w.node, rfl, fun z => by simp, fun _ => ⟨rfl, rfl, rfl⟩⟩
  | some n =>
    refine ⟨update w.node n { w.node n with ref := (w.node n).ref + 1 }, rfl, fun z => ?_, fun z => ?_⟩
    · by_cases hz : z = n
      · subst hz
        simp
      · have hnz : ¬n = z := fun hc => hz hc.symm
        simp [hz, hnz]
    · by_cases hz : z = n
      · subst hz
        simp
      · simp [hz]

/-- **An iterator goes on,** and the node before is given back. -/
theorem advance_good (h : Nodes y w N none) (ht : Tables w N) (q : ℕ) (v : Option ℕ)
    (hv : ∀ n, v = some n → w.allocNode n = true) :
    Keeps y (w.advance q (w.tok q) v) := by
  obtain ⟨node, heq, href, hkeep⟩ := advance_eq w q (w.tok q) v
  have hpoint := h.point q v hv href hkeep
  have hkept : Kept w { w with tok := update w.tok q v, node := node } :=
    ⟨rfl, rfl, fun _ => ⟨rfl, rfl, rfl, rfl, rfl, rfl⟩⟩
  rw [heq]
  cases hq : w.tok q with
  | none =>
    rw [hq] at hpoint
    exact ⟨N, hpoint, ht.same hkept⟩
  | some x =>
    rw [hq] at hpoint
    refine ⟨N, hpoint.deref, ht.same (hkept.trans ?_)⟩
    dsimp only
    rw [deref_eq]
    split
    · exact ⟨rfl, rfl, fun _ => ⟨rfl, rfl, rfl, rfl, rfl, rfl⟩⟩
    · exact ⟨rfl, rfl, fun _ => ⟨rfl, rfl, rfl, rfl, rfl, rfl⟩⟩

theorem iterNext_good [DecidableEq Name] (h : Nodes y w N none) (ht : Tables w N) (q : ℕ) (unit : ℤ) (name : Name) :
    Keeps y (ipfDstlistIterNext w q unit name).1 := by
  unfold ipfDstlistIterNext
  cases hq : w.tok q with
  | some x =>
    have hadv := advance_good h ht q (w.mem.next x) fun n hn => by
      by_cases hx : Live N x
      · obtain ⟨d, hx⟩ := hx
        exact h.alloc (h.shape.next (h.known d x hx) hx hn)
      · -- a node that left its list has no successor
        rw [h.alone x (h.alloc_tok hq) hx] at hn
        cases hn
    rwa [hq] at hadv
  | none =>
    dsimp only
    cases hf : ipfDstlistTableFind w unit name with
    | none => exact ⟨N, h, ht⟩
    | some d =>
      have hd := ht.alloc d (find_mem hf)
      dsimp only
      cases ha : (w.tab d).dests with
      | none =>
        have hadv := advance_good h ht q none (by simp)
        rwa [hq] at hadv
      | some a =>
        have hadv := advance_good h ht q (w.mem.head a) fun n hn => by
          have hs := (h.shape.array hd ha).1.head?
          rw [head_get, hn] at hs
          exact h.alloc (mem_of_head? hs.symm)
        rwa [hq] at hadv

theorem iterDeref_good (h : Nodes y w N none) (ht : Tables w N) (q : ℕ) : Keeps y (ipfDstlistIterDeref w q) := by
  have hadv := advance_good h ht q none (by simp)
  unfold ipfDstlistIterDeref
  cases hq : w.tok q with
  | none => exact ⟨N, h, ht⟩
  | some x =>
    rw [hq] at hadv
    exact hadv

theorem selectRef_good [DecidableEq Name] (h : Nodes y w N none) (ht : Tables w N) (unit : ℤ) (name : Name) :
    Keeps y (ipfDstlistSelectRef w unit name) := by
  unfold ipfDstlistSelectRef
  cases ipfDstlistTableFind w unit name with
  | none => exact ⟨N, h, ht⟩
  | some d =>
    refine ⟨N, h.updTab _ ⟨rfl, rfl, rfl⟩, ht.nodup, ht.alloc, ht.empty, fun d₁ h1 => ?_, fun d₁ x h1 hx => ?_⟩
    · unfold Softd.updTab
      dsimp only
      have hpos := ht.ref d₁ h1
      by_cases hdd : d₁ = d
      · subst hdd
        rw [update_self]
        dsimp only
        omega
      · rwa [update_of_ne hdd]
    · refine ht.selected d₁ x h1 ?_
      unfold Softd.updTab at hx
      dsimp only at hx
      by_cases hdd : d₁ = d
      · subst hdd
        rwa [update_self] at hx
      · rwa [update_of_ne hdd] at hx

/-- **A call keeps nodes and lists right,** and there is a result. -/
theorem step_good [DecidableEq Name] (h : Nodes y w N none) (ht : Tables w N) (op : Op Name) (hlegal : Legal w op)
    (hcalm : Calm w op) : ∃ w', step y w op = some w' ∧ Keeps y w' := by
  cases op with
  | tableAdd unit name policy new => exact tableAdd_good h ht unit name policy new hlegal hcalm
  | tableDel unit name => exact ⟨_, rfl, tableDel_good h ht unit name⟩
  | flush unit name =>
    refine ⟨_, rfl, removeAll_good _ h ht (ht.nodup.filter _) (fun d hd => (mem_filter.1 hd).1) fun d hd => ?_⟩
    obtain ⟨hd, hmatch⟩ := mem_filter.1 hd
    rw [decide_eq_true_eq] at hmatch
    exact hcalm d hd hmatch.1 hmatch.2
  | selectRef unit name => exact ⟨_, rfl, selectRef_good h ht unit name⟩
  | deref d =>
    obtain ⟨hd, hmem⟩ := hlegal
    refine ⟨_, rfl, N, h.tableDeref hd fun hle => ht.empty d fun hc => ?_, ht.deref hmem⟩
    have := hmem hc
    omega
  | nodeAdd op =>
    obtain ⟨r, heq, hr⟩ := nodeAdd_good h ht op hlegal
    exact ⟨r.1, congrArg (Option.map Prod.fst) heq, hr⟩
  | nodeDel op =>
    obtain ⟨w', r, heq, -, hr⟩ := nodeDel_fails h ht op hcalm
    refine ⟨w', congrArg (Option.map Prod.fst) heq, ?_⟩
    rcases hr with rfl | rfl
    · exact ⟨N, h, ht⟩
    · exact ⟨N, h.nomem _, ht.same (.nomem w _)⟩
  | select d family v finIfp =>
    obtain ⟨r, heq, hr⟩ := select_good h ht family v finIfp hlegal hcalm
    exact ⟨r.1, congrArg (Option.map Prod.fst) heq, hr⟩
  | iterNext q unit name => exact ⟨_, rfl, iterNext_good h ht q unit name⟩
  | iterDeref q => exact ⟨_, rfl, iterDeref_good h ht q⟩

/-! ## Runs -/

/-- A destination with its name, as a user gives it. -/
abbrev Given := Frdest × List (BitVec 8)

/-- With what the nodes were added. -/
def Op.given (orig : ℕ → Option Given) : Op Name → ℕ → Option Given
  | .nodeAdd op =>
    match op.node, op.dest with
    | some x, some dest => update orig x (some (dest, if 0 < dest.fdName then op.names.getD [] else []))
    | _, _ => orig
  | _ => orig

/-- Runs in which no request goes wrong. -/
inductive Run [DecidableEq Name] (y : Layout) : Softd Name → (ℕ → Option Given) → Prop
  | init (tab : ℕ → Dst Name) (mem : Mem ℕ ℕ) (slots : ℕ → ℕ → Option ℕ) (node : ℕ → Dstnode) :
      Run y (init tab mem slots node) fun _ => none
  | step {w w' : Softd Name} {orig : ℕ → Option Given} (h : Run y w orig) (op : Op Name) (hlegal : Legal w op)
      (hcalm : Calm w op) (hs : step y w op = some w') : Run y w' (op.given orig)

theorem keeps_init [DecidableEq Name] (tab : ℕ → Dst Name) (mem : Mem ℕ ℕ) (slots : ℕ → ℕ → Option ℕ)
    (node : ℕ → Dstnode) :
    Keeps y (init tab mem slots node) := by
  have hlive : ∀ x, ¬Live (fun _ : ℕ => ([] : List ℕ)) x := fun x ⟨d, hx⟩ => by cases hx
  have htotal : ∀ x, total (fun _ : ℕ => ([] : List ℕ)) (fun _ : ℕ => none) none x = 0 := by
    intro x
    unfold total
    rw [if_neg (hlive x), if_neg (some_ne_none x).symm]
    simp [holders]
  have hempty : {x : ℕ | (init tab mem slots node).allocNode x = true} = ∅ := by
    ext x
    simp [init]
  refine ⟨fun _ => [],
    ⟨⟨[], fun _ => [], ⟨.nil, fun a => ?_, ?_, ?_, ?_, ?_, ?_⟩, ?_⟩, ?_, ⟨?_, fun x => ?_⟩, ?_, ?_,
    ?_, ?_, ?_, ?_, ?_, ?_⟩, nodup_nil, ?_, fun _ _ => rfl, ?_, ?_⟩
  all_goals first
    | (rw [hempty]; simp [init])
    | simp [init, htotal]

/-- **Nodes and lists are right in every run.** -/
theorem run_keeps [DecidableEq Name] {orig : ℕ → Option Given} (h : Run y w orig) : Keeps y w := by
  induction h with
  | init tab mem slots node => exact keeps_init tab mem slots node
  | step h op hlegal hcalm hs ih =>
    obtain ⟨N, h1, h2⟩ := ih
    obtain ⟨w₁, heq, hkeeps⟩ := step_good h1 h2 op hlegal hcalm
    rw [hs] at heq
    cases heq
    exact hkeeps

/-- The request names a node of the list that was added with the same destination, and may delete it. -/
def DelOp.Names (w : Softd Name) (orig : ℕ → Option Given) (op : DelOp Name) (frd : Frdest) (x : ℕ) : Prop :=
  orig x = op.names.map (fun names => (frd, names)) ∧ (op.uid = 0 ∨ (w.node x).uid = op.uid)

/-- A request to delete succeeds, and takes one node from the list. -/
def DelOp.Takes [DecidableEq Name] (y : Layout) (w : Softd Name) (N : ℕ → List ℕ) (op : DelOp Name) (d x : ℕ) : Prop :=
  ∃ w', ipfDstlistNodeDel y w op = some (w', 0) ∧ Shape w' (update N d ((N d).erase x))

/-- **Destination lists are what was added,** in every run in which no request goes wrong: the first slots of the array and the
chain at its first slot hold the same nodes, with right back pointers; a selected node is on its list; the nodes that exist and
those that are detached are counted; and every further request that does not go wrong has a result. A request to delete takes
the nodes that were added with the same destination if and only if there are none. -/
theorem run_dstlist [DecidableEq Name] {orig : ℕ → Option Given} (h : Run y w orig) : ∃ N : ℕ → List ℕ,
    (∀ d, w.allocTab d = true → (∀ a, (w.tab d).dests = some a →
      Seg w.mem (.head a) (N d) ∧ w.Holds a (N d) ∧ (N d).length = (w.tab d).nodes) ∧
      ((w.tab d).dests = none → N d = [] ∧ (w.tab d).nodes = 0)) ∧
    (∀ d x, w.allocTab d = true → (w.tab d).selected = some x → x ∈ N d) ∧
    w.numnodes = {x | w.allocNode x = true}.ncard ∧ w.numderefnodes = {x | w.allocNode x = true ∧ ¬Live N x}.ncard ∧
    (∀ op, Legal w op → Calm w op → ∃ w', step y w op = some w') ∧
    ∀ op d frd, Calm w (.nodeDel op) → ipfDstlistTableFind w op.unit op.name = some d → op.dest = some frd →
      op.temp = true →
      op.names ≠ none →
      ((∀ x ∈ N d, op.Names w orig frd x → op.Takes y w N d x) ↔ ∀ x ∈ N d, ¬op.Names w orig frd x) := by
  obtain ⟨N, hnodes, ht⟩ := run_keeps h
  refine ⟨N, fun d hd => ⟨fun a ha => hnodes.shape.array hd ha, fun ha => hnodes.shape.bare hd ha⟩, ht.selected,
    hnodes.num, hnodes.numderef, fun op hlegal hcalm => ?_, fun op d frd hcalm _ _ _ _ => ?_⟩
  · obtain ⟨w', heq, -⟩ := step_good hnodes ht op hlegal hcalm
    exact ⟨w', heq⟩
  · refine forall_congr' fun x => forall_congr' fun _ => ⟨fun htakes hnames => ?_, fun hnot hnames => absurd hnames hnot⟩
    -- a request never succeeds
    obtain ⟨w', hdel, -⟩ := htakes hnames
    obtain ⟨w₁, r, heq, hr, -⟩ := nodeDel_fails hnodes ht op hcalm
    rw [hdel] at heq
    cases heq
    exact hr rfl

/-! ## One node -/

def layout : Layout := ⟨48, 104, by decide⟩

/-- No lists. -/
def noLists : Softd ℕ :=
  init (fun _ => ⟨0, 0, .roundrobin, 0, false, 0, 0, none, none⟩) Mem.empty (fun _ _ => none)
    fun _ => ⟨⟨0, 0, 0, 0, 0, 0⟩, false, 0, 0, 0, 0, []⟩

/-- The state after calls, and with what the nodes were added. -/
def after (ops : List (Op ℕ)) : Softd ℕ × (ℕ → Option Given) :=
  ops.foldl (fun r op => ((step layout r.1 op).getD r.1, op.given r.2)) (noLists, fun _ => none)

/-- One call more. -/
theorem run_snoc {ops : List (Op ℕ)} (op : Op ℕ) (h : Run layout (after ops).1 (after ops).2)
    (hlegal : Legal (after ops).1 op) (hcalm : Calm (after ops).1 op) (hs : (step layout (after ops).1 op).isSome = true) :
    Run layout (after (ops ++ [op])).1 (after (ops ++ [op])).2 := by
  obtain ⟨w', heq⟩ := isSome_iff_exists.1 hs
  unfold after at h hlegal hcalm heq ⊢
  rw [foldl_append]
  refine .step h op hlegal hcalm ?_
  rw [foldl_cons, foldl_nil, heq]
  rfl

def oneDest : Frdest := ⟨0, AF_INET, 0x0a000001, 0, 0, 0⟩

/-- A list with one node, which was selected. -/
def oneNode : List (Op ℕ) :=
  [.tableAdd 0 0 (some .roundrobin) (some 0), .nodeAdd ⟨0, 0, 0, true, some oneDest, none, some 7, some 0, (0, 0)⟩,
    .select 0 AF_INET 0 0]

theorem oneNode_run : Run layout (after oneNode).1 (after oneNode).2 := by
  have h0 : Run layout (after []).1 (after []).2 := .init ..
  have h1 := run_snoc (.tableAdd 0 0 (some .roundrobin) (some 0)) h0 (fun _ _ => rfl) (by decide : (0 : ℤ) ≠ IPL_LOGMAX) rfl
  have h2 := run_snoc (.nodeAdd ⟨0, 0, 0, true, some oneDest, none, some 7, some 0, (0, 0)⟩) h1
    ⟨fun _ _ => rfl, fun _ _ => rfl⟩ trivial rfl
  exact run_snoc (.select 0 AF_INET 0 0) h2 rfl (fun _ _ _ p hp => by cases hp) rfl

theorem run_dstlist_one : ∃ N : ℕ → List ℕ, N 0 = [7] ∧
    (∀ d x, (after oneNode).1.allocTab d = true → ((after oneNode).1.tab d).selected = some x → x ∈ N d) ∧
    (after oneNode).1.numnodes = {x | (after oneNode).1.allocNode x = true}.ncard := by
  obtain ⟨N, hlists, hsel, hnum, -⟩ := run_dstlist oneNode_run
  refine ⟨N, ?_, hsel, hnum⟩
  obtain ⟨hseg, -, hlen⟩ := (hlists 0 rfl).1 0 rfl
  have hhead := hseg.head?
  obtain ⟨x, hx⟩ := List.length_eq_one_iff.1 (hlen.trans rfl)
  rw [hx] at hhead ⊢
  obtain rfl : x = 7 := (Option.some.inj hhead).symm
  rfl

/-- **A node cannot be deleted:** a request with the destination with which the node was added does not find it. -/
theorem node_stays : ∃ w orig, ∃ op : DelOp ℕ, Run layout w orig ∧ Legal w (.nodeDel op) ∧ Calm w (.nodeDel op) ∧
    (w.tab 0).dests = some 0 ∧ w.mem.head 0 = some 7 ∧ op.Names w orig oneDest 7 ∧ op.dest = some oneDest ∧
    ipfDstlistNodeDel layout w op = some (w, ESRCH) := by
  refine ⟨_, _, ⟨0, 0, 0, some oneDest, true, some [], fun _ => true⟩, oneNode_run, trivial, fun d hd hc => ?_, rfl, rfl,
    ⟨rfl, Or.inl rfl⟩, rfl, rfl⟩
  obtain rfl : d = 0 := (Option.some.inj (show some 0 = some d from hd)).symm
  cases hc

end Ipfilter.Dstlist
