import Ipfilter.Spec.DstlistSelect
import Ipfilter.Proof.Dstlist

/-!
# Which node is selected

* `History`: runs of requests and selections, also such as fail.
* `Nodes.circle`: along a list and back to its first node.
* `least_scan`, `scan_zero`: what the loop for `IPLDP_CONNECTION` finds.
* `select_meets_iff`: **when selections are as the policies promise, in every run.**
-/

namespace Ipfilter.Dstlist

open Chain List
open Function (update update_of_ne update_self)
open Option (map_eq_some_iff)

variable {Name : Type} {y : Layout} {w w' w₁ : Softd Name} {N : ℕ → List ℕ} {d a x s : ℕ} {e : Option ℕ}
  {l l₁ l₂ : List ℕ}

section

variable [DecidableEq Name] {r : Softd Name × ℕ}

/-! ## Runs -/

/-- A request to delete a node that has a result leaves the lists alone, also one that names a list without an array. -/
theorem nodeDel_keeps (h : Nodes y w N none) (ht : Tables w N) {op : DelOp Name}
    (hr : ipfDstlistNodeDel y w op = some r) : Keeps y r.1 := by
  by_cases hcalm : Calm w (.nodeDel op)
  · obtain ⟨w', q, heq, -, hw'⟩ := nodeDel_fails h ht op hcalm
    rw [hr] at heq
    cases heq
    rcases hw' with rfl | rfl
    · exact ⟨N, h, ht⟩
    · exact ⟨N, h.nomem _, ht.same (.nomem w _)⟩
  · simp only [Calm, not_forall, not_not] at hcalm
    obtain ⟨d, hf, hnone⟩ := hcalm
    unfold ipfDstlistNodeDel at hr
    rw [hf] at hr
    dsimp only at hr
    rw [hnone] at hr
    split at hr
    · cases hr
      exact ⟨N, h, ht⟩
    · split at hr
      · cases hr
        exact ⟨N, h.nomem _, ht.same (.nomem w _)⟩
      · split at hr
        · cases hr
          exact ⟨N, h, ht⟩
        · cases hr

/-- A request to add a list that has a result leaves the others alone, also one for the last unit. -/
theorem tableAdd_keeps (h : Nodes y w N none) (ht : Tables w N) {unit : ℤ} {name : Name} {policy : Option Policy}
    {new : Option ℕ} (hlegal : Legal w (.tableAdd unit name policy new))
    (hs : step y w (.tableAdd unit name policy new) = some w') : Keeps y w' := by
  by_cases hunit : unit = IPL_LOGMAX
  swap
  · obtain ⟨w₁, heq, hk⟩ := tableAdd_good h ht unit name policy new hlegal hunit
    rw [hs] at heq
    cases heq
    exact hk
  obtain ⟨r, hr, rfl⟩ := map_eq_some_iff.1 hs
  unfold ipfLookupAddtable ipfDstlistTableAdd at hr
  rw [if_neg (by rw [hunit]; decide)] at hr
  split at hr
  · cases hr
    exact ⟨N, h, ht⟩
  · split at hr
    · cases hr
      exact ⟨N, h, ht⟩
    · split at hr
      · cases hr
        exact ⟨N, h.nomem _, ht.same (.nomem w _)⟩
      · rw [if_pos (by rw [hunit]; decide)] at hr
        cases hr

/-- **Every run:** lists and nodes are added, nodes are asked to be deleted, iterators go over them, and packets of all families
select. A list with a selected node is not flushed while a rule refers to it; it would have no nodes any more, and get none. -/
inductive History (y : Layout) : Softd Name → Prop
  | init (tab : ℕ → Dst Name) (mem : Mem ℕ ℕ) (slots : ℕ → ℕ → Option ℕ) (node : ℕ → Dstnode) :
      History y (init tab mem slots node)
  | step {w w' : Softd Name} (h : History y w) (op : Op Name) (hlegal : Legal w op)
      (hflush : ∀ unit name, op = .flush unit name → Calm w op) (hs : Dstlist.step y w op = some w') : History y w'

/-- What runs keep: nodes and lists are right. -/
theorem History.keeps (h : History y w) : Keeps y w := by
  induction h with
  | init tab mem slots node => exact keeps_init tab mem slots node
  | @step w w' h op hlegal hflush hs ih =>
    obtain ⟨N, h1, h2⟩ := ih
    by_cases hcalm : Calm w op
    · obtain ⟨w₁, heq, hk⟩ := step_good h1 h2 op hlegal hcalm
      rw [hs] at heq
      cases heq
      exact hk
    cases op with
    | tableAdd unit name policy new => exact tableAdd_keeps h1 h2 hlegal hs
    | nodeDel op =>
      obtain ⟨r, hr, rfl⟩ := map_eq_some_iff.1 hs
      exact nodeDel_keeps h1 h2 hr
    | flush unit name => exact absurd (hflush unit name rfl) hcalm
    | select d family v finIfp =>
      -- a selection by an unknown policy has no result
      simp only [Calm, not_forall, not_not] at hcalm
      obtain ⟨a, ha, hhead, p, hp⟩ := hcalm
      have hnone : ipfDstlistSelect w d family v = none := by
        unfold ipfDstlistSelect Softd.choose
        rw [ha, hp]
        dsimp only
        rw [if_neg hhead]
        rfl
      simp [Dstlist.step, ipfDstlistSelectNode, hnone] at hs
    | _ => exact absurd trivial hcalm

end

/-! ## Around a list -/

theorem Nodes.nodeList (h : Nodes y w N e) (hd : w.allocTab d = true) : w.nodeList d = N d := by
  unfold Softd.nodeList
  cases ha : (w.tab d).dests with
  | none => rw [(h.shape.bare hd ha).1]
  | some a =>
    obtain ⟨-, hslots, hlen⟩ := h.shape.array hd ha
    have hmap : (range (w.tab d).nodes).map (w.slot a) = (N d).map some := by
      refine ext_getElem (by simp [hlen]) fun i hi hi' => ?_
      rw [length_map] at hi'
      rw [getElem_map, getElem_range, getElem_map, hslots i hi', getElem?_eq_getElem hi']
    calc (range (w.tab d).nodes).filterMap (w.slot a)
        = ((range (w.tab d).nodes).map (w.slot a)).filterMap id := by rw [filterMap_map]; rfl
      _ = N d := by rw [hmap, filterMap_map]; simp

/-- **Along a list and back to its first node:** each node twice, the list after itself. -/
theorem Nodes.circle (h : Nodes y w N e) (hd : w.allocTab d = true) (ha : (w.tab d).dests = some a) :
    (N d ++ N d).IsChain fun x z => w.around a x = some z := by
  rw [isChain_iff_getElem]
  intro i hi
  rw [length_append] at hi
  have hlt : i % (N d).length < (N d).length := Nat.mod_lt _ (by omega)
  have hlt' : (i + 1) % (N d).length < (N d).length := Nat.mod_lt _ (by omega)
  have hplace : ∀ j (hj : j < (N d ++ N d).length) (hj' : j % (N d).length < (N d).length),
      (N d ++ N d)[j] = (N d)[j % (N d).length] := by
    intro j hj hj'
    rw [length_append] at hj
    by_cases hjn : j < (N d).length
    · rw [getElem_append_left hjn]
      simp only [Nat.mod_eq_of_lt hjn]
    · rw [getElem_append_right (by omega)]
      have hmod : j % (N d).length = j - (N d).length := by
        rw [Nat.mod_eq_sub_mod (by omega), Nat.mod_eq_of_lt (by omega)]
      simp only [hmod]
  rw [hplace i (by rw [length_append]; omega) hlt, hplace (i + 1) (by rw [length_append]; omega) hlt',
    h.around hd ha (getElem?_eq_getElem hlt), Nat.mod_add_mod, getElem?_eq_getElem hlt']

/-- From a node of a list, all others and back. -/
theorem Nodes.from (h : Nodes y w N e) (hd : w.allocTab d = true) (ha : (w.tab d).dests = some a)
    (hN : N d = l₁ ++ s :: l₂) :
    (s :: (l₂ ++ l₁ ++ [s])).IsChain fun x z => w.around a x = some z := by
  have hcircle := h.circle hd ha
  rw [hN, show l₁ ++ s :: l₂ ++ (l₁ ++ s :: l₂) = l₁ ++ (s :: (l₂ ++ l₁ ++ [s]) ++ l₂) by simp] at hcircle
  exact hcircle.right_of_append.left_of_append

/-- Along the list. -/
theorem Nodes.along (h : Nodes y w N e) (hd : w.allocTab d = true) (ha : (w.tab d).dests = some a) :
    (N d).IsChain fun x z => w.around a x = some z := (h.circle hd ha).left_of_append

/-! ## The fewest connections -/

/-- The loop for `IPLDP_CONNECTION` over the nodes that it visits. -/
def scan (states : ℕ → ℤ) : List ℕ → ℕ → ℤ → ℕ
  | [], sel, _ => sel
  | z :: zs, sel, connects =>
    if states z = 0 then z
    else if states z < connects then scan states zs z (states z)
    else scan states zs sel connects

theorem connLoop_eq {s : ℕ} {vs : List ℕ} (hout : s ∉ vs) {x i sel : ℕ} {connects : ℤ}
    (hchain : (x :: (vs ++ [s])).IsChain fun x z => w.around a x = some z) (hi : vs.length < i) :
    connLoop w a s i (w.around a x) sel connects = some (scan (fun z => (w.node z).states.toInt) vs sel connects) := by
  induction vs generalizing x i sel connects with
  | nil =>
    obtain ⟨i, rfl⟩ := Nat.exists_eq_succ_of_ne_zero (ne_of_gt hi)
    rw [nil_append, isChain_cons_cons] at hchain
    unfold connLoop
    rw [hchain.1]
    dsimp only
    rw [if_pos rfl]
    rfl
  | cons v vs ih =>
    obtain ⟨i, rfl⟩ := Nat.exists_eq_succ_of_ne_zero (ne_of_gt (Nat.zero_lt_of_lt hi))
    rw [cons_append, isChain_cons_cons] at hchain
    have hv : v ≠ s := fun hc => hout (by simp [hc])
    have hvs : s ∉ vs := fun hc => hout (mem_cons_of_mem _ hc)
    have hi' : vs.length < i := by simpa using hi
    unfold connLoop scan
    rw [hchain.1]
    dsimp only
    rw [if_neg hv]
    split
    · rfl
    · split
      · exact ih hvs hchain.2 hi'
      · exact ih hvs hchain.2 hi'

theorem scan_mem (states : ℕ → ℤ) (vs : List ℕ) (sel : ℕ) (connects : ℤ) :
    scan states vs sel connects ∈ sel :: vs := by
  induction vs generalizing sel connects with
  | nil => exact mem_cons_self
  | cons v vs ih =>
    have hrest : ∀ c, scan states vs v c ∈ sel :: v :: vs := fun c => mem_cons_of_mem _ (ih v c)
    have hkept : ∀ c, scan states vs sel c ∈ sel :: v :: vs := fun c =>
      mem_cons.2 ((mem_cons.1 (ih sel c)).imp id fun hm => mem_cons_of_mem _ hm)
    unfold scan
    split
    · exact mem_cons_of_mem _ mem_cons_self
    · split
      · exact hrest _
      · exact hkept _

/-- The loop ends at a node without connections. -/
theorem scan_zero {states : ℕ → ℤ} {vs : List ℕ} (h : ∃ z ∈ vs, states z = 0) (sel : ℕ) (connects : ℤ) :
    states (scan states vs sel connects) = 0 := by
  induction vs generalizing sel connects with
  | nil =>
    obtain ⟨z, hz, -⟩ := h
    cases hz
  | cons v vs ih =>
    unfold scan
    by_cases h0 : states v = 0
    · rw [if_pos h0, h0]
    · have hrest : ∃ z ∈ vs, states z = 0 := by
        obtain ⟨z, hz, hz0⟩ := h
        rcases mem_cons.1 hz with rfl | hz
        · exact absurd hz0 h0
        · exact ⟨z, hz, hz0⟩
      rw [if_neg h0]
      split
      · exact ih hrest v _
      · exact ih hrest sel _

/-- **What the loop finds** when there is none: the node with the fewest connections, if one has fewer than the bound. -/
theorem least_scan {states : ℕ → ℤ} {vs : List ℕ} (hne : ∀ z ∈ vs, states z ≠ 0) (sel : ℕ) (connects : ℤ) :
    ((∃ z ∈ vs, states z < connects) → scan states vs sel connects ∈ vs ∧
      ∀ z ∈ vs, states (scan states vs sel connects) ≤ states z) ∧
    ((∀ z ∈ vs, connects ≤ states z) → scan states vs sel connects = sel) := by
  induction vs generalizing sel connects with
  | nil => exact ⟨fun ⟨z, hz, _⟩ => absurd hz not_mem_nil, fun _ => rfl⟩
  | cons v vs ih =>
    rw [forall_mem_cons] at hne
    unfold scan
    rw [if_neg hne.1]
    by_cases hlt : states v < connects
    · rw [if_pos hlt]
      obtain ⟨ih1, ih2⟩ := ih hne.2 v (states v)
      refine ⟨fun _ => ?_, fun h => absurd (h v mem_cons_self) (by omega)⟩
      by_cases hex : ∃ z ∈ vs, states z < states v
      · obtain ⟨hmem, hmin⟩ := ih1 hex
        obtain ⟨z, hz, hzv⟩ := hex
        have hle := hmin z hz
        exact ⟨mem_cons_of_mem _ hmem, forall_mem_cons.2 ⟨by omega, hmin⟩⟩
      · simp only [not_exists, not_and, not_lt] at hex
        rw [ih2 hex]
        exact ⟨mem_cons_self, forall_mem_cons.2 ⟨le_rfl, hex⟩⟩
    · rw [if_neg hlt]
      obtain ⟨ih1, ih2⟩ := ih hne.2 sel connects
      constructor
      · rintro ⟨z, hz, hzc⟩
        -- it is not the first one
        have hz' : z ∈ vs := by
          rcases mem_cons.1 hz with rfl | hz
          · exact absurd hzc hlt
          · exact hz
        obtain ⟨hmem, hmin⟩ := ih1 ⟨z, hz', hzc⟩
        have hle := hmin z hz'
        exact ⟨mem_cons_of_mem _ hmem, forall_mem_cons.2 ⟨by omega, hmin⟩⟩
      · exact fun h => ih2 fun z hz => h z (mem_cons_of_mem _ hz)

/-! ## Selections -/

section

variable {digest : BitVec 32 → List (BitVec 128) → BitVec 32} {seed : BitVec 32} {family : ℕ} {p : Packet}

/-- The node that is chosen has the family of the packet, so it is the one that is selected. -/
theorem select_eq (ha : (w.tab d).dests = some a) (hhead : w.mem.head a ≠ none)
    (hchoose : w.choose d a ((w.tab d).policy.index digest seed p) = some x) (hfam : (w.node x).dest.adfFamily = p.finFamily) :
    ipfDstlistSelect w d p.finFamily ((w.tab d).policy.index digest seed p) =
      some (w.updTab d fun t => { t with selected := some x }, some x) := by
  unfold ipfDstlistSelect
  rw [ha]
  dsimp only
  rw [if_neg hhead, hchoose, Option.map_some, if_neg (by rw [hfam]; exact fun hc => hc rfl)]

/-- What selections from the list `d` go by is the same, up to the node that was selected last. -/
structure Alike (w w' : Softd Name) (d : ℕ) : Prop where
  mem : w'.mem = w.mem
  dests : (w'.tab d).dests = (w.tab d).dests
  policy : (w'.tab d).policy = (w.tab d).policy
  family : ∀ z, (w'.node z).dest.adfFamily = (w.node z).dest.adfFamily

theorem Alike.around (h : Alike w w' d) : w'.around a = w.around a := by
  funext z
  unfold Softd.around
  rw [h.mem]

theorem selectNode_eq (ha : (w.tab d).dests = some a) (hhead : w.mem.head a ≠ none)
    (hchoose : w.choose d a ((w.tab d).policy.index digest seed p) = some x) (hfam : (w.node x).dest.adfFamily = p.finFamily) :
    ∃ w', w.selectNode digest seed d p = some w' ∧ Alike w w' d ∧ (w'.tab d).selected = some x := by
  unfold Softd.selectNode ipfDstlistSelectNode
  rw [select_eq ha hhead hchoose hfam]
  refine ⟨_, rfl, ⟨rfl, ?_, ?_, fun z => ?_⟩, ?_⟩
  · simp [Softd.updTab, Softd.updNode]
  · simp [Softd.updTab, Softd.updNode]
  · simp only [Softd.updTab, Softd.updNode]
    by_cases hz : z = x
    · subst hz
      rw [update_self]
      by_cases hptr : (w.node z).dest.fdPtr = 0
      · simp [hptr]
      · simp [hptr]
    · rw [update_of_ne hz]
  · simp [Softd.updTab, Softd.updNode]

/-- **Turns.** With a selected node, packets get the nodes that follow it. -/
theorem selections_follow (ha : (w.tab d).dests = some a) (hhead : w.mem.head a ≠ none) (hp : (w.tab d).policy = .roundrobin)
    {ps : List Packet} {l : List ℕ} (hlen : ps.length = l.length) (hps : ∀ p ∈ ps, p.finFamily = family)
    (hl : ∀ z ∈ l, (w.node z).dest.adfFamily = family) (hsel : (w.tab d).selected = some s)
    (hchain : (s :: l).IsChain fun x z => w.around a x = some z) : w.selections digest seed d ps = some l := by
  induction ps generalizing w s l with
  | nil =>
    rw [length_nil, eq_comm, length_eq_zero_iff] at hlen
    rw [hlen]
    rfl
  | cons p ps ih =>
    cases l with
    | nil => simp at hlen
    | cons z l =>
      rw [isChain_cons_cons] at hchain
      have hchoose : w.choose d a ((w.tab d).policy.index digest seed p) = some z := by
        unfold Softd.choose
        rw [hp, hsel]
        exact hchain.1
      have hfam : (w.node z).dest.adfFamily = p.finFamily := by
        rw [hl z mem_cons_self, hps p mem_cons_self]
      obtain ⟨w', hnode, hsame, hsel'⟩ := selectNode_eq ha hhead hchoose hfam
      have hrest : w'.selections digest seed d ps = some l := by
        refine ih (by rw [hsame.dests]; exact ha) (by rw [hsame.mem]; exact hhead) (by rw [hsame.policy]; exact hp)
          (by simpa using hlen) (fun p hp => hps p (mem_cons_of_mem _ hp)) (fun z hz => ?_) hsel' ?_
        · rw [hsame.family]
          exact hl z (mem_cons_of_mem _ hz)
        · rw [hsame.around]
          exact hchain.2
      have hselect : w.select digest seed d p = some z := by
        unfold Softd.select
        rw [select_eq ha hhead hchoose hfam]
        rfl
      unfold Softd.selections
      rw [hselect, hnode]
      dsimp only
      rw [hrest]
      rfl

/-! ## A list with nodes -/

section

variable (h : Nodes y w N e) (hd : w.allocTab d = true) (ha : (w.tab d).dests = some a)
  (hfam : ∀ z ∈ N d, (w.node z).dest.adfFamily = family)

include h hd ha

theorem Nodes.first : w.mem.head a = (N d).head? := ((h.shape.array hd ha).1).head?

include hfam

theorem Nodes.select_eq (hp : p.finFamily = family) (hx : x ∈ N d)
    (hchoose : w.choose d a ((w.tab d).policy.index digest seed p) = some x) : w.select digest seed d p = some x := by
  have hhead : w.mem.head a ≠ none := by
    rw [h.first hd ha, Ne, head?_eq_none_iff]
    exact ne_nil_of_mem hx
  unfold Softd.select
  rw [Dstlist.select_eq ha hhead hchoose (by rw [hfam x hx, hp])]
  rfl

/-- Without a selected node it is the first one. -/
theorem Nodes.select_first (hp : p.finFamily = family) (hsel : (w.tab d).selected = none)
    (hpolicy : (w.tab d).policy = .roundrobin ∨ (w.tab d).policy = .connection) (hN : N d = x :: l) :
    w.choose d a ((w.tab d).policy.index digest seed p) = some x ∧ w.select digest seed d p = some x := by
  have hchoose : w.choose d a ((w.tab d).policy.index digest seed p) = some x := by
    have hhead := h.first hd ha
    rw [hN] at hhead
    unfold Softd.choose
    rcases hpolicy with hpol | hpol
    · rw [hpol, hsel]
      exact hhead
    · rw [hpol, hsel]
      exact hhead
  exact ⟨hchoose, h.select_eq hd ha hfam hp (by rw [hN]; exact mem_cons_self) hchoose⟩

/-- With a selected node, the loop goes over the others. -/
theorem Nodes.select_connection (hp : p.finFamily = family) (hsel : (w.tab d).selected = some s)
    (hpolicy : (w.tab d).policy = .connection) (hN : N d = l₁ ++ s :: l₂) :
    w.select digest seed d p = some (scan (fun z => (w.node z).states.toInt) (l₂ ++ l₁) s 0x7fffffff) := by
  have hnd := h.shape.nodup hd
  rw [hN, nodup_middle, nodup_cons] at hnd
  have hout : s ∉ l₂ ++ l₁ := fun hc => hnd.1 (by simpa [or_comm] using hc)
  have hlen := h.length d
  rw [hN, length_append, length_cons] at hlen
  have hchoose : w.choose d a ((w.tab d).policy.index digest seed p) =
      some (scan (fun z => (w.node z).states.toInt) (l₂ ++ l₁) s 0x7fffffff) := by
    unfold Softd.choose
    rw [hpolicy, hsel]
    exact connLoop_eq hout (h.from hd ha hN) (by rw [length_append]; omega)
  refine h.select_eq hd ha hfam hp ?_ hchoose
  have hmem := scan_mem (fun z => (w.node z).states.toInt) (l₂ ++ l₁) s 0x7fffffff
  rw [hN]
  simp only [mem_append, mem_cons] at hmem ⊢
  tauto

/-- A hash is the place of the node. -/
theorem Nodes.select_hash (hp : p.finFamily = family) (hne : N d ≠ [])
    (hpolicy : (w.tab d).policy = .hashed ∨ (w.tab d).policy = .srchash ∨ (w.tab d).policy = .dsthash) :
    w.select digest seed d p = (N d)[(digest seed ((w.tab d).policy.addresses p)).toNat % (N d).length]? := by
  obtain ⟨-, hslots, hlen⟩ := h.shape.array hd ha
  have hlt : (digest seed ((w.tab d).policy.addresses p)).toNat % (N d).length < (N d).length :=
    Nat.mod_lt _ (length_pos_of_ne_nil hne)
  rw [getElem?_eq_getElem hlt]
  refine h.select_eq hd ha hfam hp (getElem_mem hlt) ?_
  rw [← getElem?_eq_getElem hlt, ← hslots _ hlt, hlen]
  unfold Softd.choose Policy.index
  rcases hpolicy with hpol | hpol | hpol <;> rw [hpol] <;> rfl

/-- A round goes over all nodes. -/
theorem Nodes.round (ht : Tables w N) (hpolicy : (w.tab d).policy = .roundrobin) (hne : N d ≠ []) {ps : List Packet}
    (hps : ∀ p ∈ ps, p.finFamily = family) (hlen : ps.length = (N d).length) :
    ∃ l, w.selections digest seed d ps = some l ∧ l.Perm (N d) := by
  cases hsel : (w.tab d).selected with
  | none =>
    obtain ⟨x, l, hN⟩ := exists_cons_of_ne_nil hne
    rw [hN, length_cons] at hlen
    cases ps with
    | nil => simp at hlen
    | cons p ps =>
      have hx : x ∈ N d := by
        rw [hN]
        exact mem_cons_self
      have hhead : w.mem.head a ≠ none := by
        rw [h.first hd ha, hN]
        simp
      have hp := hps p mem_cons_self
      obtain ⟨hchoose, hselect⟩ : w.choose d a ((w.tab d).policy.index digest seed p) = some x ∧
          w.select digest seed d p = some x := h.select_first hd ha hfam hp hsel (.inl hpolicy) hN
      obtain ⟨w', hnode, hsame, hsel'⟩ := selectNode_eq ha hhead hchoose (by rw [hfam x hx, hp])
      have halong := h.along hd ha
      rw [hN] at halong
      have hrest : w'.selections digest seed d ps = some l := by
        refine selections_follow (by rw [hsame.dests]; exact ha) (by rw [hsame.mem]; exact hhead)
          (by rw [hsame.policy]; exact hpolicy) (by simpa using hlen) (fun p hp => hps p (mem_cons_of_mem _ hp))
          (fun z hz => ?_) hsel' (by rwa [hsame.around])
        rw [hsame.family]
        refine hfam z ?_
        rw [hN]
        exact mem_cons_of_mem _ hz
      refine ⟨x :: l, ?_, by rw [hN]⟩
      unfold Softd.selections
      rw [hselect, hnode]
      dsimp only
      rw [hrest]
      rfl
  | some s =>
    obtain ⟨l₁, l₂, hN⟩ := append_of_mem (ht.selected d s hd hsel)
    have hhead : w.mem.head a ≠ none := by
      rw [h.first hd ha, Ne, head?_eq_none_iff]
      exact hne
    have hperm : (l₂ ++ l₁ ++ [s]).Perm (N d) := by
      rw [hN]
      refine perm_append_singleton s (l₂ ++ l₁) |>.trans ?_
      refine (List.Perm.cons s perm_append_comm).trans List.perm_middle.symm
    refine ⟨l₂ ++ l₁ ++ [s], selections_follow ha hhead hpolicy (by rw [hlen, hperm.length_eq]) hps (fun z hz => ?_) hsel
      (h.from hd ha hN), hperm⟩
    exact hfam z (hperm.mem_iff.1 hz)

end

/-! ## What policies promise -/

/-- The list is the same at another time. -/
structure SameList (w w₂ : Softd Name) (d family : ℕ) : Prop where
  alloc : w₂.allocTab d = true
  nodes : w₂.nodeList d = w.nodeList d
  policy : (w₂.tab d).policy = (w.tab d).policy
  family : ∀ z ∈ w.nodeList d, (w₂.node z).dest.adfFamily = family

/-- **What is expected of selections** for packets of a family: each gets a node of the list; with `IPLDP_ROUNDROBIN` as many
packets as there are nodes get each node once; with `IPLDP_CONNECTION` no node has fewer connections; and with a hash, packets
with the same addresses get the same node as long as the list is the same. -/
structure SelectsWell [DecidableEq Name] (y : Layout) (digest : BitVec 32 → List (BitVec 128) → BitVec 32)
    (seed : BitVec 32) (w : Softd Name) (d family : ℕ) : Prop where
  current : ∀ p : Packet, p.finFamily = family → ∃ x ∈ w.nodeList d, w.select digest seed d p = some x
  turns : (w.tab d).policy = .roundrobin → ∀ ps : List Packet, (∀ p ∈ ps, p.finFamily = family) →
    ps.length = (w.nodeList d).length → ∃ l, w.selections digest seed d ps = some l ∧ l.Perm (w.nodeList d)
  least : (w.tab d).policy = .connection → ∀ (p : Packet) (x : ℕ), p.finFamily = family →
    w.select digest seed d p = some x →
    ∀ z ∈ w.nodeList d, (w.node x).states.toInt ≤ (w.node z).states.toInt
  same : (w.tab d).policy = .hashed ∨ (w.tab d).policy = .srchash ∨ (w.tab d).policy = .dsthash →
    ∀ w₂, History y w₂ → SameList w w₂ d family → ∀ p p₂ : Packet, p.finFamily = family →
      p₂.finFamily = family →
      (w.tab d).policy.addresses p = (w.tab d).policy.addresses p₂ →
        w₂.select digest seed d p₂ = w.select digest seed d p

/-- **When the loop for `IPLDP_CONNECTION` gives a node with the fewest connections.** It leaves out the node that was selected
last, so another one must have no more than that; it ends at a node without connections, so no counter may have wrapped when
there is one; and without a selected node it does not look. -/
def Fewest (w : Softd Name) (d : ℕ) : Prop :=
  match (w.tab d).selected with
  | none => ∀ x, (w.nodeList d).head? = some x → ∀ z ∈ w.nodeList d, (w.node x).states.toInt ≤ (w.node z).states.toInt
  | some s =>
    ((∃ z ∈ w.nodeList d, z ≠ s ∧ (w.node z).states.toInt ≤ (w.node s).states.toInt) ∨
      ∀ z ∈ w.nodeList d, z ≠ s → (w.node z).states.toInt = 0x7fffffff) ∧
    ((∃ z ∈ w.nodeList d, z ≠ s ∧ (w.node z).states.toInt = 0) →
      ∀ z ∈ w.nodeList d, 0 ≤ (w.node z).states.toInt)

/-- The policy is known, and does not give a node with too many connections. -/
def Kind (w : Softd Name) (d : ℕ) : Prop :=
  (∀ p, (w.tab d).policy ≠ .other p) ∧ ((w.tab d).policy = .connection → Fewest w d)

/-- What the loop finds has the fewest connections of all. -/
theorem scan_least_iff {states : ℕ → ℤ} {vs : List ℕ} (s : ℕ) (hmax : ∀ z, states z ≤ 0x7fffffff) :
    (∀ z ∈ s :: vs, states (scan states vs s 0x7fffffff) ≤ states z) ↔
      ((∃ z ∈ vs, states z ≤ states s) ∨ ∀ z ∈ vs, states z = 0x7fffffff) ∧
        ((∃ z ∈ vs, states z = 0) → ∀ z ∈ s :: vs, 0 ≤ states z) := by
  by_cases hzero : ∃ z ∈ vs, states z = 0
  · rw [scan_zero hzero]
    refine ⟨fun h => ⟨?_, fun _ => h⟩, fun h => h.2 hzero⟩
    obtain ⟨z, hz, hz0⟩ := hzero
    exact .inl ⟨z, hz, hz0.le.trans (h s mem_cons_self)⟩
  have hne : ∀ z ∈ vs, states z ≠ 0 := fun z hz hz0 => hzero ⟨z, hz, hz0⟩
  rw [and_iff_left fun h => absurd h hzero, forall_mem_cons]
  obtain ⟨hleast, hkept⟩ := least_scan hne s 0x7fffffff
  by_cases hex : ∃ z ∈ vs, states z < 0x7fffffff
  · obtain ⟨hmem, hmin⟩ := hleast hex
    obtain ⟨v, hv, hlt⟩ := hex
    refine ⟨fun h => .inl ⟨_, hmem, h.1⟩, ?_⟩
    rintro (⟨z, hz, hzs⟩ | h)
    · exact ⟨(hmin z hz).trans hzs, hmin⟩
    · exact absurd (h v hv) hlt.ne
  · simp only [not_exists, not_and, not_lt] at hex
    rw [hkept hex]
    exact ⟨fun _ => .inr fun z hz => le_antisymm (hmax z) (hex z hz),
      fun _ => ⟨le_rfl, fun z hz => (hmax s).trans (hex z hz)⟩⟩

/-- **When selections are as the policies promise:** in every run, from a list whose nodes have the family of the packets. -/
theorem select_meets_iff [DecidableEq Name] (h : History y w) (hd : w.allocTab d = true) (hne : w.nodeList d ≠ [])
    (hfam : ∀ z ∈ w.nodeList d, (w.node z).dest.adfFamily = family) : SelectsWell y digest seed w d family ↔
      Kind w d := by
  obtain ⟨N, hnodes, ht⟩ := h.keeps
  have hlist := hnodes.nodeList hd
  rw [hlist] at hne hfam
  obtain ⟨x₀, hx₀⟩ := exists_mem_of_ne_nil _ hne
  obtain ⟨a, ha⟩ := hnodes.shape.dests hd hx₀
  -- with the policy of connections, the loop decides
  have hleast : (w.tab d).policy = .connection → ∀ p : Packet, p.finFamily = family →
      ((∀ x, w.select digest seed d p = some x → ∀ z ∈ N d, (w.node x).states.toInt ≤ (w.node z).states.toInt) ↔
        Fewest w d) := by
    intro hpolicy p hp
    unfold Fewest
    rw [hlist]
    cases hsel : (w.tab d).selected with
    | none =>
      obtain ⟨x, l, hN⟩ := exists_cons_of_ne_nil hne
      have hfirst : w.select digest seed d p = some x := (hnodes.select_first hd ha hfam hp hsel (.inr hpolicy) hN).2
      rw [hfirst, hN, List.head?_cons]
    | some s =>
      obtain ⟨l₁, l₂, hN⟩ := append_of_mem (ht.selected d s hd hsel)
      have hnd := hnodes.shape.nodup hd
      rw [hN, nodup_middle, nodup_cons] at hnd
      have hmem : ∀ z, z ∈ N d ↔ z = s ∨ z ∈ l₂ ++ l₁ := by
        intro z
        rw [hN]
        simp only [mem_append, mem_cons]
        tauto
      have hothers : ∀ z ∈ l₂ ++ l₁, z ≠ s := by
        rintro z hz rfl
        exact hnd.1 (by simpa [or_comm] using hz)
      have hall : ∀ {q : ℕ → Prop}, (∀ z ∈ N d, q z) ↔ ∀ z ∈ s :: (l₂ ++ l₁), q z := fun {q} =>
        forall_congr' fun z => by rw [hmem, mem_cons]
      have hex : ∀ {q : ℕ → Prop}, (∃ z ∈ N d, z ≠ s ∧ q z) ↔ ∃ z ∈ l₂ ++ l₁, q z := fun {q} =>
        ⟨fun ⟨z, hz, hzs, hq⟩ => ⟨z, ((hmem z).1 hz).resolve_left hzs, hq⟩,
          fun ⟨z, hz, hq⟩ => ⟨z, (hmem z).2 (.inr hz), hothers z hz, hq⟩⟩
      have hrest : ∀ {q : ℕ → Prop}, (∀ z ∈ N d, z ≠ s → q z) ↔ ∀ z ∈ l₂ ++ l₁, q z := fun {q} =>
        ⟨fun h z hz => h z ((hmem z).2 (.inr hz)) (hothers z hz), fun h z hz hzs => h z (((hmem z).1 hz).resolve_left hzs)⟩
      have hmax : ∀ z, (w.node z).states.toInt ≤ 0x7fffffff := fun z => by
        have := BitVec.toInt_lt (x := (w.node z).states)
        omega
      rw [hnodes.select_connection hd ha hfam hp hsel hpolicy hN]
      dsimp only
      rw [hex, hrest, hex, hall, ← scan_least_iff s hmax, ← hall]
      exact ⟨fun h => h _ rfl, fun h x hx => by cases hx; exact h⟩
  constructor
  · intro hw
    refine ⟨fun q hq => ?_, fun hpolicy => (hleast hpolicy ⟨family, 0, 0, 0, 0⟩ rfl).1 fun x hx z hz => ?_⟩
    · -- an unknown policy has no node
      obtain ⟨x, -, hx⟩ := hw.current ⟨family, 0, 0, 0, 0⟩ rfl
      unfold Softd.select ipfDstlistSelect Softd.choose at hx
      rw [ha, hq] at hx
      dsimp only at hx
      split at hx <;> simp at hx
    · rw [← hlist] at hz
      exact hw.least hpolicy _ x rfl hx z hz
  · rintro ⟨hknown, hfewest⟩
    refine ⟨fun p hp => ?_, fun hpolicy ps hps hlen => ?_, fun hpolicy p x hp hx z hz => ?_,
      fun hpolicy w₂ h₂ hsame p p₂ hp hp₂ haddr => ?_⟩
    · obtain ⟨r, hr, hchoose⟩ := choose_mem hnodes ht hd ha hne hknown ((w.tab d).policy.index digest seed p)
      rw [hlist]
      exact ⟨r, hr, hnodes.select_eq hd ha hfam hp hr hchoose⟩
    · rw [hlist] at hlen ⊢
      exact hnodes.round hd ha hfam ht hpolicy hne hps hlen
    · rw [hlist] at hz
      exact (hleast hpolicy p hp).2 (hfewest hpolicy) x hx z hz
    · obtain ⟨N₂, hnodes₂, -⟩ := h₂.keeps
      have hN : N₂ d = N d := by rw [← hnodes₂.nodeList hsame.alloc, hsame.nodes, hlist]
      obtain ⟨a₂, ha₂⟩ := hnodes₂.shape.dests hsame.alloc (by rw [hN]; exact hx₀)
      have hfam₂ : ∀ z ∈ N₂ d, (w₂.node z).dest.adfFamily = family := by
        rw [hN, ← hlist]
        exact hsame.family
      rw [hnodes₂.select_hash hsame.alloc ha₂ hfam₂ hp₂ (by rw [hN]; exact hne) (by rw [hsame.policy]; exact hpolicy),
        hnodes.select_hash hd ha hfam hp hne hpolicy, hN, hsame.policy, haddr]

end

/-! ## One node, and two -/

theorem Run.history [DecidableEq Name] {orig : ℕ → Option Given} (h : Run y w orig) : History y w := by
  induction h with
  | init tab mem slots node => exact .init tab mem slots node
  | step h op hlegal hcalm hs ih => exact .step ih op hlegal (fun _ _ _ => hcalm) hs

theorem select_meets_one : SelectsWell layout (fun _ _ => 0) 0 (after oneNode).1 0 AF_INET := by
  have hlist : (after oneNode).1.nodeList 0 = [7] := rfl
  refine (select_meets_iff oneNode_run.history rfl (by rw [hlist]; simp) fun z hz => ?_).2
    ⟨fun p hp => (by cases hp), fun hp => (by cases hp)⟩
  rw [hlist, mem_singleton] at hz
  rw [hz]
  rfl

/-- The first node of a list is selected twice, then there is a second one, which is selected. -/
def twoNodes : List (Op ℕ) :=
  [.tableAdd 0 0 (some .connection) (some 0), .nodeAdd ⟨0, 0, 0, true, some oneDest, none, some 7, some 0, (0, 0)⟩,
    .select 0 AF_INET 0 0, .select 0 AF_INET 0 0, .nodeAdd ⟨0, 0, 0, true, some oneDest, none, some 8, some 1, (0, 0)⟩,
    .select 0 AF_INET 0 0]

theorem twoNodes_run : Run layout (after twoNodes).1 (after twoNodes).2 := by
  have h0 : Run layout (after []).1 (after []).2 := .init ..
  have h1 := run_snoc (.tableAdd 0 0 (some .connection) (some 0)) h0 (fun _ _ => rfl) (by decide : (0 : ℤ) ≠ IPL_LOGMAX) rfl
  have h2 := run_snoc (.nodeAdd ⟨0, 0, 0, true, some oneDest, none, some 7, some 0, (0, 0)⟩) h1
    ⟨fun _ _ => rfl, fun _ _ => rfl⟩ trivial rfl
  have h3 := run_snoc (.select 0 AF_INET 0 0) h2 rfl (fun _ _ _ p hp => by cases hp) rfl
  have h4 := run_snoc (.select 0 AF_INET 0 0) h3 rfl (fun _ _ _ p hp => by cases hp) rfl
  have h5 := run_snoc (.nodeAdd ⟨0, 0, 0, true, some oneDest, none, some 8, some 1, (0, 0)⟩) h4
    ⟨fun x hx => by cases hx; rfl, fun a ha => by cases ha; rfl⟩ trivial rfl
  exact run_snoc (.select 0 AF_INET 0 0) h5 rfl (fun _ _ _ p hp => by cases hp) rfl

/-- **Not the node with the fewest connections:** the next packet gets the first node, which has 2, and not the second, which
has 1. -/
theorem select_not_meets : History layout (after twoNodes).1 ∧ (after twoNodes).1.nodeList 0 = [7, 8] ∧
      (∀ z ∈ (after twoNodes).1.nodeList 0, ((after twoNodes).1.node z).dest.adfFamily = AF_INET) ∧
      ¬SelectsWell layout (fun _ _ => 0) 0 (after twoNodes).1 0 AF_INET := by
  have hlist : (after twoNodes).1.nodeList 0 = [7, 8] := rfl
  have hfam : ∀ z ∈ (after twoNodes).1.nodeList 0, ((after twoNodes).1.node z).dest.adfFamily = AF_INET := by
    rw [hlist]
    simp only [mem_cons, not_mem_nil, or_false]
    rintro z (rfl | rfl) <;> rfl
  refine ⟨twoNodes_run.history, hlist, hfam, fun hw => ?_⟩
  have hkind := ((select_meets_iff twoNodes_run.history rfl (by rw [hlist]; simp) hfam).1 hw).2 rfl
  unfold Fewest at hkind
  rw [hlist, show ((after twoNodes).1.tab 0).selected = some 8 from rfl] at hkind
  have h7 : ((after twoNodes).1.node 7).states.toInt = 2 := rfl
  have h8 : ((after twoNodes).1.node 8).states.toInt = 1 := rfl
  simp [h7, h8] at hkind

end Ipfilter.Dstlist
