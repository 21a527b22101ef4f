import Ipfilter.Proof.Expr
import Ipfilter.Proof.NatTable
import Ipfilter.Proof.StateLife
import Ipfilter.Spec.Matchflush

/-!
# What flushing by an expression deletes

* `Satisfies`: what an expression says about an entry.
* `load_array`, `load_bytes`: what `ipf_matcharray_load` asks of the size.
* `stateLoop_ret`: `ipf_state_matcharray` returns nothing but zero.
* `stateFlushLoop_all`, `stateFlushLoop_ret`: `ipf_state_matchflush` deletes every entry, or does not return.
* `natFlushLoop_spec`: `ipf_nat_matchflush` deletes the entries for which `ipf_nat_matcharray` returns zero.
* `matchflush_meets`: when the two do what the expression says.
-/

namespace Ipfilter.Matchflush

open Chain Ipfilter.Expr State NatTab Queue List Option
open Masks hiding Word
open BitVec (ofNat toNat)

/-! ## What an expression says -/

/-- What the terms of an expression compare in an entry. Ports are as they are stored, in network byte order. -/
structure Subject where
  p : Word
  src4 : List Word
  dst4 : List Word
  src6 : List (Fin 4 → Word)
  dst6 : List (Fin 4 → Word)
  sport : Word
  dport : Word
  states : List Word
  idle : ℕ

/-- An entry of the state table. -/
def stateSubject (is : Ipstate) (t : ℕ) : Subject where
  p := isP is
  src4 := if is.isV = 4 then [words is.isSrc 0] else []
  dst4 := if is.isV = 4 then [words is.isDst 0] else []
  src6 := if is.isV = 6 then [words is.isSrc] else []
  dst6 := if is.isV = 6 then [words is.isDst] else []
  sport := word is.isSport
  dport := word is.isDport
  states := [int (is.isState false), int (is.isState true)]
  idle := t

/-- An entry of the NAT table, with its addresses before and after translation. -/
def natSubject (nat : NatT) (l : NatRest) (t : ℕ) : Subject where
  p := int (nat.natPr true)
  src4 := (if nat.natV false = 4 then [nat.natOsrcaddr] else []) ++ if nat.natV true = 4 then [nat.natNsrcaddr] else []
  dst4 := (if nat.natV false = 4 then [nat.natOdstaddr] else []) ++ if nat.natV true = 4 then [nat.natNdstaddr] else []
  src6 := (if nat.natV false = 6 then [addr6 nat.natOsrcaddr l.natOsrc6] else []) ++
    if nat.natV true = 6 then [addr6 nat.natNsrcaddr l.natNsrc6] else []
  dst6 := (if nat.natV false = 6 then [addr6 nat.natOdstaddr l.natOdst6] else []) ++
    if nat.natV true = 6 then [addr6 nat.natNdstaddr l.natNdst6] else []
  sport := word nat.natNsport
  dport := word nat.natNdport
  states := [int (l.natTcpstate false), int (l.natTcpstate true)]
  idle := t

/-- The protocol of the entries a keyword is about. -/
def asks : Keyword → Option Word
  | .tcpPort | .tcpDport | .tcpSport | .tcpFlags | .tcpState => some 6
  | .udpPort | .udpDport | .udpSport => some 17
  | _ => none

/-- An address against the ints of an item, the address and the mask. -/
def in4 (v : ℕ → Word) (a : Word) : Bool := a &&& v 1 == v 0

def in6 (v : ℕ → Word) (a : Fin 4 → Word) : Bool := decide (∀ j : Fin 4, a j &&& v (4 + j) = v j)

/-- An item matches. Entries have no TCP flags. -/
def hits (s : Subject) (v : ℕ → Word) : Keyword → Bool
  | .ipP => s.p == v 0
  | .ipSrc => s.src4.any (in4 v)
  | .ipDst => s.dst4.any (in4 v)
  | .ipAddr => s.src4.any (in4 v) || s.dst4.any (in4 v)
  | .ip6Src => s.src6.any (in6 v)
  | .ip6Dst => s.dst6.any (in6 v)
  | .ip6Addr => s.src6.any (in6 v) || s.dst6.any (in6 v)
  | .tcpPort | .udpPort => s.sport == v 0 || s.dport == v 0
  | .tcpSport | .udpSport => s.sport == v 0
  | .tcpDport | .udpDport => s.dport == v 0
  | .tcpFlags => false
  | .tcpState => s.states.any (· == v 0)
  | .idleGt => s.idle > ((v 0).signExtend 64).toNat

/-- The entry is one the keyword is about, and some item matches it. -/
def Hit (s : Subject) (t : Term) : Prop := (∀ p ∈ asks t.op, s.p = p) ∧ ∃ i < t.items, hits s (t.item i) t.op = true

/-- **A term holds when some item matches, inverted for `!=`.** -/
def Holds (s : Subject) (t : Term) : Prop := Hit s t ↔ t.not = false

instance (s : Subject) (t : Term) : Decidable (Hit s t) := by
  unfold Hit
  infer_instance

instance (s : Subject) (t : Term) : Decidable (Holds s t) := by
  unfold Holds
  infer_instance

/-- Every term holds. -/
def Satisfies (s : Subject) (ts : List Term) : Prop := ∀ t ∈ ts, Holds s t

instance (s : Subject) (ts : List Term) : Decidable (Satisfies s ts) := by
  unfold Satisfies
  infer_instance

/-- The command of a term is for another protocol than that of the entry. No protocol is that of `tcp.state` and
`idle-gt`. -/
def Elsewhere (s : Subject) (k : Keyword) : Prop :=
  k.entry.ipoeCmd.sshiftRight 16 ≠ 0 ∧ k.entry.ipoeCmd.sshiftRight 16 ≠ s.p

variable {s : Subject} {k : Keyword} {t : Term} {ts : List Term} {array : List Word} {q : Request} {is : Ipstate} {nat : NatT}
  {l : NatRest} {idl : ℕ}

theorem holds_elsewhere_iff : Holds s t ↔ (Hit s t ∧ t.not = false) ∨ (¬Hit s t ∧ t.not = true) := by
  unfold Holds
  by_cases h : Hit s t <;> cases t.not <;> simp [h]

/-! ## Loading -/

/-- **An array that was loaded passed the check**, and its length is a multiple of 4. -/
theorem load_array (h : ipfMatcharrayLoad (some q) = some (.ok array)) :
    array = q.ints.take q.ipfoSize.toNat ∧ array.length = q.ipfoSize.toNat ∧ array.length % 4 = 0 ∧
      ipfMatcharrayVerify array (4 * array.length) = some 0 := by
  unfold ipfMatcharrayLoad at h
  dsimp only at h
  split at h
  · cases h
  split at h
  · cases h
  rename_i hsize
  split at h
  · cases h
  split at h
  · cases h
  rename_i hlen
  have htake : (q.ints.take q.ipfoSize.toNat).length = q.ipfoSize.toNat := by
    rw [length_take]
    omega
  cases hv : ipfMatcharrayVerify (q.ints.take q.ipfoSize.toNat) (q.ipfoSize.toNat * 4) with
  | none =>
    rw [hv] at h
    cases h
  | some r =>
    rw [hv, map_some] at h
    by_cases hr : r = 0
    · rw [hr, if_neg (not_not_intro rfl)] at h
      obtain rfl := Except.ok.inj (some.inj h)
      rw [htake, mul_comm, hv, hr]
      refine ⟨rfl, rfl, ?_, rfl⟩
      -- the two low bits of the size are not set
      obtain ⟨hlow, -, -⟩ := not_or.1 hsize |>.imp_right not_or.1
      have hand := congrArg toNat (not_not.1 hlow)
      rw [BitVec.toNat_and] at hand
      exact (Nat.and_two_pow_sub_one_eq_mod _ 2).symm.trans hand
    · rw [if_pos hr] at h
      cases h

/-- **With its size in bytes no array of an expression is loaded.** That is what `ipf` and `ipnat` ask for. -/
theorem load_bytes (hsize : q.ipfoSize = ofNat 32 (4 * (oplist ts).length)) (hlt : 4 * (oplist ts).length < 2 ^ 32)
    (hints : q.ints.take (oplist ts).length = oplist ts) : ipfMatcharrayLoad (some q) ≠ some (.ok array) := by
  intro h
  obtain ⟨harray, hlen, -, hv⟩ := load_array h
  rw [hsize, BitVec.toNat_ofNat, Nat.mod_eq_of_lt hlt] at harray hlen
  have hl := length_oplist ts
  -- the array that is read begins with the one for the terms
  have hpre : array.take (oplist ts).length = oplist ts := by
    rw [harray, take_take, Nat.min_eq_left (by omega), hints]
  have hget : array[0]? = some (ofNat 32 (oplist ts).length) := by
    rw [← getElem?_take_of_lt (show 0 < (oplist ts).length by omega), hpre, hl]
    rfl
  have hint : (ofNat 32 (oplist ts).length).toInt = (oplist ts).length := by
    rw [BitVec.toInt_ofNat', Int.bmod_def]
    omega
  unfold ipfMatcharrayVerify at hv
  simp only [hget, bind_eq_bind, bind_some, hint] at hv
  rw [hlen] at hv
  split at hv
  · cases hv
  · rw [if_pos (by omega)] at hv
    cases hv

/-- The array of an expression that was loaded is not too long. -/
theorem load_le (hne : ts ≠ []) (h : ipfMatcharrayLoad (some q) = some (.ok (oplist ts))) : (oplist ts).length ≤ 1024 :=
  (oplist_verify hne).1 (load_array h).2.2.2

/-! ## `ipf_state_matcharray` -/

/-- **What one pass does**: it reads outside of the array, returns zero, or goes on with `rv` cleared. -/
theorem stateLoop_pass (is : Ipstate) (idl : ℕ) (array : List Word) (n x : ℤ) :
    (∀ i, stateLoop is idl array (i + 1) n x 0 = .outside) ∨ (∀ i, stateLoop is idl array (i + 1) n x 0 = .ret 0) ∨
      ∃ n' x', ∀ i, stateLoop is idl array (i + 1) n x 0 = stateLoop is idl array i n' x' 0 := by
  by_cases hn : n ≤ 0
  · refine .inr (.inl fun i => ?_)
    rw [stateLoop, if_pos hn]
  have hpass : ∀ i, stateLoop is idl array (i + 1) n x 0 = _ := fun i => by rw [stateLoop, if_neg hn]
  simp only [hpass]
  split
  · rename_i size cmd _ _
    by_cases hend : cmd = IPF_EXP_END
    · exact .inr (.inl fun _ => if_pos hend)
    by_cases hp : cmd.sshiftRight 16 ≠ 0 ∧ cmd.sshiftRight 16 ≠ isP is
    · refine .inr (.inl fun _ => ?_)
      rw [if_neg hend, if_pos hp]
    simp only [if_neg hend, if_neg hp]
    split
    · split
      · exact .inl fun _ => rfl
      · rename_i neg _ _ _ _ m _
        by_cases hz : (0 ||| ofNat 32 m.toNat) ^^^ neg = 0
        · refine .inr (.inl fun _ => ?_)
          rw [if_pos hz, hz]
        · exact .inr (.inr ⟨n - size.toInt, x + (3 + size.toInt), fun _ => if_neg hz⟩)
    · exact .inl fun _ => rfl
  · exact .inl fun _ => rfl

/-- **`ipf_state_matcharray` returns nothing but zero**: `rv` is cleared before the end is looked at. -/
theorem stateLoop_ret {rv : Word} : ∀ (i : ℕ) {n x : ℤ}, stateLoop is idl array i n x 0 = .ret rv → rv = 0 := by
  intro i
  induction i with
  | zero =>
    intro n x h
    cases h
  | succ i ih =>
    intro n x h
    obtain hout | hret | ⟨n', x', hgo⟩ := stateLoop_pass is idl array n x
    · rw [hout] at h
      cases h
    · rw [hret] at h
      exact (Res.ret.inj h).symm
    · rw [hgo] at h
      exact ih h

/-- More passes do not change what is returned. -/
theorem stateLoop_more {rv : Word} {j : ℕ} : ∀ {i : ℕ} {n x : ℤ}, i ≤ j →
    stateLoop is idl array i n x 0 = .ret rv →
    stateLoop is idl array j n x 0 = .ret rv := by
  induction j with
  | zero =>
    intro i n x hi h
    rwa [Nat.le_zero.1 hi] at h
  | succ j ih =>
    intro i n x hi h
    cases i with
    | zero => cases h
    | succ i =>
      obtain hout | hret | ⟨n', x', hgo⟩ := stateLoop_pass is idl array n x
      · rw [hout] at h
        cases h
      · rw [hret] at h ⊢
        exact h
      · rw [hgo] at h ⊢
        exact ih (Nat.le_of_succ_le_succ hi) h

/-- The fields of a state entry that are compared, in the place of those of a packet. -/
def view (is : Ipstate) : Expr.FrInfo where
  finV := ofNat 4 is.isV
  finP := ofNat 8 is.isP
  finSrc := words is.isSrc
  finDst := words is.isDst
  finSport := word is.isSport
  finDport := word is.isDport
  finTcpf := 0

/-- The keywords that have a case of their own, for entries of either protocol. -/
def common (k : Keyword) : Bool := !k.isMeta && k ≠ .tcpFlags

/-- How far the loop over the items of a term counts. -/
def count (k : Keyword) (narg size : ℕ) : ℕ := if k.entry.ipoeArgsize = 4 then size else narg

/-- The entry is of the IP version of the keyword. -/
def Version (is : Ipstate) (k : Keyword) : Prop := ∀ v ∈ k.version, is.isV = v.toNat

instance (is : Ipstate) (k : Keyword) : Decidable (Version is k) := by
  unfold Version
  infer_instance

/-- The switch goes to the loop of its keyword. -/
theorem stateCmd_eq (hk : common k = true) (narg size : ℕ) (arg : ℕ → Option Word) :
    stateCmd is idl k.entry.ipoeCmd narg size arg =
      if Version is k then itemLoop (k.test (view is) arg) (count k narg size) 0 else some false := by
  cases k with
  | tcpState => cases hk
  | idleGt => cases hk
  | tcpFlags => cases hk
  | _ =>
    simp [stateCmd, Keyword.entry, Version, Keyword.version, Keyword.test, count, view, isP, Expr.FrInfo.finSaddr,
      Expr.FrInfo.finDaddr,
    IPF_EXP_IP_PR, IPF_EXP_IP_ADDR, IPF_EXP_IP_SRCADDR, IPF_EXP_IP_DSTADDR, IPF_EXP_IP6_ADDR, IPF_EXP_IP6_SRCADDR,
    IPF_EXP_IP6_DSTADDR, IPF_EXP_TCP_PORT, IPF_EXP_TCP_SPORT, IPF_EXP_TCP_DPORT, IPF_EXP_UDP_PORT, IPF_EXP_UDP_SPORT,
    IPF_EXP_UDP_DPORT]

theorem any_if {α : Type} {c : Prop} [Decidable c] {a : α} {f : α → Bool} :
    (if c then [a] else []).any f = true ↔ c ∧ f a = true := by
  by_cases h : c <;> simp [h]

theorem version4 (hk : k.version = some 4) : Version is k ↔ is.isV = 4 := by simp [Version, hk]

theorem version6 (hk : k.version = some 6) : Version is k ↔ is.isV = 6 := by simp [Version, hk]

theorem version_none (hk : k.version = none) : Version is k := by simp [Version, hk]

/-- One item, for the keywords with a case of their own. -/
theorem hits_state (hk : common k = true) (v : ℕ → Word) :
    hits (stateSubject is idl) v k = true ↔ Version is k ∧ k.cmp id (view is) v = true := by
  cases k with
  | tcpState | idleGt | tcpFlags => cases hk
  | ipSrc | ipDst => exact any_if.trans (and_congr_left' (version4 rfl).symm)
  | ip6Src | ip6Dst => exact any_if.trans (and_congr_left' (version6 rfl).symm)
  | ipAddr =>
    have hv : Version is .ipAddr ↔ is.isV = 4 := version4 rfl
    unfold hits Keyword.cmp
    rw [Bool.or_eq_true, Bool.or_eq_true, hv, and_or_left]
    exact or_congr any_if any_if
  | ip6Addr =>
    have hv : Version is .ip6Addr ↔ is.isV = 6 := version6 rfl
    unfold hits Keyword.cmp
    rw [Bool.or_eq_true, Bool.or_eq_true, hv, and_or_left]
    exact or_congr any_if any_if
  | ipP | tcpPort | tcpDport | tcpSport | udpPort | udpDport | udpSport =>
    exact (and_iff_right (version_none rfl)).symm

/-! ## The first term -/

/-- The ints of the first term. -/
structure Reads (t : Term) (ts : List Term) (array : List Word) : Prop where
  total : array[0]? = some (ofNat 32 array.length)
  cmd : read array 1 = some t.op.entry.ipoeCmd
  neg : read array (1 + 1) = some (if t.not then 1 else 0)
  narg : read array (1 + 2) = some (ofNat 32 (t.items * t.op.entry.ipoeNbasearg))
  size : read array (1 + 3) = some (ofNat 32 (t.items * t.op.width + 4))
  arg : ∀ j : ℕ, read array (1 + 4 + j) = (behind t ts)[j]?
  total_int : (ofNat 32 array.length).toInt = array.length
  narg_int : (ofNat 32 (t.items * t.op.entry.ipoeNbasearg)).toInt = (t.items * t.op.entry.ipoeNbasearg : ℕ)
  size_int : (ofNat 32 (t.items * t.op.width + 4)).toInt = (t.items * t.op.width + 4 : ℕ)
  length : array.length = t.items * t.op.width + 4 + (ts.flatMap Term.ints).length + 2

theorem oplist_reads (hlen : (oplist (t :: ts)).length ≤ 1024) : Reads t ts (oplist (t :: ts)) := by
  have hcons := oplist_cons t ts
  have hl := length_oplist (t :: ts)
  rw [flatMap_cons, length_append, length_ints] at hl
  have hnb : t.items * t.op.entry.ipoeNbasearg ≤ t.items * t.op.width := by
    apply Nat.mul_le_mul_left
    cases t.op <;> decide
  generalize oplist (t :: ts) = array at hcons hlen hl
  have harg : ∀ j : ℕ, read array (1 + 4 + j) = (behind t ts)[j]? := by
    intro j
    rw [hcons, read_five]
  exact ⟨congrArg (fun l => l[0]?)
    hcons, by rw [hcons]; rfl, by rw [hcons]; rfl, by rw [hcons]; rfl, by rw [hcons]; rfl, harg,
    toInt_ofNat hlen, toInt_ofNat (by omega), toInt_ofNat (by omega), hl⟩

/-- The switch of `ipf_state_matcharray` for the first term. -/
def firstState (is : Ipstate) (idl : ℕ) (t : Term) (ts : List Term) : Option Bool :=
  stateCmd is idl t.op.entry.ipoeCmd (t.items * t.op.entry.ipoeNbasearg) (t.items * t.op.width + 4) fun j => (behind t ts)[j]?

theorem cmd_ne_end (k : Keyword) : k.entry.ipoeCmd ≠ IPF_EXP_END := by cases k <;> decide

/-- `rv` after the first term. -/
theorem rv_eq_zero (m neg : Bool) : (0#32 ||| ofNat 32 m.toNat) ^^^ (if neg then 1 else 0) = 0 ↔ m = neg := by
  cases m <;> cases neg <;> decide

/-- **What the loop does with the first term.** -/
theorem stateLoop_term (h : Reads t ts array) (i : ℕ) {n : ℤ} (hn : 0 < n) : stateLoop is idl array (i + 1) n 1 0 =
      if t.op.entry.ipoeCmd.sshiftRight 16 ≠ 0 ∧ t.op.entry.ipoeCmd.sshiftRight 16 ≠ isP is then .ret 0
      else match firstState is idl t ts with
        | none => .outside
        | some m => if (0 ||| ofNat 32 m.toNat) ^^^ (if t.not then 1 else 0) = 0#32 then
            .ret ((0 ||| ofNat 32 m.toNat) ^^^ (if t.not then 1 else 0))
          else stateLoop is idl array i (n - (t.items * t.op.width + 4 : ℕ))
            (1 + (3 + (t.items * t.op.width + 4 : ℕ))) 0 := by
  rw [stateLoop, if_neg (by omega)]
  simp only [h.cmd, h.neg, h.narg, h.size, h.arg, h.size_int, h.narg_int, Int.toNat_natCast, firstState]
  rw [if_neg (cmd_ne_end t.op)]
  rfl

theorem stateLoop_first (h : Reads t ts array) (i : ℕ) {n : ℤ} (hn : 0 < n) :
    (Elsewhere (stateSubject is idl) t.op → stateLoop is idl array (i + 1) n 1 0 = .ret 0) ∧
    (¬Elsewhere (stateSubject is idl) t.op →
      (firstState is idl t ts = none → stateLoop is idl array (i + 1) n 1 0 = .outside) ∧
      (firstState is idl t ts = some t.not → stateLoop is idl array (i + 1) n 1 0 = .ret 0) ∧
      (firstState is idl t ts = some (!t.not) → stateLoop is idl array (i + 1) n 1 0 =
        stateLoop is idl array i (n - (t.items * t.op.width + 4 : ℕ)) (1 + (3 + (t.items * t.op.width + 4 : ℕ))) 0)) := by
  rw [stateLoop_term h i hn]
  refine ⟨fun ho => if_pos ho, fun ho => ?_⟩
  have hp : ¬(t.op.entry.ipoeCmd.sshiftRight 16 ≠ 0 ∧ t.op.entry.ipoeCmd.sshiftRight 16 ≠ isP is) := ho
  rw [if_neg hp]
  refine ⟨fun hm => by rw [hm], fun hm => ?_, fun hm => ?_⟩
  · have hz := (rv_eq_zero t.not t.not).2 rfl
    rw [hm]
    exact (if_pos hz).trans (congrArg Res.ret hz)
  · rw [hm]
    exact if_neg fun hz => by simpa using (rv_eq_zero (!t.not) t.not).1 hz

theorem ipfStateMatcharray_eq (h : Reads t ts array) (passes : ℕ) :
    ipfStateMatcharray passes is idl array = stateLoop is idl array passes array.length 1 0 := by
  unfold ipfStateMatcharray
  rw [h.total]
  exact congrArg (fun n => stateLoop is idl array passes n 1 0) h.total_int

/-- **A term for another protocol ends the run.** -/
theorem state_elsewhere (h : Reads t ts array) (ho : Elsewhere (stateSubject is idl) t.op) :
    ipfStateMatcharray 1 is idl array = .ret 0 := by
  rw [ipfStateMatcharray_eq h]
  exact (stateLoop_first h 0 (by rw [h.length]; omega)).1 ho

/-- `tcp.state` and `idle-gt` are for no protocol. -/
theorem meta_elsewhere (hk : k.isMeta = true) : Elsewhere (stateSubject is idl) k := by
  have hbig : k.entry.ipoeCmd.sshiftRight 16 = 0x106#32 ∨ k.entry.ipoeCmd.sshiftRight 16 = 0x100#32 := by
    cases k <;> first | decide | cases hk
  unfold Elsewhere
  change _ ∧ _ ≠ (ofNat 8 is.isP).setWidth 32
  rcases hbig with h | h <;> rw [h] <;> exact ⟨by decide, by bv_omega⟩

/-- The upper half of a command is the protocol the keyword asks for. -/
theorem asks_of_not_elsewhere (hk : k.isMeta = false) (h : ¬Elsewhere s k) : ∀ p ∈ asks k, s.p = p := by
  unfold Elsewhere at h
  intro p hp
  have hcmd : k.entry.ipoeCmd.sshiftRight 16 = p ∧ p ≠ 0 := by
    cases k with
    | tcpState | idleGt => cases hk
    | ipAddr | ip6Addr | ipP | ipSrc | ipDst | ip6Src | ip6Dst => exact absurd hp (not_mem_none p)
    | tcpPort | tcpDport | tcpSport | tcpFlags | udpPort | udpDport | udpSport =>
      cases hp
      exact ⟨by decide, by decide⟩
  rw [hcmd.1] at h
  by_contra hne
  exact h ⟨hcmd.2, fun he => hne he.symm⟩

theorem common_of_hit (hm : k.isMeta = false) {v : ℕ → Word} (h : hits s v k = true) : common k = true := by
  cases k with
  | tcpState | idleGt => cases hm
  | tcpFlags => exact absurd h Bool.false_ne_true
  | _ => rfl

/-- How far the loop counts: to the last item, or further if an item has two arguments. -/
theorem count_eq (hk : common k = true) {n : ℕ} (hn : 0 < n) :
    ∃ m, count k (n * k.entry.ipoeNbasearg) (n * k.width + 4) = n + m ∧ (k.entry.ipoeNbasearg = 1 → m = 0) ∧
      (k.entry.ipoeNbasearg ≠ 1 → k.entry.ipoeNbasearg = 2 ∧ 0 < m) := by
  cases k with
  | tcpState | idleGt | tcpFlags => cases hk
  | ipSrc | ipDst | ipAddr =>
    refine ⟨n, ?_, nofun, fun _ => ⟨rfl, hn⟩⟩
    change n * 2 = _
    omega
  | ip6Src | ip6Dst | ip6Addr =>
    refine ⟨7 * n + 4, ?_, nofun, fun _ => ⟨rfl, Nat.succ_pos _⟩⟩
    change n * 8 + 4 = _
    omega
  | ipP | tcpPort | tcpDport | tcpSport | udpPort | udpDport | udpSport =>
    exact ⟨0, mul_one n, fun _ => rfl, fun h => absurd rfl h⟩

/-- What the loop of the keyword compares with an item of the first term. -/
theorem first_test (ts : List Term) {j : ℕ} (hj : j < t.items) :
    t.op.test (view is) (fun j => (behind t ts)[j]?) j = some (t.op.cmp id (view is) (t.item j)) :=
  test_some t.op fun _ hl => behind_item ts hj hl

/-- If some item matches, that is what the switch comes to. -/
theorem firstState_hit (ts : List Term) (hm : t.op.isMeta = false) (h : Hit (stateSubject is idl) t) :
    firstState is idl t ts = some true := by
  obtain ⟨-, i, hi, hc⟩ := h
  have hk := common_of_hit hm hc
  obtain ⟨hv, hcmp⟩ := (hits_state hk _).1 hc
  obtain ⟨m, hm, -⟩ := count_eq hk t.items_pos
  unfold firstState
  rw [stateCmd_eq hk, if_pos hv, hm]
  apply itemLoop_le
  exact itemLoop_true (g := fun j => t.op.cmp id (view is) (t.item j)) t.items 0 (fun j _ hj => first_test ts (by omega))
    ⟨i, by omega, by omega, hcmp⟩

/-- If none matches and no term follows, the loop says so, or it reads behind the array. -/
theorem firstState_miss (hm : t.op.isMeta = false) (he : ¬Elsewhere (stateSubject is idl) t.op)
    (h : ¬Hit (stateSubject is idl) t) : firstState is idl t [] ≠ some true := by
  have hmiss : ∀ i < t.items, ¬hits (stateSubject is idl) (t.item i) t.op = true :=
    fun i hi hc => h ⟨asks_of_not_elsewhere hm he, i, hi, hc⟩
  unfold firstState
  by_cases hk : common t.op = true
  · rw [stateCmd_eq hk]
    by_cases hv : Version is t.op
    · rw [if_pos hv]
      have hfalse : itemLoop (t.op.test (view is) (fun j => (behind t [])[j]?)) t.items 0 = some false := by
        refine itemLoop_false _ _ fun j _ hj => ?_
        rw [first_test [] (by omega)]
        exact congrArg some (Bool.eq_false_iff.2 fun hc => hmiss j (by omega) ((hits_state hk _).2 ⟨hv, hc⟩))
      obtain ⟨m, hcount, hone, htwo⟩ := count_eq hk t.items_pos
      rw [hcount, itemLoop_add _ _ _ hfalse, zero_add]
      by_cases hn : t.op.entry.ipoeNbasearg = 1
      · rw [hone hn]
        exact fun hc => by cases hc
      · -- the next item is not there
        obtain ⟨h2, hpos⟩ := htwo hn
        obtain ⟨m, rfl⟩ : ∃ m', m = m' + 1 := ⟨m - 1, by omega⟩
        have htest : t.op.test (view is) (fun j => (behind t [])[j]?) t.items = none := by
          refine test_none t.op h2 fun j hj => ?_
          rw [getElem?_eq_none]
          simp only [behind, length_append, t.length_args, flatMap_nil, length_singleton, length_nil]
          omega
        rw [itemLoop, htest]
        exact fun hc => by cases hc
    · rw [if_neg hv]
      exact fun hc => by cases hc
  · have hflags : t.op = .tcpFlags := by
      revert hk hm
      cases t.op <;> decide
    rw [hflags]
    exact fun hc => by cases hc

/-- **With one term, a run for an entry that satisfies it ends only if the term is for another protocol.** -/
theorem state_ret_elsewhere {passes : ℕ} {rv : Word} (h : Reads t [] array) (hs : Holds (stateSubject is idl) t)
    (hr : ipfStateMatcharray passes is idl array = .ret rv) : Elsewhere (stateSubject is idl) t.op := by
  by_contra ho
  have hm : t.op.isMeta = false := Bool.eq_false_iff.2 fun hm => ho (meta_elsewhere hm)
  have hlen := h.length
  rw [flatMap_nil, length_nil] at hlen
  rw [ipfStateMatcharray_eq h] at hr
  -- the items are counted too far, or the step goes behind the end
  have hfirst : firstState is idl t [] = none ∨ firstState is idl t [] = some (!t.not) := by
    rcases holds_elsewhere_iff.1 hs with ⟨hhit, hn⟩ | ⟨hhit, hn⟩
    · rw [hn, firstState_hit [] hm hhit]
      exact .inr rfl
    · have hmiss := firstState_miss hm ho hhit
      rw [hn]
      cases hf : firstState is idl t [] with
      | none => exact .inl rfl
      | some m =>
        cases m with
        | false => exact .inr rfl
        | true => exact absurd hf hmiss
  cases passes with
  | zero => cases hr
  | succ i =>
    obtain ⟨hnone, -, hgo⟩ := (stateLoop_first (n := array.length) h i (by omega)).2 ho
    rcases hfirst with hf | hf
    · rw [hnone hf] at hr
      cases hr
    · rw [hgo hf] at hr
      cases i with
      | zero => cases hr
      | succ i =>
        have hread : read array (1 + (3 + (t.items * t.op.width + 4 : ℕ)) + 3) = none := by
          rw [Expr.read, if_neg (by omega), getElem?_eq_none]
          omega
        rw [stateLoop, if_neg (by omega), hread] at hr
        cases hr

/-! ## `ipf_state_matchflush` -/

section State

variable {w w' : Softs} {A : List ℕ} {H : ℕ → List ℕ} {dead : ℕ → Prop} {passes ticks : ℕ}

/-- What `ipf_state_matcharray` finds of an entry. -/
def stateRes (passes ticks : ℕ) (array : List Word) (w : Softs) (e : ℕ) : Res :=
  ipfStateMatcharray passes (w.is e) (idle ticks (w.tq.tqeTouched e)) array

theorem stateRes_zero {e : ℕ} {rv : Word} (h : stateRes passes ticks array w e = .ret rv) : rv = 0 := by
  unfold stateRes ipfStateMatcharray at h
  split at h
  · cases h
  · exact stateLoop_ret passes h

/-- **One entry of the walk is deleted.** `l₁` are the entries that stayed as orphans, `l₂` those to come. -/
theorem del_next {l₁ l₂ : List ℕ} {e : ℕ} {r : Tqid → ℤ} {L : Tqid → List ℕ}
    (h : Good dead w (l₁ ++ e :: l₂) H) (hok : Ok r w.tq L) :
    ∃ w₁ n l₁' H₁ r₁ L₁, ipfStateDel w e = some (w₁, n) ∧
      Good (fun x => x = e ∨ dead x) w₁ (l₁' ++ l₂) H₁ ∧ Ok r₁ w₁.tq L₁ ∧
      (∀ x ∈ l₁', x ∈ l₁ ++ [e]) ∧ ∀ x ∈ l₂, w₁.is x = w.is x ∧
        w₁.tq.tqeTouched x = w.tq.tqeTouched x := by
  obtain ⟨w₁, n, H₁, L₁, hdel, -, hgood, hok₁, -, hd⟩ := del_spec (e := e) h hok (by simp)
  have hnd := h.toAcc.nodup
  have hout : ∀ x ∈ l₂, x ≠ e := by
    intro x hx hxe
    obtain ⟨hout, -⟩ := nodup_cons.1 (nodup_middle.1 hnd)
    exact hout (by rw [← hxe]; simp [hx])
  refine ⟨w₁, n, if 0 < (w.is e).left then l₁ ++ [e] else l₁, H₁, _, L₁, hdel, ?_, hok₁, ?_, fun x hx => ?_⟩
  · by_cases hc : 0 < (w.is e).left
    · rw [if_pos hc] at hgood ⊢
      rwa [append_assoc]
    · rw [if_neg hc, filter_middle hnd] at hgood
      rwa [if_neg hc]
  · intro x hx
    split at hx
    · exact hx
    · exact mem_append_left _ hx
  · exact ⟨hd.is x (hout x hx), congrFun hd.kept.touched x⟩

theorem stateRes_congr {e : ℕ} (h : w'.is e = w.is e ∧ w'.tq.tqeTouched e = w.tq.tqeTouched e) :
    stateRes passes ticks array w' e = stateRes passes ticks array w e := by
  unfold stateRes
  rw [h.1, h.2]

/-- The walk reads where it goes on before it deletes. -/
theorem next_eq {l₁ l₂ : List ℕ} {e : ℕ} (h : Good dead w (l₁ ++ e :: l₂) H) : w.list.next e = l₂.head? :=
  (h.list ()).next

/-- **A walk on which every entry is evaluated to the end deletes them all.** -/
theorem stateFlushLoop_all :
    ∀ {l₂ : List ℕ} {i : ℕ} {w : Softs} {b : List ℕ} {H : ℕ → List ℕ} {dead : ℕ → Prop}
    {r : Tqid → ℤ} {L : Tqid → List ℕ} {k : ℕ}, Good dead w (b ++ l₂) H → Ok r w.tq L → l₂.length ≤ i →
    (∀ e ∈ l₂, stateRes passes ticks array w e = .ret 0) →
    ∃ w' A' H', stateFlushLoop passes ticks array i l₂.head? w k = some (w', k + l₂.length) ∧
      Good (fun x => x ∈ l₂ ∨ dead x) w' A' H' ∧ (∀ x ∈ A', x ∈ b ++ l₂) := by
  intro l₂
  induction l₂ with
  | nil =>
    intro i w b H dead r L k h _ _ _
    refine ⟨w, _, H, ?_, h.congr fun x _ => by simp, fun x hx => hx⟩
    cases i <;> rfl
  | cons e l₂ ih =>
    intro i w b H dead r L k h hok hlen hres
    rw [length_cons] at hlen
    obtain ⟨i, rfl⟩ : ∃ j, i = j + 1 := ⟨i - 1, by omega⟩
    obtain ⟨w₁, n, b', H₁, r₁, L₁, hdel, hgood, hok₁, hsub₁, hsame⟩ := del_next h hok
    obtain ⟨w', A', H', hrun, hgood', hsub⟩ := ih (k := k + 1) hgood hok₁ (Nat.le_of_succ_le_succ hlen)
      fun x hx => (stateRes_congr (hsame x hx)).trans (hres x (mem_cons_of_mem _ hx))
    have hhere := hres e mem_cons_self
    unfold stateRes at hhere
    refine ⟨w', A', H', ?_, hgood'.congr fun x _ => ?_, fun x hx => ?_⟩
    · simp only [head?_cons, stateFlushLoop, next_eq h, hhere, if_true, hdel, bind_eq_bind, bind_some, hrun]
      rw [length_cons, add_assoc, add_comm 1]
    · rw [mem_cons]
      tauto
    · rcases mem_append.1 (hsub x hx) with hx | hx
      · have := hsub₁ x hx
        simp only [mem_append, mem_cons, not_mem_nil, or_false] at this ⊢
        tauto
      · simp [hx]

/-- **A walk that ends has evaluated every entry to the end.** -/
theorem stateFlushLoop_ret :
    ∀ {l₂ : List ℕ} {i : ℕ} {w : Softs} {b : List ℕ} {H : ℕ → List ℕ} {dead : ℕ → Prop}
    {r : Tqid → ℤ} {L : Tqid → List ℕ} {flushed n : ℕ}, Good dead w (b ++ l₂) H → Ok r w.tq L →
    stateFlushLoop passes ticks array i l₂.head? w flushed = some (w', n) →
    (∀ e ∈ l₂, stateRes passes ticks array w e = .ret 0) ∧ n = flushed + l₂.length := by
  intro l₂
  induction l₂ with
  | nil =>
    intro i w b H dead r L flushed n _ _ hrun
    have hend : stateFlushLoop passes ticks array i none w flushed = some (w, flushed) := by cases i <;> rfl
    cases mem_unique hend hrun
    exact ⟨forall_mem_nil _, rfl⟩
  | cons e l₂ ih =>
    intro i w b H dead r L flushed n h hok hrun
    cases i with
    | zero => cases hrun
    | succ i =>
      obtain ⟨w₁, k, b', H₁, r₁, L₁, hdel, hgood, hok₁, -, hsame⟩ := del_next h hok
      simp only [head?_cons, stateFlushLoop, next_eq h] at hrun
      rw [← stateRes] at hrun
      cases hres : stateRes passes ticks array w e with
      | outside =>
        rw [hres] at hrun
        cases hrun
      | running =>
        rw [hres] at hrun
        cases hrun
      | ret rv =>
        obtain rfl := stateRes_zero hres
        simp only [hres, if_true, hdel, bind_eq_bind, bind_some] at hrun
        obtain ⟨hrest, hn⟩ := ih hgood hok₁ hrun
        refine ⟨forall_mem_cons.2 ⟨hres, fun x hx => (stateRes_congr (hsame x hx)).symm.trans (hrest x hx)⟩, ?_⟩
        rw [hn, length_cons]
        omega

/-- The entry satisfies the expression. -/
def StateSel (ts : List Term) (ticks : ℕ) (w : Softs) (e : ℕ) : Prop :=
  Satisfies (stateSubject (w.is e) (idle ticks (w.tq.tqeTouched e))) ts

instance (ts : List Term) (ticks : ℕ) (w : Softs) (e : ℕ) : Decidable (StateSel ts ticks w e) := by
  unfold StateSel
  infer_instance

/-- **What is asked of `ipf_state_matchflush`**, for the table whose list is `A` and in which `dead` are those deleted before:
it returns the number of entries that satisfy the expression, they are deleted, and the others stay. -/
def StateMeets (ts : List Term) (ticks : ℕ) (w : Softs) (A : List ℕ) (dead : ℕ → Prop) (q : Request) : Prop :=
  ∃ passes w' A' H', ipfStateMatchflush passes ticks w (some q) =
      some (w', .ok (A.countP fun e => StateSel ts ticks w e)) ∧
    Good (fun x => (x ∈ A ∧ StateSel ts ticks w x) ∨ dead x) w' A' H' ∧ (∀ x ∈ A', x ∈ A) ∧
    ∀ x ∈ A, ¬StateSel ts ticks w x → x ∈ A'

theorem stateRes_more {e i j : ℕ} {rv : Word} (hij : i ≤ j) (h : stateRes i ticks array w e = .ret rv) :
    stateRes j ticks array w e = .ret rv := by
  unfold stateRes ipfStateMatcharray at h ⊢
  split at h
  · cases h
  · exact stateLoop_more hij h

/-- Some number of passes is enough for all of some entries. -/
theorem passes_all {α : Type} {p : ℕ → α → Prop} (hmono : ∀ i j x, i ≤ j → p i x → p j x) :
    ∀ l : List α, (∀ x ∈ l, ∃ i, p i x) → ∃ i, ∀ x ∈ l, p i x := by
  intro l
  induction l with
  | nil => exact fun _ => ⟨0, forall_mem_nil _⟩
  | cons x l ih =>
    intro h
    obtain ⟨i, hi⟩ := h x mem_cons_self
    obtain ⟨j, hj⟩ := ih fun y hy => h y (mem_cons_of_mem _ hy)
    refine ⟨max i j, forall_mem_cons.2 ⟨hmono i _ x (le_max_left i j) hi, fun y hy => ?_⟩⟩
    exact hmono j _ y (le_max_right i j) (hj y hy)

/-- **`ipf_state_matchflush` does what the expression says if and only if** every entry satisfies it and is evaluated to the
end, since all are deleted. -/
theorem stateMeets_iff (hload : ipfMatcharrayLoad (some q) = some (.ok array)) (h : Good dead w A H) (hq : Queued w) :
    StateMeets ts ticks w A dead q ↔
      ∀ e ∈ A, StateSel ts ticks w e ∧ ∃ passes, stateRes passes ticks array w e = .ret 0 := by
  obtain ⟨r, L, hok, -⟩ := hq
  have hhead : w.list.head () = A.head? := (h.list ()).head?
  have hact : A.length ≤ w.active.toNat := by rw [h.active, Int.toNat_natCast]
  have hflush : ∀ passes, ipfStateMatchflush passes ticks w (some q) =
      (stateFlushLoop passes ticks array w.active.toNat A.head? w 0).map fun r => (r.1, .ok r.2) := by
    intro passes
    unfold ipfStateMatchflush
    rw [hload, hhead]
    simp only [bind_eq_bind, bind_some]
    cases stateFlushLoop passes ticks array w.active.toNat A.head? w 0 <;> rfl
  constructor
  · rintro ⟨passes, w', A', H', hrun, -, -, -⟩
    rw [hflush] at hrun
    obtain ⟨⟨w₁, n⟩, hloop, hpair⟩ := map_eq_some_iff.1 hrun
    have hn : n = A.countP fun e => StateSel ts ticks w e := Except.ok.inj (Prod.mk.inj hpair).2
    obtain ⟨hres, hcount⟩ := stateFlushLoop_ret (b := []) h hok hloop
    rw [hn, zero_add, countP_eq_length] at hcount
    exact fun e he => ⟨of_decide_eq_true (hcount e he), passes, hres e he⟩
  · intro hall
    obtain ⟨passes, hres⟩ := passes_all (p := fun i e => stateRes i ticks array w e = .ret 0)
      (fun i j x hij hx => stateRes_more hij hx) A fun e he => (hall e he).2
    obtain ⟨w', A', H', hrun, hgood, hsub⟩ := stateFlushLoop_all (b := []) (k := 0) h hok hact hres
    have hcount : A.countP (fun e => StateSel ts ticks w e) = A.length :=
      countP_eq_length.2 fun e he => decide_eq_true (hall e he).1
    refine ⟨passes, w', A', H', ?_, hgood.congr fun x _ => ?_, hsub, fun x hx hx' => absurd (hall x hx).1 hx'⟩
    · rw [hflush, hrun, hcount, zero_add]
      rfl
    · exact or_congr_left (iff_self_and.2 fun hx => (hall x hx).1)

end State

/-! ## `ipf_nat_matcharray` -/

/-- **What one pass does**: it reads outside of the array, returns, or goes on. -/
theorem natLoop_pass (nat : NatT) (l : NatRest) (idl : ℕ) (array : List Word) (n x : ℤ) (e : Word) :
    (∀ i, natLoop nat l idl array (i + 1) n x e = .outside) ∨
      (∃ rv, ∀ i, natLoop nat l idl array (i + 1) n x e = .ret rv) ∨
      ∃ n' x' e', ∀ i, natLoop nat l idl array (i + 1) n x e = natLoop nat l idl array i n' x' e' := by
  by_cases hn : n ≤ 0
  · refine .inr (.inl ⟨e, fun i => ?_⟩)
    rw [natLoop, if_pos hn]
  have hpass : ∀ i, natLoop nat l idl array (i + 1) n x e = _ := fun i => by rw [natLoop, if_neg hn]
  simp only [hpass]
  split
  · exact .inl fun _ => rfl
  rename_i cmd _
  by_cases hend : cmd = IPF_EXP_END
  · exact .inr (.inl ⟨e, fun _ => if_pos hend⟩)
  simp only [if_neg hend]
  split
  · exact .inl fun _ => rfl
  rename_i narg _
  by_cases hneg : n - (narg.toInt + 3) < 0
  · exact .inr (.inl ⟨0, fun _ => if_pos hneg⟩)
  simp only [if_neg hneg]
  by_cases hp : cmd.sshiftRight 16 ≠ 0 ∧ cmd.sshiftRight 16 ≠ int (nat.natPr true)
  · exact .inr (.inl ⟨0, fun _ => if_pos hp⟩)
  simp only [if_neg hp]
  split
  · rename_i neg m _ _
    by_cases hz : ofNat 32 m.toNat ^^^ neg = 0
    · exact .inr (.inl ⟨_, fun _ => if_pos hz⟩)
    · exact .inr (.inr ⟨n - (narg.toInt + 3), x + (3 + narg.toInt), _, fun _ => if_neg hz⟩)
  · exact .inl fun _ => rfl

/-- More passes do not change what is returned. -/
theorem natLoop_more {rv : Word} {j : ℕ} : ∀ {i : ℕ} {n x : ℤ} {e : Word}, i ≤ j →
    natLoop nat l idl array i n x e = .ret rv → natLoop nat l idl array j n x e = .ret rv := by
  induction j with
  | zero =>
    intro i n x e hi h
    rwa [Nat.le_zero.1 hi] at h
  | succ j ih =>
    intro i n x e hi h
    cases i with
    | zero => cases h
    | succ i =>
      obtain hout | ⟨rv', hret⟩ | ⟨n', x', e', hgo⟩ := natLoop_pass nat l idl array n x e
      · rw [hout] at h
        cases h
      · rw [hret] at h ⊢
        exact h
      · rw [hgo] at h ⊢
        exact ih (Nat.le_of_succ_le_succ hi) h

/-- The switch of `ipf_nat_matcharray` for the first term: the arguments are read one int too early. -/
def firstNat (nat : NatT) (l : NatRest) (idl : ℕ) (t : Term) (ts : List Term) : Option Bool :=
  natCmd nat l idl t.op.entry.ipoeCmd (t.items * t.op.entry.ipoeNbasearg) fun j => read (oplist (t :: ts)) (1 + 3 + j)

/-- `e` after the first term. -/
theorem e_eq_zero (m neg : Bool) : ofNat 32 m.toNat ^^^ (if neg then 1#32 else 0) = 0 ↔ m = neg := by
  cases m <;> cases neg <;> decide

/-- **What the loop does with the first term.** -/
theorem natLoop_term (h : Reads t ts (oplist (t :: ts))) (i : ℕ) {n : ℤ}
    (hn : (t.items * t.op.entry.ipoeNbasearg : ℕ) + 3 ≤ n) (hpos : 0 < n) :
      natLoop nat l idl (oplist (t :: ts)) (i + 1) n 1 0 =
      if t.op.entry.ipoeCmd.sshiftRight 16 ≠ 0 ∧ t.op.entry.ipoeCmd.sshiftRight 16 ≠ int (nat.natPr true) then .ret 0
      else match firstNat nat l idl t ts with
        | none => .outside
        | some m => if ofNat 32 m.toNat ^^^ (if t.not then 1#32 else 0) = 0 then
            .ret (ofNat 32 m.toNat ^^^ (if t.not then 1#32 else 0))
          else natLoop nat l idl (oplist (t :: ts)) i (n - ((t.items * t.op.entry.ipoeNbasearg : ℕ) + 3))
            (1 + (3 + (t.items * t.op.entry.ipoeNbasearg : ℕ))) (ofNat 32 m.toNat ^^^ (if t.not then 1#32 else 0)) := by
  rw [natLoop, if_neg (by omega)]
  simp only [h.cmd, h.neg, h.narg, h.narg_int, Int.toNat_natCast, firstNat]
  rw [if_neg (cmd_ne_end t.op), if_neg (by omega)]
  split
  · rfl
  · cases natCmd nat l idl t.op.entry.ipoeCmd (t.items * t.op.entry.ipoeNbasearg)
      fun j => read (oplist (t :: ts)) (1 + 3 + j) <;> rfl

theorem natLoop_first (h : Reads t ts (oplist (t :: ts))) (i : ℕ) {n : ℤ}
    (hn : (t.items * t.op.entry.ipoeNbasearg : ℕ) + 3 ≤ n) (hpos : 0 < n) :
    (Elsewhere (natSubject nat l idl) t.op → natLoop nat l idl (oplist (t :: ts)) (i + 1) n 1 0 = .ret 0) ∧
    (¬Elsewhere (natSubject nat l idl) t.op →
      (firstNat nat l idl t ts = none → natLoop nat l idl (oplist (t :: ts)) (i + 1) n 1 0 = .outside) ∧
      (firstNat nat l idl t ts = some t.not → natLoop nat l idl (oplist (t :: ts)) (i + 1) n 1 0 = .ret 0) ∧
      (firstNat nat l idl t ts = some (!t.not) → natLoop nat l idl (oplist (t :: ts)) (i + 1) n 1 0 =
        natLoop nat l idl (oplist (t :: ts)) i (n - ((t.items * t.op.entry.ipoeNbasearg : ℕ) + 3))
          (1 + (3 + (t.items * t.op.entry.ipoeNbasearg : ℕ))) 1)) := by
  rw [natLoop_term h i hn hpos]
  refine ⟨fun ho => if_pos ho, fun ho => ?_⟩
  have hp : ¬(t.op.entry.ipoeCmd.sshiftRight 16 ≠ 0 ∧ t.op.entry.ipoeCmd.sshiftRight 16 ≠ int (nat.natPr true)) := ho
  rw [if_neg hp]
  refine ⟨fun hm => by rw [hm], fun hm => ?_, fun hm => ?_⟩
  · have hz := (e_eq_zero t.not t.not).2 rfl
    rw [hm]
    exact (if_pos hz).trans (congrArg Res.ret hz)
  · have hone : ofNat 32 (!t.not).toNat ^^^ (if t.not then 1#32 else 0) = 1 := by cases t.not <;> rfl
    rw [hm]
    dsimp only
    rw [hone, if_neg (by decide)]

/-- The last argument of the first term that is counted, which is taken for the command of the next one. -/
def nextInt (t : Term) : Word := t.args.getD (t.items * t.op.entry.ipoeNbasearg - 1) 0

theorem narg_le (t : Term) : 0 < t.items * t.op.entry.ipoeNbasearg ∧
    t.items * t.op.entry.ipoeNbasearg ≤ t.items * t.op.width := by
  have hb : 0 < t.op.entry.ipoeNbasearg := by cases t.op <;> decide
  have hw : t.op.entry.ipoeNbasearg ≤ t.op.width := by cases t.op <;> decide
  exact ⟨Nat.mul_pos t.items_pos hb, Nat.mul_le_mul_left _ hw⟩

theorem read_next (h : Reads t ts array) :
    read array (1 + (3 + (t.items * t.op.entry.ipoeNbasearg : ℕ))) = some (nextInt t) := by
  obtain ⟨hpos, hle⟩ := narg_le t
  have hlt : t.items * t.op.entry.ipoeNbasearg - 1 < t.args.length := by
    rw [t.length_args]
    omega
  have harg := h.arg (t.items * t.op.entry.ipoeNbasearg - 1)
  rw [show ((1 : ℤ) + 4 + (t.items * t.op.entry.ipoeNbasearg - 1 : ℕ)) =
    1 + (3 + (t.items * t.op.entry.ipoeNbasearg : ℕ)) by omega]
    at harg
  rw [harg, behind, getElem?_append_left hlt, nextInt, getD_eq_getElem?_getD, getElem?_eq_getElem hlt,
    getD_some]

section Nat

variable {w w' : Softn} {A O : List ℕ} {H : Bool → ℕ → List ℕ} {passes ticks : ℕ} {rest : ℕ → NatRest} {e : ℕ}

/-- What `ipf_nat_matcharray` finds of an entry. -/
def natRes (passes ticks : ℕ) (rest : ℕ → NatRest) (array : List Word) (w : Softn) (e : ℕ) : Res :=
  ipfNatMatcharray passes (w.nat e) (rest e) (idle ticks (rest e).natTouched) array

/-- What is compared in an entry. -/
def natSubj (ticks : ℕ) (rest : ℕ → NatRest) (w : Softn) (e : ℕ) : Subject :=
  natSubject (w.nat e) (rest e) (idle ticks (rest e).natTouched)

/-- The entry satisfies the expression. -/
def NatSel (ts : List Term) (ticks : ℕ) (rest : ℕ → NatRest) (w : Softn) (e : ℕ) : Prop :=
  Satisfies (natSubj ticks rest w e) ts

instance (ts : List Term) (ticks : ℕ) (rest : ℕ → NatRest) (w : Softn) (e : ℕ) :
    Decidable (NatSel ts ticks rest w e) := by
  unfold NatSel
  infer_instance

/-- The switch for the first term. -/
def natFirst (ticks : ℕ) (rest : ℕ → NatRest) (w : Softn) (t : Term) (ts : List Term) (e : ℕ) : Option Bool :=
  firstNat (w.nat e) (rest e) (idle ticks (rest e).natTouched) t ts

theorem natRes_eq (h : Reads t ts array) (passes : ℕ) : natRes passes ticks rest array w e =
    natLoop (w.nat e) (rest e) (idle ticks (rest e).natTouched) array passes array.length 1 0 := by
  unfold natRes ipfNatMatcharray
  rw [h.total]
  exact congrArg (fun n => natLoop (w.nat e) (rest e) (idle ticks (rest e).natTouched) array passes n 1 0) h.total_int

/-- **An entry that satisfies the expression and comes to zero at the first term, or one that does not and comes to one, if
the int behind looks like the end.** -/
def Lucky (ticks : ℕ) (rest : ℕ → NatRest) (w : Softn) (t : Term) (ts : List Term) (e : ℕ) : Prop :=
  (NatSel (t :: ts) ticks rest w e ∧
    (Elsewhere (natSubj ticks rest w e) t.op ∨ natFirst ticks rest w t ts e = some t.not)) ∨
    (¬NatSel (t :: ts) ticks rest w e ∧ ¬Elsewhere (natSubj ticks rest w e) t.op ∧
      natFirst ticks rest w t ts e = some (!t.not) ∧ nextInt t = IPF_EXP_END)

/-- The run for such an entry ends, with the right result. -/
theorem lucky_ret (h : Reads t ts (oplist (t :: ts))) (hl : Lucky ticks rest w t ts e) :
    ∃ passes rv, natRes passes ticks rest (oplist (t :: ts)) w e = .ret rv ∧
      (rv = 0 ↔ NatSel (t :: ts) ticks rest w e) := by
  obtain ⟨hpos, hle⟩ := narg_le t
  have hlen := h.length
  have hfirst := fun i => @natLoop_first t ts (w.nat e) (rest e) (idle ticks (rest e).natTouched) h i
    (oplist (t :: ts)).length (by omega) (by omega)
  rcases hl with ⟨hs, ho | hf⟩ | ⟨hs, ho, hf, hend⟩
  · refine ⟨1, 0, ?_, iff_of_true rfl hs⟩
    rw [natRes_eq h]
    exact (hfirst 0).1 ho
  · refine ⟨1, 0, ?_, iff_of_true rfl hs⟩
    rw [natRes_eq h]
    by_cases ho : Elsewhere (natSubj ticks rest w e) t.op
    · exact (hfirst 0).1 ho
    · exact ((hfirst 0).2 ho).2.1 hf
  · refine ⟨2, 1, ?_, iff_of_false (by decide) hs⟩
    rw [natRes_eq h, ((hfirst 1).2 ho).2.2 hf, natLoop, if_neg (by omega), read_next h, hend]
    exact if_pos rfl

/-- **With one term of one int an argument, it does not end otherwise.** -/
theorem ret_lucky {rv : Word} (hk : t.op.entry.ipoeArgsize = 1) (h : Reads t [] (oplist [t]))
    (hr : natRes passes ticks rest (oplist [t]) w e = .ret rv) (hrv : rv = 0 ↔ NatSel [t] ticks rest w e) :
    Lucky ticks rest w t [] e := by
  obtain ⟨hpos, hle⟩ := narg_le t
  have hwidth : t.items * t.op.width = t.items * t.op.entry.ipoeNbasearg := by
    unfold Keyword.width
    rw [hk, mul_one]
  have hlen := h.length
  rw [flatMap_nil, length_nil] at hlen
  have hfirst := fun i => @natLoop_first t [] (w.nat e) (rest e) (idle ticks (rest e).natTouched) h i
    (oplist [t]).length (by omega) (by omega)
  rw [natRes_eq h] at hr
  cases passes with
  | zero => cases hr
  | succ i =>
    by_cases ho : Elsewhere (natSubj ticks rest w e) t.op
    · have hret := (hfirst i).1 ho
      rw [hr] at hret
      exact .inl ⟨hrv.1 (Res.ret.inj hret), .inl ho⟩
    obtain ⟨hnone, hzero, hgo⟩ := (hfirst i).2 ho
    cases hf : natFirst ticks rest w t [] e with
    | none =>
      rw [hnone hf] at hr
      cases hr
    | some m =>
      by_cases hm : m = t.not
      · have hret := hzero (by rw [← hm]; exact hf)
        rw [hr] at hret
        exact .inl ⟨hrv.1 (Res.ret.inj hret), .inr (by rw [hf, hm])⟩
      -- the next pass begins at the last argument
      have hm' : m = !t.not := by revert hm; cases m <;> cases t.not <;> decide
      rw [hgo (by rw [← hm']; exact hf)] at hr
      cases i with
      | zero => cases hr
      | succ i =>
        rw [natLoop, if_neg (by omega), read_next h] at hr
        dsimp only at hr
        by_cases hend : nextInt t = IPF_EXP_END
        · rw [if_pos hend] at hr
          have hne : rv ≠ 0 := by
            rw [← Res.ret.inj hr]
            decide
          exact .inr ⟨fun hs => hne (hrv.2 hs), ho, by rw [hf, hm'], hend⟩
        · have hread : read (oplist [t]) (1 + (3 + (t.items * t.op.entry.ipoeNbasearg : ℕ)) + 2) = none := by
            rw [Expr.read, if_neg (by omega), getElem?_eq_none]
            omega
          rw [if_neg hend, hread] at hr
          cases hr

/-! ## `ipf_nat_matchflush` -/

theorem natRes_more {i j : ℕ} {rv : Word} (hij : i ≤ j) (h : natRes i ticks rest array w e = .ret rv) :
    natRes j ticks rest array w e = .ret rv := by
  unfold natRes ipfNatMatcharray at h ⊢
  split at h
  · cases h
  · exact natLoop_more hij h

theorem natRes_congr (h : w'.nat e = w.nat e) : natRes passes ticks rest array w' e = natRes passes ticks rest array w e := by
  unfold natRes
  rw [h]

/-- The walk reads where it goes on before it deletes. -/
theorem natNext_eq {b l₂ : List ℕ} (h : Linked w (b ++ e :: l₂) O H) : w.list.next e = l₂.head? :=
  (h.list ()).next

/-- **One entry of the walk is deleted**: the others stay as they are. -/
theorem natDel_next {b l₂ : List ℕ} (h : Linked w (b ++ e :: l₂) O H) :
    ∃ w' O' H', ipfNatDelete w e false = some w' ∧ Linked w' (b ++ l₂) O' H' ∧ ∀ x ∈ l₂, w'.nat x = w.nat x := by
  obtain ⟨w', O', H', hdel, hlinked⟩ := delete_linked h ((h.alloc e).2 (.inl (by simp))) false
  obtain ⟨hout, -⟩ := nodup_cons.1 (nodup_middle.1 h.nodup_list)
  rw [mem_append, not_or] at hout
  rw [erase_append_right _ hout.1, erase_cons_head] at hlinked
  exact ⟨w', O', H', hdel, hlinked, fun x hx => delete_nat_ne hdel fun hxe => hout.2 (hxe ▸ hx)⟩

/-- **The walk deletes the entries for which the result is zero**, and counts them. `b` are the entries that stayed, `l₂`
those to come. -/
theorem natFlushLoop_spec {v : ℕ → Word} :
    ∀ {l₂ : List ℕ} {i : ℕ} {w : Softn} {b O : List ℕ} {H : Bool → ℕ → List ℕ} {k : ℕ},
    Linked w (b ++ l₂) O H → l₂.length ≤ i → (∀ e ∈ l₂, natRes passes ticks rest array w e = .ret (v e)) →
    ∃ w' O' H', natFlushLoop passes ticks rest array i l₂.head? w k = some (w', k + l₂.countP fun e => v e = 0) ∧
      Linked w' (b ++ l₂.filter fun e => v e ≠ 0) O' H' := by
  intro l₂
  induction l₂ with
  | nil =>
    intro i w b O H k h _ _
    refine ⟨w, O, H, ?_, h⟩
    cases i <;> rfl
  | cons e l₂ ih =>
    intro i w b O H k h hlen hres
    rw [length_cons] at hlen
    obtain ⟨i, rfl⟩ : ∃ j, i = j + 1 := ⟨i - 1, by omega⟩
    have hlen' := Nat.le_of_succ_le_succ hlen
    have hhere := hres e mem_cons_self
    have hrest := fun x hx => hres x (mem_cons_of_mem e hx)
    unfold natRes at hhere
    by_cases hv : v e = 0
    · obtain ⟨w₁, O₁, H₁, hdel, hlinked, hsame⟩ := natDel_next h
      obtain ⟨w', O', H', hrun, hlinked'⟩ := ih (k := k + 1) hlinked hlen' fun x hx =>
        (natRes_congr (hsame x hx)).trans (hrest x hx)
      refine ⟨w', O', H', ?_, ?_⟩
      · simp only [head?_cons, natFlushLoop, natNext_eq h, hhere, hv, if_true, hdel, bind_eq_bind,
          bind_some, hrun]
        rw [countP_cons_of_pos (by simpa using hv), add_assoc, add_comm 1]
      · rwa [filter_cons_of_neg (by simpa using hv)]
    · rw [append_cons] at h
      obtain ⟨w', O', H', hrun, hlinked'⟩ := ih (k := k) h hlen' hrest
      rw [← append_cons] at h
      refine ⟨w', O', H', ?_, ?_⟩
      · simp only [head?_cons, natFlushLoop, natNext_eq h, hhere, hv, if_false, hrun]
        rw [countP_cons_of_neg (by simpa using hv)]
      · rw [filter_cons_of_pos (by simpa using hv), append_cons]
        exact hlinked'

/-- **A walk that ends has evaluated every entry to the end.** -/
theorem natFlushLoop_ret :
    ∀ {l₂ : List ℕ} {i : ℕ} {w : Softn} {b O : List ℕ} {H : Bool → ℕ → List ℕ} {k : ℕ}
    {r : Softn × ℕ}, Linked w (b ++ l₂) O H → natFlushLoop passes ticks rest array i l₂.head? w k = some r →
    ∀ e ∈ l₂, ∃ rv, natRes passes ticks rest array w e = .ret rv := by
  intro l₂
  induction l₂ with
  | nil => exact fun _ _ => forall_mem_nil _
  | cons e l₂ ih =>
    intro i w b O H k r h hrun
    cases i with
    | zero => cases hrun
    | succ i =>
      simp only [head?_cons, natFlushLoop, natNext_eq h] at hrun
      rw [← natRes] at hrun
      cases hres : natRes passes ticks rest array w e with
      | outside =>
        rw [hres] at hrun
        cases hrun
      | running =>
        rw [hres] at hrun
        cases hrun
      | ret rv =>
        rw [hres] at hrun
        dsimp only at hrun
        refine forall_mem_cons.2 ⟨⟨rv, hres⟩, ?_⟩
        by_cases hv : rv = 0
        · obtain ⟨w₁, O₁, H₁, hdel, hlinked, hsame⟩ := natDel_next h
          rw [if_pos hv, hdel] at hrun
          intro x hx
          obtain ⟨rv', hx'⟩ := ih hlinked hrun x hx
          exact ⟨rv', (natRes_congr (hsame x hx)).symm.trans hx'⟩
        · rw [if_neg hv] at hrun
          rw [append_cons] at h
          exact ih h hrun

/-- **What is asked of `ipf_nat_matchflush`**, for the table whose list is `A`: it returns the number of entries that satisfy
the expression, and just the others stay. -/
def NatMeets (ts : List Term) (ticks : ℕ) (rest : ℕ → NatRest) (w : Softn) (A : List ℕ) (q : Request) : Prop :=
  ∃ passes w' O' H', ipfNatMatchflush passes ticks rest w (some q) =
      some (w', .ok (A.countP fun e => NatSel ts ticks rest w e)) ∧
    Linked w' (A.filter fun e => ¬NatSel ts ticks rest w e) O' H'

/-- The entries in the list are those allocated that have a place in it. -/
theorem mem_list_iff (h : Linked w A O H) : e ∈ A ↔ w.alloc e = true ∧ w.list.pnext e ≠ none := by
  constructor
  · intro he
    obtain ⟨k, hk⟩ := h.pnext_some he
    exact ⟨(h.alloc e).2 (.inl he), by simp [hk]⟩
  · rintro ⟨ha, hp⟩
    exact ((h.alloc e).1 ha).resolve_right fun ho => hp (h.orphan e ho)

/-- **`ipf_nat_matchflush` does what the expression says if and only if** every entry is evaluated to the end, with the result
zero for those that satisfy it. -/
theorem natMeets_iff (hload : ipfMatcharrayLoad (some q) = some (.ok array)) (h : Linked w A O H) :
    NatMeets ts ticks rest w A q ↔
      ∀ e ∈ A, ∃ passes rv, natRes passes ticks rest array w e = .ret rv ∧ (rv = 0 ↔ NatSel ts ticks rest w e) := by
  have hhead : w.list.head () = A.head? := (h.list ()).head?
  have hact : A.length ≤ w.active.toNat := by
    rw [h.active]
    omega
  have hflush : ∀ passes, ipfNatMatchflush passes ticks rest w (some q) =
      (natFlushLoop passes ticks rest array w.active.toNat A.head? w 0).map fun r => (r.1, .ok r.2) := by
    intro passes
    unfold ipfNatMatchflush
    rw [hload, hhead]
    simp only [bind_eq_bind, bind_some]
    cases natFlushLoop passes ticks rest array w.active.toNat A.head? w 0 <;> rfl
  constructor
  · rintro ⟨passes, w', O', H', hrun, hlinked⟩
    rw [hflush] at hrun
    obtain ⟨⟨w₁, n⟩, hloop, hpair⟩ := map_eq_some_iff.1 hrun
    obtain rfl : w₁ = w' := (Prod.mk.inj hpair).1
    have hret := natFlushLoop_ret (b := []) h hloop
    choose! v hv using hret
    obtain ⟨w₂, O₂, H₂, hrun₂, hlinked₂⟩ := natFlushLoop_spec (b := []) (k := 0) h hact hv
    rw [hloop] at hrun₂
    obtain rfl := (Prod.mk.inj (some.inj hrun₂)).1
    intro e he
    refine ⟨passes, v e, hv e he, ?_⟩
    -- the two lists have the same members
    have hmem := (mem_list_iff hlinked (e := e)).trans (mem_list_iff hlinked₂).symm
    simp only [nil_append, mem_filter, he, true_and, decide_eq_true_eq] at hmem
    exact not_iff_not.1 hmem.symm
  · intro hall
    obtain ⟨passes, hres⟩ := passes_all (p := fun i e => ∃ rv, natRes i ticks rest array w e = .ret rv ∧
        (rv = 0 ↔ NatSel ts ticks rest w e))
      (fun i j x hij ⟨rv, hx, hs⟩ => ⟨rv, natRes_more hij hx, hs⟩) A hall
    choose! v hv using hres
    obtain ⟨w', O', H', hrun, hlinked⟩ := natFlushLoop_spec (b := []) (k := 0) h hact fun e he => (hv e he).1
    have hcount : A.countP (fun e => NatSel ts ticks rest w e) = A.countP fun e => v e = 0 :=
      countP_congr fun e he => by simpa using (hv e he).2.symm
    have hfilter : A.filter (fun e => ¬NatSel ts ticks rest w e) = A.filter fun e => v e ≠ 0 :=
      filter_congr fun e he => by simpa using (hv e he).2.symm
    refine ⟨passes, w', O', H', ?_, ?_⟩
    · rw [hflush, hrun, hcount, zero_add]
      rfl
    · rw [hfilter]
      exact hlinked

end Nat

/-! ## The whole -/

/-- What is compared in an entry of the state table. -/
def stateSubj (ticks : ℕ) (w : Softs) (e : ℕ) : Subject := stateSubject (w.is e) (idle ticks (w.tq.tqeTouched e))

/-- **When flushing by an expression does what it says.** Every entry of the state table has to satisfy the expression and to be
evaluated to the end, which those of another protocol than the first term are. In the NAT table, every entry has to be evaluated
to the end, to zero if it satisfies the expression and to something else if not, which `Lucky` ones are. With a single term no
other entries are, IPv6 addresses in the NAT table apart. -/
theorem matchflush_meets {lib : Lib} {mem : ℕ → ℕ → Word} {line : List Char}
    (hp : parseipfexpr lib mem line = .ok array) (hload : ipfMatcharrayLoad (some q) = some (.ok array)) :
    ∃ t ts, parseTerms lib mem line = .ok (t :: ts) ∧ array = oplist (t :: ts) ∧
      (∀ w A H dead ticks, Good dead w A H → Queued w →
        (StateMeets (t :: ts) ticks w A dead q ↔
          ∀ e ∈ A, StateSel (t :: ts) ticks w e ∧ ∃ passes, stateRes passes ticks array w e = .ret 0) ∧
        ((∀ e ∈ A, StateSel (t :: ts) ticks w e ∧ Elsewhere (stateSubj ticks w e) t.op) →
          StateMeets (t :: ts) ticks w A dead q) ∧
        (ts = [] → StateMeets (t :: ts) ticks w A dead q → ∀ e ∈ A, Elsewhere (stateSubj ticks w e) t.op)) ∧
      ∀ w A O H ticks rest, Linked w A O H →
        (NatMeets (t :: ts) ticks rest w A q ↔ ∀ e ∈ A, ∃ passes rv, natRes passes ticks rest array w e = .ret rv ∧
          (rv = 0 ↔ NatSel (t :: ts) ticks rest w e)) ∧
        ((∀ e ∈ A, Lucky ticks rest w t ts e) → NatMeets (t :: ts) ticks rest w A q) ∧
        (ts = [] → t.op.entry.ipoeArgsize = 1 → NatMeets (t :: ts) ticks rest w A q →
          ∀ e ∈ A, Lucky ticks rest w t ts e) := by
  unfold parseipfexpr at hp
  cases hts : parseTerms lib mem line with
  | error e => simp [hts, bind, Except.bind] at hp
  | ok ts =>
    simp only [hts, bind, Except.bind] at hp
    split at hp
    · cases hp
    rename_i hne
    obtain ⟨t, ts, rfl⟩ := exists_cons_of_ne_nil hne
    obtain rfl : oplist (t :: ts) = array := Except.ok.inj hp
    have hreads := oplist_reads (load_le hne hload)
    refine ⟨t, ts, rfl, rfl, fun w A H dead ticks h hq => ?_, fun w A O H ticks rest h => ?_⟩
    · have hiff : StateMeets (t :: ts) ticks w A dead q ↔ _ := stateMeets_iff hload h hq
      refine ⟨hiff, fun hall => hiff.2 fun e he => ?_, fun hnil hm e he => ?_⟩
      · obtain ⟨hs, ho⟩ := hall e he
        exact ⟨hs, 1, state_elsewhere hreads ho⟩
      · obtain ⟨hs, passes, hr⟩ := hiff.1 hm e he
        subst hnil
        exact state_ret_elsewhere hreads (hs t mem_cons_self) hr
    · have hiff : NatMeets (t :: ts) ticks rest w A q ↔ _ := natMeets_iff hload h
      refine ⟨hiff, fun hall => hiff.2 fun e he => lucky_ret hreads (hall e he), fun hnil hk hm e he => ?_⟩
      obtain ⟨passes, rv, hr, hrv⟩ := hiff.1 hm e he
      subst hnil
      exact ret_lucky hk hreads hr hrv

/-- A state table with one entry. -/
def oneState : Softs := (step (fun _ => 0) eightBuckets oneEntry).getD eightBuckets

/-- The list of a table with one entry is in order. -/
theorem oneState_good : ∃ dead A H, Good dead oneState A H ∧ Queued oneState ∧ ∀ e, e ∈ A ↔ e = 0 := by
  have hrun : Run Clean (fun _ => 0) eightBuckets _ oneState := Run.step oneEntry .init rfl trivial rfl
  obtain ⟨A, H, hgood, hq⟩ := run_good (by decide) hrun
  refine ⟨_, A, H, hgood, hq, fun e => ?_⟩
  rw [← hgood.alloc e]
  exact ⟨fun he => eq_of_alloc he, fun he => by rw [he]; rfl⟩

/-- A request for an array as it is. -/
def request (array : List Word) : Request := ⟨ofNat 32 array.length, IPFOBJ_IPFEXPR, array, false⟩

/-- The NAT table with one entry is in order. -/
theorem withExpected_linked : ∃ A H, Linked withExpected A [] H ∧ ∀ e, e ∈ A ↔ e = 0 := by
  obtain ⟨A, H, h⟩ := add_acct bigEndian (@init_acct 8 (by decide) 100 10) rfl expected none fun _ => none
  refine ⟨A, H, h.toLinked, fun e => ?_⟩
  have halloc := (h.alloc e).symm
  rw [or_iff_left not_mem_nil] at halloc
  rw [halloc]
  exact ⟨fun he => State.eq_of_alloc he, fun he => by rw [he]; rfl⟩

/-- Entries that are in state 1 of TCP. -/
def inState : NatRest := ⟨fun _ => 0, fun _ => 0, fun _ => 0, fun _ => 0, fun _ => 1, 0⟩

/-- The term of `tcp.state!=0,0;`. -/
def stateTerm : Term := ⟨.tcpState, true, 2, [0, 0], by decide, rfl⟩

/-- The term of `ip.p=1,2;`. -/
def protoTerm : Term := ⟨.ipP, false, 2, [1, 2], by decide, rfl⟩

theorem stateTerm_holds (h : s.p ≠ 6 ∨ 0 ∉ s.states) : Holds s stateTerm := by
  have hmiss : ¬Hit s stateTerm := by
    rintro ⟨hp, i, hi, hc⟩
    have hitem : stateTerm.item i 0 = 0 := by
      match i, hi with
      | 0, _ => rfl
      | 1, _ => rfl
    obtain ⟨x, hx, hx0⟩ := any_eq_true.1 hc
    rw [hitem] at hx0
    rcases h with hne | hne
    · exact hne (hp 6 rfl)
    · exact hne (eq_of_beq hx0 ▸ hx)
  exact iff_of_false hmiss Bool.true_eq_false.mp

/-- All of the 32 ints can be read, and the verifier refuses them. -/
theorem load_bytes_proto :
    ipfMatcharrayLoad (some ⟨32, IPFOBJ_IPFEXPR, oplist [protoTerm] ++ replicate 24 0, false⟩) ≠
      some (.ok (oplist [protoTerm] ++ replicate 24 0)) :=
  @load_bytes [protoTerm] _ _ (by decide) (by decide) (by decide)

theorem protoTerm_not_holds (h1 : s.p ≠ 1) (h2 : s.p ≠ 2) : ¬Satisfies s [protoTerm] := by
  intro hs
  obtain ⟨-, i, hi, hc⟩ := (hs protoTerm mem_cons_self).2 rfl
  match i, hi with
  | 0, _ => exact h1 (eq_of_beq hc)
  | 1, _ => exact h2 (eq_of_beq hc)

/-- No protocol is that of `tcp.state`. -/
theorem stateTerm_elsewhere (h : s.p = 0 ∨ s.p = 6) : Elsewhere s stateTerm.op := by
  unfold Elsewhere
  rcases h with h | h <;> rw [h] <;> decide

/-- The text `tcp.state!=0,0;` is for no protocol, and its term holds for both entries. -/
theorem matchflush_meets_states : ∃ array A H dead B,
    parseipfexpr numeric (fun _ _ => 0) ['t', 'c', 'p', '.', 's', 't', 'a', 't', 'e', '!', '=', '0', ',', '0', ';'] =
      .ok array ∧
      parseTerms numeric (fun _ _ => 0) ['t', 'c', 'p', '.', 's', 't', 'a', 't', 'e', '!', '=', '0', ',', '0', ';'] =
        .ok [stateTerm] ∧
      Good dead oneState A H ∧ 0 ∈ A ∧ StateMeets [stateTerm] 0 oneState A dead (request array) ∧
      0 ∈ B ∧ NatMeets [stateTerm] 0 (fun _ => inState) withExpected B (request array) := by
  have hp : parseipfexpr numeric (fun _ _ => 0) ['t', 'c', 'p', '.', 's', 't', 'a', 't', 'e', '!', '=', '0', ',', '0', ';'] =
      .ok [8, IPF_EXP_TCP_STATE, 1, 2, 6, 0, 0, IPF_EXP_END] := rfl
  have hterm : parseTerms numeric (fun _ _ => 0) ['t', 'c', 'p', '.', 's', 't', 'a', 't', 'e', '!', '=', '0', ',', '0', ';'] =
      .ok [stateTerm] := rfl
  obtain ⟨dead, A, H, hgood, hq, hA⟩ := oneState_good
  obtain ⟨B, H', hlinked, hB⟩ := withExpected_linked
  obtain ⟨t, ts, hts, -, hstate, hnat⟩ :=
    matchflush_meets (q := request [8, IPF_EXP_TCP_STATE, 1, 2, 6, 0, 0, IPF_EXP_END]) hp rfl
  obtain ⟨rfl, rfl⟩ : stateTerm = t ∧ [] = ts := by simpa using hterm.symm.trans hts
  refine ⟨_, A, H, dead, B, hp, hterm, hgood, (hA 0).2 rfl, (hstate _ _ _ _ 0 hgood hq).2.1 fun e he => ?_, (hB 0).2 rfl,
    (hnat _ _ _ _ 0 _ hlinked).2.1 fun e he => .inl ?_⟩
  · obtain rfl := (hA e).1 he
    have hpr : (stateSubj 0 oneState 0).p = 0 := rfl
    refine ⟨fun t' ht' => ?_, stateTerm_elsewhere (.inl hpr)⟩
    rw [List.mem_singleton.1 ht']
    exact stateTerm_holds (.inl (by decide))
  · obtain rfl := (hB e).1 he
    have hpr : (natSubj 0 (fun _ => inState) withExpected 0).p = 6 := rfl
    refine ⟨fun t' ht' => ?_, .inl (stateTerm_elsewhere (.inr hpr))⟩
    rw [List.mem_singleton.1 ht']
    exact stateTerm_holds (.inr (by change 0 ∉ [1#32, 1#32]; decide))

/-- **The flush deletes what does not satisfy the expression, or reads behind the array.** The entry of the state table is for
neither protocol of `ip.p=1,2;`, and is deleted. The entry of the NAT table is for TCP, which is the size of the term. -/
theorem matchflush_not_meets : ∃ dead A H B H',
    parseipfexpr numeric (fun _ _ => 0) ['i', 'p', '.', 'p', '=', '1', ',', '2', ';'] =
      .ok [8, 1, 0, 2, 6, 1, 2, IPF_EXP_END] ∧
      parseTerms numeric (fun _ _ => 0) ['i', 'p', '.', 'p', '=', '1', ',', '2', ';'] = .ok [protoTerm] ∧
      ipfMatcharrayLoad (some (request [8, 1, 0, 2, 6, 1, 2, IPF_EXP_END])) = some (.ok [8, 1, 0, 2, 6, 1, 2, IPF_EXP_END]) ∧
      Good dead oneState A H ∧ Queued oneState ∧
      ¬StateMeets [protoTerm] 0 oneState A dead (request [8, 1, 0, 2, 6, 1, 2, IPF_EXP_END]) ∧
      Linked withExpected B [] H' ∧
      ¬NatMeets [protoTerm] 0 (fun _ => inState) withExpected B (request [8, 1, 0, 2, 6, 1, 2, IPF_EXP_END]) := by
  obtain ⟨dead, A, H, hgood, hq, hA⟩ := oneState_good
  obtain ⟨B, H', hlinked, hB⟩ := withExpected_linked
  have hload : ipfMatcharrayLoad (some (request [8, 1, 0, 2, 6, 1, 2, IPF_EXP_END])) =
      some (.ok [8, 1, 0, 2, 6, 1, 2, IPF_EXP_END]) := rfl
  refine ⟨dead, A, H, B, H', rfl, rfl, hload, hgood, hq, fun hm => ?_, hlinked, fun hm => ?_⟩
  · have hpr : (stateSubj 0 oneState 0).p = 0 := rfl
    have hsel := ((stateMeets_iff hload hgood hq).1 hm 0 ((hA 0).2 rfl)).1
    exact protoTerm_not_holds (s := stateSubj 0 oneState 0) (by rw [hpr]; decide) (by rw [hpr]; decide) hsel
  · have hpr : (natSubj 0 (fun _ => inState) withExpected 0).p = 6 := rfl
    obtain ⟨passes, rv, hr, hrv⟩ := (natMeets_iff hload hlinked).1 hm 0 ((hB 0).2 rfl)
    have hreads : Reads protoTerm [] (oplist [protoTerm]) := oplist_reads (by decide)
    obtain ⟨hs, -⟩ | ⟨-, -, -, hend⟩ := ret_lucky rfl hreads hr hrv
    · exact protoTerm_not_holds (by rw [hpr]; decide) (by rw [hpr]; decide) hs
    · exact absurd hend (by decide)

end Ipfilter.Matchflush
