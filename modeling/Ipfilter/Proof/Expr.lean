import Ipfilter.Spec.Expr

/-!
# What match expressions do

* `Term.Holds`: what a term of an expression says about a packet.
* `oplist_verify`: the array for any terms passes `ipf_matcharray_verify`, up to 1024 ints.
* `matchLoop_ret`: `ipf_fr_matcharray` returns nothing but zero.
* `firstPass`: what it does with the first term.
* `parseipfexpr_meets`: when the three functions together do what the expression says.
-/

namespace Ipfilter.Expr

open List
open Option (bind_eq_bind bind_some getD_some)
open BitVec (ofNat)

variable {fin : FrInfo} {k : Keyword} {t : Term} {ts : List Term} {b : Word → Word}

/-! ## What an expression says -/

/-- The protocol of the packets a keyword is about. -/
def Keyword.proto : Keyword → Option (BitVec 8)
  | .tcpPort | .tcpDport | .tcpSport | .tcpFlags => some 6
  | .udpPort | .udpDport | .udpSport => some 17
  | _ => none

/-- The IP version of the packets a keyword is about. -/
def Keyword.version : Keyword → Option (BitVec 4)
  | .ipAddr | .ipSrc | .ipDst => some 4
  | .ip6Addr | .ip6Src | .ip6Dst => some 6
  | _ => none

/-- `tcp.state` and `idle-gt` are not about packets. -/
def Keyword.isMeta : Keyword → Bool
  | .tcpState | .idleGt => true
  | _ => false

/-- Comparing a packet with the ints of one item. Ports are stored in network byte order, so that
`b` has to be `htons` for this to be what the item says. -/
def Keyword.cmp (b : Word → Word) (fin : FrInfo) (v : ℕ → Word) : Keyword → Bool
  | .ipP => fin.finP.setWidth 32 == v 0
  | .ipSrc => fin.finSaddr &&& v 1 == v 0
  | .ipDst => fin.finDaddr &&& v 1 == v 0
  | .ipAddr => fin.finSaddr &&& v 1 == v 0 || fin.finDaddr &&& v 1 == v 0
  | .ip6Src => decide (∀ j : Fin 4, fin.finSrc j &&& v (4 + j) = v j)
  | .ip6Dst => decide (∀ j : Fin 4, fin.finDst j &&& v (4 + j) = v j)
  | .ip6Addr => decide (∀ j : Fin 4, fin.finSrc j &&& v (4 + j) = v j) ||
      decide (∀ j : Fin 4, fin.finDst j &&& v (4 + j) = v j)
  | .tcpPort | .udpPort => b fin.finSport == v 0 || b fin.finDport == v 0
  | .tcpSport | .udpSport => b fin.finSport == v 0
  | .tcpDport | .udpDport => b fin.finDport == v 0
  | .tcpFlags => fin.finTcpf.setWidth 32 &&& v 1 == v 0
  | .tcpState | .idleGt => false

/-- The packet is not of the protocol of the keyword. -/
def Keyword.Other (fin : FrInfo) (k : Keyword) : Prop := k.isMeta = true ∨ ∃ p ∈ k.proto, fin.finP ≠ p

/-- The packet is of the IP version of the keyword. -/
def Keyword.Version (fin : FrInfo) (k : Keyword) : Prop := ∀ v ∈ k.version, fin.finV = v

/-- The ints of an item. -/
def Term.item (t : Term) (i j : ℕ) : Word := t.args.getD (i * t.op.width + j) 0

/-- The packet is one the keyword is about, and some item matches it. -/
def Term.Matches (b : Word → Word) (fin : FrInfo) (t : Term) : Prop :=
  ¬ t.op.Other fin ∧ t.op.Version fin ∧ ∃ i < t.items, t.op.cmp b fin (t.item i) = true

/-- **A term holds when some item matches, inverted for `!=`.** -/
def Term.Holds (b : Word → Word) (fin : FrInfo) (t : Term) : Prop := t.Matches b fin ↔ t.not = false

/-! ## Verifying -/

@[simp] theorem length_ints (t : Term) : t.ints.length = t.items * t.op.width + 4 := by
  simp only [Term.ints, length_append, length_cons, length_nil, t.length_args]
  omega

theorem length_oplist (ts : List Term) : (oplist ts).length = (ts.flatMap Term.ints).length + 2 := by
  simp [oplist]

/-- Small numbers survive being stored in an int. -/
theorem toInt_ofNat {n : ℕ} (h : n ≤ 1024) : (ofNat 32 n).toInt = n := by
  rw [BitVec.toInt_ofNat', Int.bmod_def]
  omega

/-- The loop of `ipf_matcharray_verify` steps from term to term. -/
theorem verifyLoop_spec {array : List Word} : ∀ (ts : List Term) (pre : List Word) (n : ℕ),
    array = pre ++ ts.flatMap Term.ints ++ [IPF_EXP_END] → array.length ≤ 1024 → ts.length < n →
    verifyLoop array (array.length - 1) n pre.length = some 0
  | _, _, 0, _, _, hn => by omega
  | [], pre, n + 1, e, _, _ => by
    have hl : array.length = pre.length + 1 := by simp [e]
    rw [verifyLoop, if_neg (by omega)]
  | t :: ts, pre, n + 1, e, hlen, hn => by
    have hl : array.length = pre.length + (t.items * t.op.width + 4) + (ts.flatMap Term.ints).length + 1 := by
      rw [e]
      simp only [length_append, flatMap_cons, length_ints, length_singleton]
      omega
    have hsize : array[pre.length + 3]? = some (ofNat 32 (t.items * t.op.width + 4)) := by
      rw [e, append_assoc, getElem?_append_right (by omega)]
      simp [Term.ints]
    have hint : (ofNat 32 (t.items * t.op.width + 4)).toInt = ((t.items * t.op.width + 4 : ℕ) : ℤ) :=
      toInt_ofNat (by omega)
    have hok : ¬ (((t.items * t.op.width + 4 : ℕ) : ℤ) < 1 ∨
        ((t.items * t.op.width + 4 : ℕ) : ℤ) + (pre.length : ℤ) > ((array.length - 1 : ℕ) : ℤ)) := by omega
    have ih := verifyLoop_spec ts (pre ++ t.ints) n (by rw [e]; simp) hlen (by simpa using hn)
    rw [length_append, length_ints] at ih
    rw [verifyLoop, if_pos (by omega)]
    simp only [hsize, bind_eq_bind, bind_some, hint, Int.toNat_natCast]
    rw [if_neg hok]
    exact ih

theorem length_le_ints (ts : List Term) : ts.length ≤ (ts.flatMap Term.ints).length := by
  induction ts with
  | nil => simp
  | cons t ts ih =>
    rw [flatMap_cons, length_append, length_ints, length_cons]
    omega

/-- **The array for any terms passes `ipf_matcharray_verify` if and only if it is not too long.** -/
theorem oplist_verify (hne : ts ≠ []) :
    ipfMatcharrayVerify (oplist ts) (4 * (oplist ts).length) = some 0 ↔ (oplist ts).length ≤ 1024 := by
  have hl := length_oplist ts
  obtain ⟨t, ts', rfl⟩ := exists_cons_of_ne_nil hne
  have h4 : 4 ≤ ((t :: ts').flatMap Term.ints).length := by
    rw [flatMap_cons, length_append, length_ints]
    omega
  have h0 : (oplist (t :: ts'))[0]? = some (ofNat 32 (oplist (t :: ts')).length) := by
    rw [hl]
    rfl
  constructor
  · intro hv
    by_contra hbig
    simp only [ipfMatcharrayVerify, h0, bind_eq_bind, bind_some] at hv
    rw [if_pos (by omega)] at hv
    cases hv
  · intro hlen
    have hint := toInt_ofNat hlen
    have hlast : (oplist (t :: ts'))[4 * (oplist (t :: ts')).length / 4 - 1]? = some IPF_EXP_END := by
      have : 4 * (oplist (t :: ts')).length / 4 - 1 = ((t :: ts').flatMap Term.ints).length + 1 := by omega
      rw [this]
      simp [oplist]
    simp only [ipfMatcharrayVerify, h0, bind_eq_bind, bind_some, hint, hlast]
    rw [if_neg (by omega), if_neg (by omega), if_neg (by simp)]
    have := verifyLoop_spec (t :: ts') [ofNat 32 (((t :: ts').flatMap Term.ints).length + 2)]
      (4 * (oplist (t :: ts')).length / 4) rfl hlen ?_
    · rw [show 4 * (oplist (t :: ts')).length / 4 - 1 = (oplist (t :: ts')).length - 1 by omega]
      exact this
    · have := length_le_ints (t :: ts')
      omega

/-! ## Running -/

/-- **`ipf_fr_matcharray` returns nothing but zero**: `rv` is cleared before the end is looked at. -/
theorem matchLoop_ret {array : List Word} {rv : Word} : ∀ (i : ℕ) {n x : ℤ},
    matchLoop fin array i n x 0 = .ret rv → rv = 0
  | 0, _, _, h => by simp [matchLoop] at h
  | i + 1, n, x, h => by
    rw [matchLoop] at h
    dsimp only at h
    split at h
    · exact (Res.ret.inj h).symm
    split at h
    · cases h
    split at h
    · exact (Res.ret.inj h).symm
    split at h
    · split at h
      · exact (Res.ret.inj h).symm
      split at h
      · cases h
      split at h
      · rename_i hz
        rw [← Res.ret.inj h]
        exact hz
      · exact matchLoop_ret i h
    · cases h

/-- What one pass of the loop over the items compares. -/
def Keyword.test (fin : FrInfo) (arg : ℕ → Option Word) : Keyword → ℕ → Option Bool
  | .ipP => fun i => do return fin.finP.setWidth 32 == (← arg i)
  | .ipSrc => maskEq fin.finSaddr arg
  | .ipDst => maskEq fin.finDaddr arg
  | .ipAddr => fun i => do return (← maskEq fin.finSaddr arg i) || (← maskEq fin.finDaddr arg i)
  | .ip6Src => ip6MaskEq fin.finSrc arg
  | .ip6Dst => ip6MaskEq fin.finDst arg
  | .ip6Addr => fun i => do return (← ip6MaskEq fin.finSrc arg i) || (← ip6MaskEq fin.finDst arg i)
  | .tcpPort | .udpPort => fun i => do return fin.finSport == (← arg i) || fin.finDport == (← arg i)
  | .tcpSport | .udpSport => fun i => do return fin.finSport == (← arg i)
  | .tcpDport | .udpDport => fun i => do return fin.finDport == (← arg i)
  | .tcpFlags => maskEq (fin.finTcpf.setWidth 32) arg
  | .tcpState | .idleGt => fun _ => some false

/-- The switch goes to the loop of its keyword. -/
theorem evalCmd_eq (hm : k.isMeta = false) (narg : ℕ) (arg : ℕ → Option Word) : evalCmd fin k.entry.ipoeCmd narg arg =
      if k.version.all (fin.finV == ·) then itemLoop (k.test fin arg) narg 0 else some false := by
  cases k with
  | tcpState => cases hm
  | idleGt => cases hm
  | _ =>
    simp [evalCmd, Keyword.entry, Keyword.version, Keyword.test, IPF_EXP_IP_PR,
    IPF_EXP_IP_ADDR, IPF_EXP_IP_SRCADDR, IPF_EXP_IP_DSTADDR, IPF_EXP_IP6_ADDR, IPF_EXP_IP6_SRCADDR,
    IPF_EXP_IP6_DSTADDR, IPF_EXP_TCP_FLAGS, IPF_EXP_TCP_PORT, IPF_EXP_TCP_SPORT, IPF_EXP_TCP_DPORT,
    IPF_EXP_UDP_PORT, IPF_EXP_UDP_SPORT, IPF_EXP_UDP_DPORT]

/-- The upper half of a command is the protocol it is for. -/
theorem cmd_upper (hm : k.isMeta = false) : k.entry.ipoeCmd.sshiftRight 16 = (k.proto.getD 0).setWidth 32 := by
  cases k <;> first | rfl | cases hm

/-- The protocol check on the command. -/
theorem other_iff : (k.entry.ipoeCmd.sshiftRight 16 ≠ 0 ∧ k.entry.ipoeCmd.sshiftRight 16 ≠ fin.finP.setWidth 32) ↔
    k.Other fin := by
  unfold Keyword.Other
  cases hm : k.isMeta with
  | true =>
    -- no protocol has a number this large
    refine ⟨fun _ => .inl rfl, fun _ => ?_⟩
    have hbig : k.entry.ipoeCmd.sshiftRight 16 = 0x106#32 ∨ k.entry.ipoeCmd.sshiftRight 16 = 0x100#32 := by
      cases k <;> first | decide | cases hm
    rcases hbig with h | h <;> rw [h] <;> exact ⟨by decide, by bv_omega⟩
  | false =>
    rw [cmd_upper hm]
    cases hp : k.proto with
    | none => simp
    | some p =>
      have h0 : p ≠ 0 := by
        rintro rfl
        revert hp
        cases k <;> decide
      simp only [getD_some, Option.mem_some_iff, exists_eq_left', Bool.false_eq_true, false_or]
      constructor
      · rintro ⟨-, h⟩ e
        exact h (by rw [e])
      · intro h
        exact ⟨by bv_omega, by bv_omega⟩

/-! ## The loops over the items -/

variable {test : ℕ → Option Bool} {arg : ℕ → Option Word}

theorem itemLoop_false : ∀ (n i : ℕ), (∀ j, i ≤ j → j < i + n → test j = some false) →
    itemLoop test n i = some false
  | 0, _, _ => rfl
  | n + 1, i, h => by
    rw [itemLoop]
    simp only [h i (le_refl i) (by omega), bind_eq_bind, bind_some, Bool.false_eq_true, if_false]
    exact itemLoop_false n (i + 1) (fun j h1 h2 => h j (by omega) (by omega))

theorem itemLoop_true {g : ℕ → Bool} : ∀ (n i : ℕ),
    (∀ j, i ≤ j → j < i + n → test j = some (g j)) → (∃ j, i ≤ j ∧ j < i + n ∧ g j = true) →
    itemLoop test n i = some true
  | 0, i, _, he => by
    obtain ⟨j, h1, h2, -⟩ := he
    omega
  | n + 1, i, h, he => by
    rw [itemLoop]
    simp only [h i (le_refl i) (by omega), bind_eq_bind, bind_some]
    by_cases hg : g i = true
    · rw [if_pos hg]
      rfl
    · rw [if_neg hg]
      obtain ⟨j, h1, h2, h3⟩ := he
      have : j ≠ i := fun e => hg (e ▸ h3)
      exact itemLoop_true n (i + 1) (fun j h1 h2 => h j (by omega) (by omega)) ⟨j, by omega, by omega, h3⟩

/-- A loop that is longer than there are items goes on behind them if none matches. -/
theorem itemLoop_add : ∀ (n m i : ℕ), itemLoop test n i = some false →
    itemLoop test (n + m) i = itemLoop test m (i + n)
  | 0, m, i, _ => by simp
  | n + 1, m, i, h => by
    rw [show n + 1 + m = (n + m) + 1 by omega]
    rw [itemLoop] at h ⊢
    cases ht : test i with
    | none => simp [ht] at h
    | some v =>
      cases v with
      | true => simp [ht] at h
      | false =>
        simp only [ht, bind_eq_bind, bind_some, Bool.false_eq_true, if_false] at h ⊢
        rw [itemLoop_add n m (i + 1) h]
        congr 1
        omega

/-- If some item matches, then it stops there. -/
theorem itemLoop_le : ∀ (n m i : ℕ), itemLoop test n i = some true → itemLoop test (n + m) i = some true
  | 0, _, _, h => by simp [itemLoop] at h
  | n + 1, m, i, h => by
    rw [show n + 1 + m = (n + m) + 1 by omega]
    rw [itemLoop] at h ⊢
    cases ht : test i with
    | none => simp [ht] at h
    | some v =>
      cases v with
      | true => simp
      | false =>
        simp only [ht, bind_eq_bind, bind_some, Bool.false_eq_true, if_false] at h ⊢
        exact itemLoop_le n m (i + 1) h

theorem ip6MaskEq_some (a : Fin 4 → Word) {i : ℕ} {v : ℕ → Word} (h : ∀ j < 8, arg (i * 8 + j) = some (v j)) :
    ip6MaskEq a arg i = some (decide (∀ j : Fin 4, a j &&& v (4 + j) = v j)) := by
  have h0 : arg (i * 8) = some (v 0) := h 0 (by omega)
  have hall : (∀ j : Fin 4, a j &&& v (4 + j) = v j) ↔
      a 0 &&& v 4 = v 0 ∧ a 1 &&& v 5 = v 1 ∧ a 2 &&& v 6 = v 2 ∧ a 3 &&& v 7 = v 3 := by
    constructor
    · intro hj
      exact ⟨hj 0, hj 1, hj 2, hj 3⟩
    · rintro ⟨g0, g1, g2, g3⟩ j
      match j with
      | 0 => exact g0
      | 1 => exact g1
      | 2 => exact g2
      | 3 => exact g3
  simp only [ip6MaskEq, h0, h 1 (by omega), h 2 (by omega), h 3 (by omega), h 4 (by omega), h 5 (by omega),
    h 6 (by omega), h 7 (by omega), bind_eq_bind, bind_some, hall]
  by_cases g0 : a 0 &&& v 4 = v 0 <;> by_cases g1 : a 1 &&& v 5 = v 1 <;>
    by_cases g2 : a 2 &&& v 6 = v 2 <;> simp [g0, g1, g2]
  by_cases g3 : a 3 &&& v 7 = v 3 <;> simp [g3]

/-- One pass over an item that is there compares it. -/
theorem test_some (k : Keyword) {i : ℕ} {v : ℕ → Word}
    (h : ∀ j < k.width, arg (i * k.width + j) = some (v j)) : k.test fin arg i = some (k.cmp id fin v) := by
  cases k <;> simp only [Keyword.width, Keyword.entry] at h
  case ipP | tcpPort | tcpDport | tcpSport | udpPort | udpDport | udpSport =>
    have h0 : arg i = some (v 0) := by simpa using h 0 (by omega)
    simp [Keyword.test, Keyword.cmp, h0]
  case ipAddr | ipSrc | ipDst | tcpFlags =>
    have h0 : arg (i * 2) = some (v 0) := by simpa using h 0 (by omega)
    have h1 : arg (i * 2 + 1) = some (v 1) := by simpa using h 1 (by omega)
    simp [Keyword.test, Keyword.cmp, maskEq, h0, h1]
  case ip6Addr | ip6Src | ip6Dst =>
    simp only [Keyword.test, ip6MaskEq_some _ h, Keyword.cmp, bind_eq_bind, bind_some, Option.pure_def]
  case tcpState | idleGt => rfl

/-- One pass over an item of several ints of which only the first is there reads behind the array. -/
theorem test_none (k : Keyword) (hw : k.entry.ipoeNbasearg = 2) {i : ℕ}
    (h : ∀ j, 0 < j → arg (i * k.width + j) = none) : k.test fin arg i = none := by
  cases k <;> simp only [Keyword.width, Keyword.entry] at h
  case ipAddr | ipSrc | ipDst | tcpFlags =>
    have h1 : arg (i * 2 + 1) = none := by simpa using h 1 (by omega)
    simp [Keyword.test, maskEq, h1]
  case ip6Addr | ip6Src | ip6Dst =>
    have h4 : arg (i * 8 + 4) = none := by simpa using h 4 (by omega)
    simp [Keyword.test, ip6MaskEq, h4]
  all_goals cases hw

/-! ## The first term -/

/-- The ints behind the header of the first term. -/
def behind (t : Term) (ts : List Term) : List Word := t.args ++ (ts.flatMap Term.ints ++ [IPF_EXP_END])

theorem oplist_cons (t : Term) (ts : List Term) : oplist (t :: ts) =
    ofNat 32 (oplist (t :: ts)).length :: t.op.entry.ipoeCmd :: (if t.not then 1 else 0) ::
      ofNat 32 (t.items * t.op.entry.ipoeNbasearg) :: ofNat 32 (t.items * t.op.width + 4) :: behind t ts := by
  rw [length_oplist]
  simp [oplist, Term.ints, behind]

theorem behind_item (ts : List Term) {i j : ℕ} (hi : i < t.items) (hj : j < t.op.width) :
    (behind t ts)[i * t.op.width + j]? = some (t.item i j) := by
  have hlt : i * t.op.width + j < t.args.length := by
    rw [t.length_args]
    calc i * t.op.width + j < i * t.op.width + t.op.width := by omega
      _ = (i + 1) * t.op.width := by rw [add_mul, one_mul]
      _ ≤ t.items * t.op.width := Nat.mul_le_mul_right _ hi
  rw [behind, getElem?_append_left hlt, Term.item, getD_eq_getElem?_getD,
    getElem?_eq_getElem hlt, getD_some]

/-- The switch for the first term. -/
def firstEval (fin : FrInfo) (t : Term) (ts : List Term) : Option Bool :=
  evalCmd fin t.op.entry.ipoeCmd (t.items * t.op.entry.ipoeNbasearg) (fun j => (behind t ts)[j]?)

theorem version_iff : k.version.all (fin.finV == ·) = true ↔ k.Version fin := by
  unfold Keyword.Version
  cases k.version <;> simp

theorem firstEval_eq (ts : List Term) (ho : ¬ t.op.Other fin) (hv : t.op.Version fin) : firstEval fin t ts =
    itemLoop (t.op.test fin (fun j => (behind t ts)[j]?)) (t.items * t.op.entry.ipoeNbasearg) 0 := by
  have hmeta : t.op.isMeta = false := by
    cases h : t.op.isMeta
    · rfl
    · exact absurd (.inl h) ho
  rw [firstEval, evalCmd_eq hmeta, if_pos (version_iff.2 hv)]

theorem firstTest (fin : FrInfo) (ts : List Term) {j : ℕ} (hj : j < t.items) :
    t.op.test fin (fun j => (behind t ts)[j]?) j = some (t.op.cmp id fin (t.item j)) :=
  test_some t.op (fun _ hl => behind_item ts hj hl)

theorem nbasearg_cases (k : Keyword) : k.entry.ipoeNbasearg = 1 ∨ k.entry.ipoeNbasearg = 2 := by
  cases k <;> decide

/-- If some item matches, that is what the switch comes to. -/
theorem firstEval_true (ts : List Term) (hm : t.Matches id fin) : firstEval fin t ts = some true := by
  obtain ⟨ho, hv, i, hi, hc⟩ := hm
  rw [firstEval_eq ts ho hv]
  have hloop : itemLoop (t.op.test fin (fun j => (behind t ts)[j]?)) t.items 0 = some true :=
    itemLoop_true (g := fun j => t.op.cmp id fin (t.item j)) t.items 0 (fun j _ hj => firstTest fin ts (by omega))
      ⟨i, by omega, by omega, hc⟩
  rcases nbasearg_cases t.op with h | h
  · rw [h, mul_one]
    exact hloop
  · rw [h, Nat.mul_two]
    exact itemLoop_le t.items t.items 0 hloop

/-- The items alone, if none matches. -/
theorem firstLoop_false (ts : List Term) (ho : ¬ t.op.Other fin) (hm : ¬ t.Matches id fin) (hv : t.op.Version fin) :
    itemLoop (t.op.test fin (fun j => (behind t ts)[j]?)) t.items 0 = some false := by
  refine itemLoop_false _ _ (fun j _ hj => ?_)
  rw [firstTest fin ts (by omega)]
  cases hc : t.op.cmp id fin (t.item j) with
  | false => rfl
  | true => exact absurd ⟨ho, hv, j, by omega, hc⟩ hm

/-- If none matches and only the items are looked at, the switch says so. -/
theorem firstEval_false (ts : List Term) (ho : ¬ t.op.Other fin) (hm : ¬ t.Matches id fin)
    (hw : t.op.entry.ipoeNbasearg = 2 → ¬ t.op.Version fin) : firstEval fin t ts = some false := by
  by_cases hv : t.op.Version fin
  · rw [firstEval_eq ts ho hv]
    rcases nbasearg_cases t.op with h | h
    · rw [h, mul_one]
      exact firstLoop_false ts ho hm hv
    · exact absurd hv (hw h)
  · have hmeta : t.op.isMeta = false := by
      cases h : t.op.isMeta
      · rfl
      · exact absurd (.inl h) ho
    rw [firstEval, evalCmd_eq hmeta, if_neg (fun h => hv (version_iff.1 h))]

/-- **With items of several ints the loop counts too far**: if none matches and no term follows, it
reads behind the array. -/
theorem firstEval_none (ho : ¬ t.op.Other fin) (hm : ¬ t.Matches id fin)
    (hw : t.op.entry.ipoeNbasearg = 2) (hv : t.op.Version fin) : firstEval fin t [] = none := by
  rw [firstEval_eq [] ho hv, hw, Nat.mul_two, itemLoop_add _ _ _ (firstLoop_false [] ho hm hv), zero_add]
  obtain ⟨n, hn⟩ : ∃ n, t.items = n + 1 := ⟨t.items - 1, by have := t.items_pos; omega⟩
  have htest : t.op.test fin (fun j => (behind t [])[j]?) t.items = none := by
    refine test_none t.op hw (fun j hj => ?_)
    rw [getElem?_eq_none]
    simp only [behind, length_append, t.length_args, flatMap_nil, length_singleton, length_nil]
    omega
  rw [show itemLoop _ t.items t.items = itemLoop _ (n + 1) t.items by rw [hn], itemLoop, htest]
  rfl

/-! ## The first pass -/

theorem read_five (a b c d e : Word) (l : List Word) (j : ℕ) : read (a :: b :: c :: d :: e :: l) (1 + 4 + j) = l[j]? := by
  have h : (1 + 4 + (j : ℤ)).toNat = j + 5 := by omega
  rw [read, if_neg (by omega), h]
  rfl

/-- One pass of the loop, at the first term. -/
theorem matchLoop_pass (fin : FrInfo) (hlen : (oplist (t :: ts)).length ≤ 1024) (i : ℕ) {n : ℤ} (hn : 0 < n) :
    matchLoop fin (oplist (t :: ts)) (i + 1) n 1 0 =
      if t.op.entry.ipoeCmd.sshiftRight 16 ≠ 0 ∧ t.op.entry.ipoeCmd.sshiftRight 16 ≠ fin.finP.setWidth 32 then .ret 0
      else match firstEval fin t ts with
        | none => .outside
        | some m => if (0 ||| ofNat 32 m.toNat) ^^^ (if t.not then 1 else 0) = 0#32 then
            .ret ((0 ||| ofNat 32 m.toNat) ^^^ (if t.not then 1 else 0))
          else matchLoop fin (oplist (t :: ts)) i (n - (t.items * t.op.width + 4 : ℕ))
            (1 + (3 + (t.items * t.op.width + 4 : ℕ))) 0 := by
  have hcons := oplist_cons t ts
  have hl := length_oplist (t :: ts)
  rw [flatMap_cons, length_append, length_ints] at hl
  have hnb : t.items * t.op.entry.ipoeNbasearg ≤ t.items * t.op.width := by
    refine Nat.mul_le_mul_left _ ?_
    cases t.op <;> decide
  have hend : t.op.entry.ipoeCmd ≠ IPF_EXP_END := by cases t.op <;> decide
  generalize oplist (t :: ts) = array at hcons hlen hl
  have h0 : read array 1 = some t.op.entry.ipoeCmd := by rw [hcons]; rfl
  have h1 : read array (1 + 1) = some (if t.not then 1 else 0) := by rw [hcons]; rfl
  have h2 : read array (1 + 2) = some (ofNat 32 (t.items * t.op.entry.ipoeNbasearg)) := by rw [hcons]; rfl
  have h3 : read array (1 + 3) = some (ofNat 32 (t.items * t.op.width + 4)) := by rw [hcons]; rfl
  have h4 : ∀ j : ℕ, read array (1 + 4 + j) = (behind t ts)[j]? := by
    intro j
    rw [hcons, read_five]
  have hs : (ofNat 32 (t.items * t.op.width + 4)).toInt = ((t.items * t.op.width + 4 : ℕ) : ℤ) :=
    toInt_ofNat (by omega)
  have hna : (ofNat 32 (t.items * t.op.entry.ipoeNbasearg)).toInt.toNat =
      t.items * t.op.entry.ipoeNbasearg := by
    rw [toInt_ofNat (by omega), Int.toNat_natCast]
  rw [matchLoop, if_neg (by omega)]
  simp only [h0, h1, h2, h3, h4, hs, hna, firstEval]
  rw [if_neg hend]
  rfl

/-- **What the loop does with the first term.** -/
theorem firstPass (fin : FrInfo) (hlen : (oplist (t :: ts)).length ≤ 1024) (i : ℕ) {n : ℤ} (hn : 0 < n) :
    (t.op.Other fin → matchLoop fin (oplist (t :: ts)) (i + 1) n 1 0 = .ret 0) ∧ (¬ t.op.Other fin →
      (firstEval fin t ts = none → matchLoop fin (oplist (t :: ts)) (i + 1) n 1 0 = .outside) ∧
      (firstEval fin t ts = some (t.not) → matchLoop fin (oplist (t :: ts)) (i + 1) n 1 0 = .ret 0) ∧
      (firstEval fin t ts = some (!t.not) → matchLoop fin (oplist (t :: ts)) (i + 1) n 1 0 =
        matchLoop fin (oplist (t :: ts)) i (n - (t.items * t.op.width + 4 : ℕ))
          (1 + (3 + (t.items * t.op.width + 4 : ℕ))) 0)) := by
  rw [matchLoop_pass fin hlen i hn]
  refine ⟨fun ho => if_pos (other_iff.2 ho), fun ho => ?_⟩
  rw [if_neg (fun h => ho (other_iff.1 h))]
  refine ⟨fun h => by rw [h], fun h => ?_, fun h => ?_⟩
  · rw [h]
    cases t.not <;> rfl
  · rw [h]
    cases t.not <;> rfl

theorem ipfFrMatcharray_eq (hlen : (oplist (t :: ts)).length ≤ 1024) (i : ℕ) (fin : FrInfo) :
    ipfFrMatcharray i fin (oplist (t :: ts)) = matchLoop fin (oplist (t :: ts)) i (oplist (t :: ts)).length 1 0 := by
  have h0 : (oplist (t :: ts))[0]? = some (ofNat 32 (oplist (t :: ts)).length) := by
    rw [length_oplist]
    rfl
  simp only [ipfFrMatcharray, h0, toInt_ofNat hlen]

/-! ## The whole -/

/-- **What is asked of the three functions**: the array passes the check, running it stays inside
and ends, and the result says whether every term holds. -/
def Meets (lib : Lib) (fin : FrInfo) (ts : List Term) : Prop :=
  ipfMatcharrayVerify (oplist ts) (4 * (oplist ts).length) = some 0 ∧
    ∃ passes rv, ipfFrMatcharray passes fin (oplist ts) = .ret rv ∧ (rv ≠ 0 ↔ ∀ t ∈ ts, t.Holds lib.htons fin)

/-- The first term ends the run, and its items are not counted too far: the packet is of another
protocol, or the term does not hold (with ports compared as they are stored) and, with several ints
an item and no negation, the packet is of another IP version. -/
def Stops (fin : FrInfo) (t : Term) : Prop :=
  t.op.Other fin ∨
    (¬ t.Holds id fin ∧ (t.op.entry.ipoeNbasearg = 2 → t.not = false → ¬ t.op.Version fin))

theorem stops_ret (hlen : (oplist (t :: ts)).length ≤ 1024) (hs : Stops fin t) :
    ipfFrMatcharray 1 fin (oplist (t :: ts)) = .ret 0 := by
  have hpos : (0 : ℤ) < (oplist (t :: ts)).length := by
    rw [length_oplist]
    omega
  obtain ⟨ho, hno⟩ := firstPass fin hlen 0 hpos
  rw [ipfFrMatcharray_eq hlen]
  by_cases h : t.op.Other fin
  · exact ho h
  · obtain ⟨hh, hw⟩ := hs.resolve_left h
    refine (hno h).2.1 ?_
    unfold Term.Holds at hh
    cases hn : t.not with
    | false =>
      rw [hn] at hh
      exact firstEval_false ts h (by simpa using hh) (fun h2 => hw h2 hn)
    | true =>
      rw [hn] at hh
      exact firstEval_true ts (by simpa using hh)

/-- With one term only, the run does not end otherwise. -/
theorem ret_stops {passes : ℕ} {rv : Word} (hlen : (oplist [t]).length ≤ 1024)
    (hr : ipfFrMatcharray passes fin (oplist [t]) = .ret rv) : Stops fin t := by
  by_contra hs
  unfold Stops at hs
  rw [not_or] at hs
  obtain ⟨ho, hs⟩ := hs
  have hl := length_oplist [t]
  rw [flatMap_cons, length_append, length_ints, flatMap_nil, length_nil] at hl
  rw [ipfFrMatcharray_eq hlen] at hr
  -- either the items are counted too far, or the step goes behind the end
  have hfirst : firstEval fin t [] = none ∨ firstEval fin t [] = some (!t.not) := by
    by_cases hm : t.Matches id fin
    · refine .inr ?_
      rw [firstEval_true [] hm]
      cases hn : t.not with
      | false => rfl
      | true => exact absurd ⟨fun hh => by simpa [hn] using hh.1 hm, fun _ h => by simp [hn] at h⟩ hs
    · by_cases hw : t.op.entry.ipoeNbasearg = 2 ∧ t.op.Version fin
      · exact .inl (firstEval_none ho hm hw.1 hw.2)
      · refine .inr ?_
        rw [firstEval_false [] ho hm (fun h2 hv => hw ⟨h2, hv⟩)]
        cases hn : t.not with
        | false => exact absurd ⟨fun hh => hm (hh.2 hn), fun h2 _ hv => hw ⟨h2, hv⟩⟩ hs
        | true => rfl
  cases passes with
  | zero => simp [matchLoop] at hr
  | succ i =>
    have hpass := (firstPass fin (n := (oplist [t]).length) hlen i (by omega)).2 ho
    rcases hfirst with h | h
    · rw [hpass.1 h] at hr
      cases hr
    · rw [hpass.2.2 h] at hr
      cases i with
      | zero => simp [matchLoop] at hr
      | succ i =>
        have hread : read (oplist [t]) (1 + (3 + (t.items * t.op.width + 4 : ℕ))) = none := by
          rw [read, if_neg (by omega), getElem?_eq_none]
          omega
        rw [matchLoop, if_neg (by omega), hread] at hr
        cases hr

/-- **When parsing, checking and running an expression do what it says.** For an accepted text it is
enough that the array has at most 1024 ints, that the packet does not satisfy the expression, and that
the run ends at the first term. The first two are necessary, and for texts with a single term all of
it is. -/
theorem parseipfexpr_meets {lib : Lib} {mem : ℕ → ℕ → Word} {line : List Char} {array : List Word}
    (hp : parseipfexpr lib mem line = .ok array) :
    ∃ t ts, parseTerms lib mem line = .ok (t :: ts) ∧ array = oplist (t :: ts) ∧ ∀ fin,
      (array.length ≤ 1024 ∧ (¬ ∀ t' ∈ t :: ts, t'.Holds lib.htons fin) ∧ Stops fin t →
        Meets lib fin (t :: ts)) ∧
      (Meets lib fin (t :: ts) → array.length ≤ 1024 ∧ ¬ ∀ t' ∈ t :: ts, t'.Holds lib.htons fin) ∧
      (ts = [] → Meets lib fin (t :: ts) → Stops fin t) := by
  unfold parseipfexpr at hp
  cases hts : parseTerms lib mem line with
  | error e => simp [hts, bind, Except.bind] at hp
  | ok ts =>
    simp only [hts, bind, Except.bind] at hp
    split at hp
    · cases hp
    · rename_i hne
      obtain ⟨t, ts, rfl⟩ := exists_cons_of_ne_nil hne
      obtain rfl : oplist (t :: ts) = array := Except.ok.inj hp
      refine ⟨t, ts, rfl, rfl, fun fin => ⟨?_, ?_, ?_⟩⟩
      · rintro ⟨hlen, hno, hs⟩
        refine ⟨(oplist_verify hne).2 hlen, 1, 0, stops_ret hlen hs, ?_⟩
        simpa using hno
      · rintro ⟨hv, passes, rv, hr, hiff⟩
        have hlen := (oplist_verify hne).1 hv
        refine ⟨hlen, ?_⟩
        rw [ipfFrMatcharray_eq hlen] at hr
        have := matchLoop_ret passes hr
        rw [← hiff]
        simpa using this
      · rintro rfl ⟨hv, passes, rv, hr, -⟩
        exact ret_stops ((oplist_verify hne).1 hv) hr

/-- A host without databases: numbers are read, names are not. -/
def numeric : Lib where
  genmask _ := none
  gethost _ := none
  genmask6 _ := none
  gethost6 _ := none
  getproto s := if s.all Char.isDigit then some (ofNat 32 (s.foldl (fun n c => 10 * n + (c.toNat - 48)) 0)) else none
  getport _ _ := none
  tcpflags _ := 0
  atoi _ := 0
  htons w := (w &&& 0xff) <<< 8 ||| (w >>> 8) &&& 0xff

/-- A TCP packet. -/
def tcp : FrInfo := ⟨4, 6, fun _ => 0x0a000001, fun _ => 0x0a000002, 1024, 80, 2⟩

/-- The term `ip.p=n`. -/
def protoTerm (n : Word) : Term := ⟨.ipP, false, 1, [n], by decide, rfl⟩

theorem protoTerm_matches (n : Word) : (protoTerm n).Matches b tcp ↔ n = 6 := by
  unfold Term.Matches
  constructor
  · rintro ⟨-, -, i, hi, hc⟩
    obtain rfl : i = 0 := by
      have : i < 1 := hi
      omega
    exact (eq_of_beq hc).symm
  · rintro rfl
    refine ⟨?_, ?_, 0, Nat.zero_lt_one, rfl⟩
    · rintro (h | ⟨p, hp, -⟩)
      · cases h
      · cases hp
    · intro v hv
      cases hv

/-- The terms of `ip.p=17;ip.p=6;`. The first one does not hold for a TCP packet, and ends the run. -/
theorem parseipfexpr_meets_two :
    ∃ array, parseipfexpr numeric (fun _ _ => 0)
        ['i', 'p', '.', 'p', '=', '1', '7', ';', 'i', 'p', '.', 'p', '=', '6', ';'] = .ok array ∧
      parseTerms numeric (fun _ _ => 0)
        ['i', 'p', '.', 'p', '=', '1', '7', ';', 'i', 'p', '.', 'p', '=', '6', ';'] = .ok [protoTerm 17, protoTerm 6] ∧
      Meets numeric tcp [protoTerm 17, protoTerm 6] := by
  have hp : parseipfexpr numeric (fun _ _ => 0)
      ['i', 'p', '.', 'p', '=', '1', '7', ';', 'i', 'p', '.', 'p', '=', '6', ';'] =
      .ok [12, 1, 0, 1, 5, 17, 1, 0, 1, 5, 6, IPF_EXP_END] := rfl
  have hts : parseTerms numeric (fun _ _ => 0)
      ['i', 'p', '.', 'p', '=', '1', '7', ';', 'i', 'p', '.', 'p', '=', '6', ';'] =
      .ok [protoTerm 17, protoTerm 6] := rfl
  have hno : ∀ b, ¬ (protoTerm 17).Holds b tcp := by
    intro b hh
    have := (protoTerm_matches 17).1 (hh.2 rfl)
    revert this
    decide
  obtain ⟨t, ts, hts', -, hm⟩ := parseipfexpr_meets hp
  rw [hts] at hts'
  obtain ⟨rfl, rfl⟩ : protoTerm 17 = t ∧ [protoTerm 6] = ts := by simpa using hts'
  refine ⟨_, hp, hts, (hm tcp).1 ⟨by decide, ?_, .inr ⟨hno id, fun h => ?_⟩⟩⟩
  · intro hall
    exact hno _ (hall _ mem_cons_self)
  · cases h

/-- **A packet that satisfies an expression makes the run read behind the array.** `ip.p=6;` for a
TCP packet: from the one term the step goes to the int with index 9, and there are 7. -/
theorem parseipfexpr_not_meets_tcp :
    parseipfexpr numeric (fun _ _ => 0) ['i', 'p', '.', 'p', '=', '6', ';'] = .ok [7, 1, 0, 1, 5, 6, IPF_EXP_END] ∧
      parseTerms numeric (fun _ _ => 0) ['i', 'p', '.', 'p', '=', '6', ';'] = .ok [protoTerm 6] ∧
      (protoTerm 6).Holds numeric.htons tcp ∧
      ipfFrMatcharray 2 tcp [7, 1, 0, 1, 5, 6, IPF_EXP_END] = .outside ∧ ¬ Meets numeric tcp [protoTerm 6] := by
  have hh : ∀ b, (protoTerm 6).Holds b tcp := fun b => ⟨fun _ => rfl, fun _ => (protoTerm_matches 6).2 rfl⟩
  refine ⟨rfl, rfl, hh _, rfl, ?_⟩
  rintro ⟨-, passes, rv, hr, -⟩
  rcases ret_stops (by decide) hr with ho | ⟨hno, -⟩
  · exact ((protoTerm_matches (b := id) 6).2 rfl).1 ho
  · exact hno (hh id)

end Ipfilter.Expr
