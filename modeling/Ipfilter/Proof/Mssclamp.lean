import Ipfilter.Proof.NatCksum
import Ipfilter.Spec.Mssclamp

/-!
# What clamping the MSS does

The options of a header are cut up as the code walks them (`optsOf`); only those that are an MSS matter. The clamp is one less
after an option was written, and an MSS that does not start at a word of the checksum counts `256` times there.

* `mssclampSteps_eq` — the loop ends, stays in the header, and does `clampEach`;
* `clampEach_iff` — which options come out right;
* `mssclamp_iff` — **which SYNs are clamped right**: there is one MSS above the clamp, all behind it are below the clamp, and
  it starts at a word or is a multiple of 257 above the clamp. `mssclamp_iff_one` — a SYN with an MSS of 1460; `mssclamp_odd`
  — with a NOP before it.
-/

namespace Ipfilter.Mssclamp

open Masks NatTab Inet List Option
open BitVec (eq_of_toNat_eq lt_def ofNat toNat_append toNat_ofNat toNat_setWidth toNat_sub)

variable {M : Machine} {maxmss v : Word} {sum : BitVec 16} {os : List Opt} {odd : Bool}

/-! ## Options -/

/-- What the loop steps over: an MSS, or other bytes. -/
inductive Opt
  | mss (hi lo : Byte)
  | other (bytes : List Byte)

def Opt.bytes : Opt → List Byte
  | .mss hi lo => [TCPOPT_MAXSEG, 4, hi, lo]
  | .other bs => bs

def bytesOf (os : List Opt) : List Byte := os.flatMap Opt.bytes

/-- The first `n` steps over the bytes. -/
def optsN : ℕ → List Byte → List Opt
  | 0, _ => []
  | _ + 1, [] => []
  | n + 1, opt :: l =>
    if opt = TCPOPT_EOL then [.other (opt :: l)]
    else if opt = TCPOPT_NOP then .other [opt] :: optsN n l
    else match l with
      | [] => [.other [opt]]
      | adv :: l =>
        if l.length + 2 < adv.toNat ∨ adv.toNat = 0 then [.other (opt :: adv :: l)]
        else if opt = TCPOPT_MAXSEG ∧ adv.toNat = 4 then .mss (l.getD 0 0) (l.getD 1 0) :: optsN n (l.drop 2)
        else .other ((opt :: adv :: l).take adv.toNat) :: optsN n ((opt :: adv :: l).drop adv.toNat)

/-- **The options**, as they are walked; what is behind an EOL or is no option is the last of them. -/
def optsOf (l : List Byte) : List Opt := optsN l.length l

/-- The value of two bytes. -/
def value (hi lo : Byte) : ℕ := hi.toNat * 256 + lo.toNat

/-- Two bytes of the number. -/
def hiByte (c : ℕ) : Byte := ofNat 8 (c / 256)

def loByte (c : ℕ) : Byte := ofNat 8 c

/-- **A clamped option:** an MSS above the clamp is the clamp. -/
def Opt.clamp (c : ℕ) : Opt → Opt
  | .mss hi lo => if value hi lo ≤ c then .mss hi lo else .mss (hiByte c) (loByte c)
  | .other bs => .other bs

/-- What the loop does: options and checksum. -/
def clampEach (M : Machine) : Word → BitVec 16 → List Opt → List Opt × BitVec 16
  | _, sum, [] => ([], sum)
  | maxmss, sum, .other bs :: os =>
    let r := clampEach M maxmss sum os
    (.other bs :: r.1, r.2)
  | maxmss, sum, .mss hi lo :: os =>
    if value hi lo ≤ maxmss.toNat then
      let r := clampEach M maxmss sum os
      (.mss hi lo :: r.1, r.2)
    else
      let d := CALC_SUMD (ofNat 32 (value hi lo)) maxmss
      let r := clampEach M d.1 (ipfFixOutcksum M 0 sum d.2 0) os
      (.mss (hiByte maxmss.toNat) (loByte maxmss.toNat) :: r.1, r.2)

theorem value_lt (hi lo : Byte) : value hi lo < 65536 := by
  have h1 := hi.isLt
  have h2 := lo.isLt
  unfold value
  omega

theorem value_split {c : ℕ} (hc : c < 65536) : value (hiByte c) (loByte c) = c := by
  unfold value hiByte loByte
  rw [toNat_ofNat, toNat_ofNat]
  omega

/-- The options are the bytes. -/
theorem bytesOf_optsN : ∀ {n : ℕ} {l : List Byte}, l.length ≤ n → bytesOf (optsN n l) = l := by
  intro n
  induction n with
  | zero =>
    intro l hn
    rw [length_eq_zero_iff.1 (Nat.le_zero.1 hn)]
    rfl
  | succ n ih =>
    intro l hn
    unfold optsN
    cases l with
    | nil => rfl
    | cons opt l =>
      rw [length_cons] at hn
      dsimp only
      split
      · exact append_nil _
      split
      · exact congrArg (opt :: ·) (ih (by omega))
      cases l with
      | nil => rfl
      | cons adv l =>
        rw [length_cons] at hn
        dsimp only
        split
        · exact append_nil _
        · rename_i hadv
          split
          · -- an MSS has its two bytes
            rename_i hmss
            obtain ⟨hopt, h4⟩ := hmss
            have hadv4 : adv = 4 := eq_of_toNat_eq h4
            match l, hadv with
            | hi :: lo :: l, _ =>
              simp only [length_cons] at hn
              have hrest := ih (l := l) (by omega)
              subst hopt hadv4
              exact congrArg (fun l => TCPOPT_MAXSEG :: 4 :: hi :: lo :: l) hrest
            | [_], hadv => exact absurd (.inl (by rw [h4]; simp)) hadv
            | [], hadv => exact absurd (.inl (by rw [h4]; simp)) hadv
          · have hrest := ih (l := (opt :: adv :: l).drop adv.toNat) (by simp only [length_drop, length_cons]; omega)
            exact (congrArg ((opt :: adv :: l).take adv.toNat ++ ·) hrest).trans (take_append_drop _ _)

/-! ## The loop -/

/-- The value as the code puts it together. -/
theorem mss_toNat (hi lo : Byte) : (hi.setWidth 32 * 256 + lo.setWidth 32 : Word) = ofNat 32 (value hi lo) := by
  have h1 := hi.isLt
  have h2 := lo.isLt
  apply eq_of_toNat_eq
  unfold value
  rw [BitVec.toNat_add, BitVec.toNat_mul, toNat_setWidth, toNat_setWidth, toNat_ofNat,
    show (256 : Word).toNat = 256 from rfl]
  omega

theorem mss_gt_iff (hi lo : Byte) (maxmss : Word) :
    (hi.setWidth 32 * 256 + lo.setWidth 32 : Word) > maxmss ↔ ¬value hi lo ≤ maxmss.toNat := by
  have hlt := value_lt hi lo
  rw [mss_toNat, gt_iff_lt, lt_def, toNat_ofNat, Nat.mod_eq_of_lt (by omega), not_le]

theorem hiByte_eq (maxmss : Word) : (maxmss / 256).setWidth 8 = hiByte maxmss.toNat := by
  apply eq_of_toNat_eq
  unfold hiByte
  rw [toNat_setWidth, BitVec.toNat_udiv, toNat_ofNat]
  rfl

theorem loByte_eq (maxmss : Word) : (maxmss &&& 0xff).setWidth 8 = loByte maxmss.toNat := by
  apply eq_of_toNat_eq
  unfold loByte
  rw [toNat_setWidth, BitVec.toNat_and, toNat_ofNat]
  have hand : maxmss.toNat &&& (0xff : Word).toNat = maxmss.toNat % 256 := Nat.and_two_pow_sub_one_eq_mod _ 8
  rw [hand]
  omega

/-- A read behind what was walked. -/
theorem getElem?_behind {opts front l : List Byte} {cp : ℕ} (h : opts = front ++ l) (hcp : cp = front.length) (i : ℕ) :
    opts[cp + i]? = l[i]? := by
  rw [h, hcp, getElem?_append_right (Nat.le_add_right _ _), Nat.add_sub_cancel_left]

theorem put_behind {opts front l : List Byte} {cp i : ℕ} (h : opts = front ++ l) (hcp : cp = front.length)
    (hi : i < l.length) (b : Byte) :
    put opts (cp + i) b = some (front ++ l.set i b) := by
  unfold put
  rw [h, hcp, if_pos (by rw [length_append]; omega), set_append_right _ _ (Nat.le_add_right _ _), Nat.add_sub_cancel_left]

/-- **The loop** ends, and reads and writes nothing outside of the header. -/
theorem mssclampSteps_eq : ∀ {n : ℕ} {l f : List Byte} {cp ep : ℕ} {maxmss : Word} {tcp : L4}, tcp.thOpts = f ++ l →
    cp = f.length → ep = cp + l.length → l.length ≤ n → mssclampSteps M ep n cp maxmss tcp = some { tcp with
        thOpts := f ++ bytesOf (clampEach M maxmss tcp.sum (optsN n l)).1
        sum := (clampEach M maxmss tcp.sum (optsN n l)).2 } := by
  intro n
  induction n with
  | zero =>
    intro l f cp ep maxmss tcp h hcp hep hn
    obtain rfl := length_eq_zero_iff.1 (Nat.le_zero.1 hn)
    unfold mssclampSteps
    rw [if_pos (by rw [hep]; simp)]
    exact congrArg some (congrArg (fun opts => { tcp with thOpts := opts }) h)
  | succ n ih =>
    intro l f cp ep maxmss tcp h hcp hep hn
    unfold mssclampSteps optsN
    cases l with
    | nil =>
      rw [if_pos (by rw [hep]; simp)]
      exact congrArg some (congrArg (fun opts => { tcp with thOpts := opts }) h)
    | cons opt l =>
      have hget := getElem?_behind h hcp
      have hsame : tcp = { tcp with thOpts := f ++ (opt :: l ++ []), sum := tcp.sum } := by
        rw [append_nil, ← h]
      rw [length_cons] at hn hep
      rw [if_neg (by omega), show tcp.thOpts[cp]? = some opt from hget 0]
      simp only [bind_eq_bind, bind_some]
      by_cases heol : opt = TCPOPT_EOL
      · rw [if_pos heol, if_pos heol]
        exact congrArg some hsame
      rw [if_neg heol, if_neg heol]
      by_cases hnop : opt = TCPOPT_NOP
      · -- one byte
        rw [if_pos hnop, if_pos hnop, ih (f := f ++ [opt]) (l := l) (by rw [h, append_assoc]; rfl)
          (by rw [hcp, length_append]; rfl) (by omega) (by omega)]
        simp only [append_assoc]
        rfl
      rw [if_neg hnop, if_neg hnop]
      cases l with
      | nil =>
        rw [if_pos (by rw [hep]; simp)]
        exact congrArg some hsame
      | cons adv l =>
        rw [length_cons] at hn hep
        rw [if_neg (by omega), show tcp.thOpts[cp + 1]? = some adv from hget 1]
        simp only [bind_some]
        by_cases hadv : l.length + 2 < adv.toNat ∨ adv.toNat = 0
        · rw [if_pos (by omega), if_pos hadv]
          exact congrArg some hsame
        rw [if_neg (by omega), if_neg hadv]
        by_cases hmss : opt = TCPOPT_MAXSEG ∧ adv.toNat = 4
        · rw [if_pos hmss, if_pos hmss]
          obtain ⟨hopt, h4⟩ := hmss
          have hadv4 : adv = 4 := eq_of_toNat_eq h4
          obtain ⟨hi, lo, rest, rfl⟩ : ∃ hi lo rest, l = hi :: lo :: rest := by
            match l, hadv with
            | hi :: lo :: rest, _ => exact ⟨hi, lo, rest, rfl⟩
            | [_], hadv => exact absurd (.inl (by rw [h4]; simp)) hadv
            | [], hadv => exact absurd (.inl (by rw [h4]; simp)) hadv
          simp only [length_cons] at hn hep
          rw [show tcp.thOpts[cp + 2]? = some hi from hget 2, show tcp.thOpts[cp + 3]? = some lo from hget 3]
          simp only [bind_some, mss_gt_iff, h4, getD_cons_zero, getD_cons_succ, drop_succ_cons, drop_zero]
          unfold clampEach
          by_cases hle : value hi lo ≤ maxmss.toNat
          · rw [if_neg (not_not_intro hle), if_pos hle,
              ih (f := f ++ [opt, adv, hi, lo]) (l := rest) (by rw [h, append_assoc]; rfl)
                (by rw [hcp, length_append]; rfl) (by omega) (by omega), hopt, hadv4]
            simp only [append_assoc]
            rfl
          · rw [if_pos hle, if_neg hle, put_behind h hcp (by simp only [length_cons]; omega)]
            simp only [bind_some]
            rw [put_behind rfl hcp (by simp only [length_set, length_cons]; omega)]
            simp only [bind_some]
            rw [ih (f := f ++ [opt, adv, hiByte maxmss.toNat, loByte maxmss.toNat]) (l := rest)
                (by rw [hiByte_eq, loByte_eq, append_assoc]; rfl)
                (by rw [hcp, length_append]; rfl) (by omega) (by omega), hopt, hadv4, mss_toNat]
            simp only [append_assoc]
            rfl
        · rw [if_neg hmss, if_neg hmss, ih (f := f ++ (opt :: adv :: l).take adv.toNat) (l := (opt :: adv :: l).drop adv.toNat)
            (by rw [h, append_assoc, take_append_drop])
            (by rw [hcp, length_append, length_take, length_cons, length_cons]; omega)
            (by rw [length_drop, length_cons, length_cons]; omega)
            (by rw [length_drop, length_cons, length_cons]; omega)]
          simp only [append_assoc]
          rfl

/-! ## Sums of bytes -/

/-- What the bytes count in the sum of words, the first of them in the lower half of a word or in the upper one. -/
def weigh : Bool → List Byte → ℕ
  | _, [] => 0
  | odd, b :: l => (if odd then b.toNat else b.toNat * 256) + weigh (!odd) l

/-- Which half the byte behind these is in. -/
def parity : Bool → List Byte → Bool
  | odd, [] => odd
  | odd, _ :: l => parity (!odd) l

theorem weigh_append (odd : Bool) (l l' : List Byte) : weigh odd (l ++ l') = weigh odd l + weigh (parity odd l) l' := by
  induction l generalizing odd with
  | nil => exact (zero_add _).symm
  | cons b l ih =>
    rw [cons_append, weigh, weigh, ih, parity, add_assoc]

theorem total_byteWords : ∀ l : List Byte, total (byteWords l) = weigh false l
  | [] => rfl
  | [a] => by
    have ha := a.isLt
    unfold byteWords weigh weigh
    rw [total_cons, total_nil, toNat_append]
    simp [Nat.shiftLeft_eq]
  | a :: b :: l => by
    have hab : (a ++ b).toNat = a.toNat * 256 + b.toNat := by
      rw [toNat_append, ← Nat.shiftLeft_add_eq_or_of_lt b.isLt, Nat.shiftLeft_eq]
    unfold byteWords weigh weigh
    rw [total_cons, hab, total_byteWords l]
    simp only [Bool.not_false, Bool.not_true, Bool.false_eq_true, if_false, if_true]
    omega

/-! ## What comes out right -/

/-- The values of the options, and whether they are across words. -/
def mssOf : Bool → List Opt → List (Bool × ℕ)
  | _, [] => []
  | odd, .mss hi lo :: os => (odd, value hi lo) :: mssOf odd os
  | odd, .other bs :: os => mssOf (parity odd bs) os

/-- **At most one value is above the clamp:** those behind it are below the clamp, and it makes up words or is a multiple of 257
above. -/
def Single (c : ℕ) : List (Bool × ℕ) → Prop
  | [] => True
  | (odd, v) :: vs => if v ≤ c then Single c vs else (∀ w ∈ vs, w.2 < c ∨ w.2 = 0) ∧ (odd = false ∨ 257 ∣ v - c)

instance Single.decide (c : ℕ) : ∀ vs, Decidable (Single c vs)
  | [] => inferInstanceAs (Decidable True)
  | (odd, v) :: vs =>
    have := Single.decide c vs
    inferInstanceAs (Decidable
      (if v ≤ c then Single c vs else (∀ w ∈ vs, w.2 < c ∨ w.2 = 0) ∧ (odd = false ∨ 257 ∣ v - c)))

/-- The clamp after an option was written, and the difference. -/
theorem CALC_SUMD_above {n : ℕ} (hn : n < 65536) (h : ¬n ≤ maxmss.toNat) :
    (CALC_SUMD (ofNat 32 n) maxmss).1 = maxmss - 1 ∧ (CALC_SUMD (ofNat 32 n) maxmss).2.toNat ≤ 131070 ∧
      ((CALC_SUMD (ofNat 32 n) maxmss).2.toNat + n) % 65535 = maxmss.toNat % 65535 := by
  have hval : (ofNat 32 n).toNat = n := by
    rw [toNat_ofNat]
    omega
  have h1 : fold (ofNat 32 n) = ofNat 32 n := fold_of_lt (by omega)
  have h2 : fold maxmss = maxmss := fold_of_lt (by omega)
  have hgt : ofNat 32 n > maxmss := by
    rw [gt_iff_lt, lt_def, hval]
    omega
  have hsub : (maxmss - 1 - ofNat 32 n).toNat = 2 ^ 32 - (n - maxmss.toNat) - 1 := by
    have hlt := maxmss.isLt
    rw [toNat_sub, toNat_sub, hval, show (1 : Word).toNat = 1 from rfl]
    omega
  unfold CALC_SUMD
  dsimp only
  rw [h1, h1, h2, h2, if_pos hgt, fold_toNat, hsub]
  exact ⟨rfl, by omega, by omega⟩

theorem bytesOf_cons (o : Opt) (os : List Opt) : bytesOf (o :: os) = o.bytes ++ bytesOf os := rfl

/-- Two lists of options that are written out alike, and begin with an MSS. -/
theorem bytesOf_mss_inj {hi lo hi' lo' : Byte} {os os' : List Opt}
    (h : bytesOf (.mss hi lo :: os) = bytesOf (.mss hi' lo' :: os')) :
    value hi lo = value hi' lo' ∧ bytesOf os = bytesOf os' := by
  obtain ⟨hhead, htail⟩ := append_inj h rfl
  simp only [Opt.bytes, cons.injEq, true_and, and_true] at hhead
  rw [hhead.1, hhead.2]
  exact ⟨rfl, htail⟩

/-- Options that are below the clamp are left alone once it is one less. -/
theorem clampEach_below {c : Word} (hc : c.toNat < 65536) (h : ∀ w ∈ mssOf odd os, w.2 < c.toNat ∨ w.2 = 0) :
    clampEach M (c - 1) sum os = (os, sum) ∧ os.map (Opt.clamp c.toNat) = os := by
  induction os generalizing odd with
  | nil => exact ⟨rfl, rfl⟩
  | cons o os ih =>
    cases o with
    | other bs =>
      obtain ⟨h1, h2⟩ := ih h
      unfold clampEach
      rw [h1, map_cons, h2]
      exact ⟨rfl, rfl⟩
    | mss hi lo =>
      obtain ⟨hv, hvs⟩ := forall_mem_cons.1 h
      obtain ⟨h1, h2⟩ := ih hvs
      have hless : value hi lo ≤ (c - 1).toNat := by
        have hlt := c.isLt
        rw [toNat_sub, show (1 : Word).toNat = 1 from rfl]
        dsimp only at hv
        omega
      have hsame : Opt.clamp c.toNat (.mss hi lo) = .mss hi lo := by
        apply if_pos
        dsimp only at hv
        omega
      unfold clampEach
      rw [if_pos hless, h1, map_cons, h2, hsame]
      exact ⟨rfl, rfl⟩

/-- One that is not below the clamp comes out wrong. -/
theorem below_of_bytes {c : Word} (hc : c.toNat < 65536)
    (h : bytesOf (clampEach M (c - 1) sum os).1 = bytesOf (os.map (Opt.clamp c.toNat))) :
    ∀ w ∈ mssOf odd os, w.2 < c.toNat ∨ w.2 = 0 := by
  induction os generalizing odd with
  | nil => exact nofun
  | cons o os ih =>
    cases o with
    | other bs => exact ih (append_cancel_left h)
    | mss hi lo =>
      have hone : (c - 1).toNat = (2 ^ 32 - 1 + c.toNat) % 2 ^ 32 := by
        rw [toNat_sub, show (1 : Word).toNat = 1 from rfl]
      have hlt := value_lt hi lo
      have hc' := value_split hc
      unfold clampEach Opt.clamp at h
      by_cases hless : value hi lo ≤ (c - 1).toNat
      · rw [if_pos hless] at h
        by_cases hle : value hi lo ≤ c.toNat
        · rw [map_cons] at h
          simp only [if_pos hle] at h
          refine forall_mem_cons.2 ⟨?_, ih (bytesOf_mss_inj h).2⟩
          dsimp only
          omega
        · -- above a clamp of 0
          rw [map_cons] at h
          simp only [if_neg hle] at h
          have hv := (bytesOf_mss_inj h).1
          omega
      · -- it is one below the clamp now
        have hv' := value_split (c := (c - 1).toNat) (by omega)
        rw [if_neg hless, map_cons] at h
        by_cases hle : value hi lo ≤ c.toNat
        · simp only [if_pos hle] at h
          have hv := (bytesOf_mss_inj h).1
          omega
        · simp only [if_neg hle] at h
          have hv := (bytesOf_mss_inj h).1
          omega

theorem weigh_mss_even (hi lo : Byte) :
    weigh false (Opt.bytes (.mss hi lo)) = TCPOPT_MAXSEG.toNat * 256 + (4 : Byte).toNat + value hi lo := by
  unfold value
  change TCPOPT_MAXSEG.toNat * 256 + ((4 : Byte).toNat + (hi.toNat * 256 + (lo.toNat + 0))) = _
  omega

theorem weigh_mss_odd (hi lo : Byte) :
    weigh true (Opt.bytes (.mss hi lo)) = TCPOPT_MAXSEG.toNat + (4 : Byte).toNat * 256 + (hi.toNat + lo.toNat * 256) := by
  change TCPOPT_MAXSEG.toNat + ((4 : Byte).toNat * 256 + (hi.toNat + (lo.toNat * 256 + 0))) = _
  omega

/-- **Which options come out right**, with a right checksum; `x` is the sum of the words that do not change. -/
theorem clampEach_iff {x : ℕ} (h : ((M.htons sum).toNat + x + weigh odd (bytesOf os)) % 65535 = 0) :
    (bytesOf (clampEach M maxmss sum os).1 = bytesOf (os.map (Opt.clamp maxmss.toNat)) ∧
      ((M.htons (clampEach M maxmss sum os).2).toNat + x + weigh odd (bytesOf (clampEach M maxmss sum os).1)) % 65535 = 0) ↔
        Single maxmss.toNat (mssOf odd os) := by
  induction os generalizing odd x with
  | nil => exact iff_of_true ⟨rfl, h⟩ trivial
  | cons o os ih =>
    rw [bytesOf_cons, weigh_append] at h
    have hbehind : ((M.htons sum).toNat + (x + weigh odd o.bytes) + weigh (parity odd o.bytes) (bytesOf os)) % 65535 = 0 := by
      rw [← h]
      congr 1
      omega
    have hkept : o.clamp maxmss.toNat = o →
        ((bytesOf (o :: (clampEach M maxmss sum os).1) = bytesOf ((o :: os).map (Opt.clamp maxmss.toNat)) ∧
          ((M.htons (clampEach M maxmss sum os).2).toNat + x + weigh odd (bytesOf (o :: (clampEach M maxmss sum os).1))) %
            65535 = 0) ↔
            Single maxmss.toNat (mssOf (parity odd o.bytes) os)) := by
      intro hclamp
      rw [← ih hbehind, map_cons, hclamp, bytesOf_cons, bytesOf_cons, weigh_append, append_cancel_left_eq]
      apply and_congr_right
      intro _
      rw [add_assoc, add_assoc, add_assoc]
    cases o with
    | other bs => exact hkept rfl
    | mss hi lo =>
      have hpar : ∀ hi lo : Byte, parity odd (Opt.bytes (.mss hi lo)) = odd := fun _ _ => by cases odd <;> rfl
      rw [hpar] at h hkept
      unfold clampEach mssOf Single
      dsimp only
      by_cases hle : value hi lo ≤ maxmss.toNat
      · rw [if_pos hle, if_pos hle]
        exact hkept (if_pos hle)
      have hv := value_lt hi lo
      have hc : maxmss.toNat < 65536 := by omega
      obtain ⟨hless, hn, hmod⟩ := CALC_SUMD_above hv hle
      have hfix := (ipfFixOutcksum_toNat M sum hn).1
      have hclamp : Opt.clamp maxmss.toNat (.mss hi lo) = .mss (hiByte maxmss.toNat) (loByte maxmss.toNat) := if_neg hle
      rw [if_neg hle, if_neg hle, map_cons, hclamp, hless]
      dsimp only
      generalize (CALC_SUMD (ofNat 32 (value hi lo)) maxmss).2 = d at hmod hfix ⊢
      generalize ipfFixOutcksum M 0 sum d 0 = sum' at hfix ⊢
      -- the two words that have the option, or the three
      have hsum : ((M.htons sum').toNat + x + weigh odd (bytesOf (.mss (hiByte maxmss.toNat) (loByte maxmss.toNat) :: os))) %
          65535 = 0 ↔
          odd = false ∨ 257 ∣ value hi lo - maxmss.toNat := by
        have hsplit := value_split hc
        rw [← hsplit] at hmod
        rw [bytesOf_cons, weigh_append, hpar]
        cases odd with
        | false =>
          refine iff_of_true ?_ (.inl rfl)
          rw [weigh_mss_even] at h ⊢
          have hword := replaced_mod (r := x + (2 * 256 + 4) + weigh false (bytesOf os)) hfix hmod
          rw [show ∀ s v : ℕ, s + x + (TCPOPT_MAXSEG.toNat * 256 + (4 : Byte).toNat + v + weigh false (bytesOf os)) =
            s + (v + (x + (TCPOPT_MAXSEG.toNat * 256 + (4 : Byte).toNat) + weigh false (bytesOf os))) by omega] at h ⊢
          exact hword.trans h
        | true =>
          rw [weigh_mss_odd] at h ⊢
          rw [show ∀ s v : ℕ, s + x + (TCPOPT_MAXSEG.toNat + (4 : Byte).toNat * 256 + v + weigh true (bytesOf os)) =
            s + (v + (x + (TCPOPT_MAXSEG.toNat + (4 : Byte).toNat * 256) + weigh true (bytesOf os))) by omega] at h ⊢
          have hD : value (hiByte maxmss.toNat) (loByte maxmss.toNat) + (value hi lo - maxmss.toNat) = value hi lo := by
            rw [hsplit]
            omega
          exact (across_iff hfix hmod hD h).trans (or_iff_right Bool.noConfusion).symm
      constructor
      · rintro ⟨hbytes, hafter⟩
        have hbelow := @below_of_bytes _ _ _ odd _ hc (bytesOf_mss_inj hbytes).2
        rw [(clampEach_below hc hbelow).1] at hafter
        exact ⟨hbelow, hsum.1 hafter⟩
      · rintro ⟨hbelow, hword⟩
        obtain ⟨heach, hmap⟩ := @clampEach_below M sum' _ _ _ hc hbelow
        rw [heach, hmap]
        exact ⟨rfl, hsum.2 hword⟩

/-! ## The header -/

variable {fin : FrInfo} {tcp : L4}

/-- **The options are clamped**, nothing else is changed but the checksum, and that is right. -/
structure Clamped (M : Machine) (fin : FrInfo) (maxmss : Word) (tcp : L4) : Prop where
  opts : tcp.thOpts = bytesOf ((optsOf fin.finDp.thOpts).map (Opt.clamp maxmss.toNat))
  rest : tcp = { fin.finDp with thOpts := tcp.thOpts, sum := tcp.sum }
  sum : Valid ({ fin with finDp := tcp }.l4words M .tcp)

/-- The words of the packet that are no options and no checksum. -/
def restSum (M : Machine) (fin : FrInfo) : ℕ :=
  (M.htons fin.finDp.thSport).toNat + ((M.htons fin.finDp.thDport).toNat + (total (halves M fin.finIp.ipSrc) +
    total (halves M fin.finIp.ipDst) + (6 + ((fin.finDlen.setWidth 16).toNat + total fin.finDp.rest))))

/-- The checksum of the packet, with these options. -/
theorem valid_l4words (htcp : tcp = { fin.finDp with thOpts := tcp.thOpts, sum := tcp.sum }) :
    Valid ({ fin with finDp := tcp }.l4words M .tcp) ↔
      ((M.htons tcp.sum).toNat + restSum M fin + weigh false tcp.thOpts) % 65535 = 0 := by
  have htotal : total ({ fin with finDp := tcp }.l4words M .tcp) = (M.htons tcp.sum).toNat + restSum M fin +
      weigh false tcp.thOpts := by
    rw [htcp]
    unfold FrInfo.l4words restSum
    simp only [total_cons, total_append, total_byteWords]
    rw [show (ofNat 16 Kind.tcp.proto).toNat = 6 from rfl]
    omega
  rw [valid_iff, htotal]
  apply and_iff_left
  unfold restSum
  omega

theorem clamped_iff (htcp : tcp = { fin.finDp with thOpts := tcp.thOpts, sum := tcp.sum }) :
    Clamped M fin maxmss tcp ↔ tcp.thOpts = bytesOf ((optsOf fin.finDp.thOpts).map (Opt.clamp maxmss.toNat)) ∧
      ((M.htons tcp.sum).toNat + restSum M fin + weigh false tcp.thOpts) % 65535 = 0 := by
  rw [← valid_l4words htcp]
  exact ⟨fun h => ⟨h.opts, h.sum⟩, fun h => ⟨h.1, htcp, h.2⟩⟩

/-- **Which SYNs are clamped right.** The function always ends, and stays in the header. -/
theorem mssclamp_iff (M : Machine) (thOff : BitVec 4) (fin : FrInfo) (maxmss : Word)
    (hoff : 4 * thOff.toNat = 20 + fin.finDp.thOpts.length) (hv : Valid (fin.l4words M .tcp)) :
    ∃ tcp, ipfNatMssclamp M thOff fin.finDp maxmss = some tcp ∧
      (Clamped M fin maxmss tcp ↔ Single maxmss.toNat (mssOf false (optsOf fin.finDp.thOpts))) := by
  have hhlen : thOff.toNat <<< 2 = 20 + fin.finDp.thOpts.length := by
    rw [Nat.shiftLeft_eq]
    omega
  have hrun : ipfNatMssclamp M thOff fin.finDp maxmss = some { fin.finDp with
      thOpts := bytesOf (clampEach M maxmss fin.finDp.sum (optsOf fin.finDp.thOpts)).1
      sum := (clampEach M maxmss fin.finDp.sum (optsOf fin.finDp.thOpts)).2 } := by
    unfold ipfNatMssclamp
    dsimp only
    rw [hhlen, Nat.add_sub_cancel_left]
    by_cases hopts : fin.finDp.thOpts.length = 0
    · rw [if_neg (by omega)]
      have hnil := List.length_eq_zero_iff.1 hopts
      rw [hnil]
      exact congrArg some (congrArg (fun opts => { fin.finDp with thOpts := opts }) hnil)
    · rw [if_pos (by omega)]
      exact mssclampSteps_eq (f := []) rfl rfl (Nat.zero_add _).symm (Nat.le_refl _)
  have hbytes : bytesOf (optsOf fin.finDp.thOpts) = fin.finDp.thOpts := bytesOf_optsN (Nat.le_refl _)
  have hsum : ((M.htons fin.finDp.sum).toNat + restSum M fin + weigh false (bytesOf (optsOf fin.finDp.thOpts))) % 65535 =
      0 := by
    rw [hbytes]
    exact (@valid_l4words _ fin _ rfl).1 hv
  exact ⟨_, hrun, (clamped_iff rfl).trans (clampEach_iff hsum)⟩

/-- A SYN with these options, whose checksum is right. -/
def synWith (sum : BitVec 16) (opts : List Byte) : FrInfo :=
  { finP := 6, finOut := true, finRev := false, finFlx := 0, finOff := 0, finCksum := 0, finDlen := 0, finIfp := none,
    finSaddr := 0, finDaddr := 0, finData := fun _ => 0, finIp := ⟨0, 0, 0, []⟩,
    finDp := { thSport := 0, thDport := 0, icmpId := 0, sum := host.htons sum, thSyn := true, thOpts := opts, rest := [] } }

/-- An MSS of 1460 becomes 1400. -/
theorem mssclamp_iff_one : ∃ tcp, ipfNatMssclamp host 6 (synWith 0xf841 [2, 4, 5, 0xb4]).finDp 1400 = some tcp ∧
    Clamped host (synWith 0xf841 [2, 4, 5, 0xb4]) 1400 tcp := by
  obtain ⟨tcp, hrun, hiff⟩ := mssclamp_iff host 6 (synWith 0xf841 [2, 4, 5, 0xb4]) 1400 (by decide) (by decide)
  exact ⟨tcp, hrun, hiff.2 (by decide)⟩

/-- Behind a NOP it does too, but the checksum is wrong then. -/
theorem mssclamp_odd :
    Valid ((synWith 0x45f0 [1, 2, 4, 5, 0xb4, 1, 1, 1]).l4words host .tcp) ∧
      (ipfNatMssclamp host 7 (synWith 0x45f0 [1, 2, 4, 5, 0xb4, 1, 1, 1]).finDp 1400).map
        (fun tcp => decide (Valid ({ synWith 0x45f0 [1, 2, 4, 5, 0xb4, 1, 1, 1] with finDp := tcp }.l4words host .tcp))) =
          some false := by
  decide

end Ipfilter.Mssclamp
