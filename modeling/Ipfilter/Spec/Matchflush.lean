import Ipfilter.Spec.Expr
import Ipfilter.Spec.NatTable

/-!
# Flushing the entries that match an expression

`SIOCMATCHFLUSH` hands the array of a match expression to `ipf_state_matchflush` or `ipf_nat_matchflush`, which run
it on every entry of their table with `ipf_state_matcharray` or `ipf_nat_matcharray` and delete those for which the
result is 0. The array is fetched and checked by `ipf_matcharray_load`.
-/

namespace Ipfilter.Matchflush

open Ipfilter.Expr State NatTab
open Masks hiding Word

scoped instance neZeroThree : NeZero 3 := ⟨by decide⟩

/-! ## `ipf_matcharray_load` -/

def IPFOBJ_IPFEXPR : ℤ := 20

/-- `ipfobj_t`, and `ints` that are at `ipfo_ptr`; `nomem` is `KMALLOCS` failing. -/
structure Request where
  ipfoSize : Word
  ipfoType : ℤ
  ints : List Word
  nomem : Bool

/-- `ipf_matcharray_load`; `none` when the check reads outside of the array. The first number of an error is the one
for `IPFERROR`. The size of the array is an int. -/
def ipfMatcharrayLoad (data : Option Request) : Option (Except (ℕ × ℕ) (List Word)) :=
  match data with
  | none => some (.error (116, EFAULT))
  | some objp =>
    if objp.ipfoType ≠ IPFOBJ_IPFEXPR then some (.error (117, EINVAL))
    else if objp.ipfoSize &&& 3 ≠ 0 ∨ objp.ipfoSize = 0 ∨ objp.ipfoSize > 1024 then some (.error (118, EINVAL))
    else
      let nelem := objp.ipfoSize.toNat
      if objp.nomem then some (.error (119, ENOMEM))
      else if objp.ints.length < nelem then some (.error (120, EFAULT))
      else
        let array := objp.ints.take nelem
        (ipfMatcharrayVerify array (nelem * 4)).map fun r => if r ≠ 0 then .error (121, EINVAL) else .ok array

/-! ## `ipf_state_matcharray` -/

/-- The words of an address. -/
def words (a : I6addr) : Fin 4 → Word
  | 0 => a.i60
  | 1 => a.i61
  | 2 => a.i62
  | 3 => a.i63

/-- `ticks - touched`, of type `u_long` -/
def idle (ticks touched : ℕ) : ℕ := (ticks + 2 ^ 64 - touched) % 2 ^ 64

/-- A value that is compared with an int. -/
def int (n : ℕ) : Word := BitVec.ofNat 32 n

/-- `is_p`, a `u_char` -/
def isP (is : Ipstate) : Word := (BitVec.ofNat 8 is.isP).setWidth 32

/-- The switch over the commands. The loops over IPv6 addresses are bounded by the size of the term. -/
def stateCmd (is : Ipstate) (t : ℕ) (cmd : Word) (narg size : ℕ) (arg : ℕ → Option Word) : Option Bool :=
  if cmd = IPF_EXP_IP_PR then
    itemLoop (fun i => do return isP is == (← arg i)) narg 0
  else if cmd = IPF_EXP_IP_SRCADDR then
    if is.isV ≠ 4 then some false else itemLoop (maskEq (words is.isSrc 0) arg) narg 0
  else if cmd = IPF_EXP_IP_DSTADDR then
    if is.isV ≠ 4 then some false else itemLoop (maskEq (words is.isDst 0) arg) narg 0
  else if cmd = IPF_EXP_IP_ADDR then
    if is.isV ≠ 4 then some false
    else itemLoop (fun i => do return (← maskEq (words is.isSrc 0) arg i) || (← maskEq (words is.isDst 0) arg i)) narg 0
  else if cmd = IPF_EXP_IP6_SRCADDR then
    if is.isV ≠ 6 then some false else itemLoop (ip6MaskEq (words is.isSrc) arg) size 0
  else if cmd = IPF_EXP_IP6_DSTADDR then
    if is.isV ≠ 6 then some false else itemLoop (ip6MaskEq (words is.isDst) arg) size 0
  else if cmd = IPF_EXP_IP6_ADDR then
    if is.isV ≠ 6 then some false
    else itemLoop (fun i => do return (← ip6MaskEq (words is.isSrc) arg i) || (← ip6MaskEq (words is.isDst) arg i)) size 0
  else if cmd = IPF_EXP_UDP_PORT ∨ cmd = IPF_EXP_TCP_PORT then
    itemLoop (fun i => do return word is.isSport == (← arg i) || word is.isDport == (← arg i)) narg 0
  else if cmd = IPF_EXP_UDP_SPORT ∨ cmd = IPF_EXP_TCP_SPORT then
    itemLoop (fun i => do return word is.isSport == (← arg i)) narg 0
  else if cmd = IPF_EXP_UDP_DPORT ∨ cmd = IPF_EXP_TCP_DPORT then
    itemLoop (fun i => do return word is.isDport == (← arg i)) narg 0
  else if cmd = IPF_EXP_TCP_STATE then
    itemLoop (fun i => do return int (is.isState false) == (← arg i) || int (is.isState true) == (← arg i)) narg 0
  else if cmd = IPF_EXP_IDLE_GT then do return t > ((← arg 0).signExtend 64).toNat
  else some false

/-- The loop of `ipf_state_matcharray`, for a number of passes. The size is taken off before the command is looked
at; the step goes `3 + ipfe_size` ints ahead and clears `rv`. -/
def stateLoop (is : Ipstate) (t : ℕ) (array : List Word) : ℕ → ℤ → ℤ → Word → Res
  | 0, _, _, _ => .running
  | i + 1, n, x, rv =>
    if n ≤ 0 then .ret rv
    else
      match read array (x + 3), read array x with
      | some size, some cmd =>
        let n := n - size.toInt
        if cmd = IPF_EXP_END then .ret rv
        else
          let p := cmd.sshiftRight 16
          if p ≠ 0 ∧ p ≠ isP is then .ret rv
          else
            match read array (x + 1), read array (x + 2) with
            | some neg, some narg =>
              match stateCmd is t cmd narg.toInt.toNat size.toInt.toNat (fun j => read array (x + 4 + j)) with
              | none => .outside
              | some m =>
                let rv := (rv ||| BitVec.ofNat 32 m.toNat) ^^^ neg
                if rv = 0 then .ret rv else stateLoop is t array i n (x + (3 + size.toInt)) 0
            | _, _ => .outside
      | _, _ => .outside

/-- `ipf_state_matcharray`, for a number of passes. -/
def ipfStateMatcharray (passes : ℕ) (is : Ipstate) (t : ℕ) (array : List Word) : Res :=
  match array[0]? with
  | none => .outside
  | some n => stateLoop is t array passes n.toInt 1 0

/-! ## `ipf_nat_matcharray` -/

/-- The rest of `nat_t` that is compared: the last three words of each address, and the state of a TCP session. -/
structure NatRest where
  natOsrc6 : Fin 3 → Word
  natOdst6 : Fin 3 → Word
  natNsrc6 : Fin 3 → Word
  natNdst6 : Fin 3 → Word
  natTcpstate : Bool → ℕ
  natTouched : ℕ

/-- An address of which `a` is the part for IPv4. -/
def addr6 (a : Word) (l : Fin 3 → Word) : Fin 4 → Word
  | 0 => a
  | 1 => l 0
  | 2 => l 1
  | 3 => l 2

/-- `(a & x[i + 4]) == x[i + 3]` -/
def natMaskEq (a : Word) (arg : ℕ → Option Word) (i : ℕ) : Option Bool := do
  let mask ← arg (i + 1)
  let addr ← arg i
  return a &&& mask == addr

/-- `IP6_MASKEQ(a, x + i + 7, x + i + 3)` -/
def natMaskEq6 (a : Fin 4 → Word) (arg : ℕ → Option Word) (i : ℕ) : Option Bool :=
  ip6MaskEq a (fun j => arg (i + j)) 0

/-- `if (v) e |= ...` -/
def orIf (v : Bool) (test : Option Bool) (e : Bool) : Option Bool :=
  if v then do return e || (← test) else some e

/-- `if (v) for (i = 0; !e && i < n; i++) ...`, after a loop that came to `e` -/
def thenLoop (v : Bool) (test : ℕ → Option Bool) (n : Option ℕ) (e : Bool) : Option Bool :=
  if v && !e then do itemLoop test (← n) 0 else some e

/-- The switch over the commands; `arg` is `x + 3`. The loops over IPv6 addresses are bounded by `x[3]`. -/
def natCmd (nat : NatT) (l : NatRest) (t : ℕ) (cmd : Word) (narg : ℕ) (arg : ℕ → Option Word) : Option Bool :=
  let x3 := (arg 0).map fun size => size.toInt.toNat
  let v4 i := nat.natV i == 4
  let v6 i := nat.natV i == 6
  let osrc6 := addr6 nat.natOsrcaddr l.natOsrc6
  let odst6 := addr6 nat.natOdstaddr l.natOdst6
  let nsrc6 := addr6 nat.natNsrcaddr l.natNsrc6
  let ndst6 := addr6 nat.natNdstaddr l.natNdst6
  if cmd = IPF_EXP_IP_PR then
    itemLoop (fun i => do return int (nat.natPr true) == (← arg i)) narg 0
  else if cmd = IPF_EXP_IP_SRCADDR then do
    thenLoop (v4 true) (natMaskEq nat.natNsrcaddr arg) (some narg)
      (← thenLoop (v4 false) (natMaskEq nat.natOsrcaddr arg) (some narg) false)
  else if cmd = IPF_EXP_IP_DSTADDR then do
    thenLoop (v4 true) (natMaskEq nat.natNdstaddr arg) (some narg)
      (← thenLoop (v4 false) (natMaskEq nat.natOdstaddr arg) (some narg) false)
  else if cmd = IPF_EXP_IP_ADDR then
    itemLoop (fun i => do
      let e ← orIf (v4 false) (natMaskEq nat.natOsrcaddr arg i) false
      let e ← orIf (v4 true) (natMaskEq nat.natNsrcaddr arg i) e
      let e ← orIf (v4 false) (natMaskEq nat.natOdstaddr arg i) e
      orIf (v4 true) (natMaskEq nat.natNdstaddr arg i) e) narg 0
  else if cmd = IPF_EXP_IP6_SRCADDR then do
    thenLoop (v6 true) (natMaskEq6 nsrc6 arg) x3 (← thenLoop (v6 false) (natMaskEq6 osrc6 arg) x3 false)
  else if cmd = IPF_EXP_IP6_DSTADDR then do
    thenLoop (v6 true) (natMaskEq6 ndst6 arg) x3 (← thenLoop (v6 false) (natMaskEq6 odst6 arg) x3 false)
  else if cmd = IPF_EXP_IP6_ADDR then
    thenLoop true (fun i => do
      let e ← orIf (v6 false) (natMaskEq6 osrc6 arg i) false
      let e ← orIf (v6 false) (natMaskEq6 odst6 arg i) e
      let e ← orIf (v6 true) (natMaskEq6 nsrc6 arg i) e
      orIf (v6 true) (natMaskEq6 ndst6 arg i) e) x3 false
  else if cmd = IPF_EXP_UDP_PORT ∨ cmd = IPF_EXP_TCP_PORT then
    itemLoop (fun i => do return word nat.natNsport == (← arg i) || word nat.natNdport == (← arg i)) narg 0
  else if cmd = IPF_EXP_UDP_SPORT ∨ cmd = IPF_EXP_TCP_SPORT then
    itemLoop (fun i => do return word nat.natNsport == (← arg i)) narg 0
  else if cmd = IPF_EXP_UDP_DPORT ∨ cmd = IPF_EXP_TCP_DPORT then
    itemLoop (fun i => do return word nat.natNdport == (← arg i)) narg 0
  else if cmd = IPF_EXP_TCP_STATE then
    itemLoop (fun i => do return int (l.natTcpstate false) == (← arg i) || int (l.natTcpstate true) == (← arg i)) narg 0
  else if cmd = IPF_EXP_IDLE_GT then do return t > ((← arg 0).signExtend 64).toNat
  else some false

/-- The loop of `ipf_nat_matcharray`, for a number of passes. A term is taken to be `3 + x[2]` ints long. -/
def natLoop (nat : NatT) (l : NatRest) (t : ℕ) (array : List Word) : ℕ → ℤ → ℤ → Word → Res
  | 0, _, _, _ => .running
  | i + 1, n, x, e =>
    if n ≤ 0 then .ret e
    else
      match read array x with
      | none => .outside
      | some cmd =>
        if cmd = IPF_EXP_END then .ret e
        else
          match read array (x + 2) with
          | none => .outside
          | some narg =>
            let n := n - (narg.toInt + 3)
            if n < 0 then .ret 0
            else
              let p := cmd.sshiftRight 16
              if p ≠ 0 ∧ p ≠ int (nat.natPr true) then .ret 0
              else
                match read array (x + 1), natCmd nat l t cmd narg.toInt.toNat (fun j => read array (x + 3 + j)) with
                | some neg, some m =>
                  let e := BitVec.ofNat 32 m.toNat ^^^ neg
                  if e = 0 then .ret e else natLoop nat l t array i n (x + (3 + narg.toInt)) e
                | _, _ => .outside

/-- `ipf_nat_matcharray`, for a number of passes. -/
def ipfNatMatcharray (passes : ℕ) (nat : NatT) (l : NatRest) (t : ℕ) (array : List Word) : Res :=
  match array[0]? with
  | none => .outside
  | some n => natLoop nat l t array passes n.toInt 1 0

/-! ## The flushes -/

/-- The loop of `ipf_state_matchflush`, with the entries flushed so far. -/
def stateFlushLoop (passes ticks : ℕ) (array : List Word) : ℕ → Option ℕ → Softs → ℕ → Option (Softs × ℕ)
  | _, none, softs, flushed => some (softs, flushed)
  | 0, some _, _, _ => none
  | i + 1, some state, softs, flushed =>
    let statenext := softs.list.next state
    match ipfStateMatcharray passes (softs.is state) (idle ticks (softs.tq.tqeTouched state)) array with
    | .ret rv =>
      if rv = 0 then do
        let (softs, _) ← ipfStateDel softs state
        stateFlushLoop passes ticks array i statenext softs (flushed + 1)
      else stateFlushLoop passes ticks array i statenext softs flushed
    | _ => none

/-- `ipf_state_matchflush`: the table afterwards, and the error or the object with the number of entries flushed. Each
entry is given a number of passes. -/
def ipfStateMatchflush (passes ticks : ℕ) (softs : Softs) (data : Option Request) :
    Option (Softs × Except (ℕ × ℕ) ℕ) := do
  match ← ipfMatcharrayLoad data with
  | .error err => return (softs, .error err)
  | .ok array =>
    let (softs, flushed) ← stateFlushLoop passes ticks array softs.active.toNat (softs.list.head ()) softs 0
    return (softs, .ok flushed)

/-- The loop of `ipf_nat_matchflush`, with the entries flushed so far. -/
def natFlushLoop (passes ticks : ℕ) (rest : ℕ → NatRest) (array : List Word) :
    ℕ → Option ℕ → Softn → ℕ → Option (Softn × ℕ)
  | _, none, softn, flushed => some (softn, flushed)
  | 0, some _, _, _ => none
  | i + 1, some nat, softn, flushed =>
    let natnext := softn.list.next nat
    match ipfNatMatcharray passes (softn.nat nat) (rest nat) (idle ticks (rest nat).natTouched) array with
    | .ret e =>
      if e = 0 then do
        let softn ← ipfNatDelete softn nat false
        natFlushLoop passes ticks rest array i natnext softn (flushed + 1)
      else natFlushLoop passes ticks rest array i natnext softn flushed
    | _ => none

/-- `ipf_nat_matchflush`, likewise. -/
def ipfNatMatchflush (passes ticks : ℕ) (rest : ℕ → NatRest) (softn : Softn) (data : Option Request) :
    Option (Softn × Except (ℕ × ℕ) ℕ) := do
  match ← ipfMatcharrayLoad data with
  | .error err => return (softn, .error err)
  | .ok array =>
    let (softn, flushed) ← natFlushLoop passes ticks rest array softn.active.toNat (softn.list.head ()) softn 0
    return (softn, .ok flushed)

end Ipfilter.Matchflush
