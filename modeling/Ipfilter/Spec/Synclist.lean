import Ipfilter.Spec.Frrequest
import Ipfilter.Spec.Masks

/-!
# Synchronising rules with interfaces

`ipf_synclist` (`fil.c`) for a list of rules, with `ipf_resolvedest`, `ipf_resolvenic` and `ipf_lookup_res_num`. What the kernel
knows of interfaces are parameters: `GETIFP`, `ipf_ifpaddr` and `ipf_deliverlocal`. A `NULL` pointer that is followed is
`none`. -/

namespace Ipfilter.Synclist

open Masks Frrequest
open scoped Rules

def AF_INET : ℤ := 2
def AF_INET6 : ℤ := 10
def FRI_NORMAL : ℤ := 0
def FRI_LOOKUP : ℤ := 2
def IPLT_DSTLIST : ℕ := 3
def IPL_LOGIPF : ℕ := 0

/-- A `void *`: `NULL`, `(void *)-1`, an interface, or a destination list. -/
inductive Ptr
  | null
  | bad
  | nic (n : ℕ)
  | obj (o : Obj)
  deriving DecidableEq

/-- `frdest_t`; `dstlist` is whether `fd_type` is `FRD_DSTLIST`. -/
structure Frdest where
  fdName : ℤ
  dstlist : Bool
  fdPtr : Ptr
  fdIp6 : I6addr
  fdLocal : Bool

/-- The source or the destination of a rule. An address and a mask share their memory with the fields of a lookup. -/
structure Side where
  atype : ℤ
  ifpidx : ℤ
  addr : I6addr
  mask : I6addr
  type : ℕ
  num : ℕ
  ptr : Option Obj
  func : Bool

/-- What is read or written of a rule; `ipf` is whether its type is `FR_T_IPF`, built in or not. `frFront` are the bytes in
front of `fr_names`, of which the last ones are those of `fr_namelen`. -/
structure Frentry where
  frFamily : ℤ
  frIfnames : Fin 4 → ℤ
  frIfas : Fin 4 → Ptr
  frFront : List Char
  frNames : List Char
  ipf : Bool
  src : Side
  dst : Side
  frTifs : Fin 2 → Frdest
  frDif : Frdest

structure Env where
  getifp : List Char → ℕ → Option ℕ
  ifpaddr : ℕ → ℤ → Ptr → I6addr × I6addr → I6addr × I6addr
  deliverlocal : ℕ → ℕ → I6addr → Bool

section

variable (env : Env)

/-- `ipf_resolvenic` -/
def ipfResolvenic (name : List Char) (v : ℕ) : Ptr :=
  if name = [] then .null
  else if name = ['-'] ∨ name = ['*'] then .null
  else match env.getifp name v with
    | none => .bad
    | some n => .nic n

/-- `ipf_resolvedest`: the lookups, the destination and the error. -/
def ipfResolvedest (l : Lookups) (base : List Char) (fdp : Frdest) (v : ℕ) : Lookups × Frdest × ℕ :=
  if fdp.fdName ≠ -1 then
    if fdp.dstlist then
      match ipfLookupResName l .logipf IPLT_DSTLIST (frName base fdp.fdName) false with
      | (l, none, _) => (l, { fdp with fdPtr := .null }, ESRCH)
      | (l, some o, _) => (l, { fdp with fdPtr := .obj o }, 0)
    else
      match env.getifp (frName base fdp.fdName) v with
      | none => (l, { fdp with fdPtr := .bad }, 0)
      | some n => (l, { fdp with fdPtr := .nic n, fdLocal := env.deliverlocal v n fdp.fdIp6 }, 0)
  else (l, { fdp with fdPtr := .null }, 0)

/-- The devices by their numbers, of those that tables are kept for. -/
def devOf : ℕ → Option Dev
  | 0 => some .logipf
  | 3 => some .logauth
  | 7 => some .logcount
  | _ => none

/-- `ipf_lookup_res_num` -/
def ipfLookupResNum (l : Lookups) (unit type number : ℕ) (func : Bool) : Lookups × Option Obj × Bool :=
  match backend type, devOf unit with
  | none, _ => (l, none, false)
  | some _, none => (l, none, func)
  | some _, some dev => ipfLookupResName l dev type (toString number).toList func

/-- `v` -/
def version (family : ℤ) : ℕ := if family = AF_INET then 4 else if family = AF_INET6 then 6 else 0

/-- `fr_names + i`. An index of -1, which says that there is no name, is that of the last byte of `fr_namelen`. -/
def nameAt (front names : List Char) (i : ℤ) : List Char := frName (front ++ names) (front.length + i)

/-- The lookup of the interfaces of a rule. -/
def syncIfas (ifp : Option ℕ) (fr : Frentry) (v : ℕ) : Fin 4 → Ptr := fun i =>
  if ifp ≠ none ∧ some (fr.frIfas i) ≠ ifp.map .nic then fr.frIfas i
  else if fr.frIfnames i = -1 then fr.frIfas i
  else ipfResolvenic env (nameAt fr.frFront fr.frNames (fr.frIfnames i)) v

/-- The address and the mask of a side, from the interface of the name at `idx`. -/
def Side.dynamic (d : Side) (front names : List Char) (idx : ℤ) (v : ℕ) : Side :=
  if d.atype ≠ FRI_NORMAL ∧ d.atype ≠ FRI_LOOKUP then
    let r := env.ifpaddr v d.atype (ipfResolvenic env (nameAt front names idx) v) (d.addr, d.mask)
    { d with addr := r.1, mask := r.2 }
  else d

/-- One of the destinations of a rule: its interface limits what is done. -/
def syncDest (ifp : Option ℕ) (l : Lookups) (names : List Char) (fdp : Frdest) (v : ℕ) : Lookups × Frdest × ℕ :=
  if ifp = none ∨ some fdp.fdPtr = ifp.map .nic then ipfResolvedest env l names fdp v else (l, fdp, 0)

/-- The destinations of a rule, up to the first one that fails. -/
def syncDests (ifp : Option ℕ) (l : Lookups) (fr : Frentry) (v : ℕ) : Lookups × Frentry × ℕ :=
  match syncDest env ifp l fr.frNames (fr.frTifs 0) v with
  | (l, fdp, error) =>
    let fr := { fr with frTifs := Function.update fr.frTifs 0 fdp }
    if error ≠ 0 then (l, fr, error)
    else match syncDest env ifp l fr.frNames (fr.frTifs 1) v with
      | (l, fdp, error) =>
        let fr := { fr with frTifs := Function.update fr.frTifs 1 fdp }
        if error ≠ 0 then (l, fr, error)
        else match syncDest env ifp l fr.frNames fr.frDif v with
          | (l, fdp, error) => (l, { fr with frDif := fdp }, error)

/-- A lookup that has no pointer. Its type is passed as the device, and the device as the type. -/
def syncLookup (l : Lookups) (ipf : Bool) (d : Side) : Lookups × Side :=
  if ipf ∧ d.atype = FRI_LOOKUP ∧ d.ptr = none then
    let r := ipfLookupResNum l d.type IPL_LOGIPF d.num d.func
    (r.1, { d with ptr := r.2.1, func := r.2.2 })
  else (l, d)

/-- The interfaces of a rule, and its addresses that come from interfaces. -/
def syncAddrs (ifp : Option ℕ) (fr : Frentry) (v : ℕ) : Frentry :=
  let fr := { fr with frIfas := syncIfas env ifp fr v }
  if fr.ipf then { fr with
    src := fr.src.dynamic env fr.frFront fr.frNames fr.src.ifpidx v
    -- the index of the source again
    dst := fr.dst.dynamic env fr.frFront fr.frNames fr.src.ifpidx v }
  else fr

/-- The first loop, for one rule: the lookups, the rule and the error. -/
def syncRule (ifp : Option ℕ) (l : Lookups) (fr : Frentry) : Lookups × Frentry × ℕ :=
  let v := version fr.frFamily
  match syncDests env ifp l (syncAddrs env ifp fr v) v with
  | (l, fr, error) =>
    if error ≠ 0 then (l, fr, error)
    else
      let r := syncLookup l fr.ipf fr.src
      let r' := syncLookup r.1 fr.ipf fr.dst
      (r'.1, { fr with src := r.2, dst := r'.2 }, 0)

/-- The first loop: the lookups and the rules, and where it stopped with which error. -/
def syncRules (ifp : Option ℕ) : Lookups → List Frentry → Lookups × List Frentry × Option (ℕ × ℕ)
  | l, [] => (l, [], none)
  | l, fr :: rest =>
    match syncRule env ifp l fr with
    | (l, fr, error) =>
      if error ≠ 0 then (l, fr :: rest, some (0, error))
      else match syncRules ifp l rest with
        | (l, rest, stop) => (l, fr :: rest, stop.map fun s => (s.1 + 1, s.2))

/-- The body of the second loop. -/
def derefLookups (l : Lookups) (frt : Frentry) : Lookups :=
  let l := if frt.ipf ∧ frt.src.atype = FRI_LOOKUP ∧
      frt.src.ptr ≠ none then ipfLookupDeref l frt.src.type frt.src.ptr else l
  if frt.ipf ∧ frt.dst.atype = FRI_LOOKUP ∧ frt.dst.ptr ≠ none then ipfLookupDeref l frt.dst.type frt.dst.ptr else l

/-- The second loop: `frt`, the first rule, stays where it is, and `fr` goes on, over the rules behind it and then `NULL`. `pos`
is how far `fr` is from the first rule, `behind` how many rules there are from `fr` on. -/
def unwind (frt : Frentry) : ℕ → ℕ → Lookups → Option Lookups
  | pos, behind, l =>
    if pos = 0 then some l
    else
      let l := derefLookups l frt
      match behind with
      | 0 => none
      | behind + 1 => unwind frt (pos + 1) behind l

/-- `ipf_synclist`: the lookups, the rules and what is returned. -/
def ipfSynclist (ifp : Option ℕ) (l : Lookups) (rules : List Frentry) : Option (Lookups × List Frentry × ℕ) :=
  match syncRules env ifp l rules with
  | (l, rules, none) => some (l, rules, 0)
  | (l, rules, some (pos, error)) =>
    match rules with
    | [] => some (l, rules, error)
    | start :: _ => (unwind start pos (rules.length - pos) l).map fun l => (l, rules, error)

end

end Ipfilter.Synclist
