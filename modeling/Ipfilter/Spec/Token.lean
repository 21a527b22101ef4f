import Ipfilter.Spec.Flags

/-!
# Iterator tokens

The token functions of `fil.c`. A token holds the place of an ioctl that walks a
table in several calls: each call finds the token, uses it and drops the reference
it got. The list `ipf_token_head` owns one more reference, which a delete, an
expiry or a flush drops.

A token is an address; `live` is the list from `ipf_token_head` on, and memory that
is not on it has been freed. `none` is a step through freed memory.
-/

namespace Ipfilter.Token

/-- `ipftoken_t`; `ipt_data` is an address, 0 for NULL. -/
structure Ipftoken where
  iptCtx : ℕ
  iptData : ℕ
  iptDie : ℕ
  iptType : ℤ
  iptUid : ℤ
  iptRef : ℤ
  iptComplete : ℕ
  deriving DecidableEq, Repr

/-- The part of `ipf_main_softc_t` that the token functions use. `derefs` collects the
data that was handed to the dereference function of its type. -/
structure Softc where
  ticks : ℕ
  live : List ℕ
  tok : ℕ → Ipftoken
  derefs : List (ℤ × ℕ)

/-- `data != NULL && data != (void *)-1`, with all bits set as `(void *)-1`. -/
def hasData (data : ℕ) : Bool := data ≠ 0 ∧ data ≠ 2 ^ 64 - 1

/-- `ipf_token_unlink` and `KFREE`: the token leaves the list. -/
def Softc.free (s : Softc) (it : ℕ) : Softc := { s with live := s.live.erase it }

/-- `token->ipt_ref--` -/
def Ipftoken.drop (t : Ipftoken) : Ipftoken := { t with iptRef := t.iptRef - 1 }

/-- `ipf_token_deref`; the count it returns is the token's `iptRef`, or 0 once freed. -/
def ipfTokenDeref (s : Softc) (it : ℕ) : Option Softc :=
  if it ∈ s.live then
    let t := (s.tok it).drop
    let s := { s with tok := Function.update s.tok it t }
    if t.iptRef > 0 then some s
    else
      let s := if hasData t.iptData then { s with derefs := s.derefs ++ [(t.iptType, t.iptData)] } else s
      some (s.free it)
  else none

/-- The loop of `ipf_token_expire`, with a bound on its rounds. -/
def expireLoop : ℕ → Softc → Option Softc
  | 0, s => some s
  | n + 1, s =>
    match s.live with
    | [] => some s
    | it :: _ => if s.ticks < (s.tok it).iptDie then some s else (ipfTokenDeref s it).bind (expireLoop n)

/-- No more references than these can be dropped from the listed tokens. -/
def Softc.weight (s : Softc) : ℕ := (s.live.map fun it => (s.tok it).iptRef.toNat + 1).sum

/-- `ipf_token_expire` -/
def ipfTokenExpire (s : Softc) : Option Softc := expireLoop s.weight s

/-- `ipf_token_flush`: `next` is read before the token is dereferenced, so the loop visits
the tokens that were listed when it began. -/
def ipfTokenFlush (s : Softc) : Option Softc := s.live.foldlM ipfTokenDeref s

/-- The token a key names, among the listed ones that satisfy `p`. -/
def Softc.lookup (s : Softc) (p : Ipftoken → Bool) (type uid : ℤ) (ptr : ℕ) : Option ℕ :=
  s.live.find? fun it =>
    ptr = (s.tok it).iptCtx ∧ type = (s.tok it).iptType ∧ uid = (s.tok it).iptUid ∧ p (s.tok it)

/-- `ipf_token_del` -/
def ipfTokenDel (s : Softc) (type uid : ℤ) (ptr : ℕ) : Option (Softc × ℕ) :=
  match s.lookup (fun _ => true) type uid ptr with
  | none => some (s, ESRCH)
  | some it => do
    let s := { s with tok := Function.update s.tok it { s.tok it with iptComplete := 2 } }
    let s ← ipfTokenDeref s it
    return (s, 0)

/-- `ipf_token_mark_complete` -/
def ipfTokenMarkComplete (s : Softc) (it : ℕ) : Softc :=
  if (s.tok it).iptComplete = 0 then
    { s with tok := Function.update s.tok it { s.tok it with iptComplete := 1 } }
  else s

/-- `token->ipt_data = data` -/
def Softc.setData (s : Softc) (it data : ℕ) : Softc :=
  { s with tok := Function.update s.tok it { s.tok it with iptData := data } }

/-- The end of `ipf_token_find`: the token goes last, with one more reference. -/
def Softc.keep (s : Softc) (it : ℕ) : Softc :=
  { s with
    live := s.live ++ [it]
    tok := Function.update s.tok it
      { s.tok it with iptRef := (s.tok it).iptRef + 1, iptDie := s.ticks + 20 } }

/-- `ipf_token_find`; `new` is the address `KMALLOC` returned, if it did. -/
def ipfTokenFind (s : Softc) (new : Option ℕ) (type uid : ℤ) (ptr : ℕ) : Softc × Option ℕ :=
  match s.lookup (fun t => t.iptComplete < 2) type uid ptr with
  | none =>
    match new with
    | none => (s, none)
    | some it =>
      let t : Ipftoken := { iptCtx := ptr, iptData := 0, iptDie := 0, iptType := type, iptUid := uid,
                            iptRef := 1, iptComplete := 0 }
      (({ s with tok := Function.update s.tok it t } : Softc).keep it, some it)
  | some it => if (s.tok it).iptComplete > 0 then (s, none) else ((s.free it).keep it, some it)

/-! ## Interleavings -/

/-- The tokens with the ioctls that use them: `out it` counts the finds of `it` whose
dereference is still to come, and `cut it` says that a delete or a flush has dropped the
reference that the list had. -/
structure Sys where
  sc : Softc
  out : ℕ → ℕ
  cut : ℕ → Bool

/-- What may happen next. `find` may or may not get memory; `done`, `use` (which stores the
place of the walk in the token) and `mark` come from an ioctl that holds the token; `tick`
sets any time. -/
inductive Op where
  | find (new : Option ℕ) (type uid : ℤ) (ptr : ℕ)
  | done (it : ℕ)
  | use (it data : ℕ)
  | mark (it : ℕ)
  | del (type uid : ℤ) (ptr : ℕ)
  | expire
  | flush
  | tick (ticks : ℕ)

/-- The allocator returns memory that is not in use, and an ioctl only works on a token it
has found and not yet given back. -/
def Legal (s : Sys) : Op → Prop
  | .find new _ _ _ => ∀ it ∈ new, it ∉ s.sc.live ∧ s.out it = 0
  | .done it | .use it _ | .mark it => 0 < s.out it
  | _ => True

/-- One call. -/
def step (s : Sys) : Op → Option Sys
  | .find new type uid ptr =>
    match ipfTokenFind s.sc new type uid ptr with
    | (sc, none) => some { s with sc := sc }
    | (sc, some it) => some
        { sc := sc
          out := Function.update s.out it (s.out it + 1)
          cut := if it ∈ s.sc.live then s.cut else Function.update s.cut it false }
  | .done it => (ipfTokenDeref s.sc it).map fun sc =>
      { s with sc := sc, out := Function.update s.out it (s.out it - 1) }
  | .use it data => some { s with sc := s.sc.setData it data }
  | .mark it => some { s with sc := ipfTokenMarkComplete s.sc it }
  | .del type uid ptr => (ipfTokenDel s.sc type uid ptr).map fun r =>
      { s with
        sc := r.1
        cut := match s.sc.lookup (fun _ => true) type uid ptr with
          | none => s.cut
          | some it => Function.update s.cut it true }
  | .expire => (ipfTokenExpire s.sc).map fun sc => { s with sc := sc }
  | .flush => (ipfTokenFlush s.sc).map fun sc =>
      { s with sc := sc, cut := fun it => it ∈ s.sc.live || s.cut it }
  | .tick ticks => some { s with sc := { s.sc with ticks := ticks } }

/-- No tokens yet. -/
def Sys.init (ticks : ℕ) (tok : ℕ → Ipftoken) : Sys := ⟨⟨ticks, [], tok, []⟩, fun _ => 0, fun _ => false⟩

/-- The interleavings whose steps all meet `ok`. -/
inductive Run (ok : Sys → Op → Prop) (s₀ : Sys) : Sys → Prop where
  | init : Run ok s₀ s₀
  | step {s s' : Sys} (op : Op) : Run ok s₀ s → Legal s op → ok s op → step s op = some s' → Run ok s₀ s'

/-- The tokens that an expiry pass works on. -/
def Softc.expired (s : Softc) : List ℕ := s.live.takeWhile fun it => (s.tok it).iptDie ≤ s.ticks

/-- **The list gives its reference up once, and only for idle tokens on a timeout.** A delete
and a flush only meet tokens that no delete or flush has met before, and an expiry only
tokens that no ioctl holds. -/
def Once (s : Sys) : Op → Prop
  | .del type uid ptr => ∀ it ∈ s.sc.lookup (fun _ => true) type uid ptr, s.cut it = false
  | .flush => ∀ it ∈ s.sc.live, s.cut it = false
  | .expire => ∀ it ∈ s.sc.expired, s.out it = 0
  | _ => True

/-- No token is freed or short of references while an ioctl still holds it. -/
def Safe (s : Sys) : Prop :=
  ∀ it, 0 < s.out it → it ∈ s.sc.live ∧ (s.out it : ℤ) ≤ (s.sc.tok it).iptRef

/-- The references a pass took from a token: the difference, or all of them when it is gone. -/
def dropped (s s' : Softc) (it : ℕ) : ℤ :=
  if it ∈ s'.live then (s.tok it).iptRef - (s'.tok it).iptRef else (s.tok it).iptRef

end Ipfilter.Token
