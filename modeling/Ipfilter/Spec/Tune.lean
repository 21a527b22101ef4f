import Ipfilter.Spec.Flags

/-!
# Tuneables

Arrays of tuneables, each with an entry without a name at its end, are chained by `ipft_next`; `ipf_ipftune` (`fil.c`) walks
them by cookies, which are addresses, and reads and sets the values. A tuneable is known by its array and its index; what is
stored at one that is behind the last is the entry without a name. Reading through its name, or through `NULL`, is `none`. A
`long` has 64 bits, the lowest first.
-/

namespace Ipfilter.Tune

abbrev Ulong := BitVec 64

abbrev Id := ℕ × ℕ

def IPFT_RDONLY : Flags := 1
def IPFT_WRDISABLED : Flags := 2

def EBUSY : ℕ := 16
def EEXIST : ℕ := 17
def EINVAL : ℕ := 22
def ESRCH : ℕ := 3

/-- `ipftuneable_t`; `ipftFunc` is whether there is a function that sets it. -/
structure Ipftuneable where
  ipftName : List Char
  ipftMin : Ulong
  ipftMax : Ulong
  ipftSz : ℕ
  ipftFlags : Flags
  ipftFunc : Bool

/-- The addresses: of a tuneable, of `ipf_tuners`, of `ipft_next` in a tuneable, and others. -/
inductive Cookie
  | null
  | entry (t : Id)
  | top
  | next (t : Id)
  | other (n : ℕ)
  deriving DecidableEq

/-- `ipftune_t`; the name up to its end. -/
structure Ipftune where
  ipftCookie : Cookie
  ipftUn : Ulong
  ipftMin : Ulong
  ipftMax : Ulong
  ipftSz : ℕ
  ipftFlags : Flags
  ipftName : List Char

/-- The arrays there are, and what `ipf_tuners` and `ipft_next` chain. -/
structure Tuners where
  arrays : List (List Ipftuneable)
  chain : List Id

structure Softc extends Tuners where
  vals : Id → Ulong
  ipfRunning : ℤ

/-- The tuneable at an address, when it has a name. -/
def Tuners.tune (s : Tuners) (id : Id) : Option Ipftuneable := s.arrays[id.1]?.bind fun a => a[id.2]?

/-- The tuneables of an array. -/
def ids (b n : ℕ) : List Id := (List.range n).map fun i => (b, i)

/-! ## The chain -/

/-- `ipf_tuners` after `ipf_tune_array_copy`: the last tuneable is followed by the entry without a name. -/
def tunersOf (main : List Ipftuneable) : Tuners := { arrays := [main], chain := ids 0 (main.length + 1) }

/-- `ipf_tune_array_link`: the array goes where the chain comes to its end, or to an entry without a name. -/
def ipfTuneArrayLink (s : Tuners) (array : List Ipftuneable) : Tuners × ℤ :=
  if array = [] then (s, -1)
  else
    ({ arrays := s.arrays ++ [array]
       chain := s.chain.takeWhile (fun t => (s.tune t).isSome) ++ ids s.arrays.length array.length }, 0)

/-- `ipf_tune_findbyname` -/
def findbyname (s : Tuners) (name : List Char) : List Id → Option (Option Id)
  | [] => some none
  | ta :: top =>
    match s.tune ta with
    | none => none
    | some t => if t.ipftName = name then some (some ta) else findbyname s name top

def ipfTuneFindbyname (s : Tuners) (name : List Char) : Option (Option Id) := findbyname s name s.chain

/-- `ipf_tune_add`: one tuneable, at the end of the chain. -/
def ipfTuneAdd (s : Tuners) (newtune : Ipftuneable) : Option (Tuners × ℕ) :=
  (ipfTuneFindbyname s newtune.ipftName).map fun ta => match ta with
    | some _ => (s, EEXIST)
    | none => ({ arrays := s.arrays ++ [[newtune]], chain := s.chain ++ [(s.arrays.length, 0)] }, 0)

/-- The loop over the first array, from the tuneable `(b, i)` on, of which `array` are those that are left. -/
def findInArray (cookie : Cookie) (b : ℕ) : ℕ → List Ipftuneable → Option (Id × Cookie)
  | _, [] => none
  | i, _ :: array =>
    if .entry (b, i) = cookie then some ((b, i), if array ≠ [] then .entry (b, i + 1) else .top)
    else findInArray cookie b (i + 1) array

/-- The loop over the chain: `tap` is the address of the pointer to its first tuneable. -/
def findInChain (cookie : Cookie) : Cookie → List Id → Option (Id × Cookie)
  | _, [] => none
  | tap, ta :: chain => if tap = cookie then some (ta, .next ta) else findInChain cookie (.next ta) chain

/-- `ipf_tune_findbycookie`: the tuneable and the next cookie. -/
def ipfTuneFindbycookie (s : Tuners) (cookie : Cookie) : Option (Option Id × Cookie) :=
  match s.chain with
  | [] => none
  | ta :: _ =>
    match findInArray cookie ta.1 ta.2 ((s.arrays[ta.1]?.getD []).drop ta.2) with
    | some (ta, next) => some (some ta, next)
    | none =>
      match findInChain cookie .top s.chain with
      | some (ta, next) => some (some ta, next)
      | none => some (none, .null)

/-! ## Requests -/

inductive Cmd
  | getnext
  | get
  | set
  deriving DecidableEq

/-- A request: what is copied in, or an error; the error of copying out; and what the function of a tuneable makes of the
values. -/
structure Req where
  cmd : Cmd
  inobj : Except ℕ Ipftune
  outobj : ℕ
  func : Id → Ulong → (Id → Ulong) → Id → Ulong

/-- What a request leaves: the values, the error, and the data that are copied out, with the tuneable they are about. -/
structure Reply where
  vals : Id → Ulong
  error : ℕ
  tu : Option Ipftune
  ta : Option Id

/-- The bits of a value of this size; others are not stored. -/
def sizeMask (sz : ℕ) : Option Ulong :=
  if sz = 8 then some 0xffffffffffffffff
  else if sz = 4 then some 0xffffffff
  else if sz = 2 then some 0xffff
  else if sz = 1 then some 0xff
  else none

/-- `ipft_un` after it was 0 and the value was read into it. -/
def fetch (t : Ipftuneable) (v : Ulong) : Ulong :=
  match sizeMask t.ipftSz with
  | none => 0
  | some m => v &&& m

/-- `ipf_outobj` -/
def reply (q : Req) (vals : Id → Ulong) (tu : Ipftune) (ta : Option Id) : Reply :=
  if q.outobj = 0 then { vals := vals, error := 0, tu := some tu, ta := ta }
  else { vals := vals, error := q.outobj, tu := none, ta := ta }

/-- `SIOCIPFGETNEXT` -/
def getnext (s : Softc) (q : Req) (tu : Ipftune) : Option Reply :=
  let found := if tu.ipftCookie ≠ .null then ipfTuneFindbycookie s.toTuners tu.ipftCookie
    else match s.chain with
      | [] => some (none, .other 1)
      | ta :: _ => some (some ta, .entry (ta.1, ta.2 + 1))
  match found with
  | none => none
  | some (none, cookie) => some (reply q s.vals { tu with ipftCookie := cookie } none)
  | some (some ta, cookie) =>
    match s.tune ta with
    | none => none
    | some t =>
      if t.ipftSz > 8 then some { vals := s.vals, error := EINVAL, tu := none, ta := some ta }
      else some (reply q s.vals
        { ipftCookie := cookie
          ipftUn := fetch t (s.vals ta)
          ipftMin := t.ipftMin
          ipftMax := t.ipftMax
          ipftSz := t.ipftSz
          ipftFlags := t.ipftFlags
          ipftName := t.ipftName.take 80 } (some ta))

/-- The tuneable that a request names, by its cookie or its name. -/
def lookup (s : Softc) (tu : Ipftune) : Option (Option Id) :=
  if tu.ipftCookie ≠ .null then (ipfTuneFindbycookie s.toTuners tu.ipftCookie).map Prod.fst
  else if tu.ipftName ≠ [] then ipfTuneFindbyname s.toTuners tu.ipftName
  else some none

/-- Storing a value: the old one goes into `ipft_un`. -/
def store (s : Softc) (q : Req) (tu : Ipftune) (ta : Id) (t : Ipftuneable) : Reply :=
  if t.ipftFunc then reply q (q.func ta tu.ipftUn s.vals) tu (some ta)
  else
    match sizeMask t.ipftSz with
    | none => reply q s.vals tu (some ta)
    | some m =>
      reply q (Function.update s.vals ta (tu.ipftUn &&& m)) { tu with ipftUn := tu.ipftUn &&& ~~~m ||| s.vals ta &&& m }
        (some ta)

/-- `ipf_ipftune` -/
def ipfIpftune (s : Softc) (q : Req) : Option Reply :=
  match q.inobj with
  | .error error => some { vals := s.vals, error := error, tu := none, ta := none }
  | .ok tu =>
    let tu := { tu with ipftName := tu.ipftName.take 79 }
    match q.cmd with
    | .getnext => getnext s q tu
    | .get | .set =>
      match lookup s tu with
      | none => none
      | some none => some { vals := s.vals, error := ESRCH, tu := none, ta := none }
      | some (some ta) =>
        match s.tune ta with
        | none => none
        | some t =>
          if q.cmd = .get then
            some (reply q s.vals { tu with
              ipftCookie := .entry ta
              ipftUn := fetch t (s.vals ta)
              ipftMin := t.ipftMin
              ipftMax := t.ipftMax
              ipftSz := t.ipftSz
              ipftFlags := t.ipftFlags } (some ta))
          else if has t.ipftFlags IPFT_WRDISABLED ∧ s.ipfRunning > 0 then
            some { vals := s.vals, error := EBUSY, tu := none, ta := some ta }
          else if tu.ipftUn < t.ipftMin ∨ tu.ipftUn > t.ipftMax then
            some { vals := s.vals, error := EINVAL, tu := none, ta := some ta }
          else some (store s q tu ta t)

end Ipfilter.Tune
