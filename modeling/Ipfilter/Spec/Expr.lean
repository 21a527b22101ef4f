import Mathlib.Algebra.Ring.Int.Defs
import Mathlib.Algebra.Ring.Nat

/-!
# Match expressions

Rules of type `FR_T_IPFEXPR` carry an array of ints that `parseipfexpr` builds from a text such as
`ip.src=10.1.0.0/16;tcp.port!=80,443;`. `ipf_matcharray_verify` checks the array when the rule is
loaded, and `ipf_fr_matcharray` runs it against a packet.

The first int is the length of the array. A term is a command, whether it is negated, a number of
arguments, its size, and the arguments. The last int is `IPF_EXP_END`.
-/

namespace Ipfilter.Expr

scoped instance neZeroFour : NeZero 4 := ⟨by decide⟩

abbrev Word := BitVec 32

/-! ## Commands -/

def IPF_EXP_IP_PR : Word := 0x00000001
def IPF_EXP_IP_ADDR : Word := 0x00000002
def IPF_EXP_IP_SRCADDR : Word := 0x00000003
def IPF_EXP_IP_DSTADDR : Word := 0x00000004
def IPF_EXP_IP6_ADDR : Word := 0x00000005
def IPF_EXP_IP6_SRCADDR : Word := 0x00000006
def IPF_EXP_IP6_DSTADDR : Word := 0x00000007
def IPF_EXP_TCP_FLAGS : Word := 0x00060001
def IPF_EXP_TCP_PORT : Word := 0x00060002
def IPF_EXP_TCP_SPORT : Word := 0x00060003
def IPF_EXP_TCP_DPORT : Word := 0x00060004
def IPF_EXP_UDP_PORT : Word := 0x00110002
def IPF_EXP_UDP_SPORT : Word := 0x00110003
def IPF_EXP_UDP_DPORT : Word := 0x00110004
def IPF_EXP_IDLE_GT : Word := 0x01000001
def IPF_EXP_TCP_STATE : Word := 0x01060002
def IPF_EXP_END : Word := 0xffffffff

/-- The keywords, in the order of `opwords`. -/
inductive Keyword where
  | ipAddr
  | ip6Addr
  | ipP
  | ipSrc
  | ipDst
  | ip6Src
  | ip6Dst
  | tcpPort
  | tcpDport
  | tcpSport
  | tcpFlags
  | udpPort
  | udpDport
  | udpSport
  | tcpState
  | idleGt
  deriving DecidableEq, Repr

/-- `ipfopentry_t` -/
structure Ipfopentry where
  ipoeCmd : Word
  ipoeNbasearg : ℕ
  ipoeMaxarg : ℕ
  ipoeArgsize : ℕ
  ipoeWord : String

/-- The entries of `opwords`. -/
def Keyword.entry : Keyword → Ipfopentry
  | .ipAddr => ⟨IPF_EXP_IP_ADDR, 2, 0, 1, "ip.addr"⟩
  | .ip6Addr => ⟨IPF_EXP_IP6_ADDR, 2, 0, 4, "ip6.addr"⟩
  | .ipP => ⟨IPF_EXP_IP_PR, 1, 0, 1, "ip.p"⟩
  | .ipSrc => ⟨IPF_EXP_IP_SRCADDR, 2, 0, 1, "ip.src"⟩
  | .ipDst => ⟨IPF_EXP_IP_DSTADDR, 2, 0, 1, "ip.dst"⟩
  | .ip6Src => ⟨IPF_EXP_IP6_SRCADDR, 2, 0, 4, "ip6.src"⟩
  | .ip6Dst => ⟨IPF_EXP_IP6_DSTADDR, 2, 0, 4, "ip6.dst"⟩
  | .tcpPort => ⟨IPF_EXP_TCP_PORT, 1, 0, 1, "tcp.port"⟩
  | .tcpDport => ⟨IPF_EXP_TCP_DPORT, 1, 0, 1, "tcp.dport"⟩
  | .tcpSport => ⟨IPF_EXP_TCP_SPORT, 1, 0, 1, "tcp.sport"⟩
  | .tcpFlags => ⟨IPF_EXP_TCP_FLAGS, 2, 0, 1, "tcp.flags"⟩
  | .udpPort => ⟨IPF_EXP_UDP_PORT, 1, 0, 1, "udp.port"⟩
  | .udpDport => ⟨IPF_EXP_UDP_DPORT, 1, 0, 1, "udp.dport"⟩
  | .udpSport => ⟨IPF_EXP_UDP_SPORT, 1, 0, 1, "udp.sport"⟩
  | .tcpState => ⟨IPF_EXP_TCP_STATE, 1, 0, 1, "tcp.state"⟩
  | .idleGt => ⟨IPF_EXP_IDLE_GT, 1, 1, 1, "idle-gt"⟩

def opwords : List Keyword :=
  [.ipAddr, .ip6Addr, .ipP, .ipSrc, .ipDst, .ip6Src, .ip6Dst, .tcpPort, .tcpDport, .tcpSport, .tcpFlags,
    .udpPort, .udpDport, .udpSport, .tcpState, .idleGt]

/-- The number of ints one item takes. -/
def Keyword.width (k : Keyword) : ℕ := k.entry.ipoeNbasearg * k.entry.ipoeArgsize

/-! ## `parseipfexpr` -/

/-- The functions that read items, which ask the resolver and the databases of the host, and the
byte order of the host. -/
structure Lib where
  genmask : List Char → Option Word
  gethost : List Char → Option Word
  genmask6 : List Char → Option (Fin 4 → Word)
  gethost6 : List Char → Option (Fin 4 → Word)
  getproto : List Char → Option Word
  getport : List Char → List Char → Option Word
  tcpflags : List Char → Word
  atoi : List Char → Word
  htons : Word → Word

/-- How parsing fails: with a message (or with none), or by following a bad pointer. -/
inductive Stop where
  | error (msg : Option String)
  | fault
  deriving DecidableEq, Repr

/-- A term as it is stored. `narg` and `size` follow from the rest. -/
structure Term where
  op : Keyword
  not : Bool
  items : ℕ
  args : List Word
  items_pos : 0 < items
  length_args : args.length = items * op.width
  deriving DecidableEq

/-- `ISSPACE` -/
def isspace (c : Char) : Bool := c = ' ' ∨ (9 ≤ c.toNat ∧ c.toNat ≤ 13)

/-- An item split at the first slash. -/
def splitDelim (s : List Char) : List Char × Option (List Char) :=
  if '/' ∈ s then (s.takeWhile (· ≠ '/'), some ((s.dropWhile (· ≠ '/')).drop 1)) else (s, none)

/-- An item of `ip.addr`, `ip.src` or `ip.dst`. -/
def parseAddr (lib : Lib) (s : List Char) : Except Stop (List Word) := do
  let (s, delim) := splitDelim s
  let mask ← match delim with
    | some d => match lib.genmask d with
      | none => .error (.error (some "genmask failed"))
      | some mask => .ok mask
    | none => .ok 0xffffffff
  match lib.gethost s with
  | none => .error (.error (some "gethost failed"))
  | some addr => .ok [addr, mask]

/-- An item of `ip6.addr`, `ip6.src` or `ip6.dst`. -/
def parseAddr6 (lib : Lib) (s : List Char) : Except Stop (List Word) := do
  let (s, delim) := splitDelim s
  let mask ← match delim with
    | some d => match lib.genmask6 d with
      | none => .error (.error (some "genmask failed"))
      | some mask => .ok mask
    | none => .ok (fun _ => 0xffffffff)
  match lib.gethost6 s with
  | none => .error (.error (some "gethost failed"))
  | some addr => .ok [addr 0, addr 1, addr 2, addr 3, mask 0, mask 1, mask 2, mask 3]

/-- An item of `tcp.flags`. -/
def parseFlags (lib : Lib) (s : List Char) : List Word :=
  match splitDelim s with
  | (s, some d) => [lib.tcpflags s, lib.tcpflags d]
  | (s, none) => [lib.tcpflags s, 0xff]

/-- An item of the keywords for ports, with the name of the protocol. -/
def parsePort (lib : Lib) (proto s : List Char) : Except Stop (List Word) :=
  match lib.getport s proto with
  | none => .error (.error none)
  | some port => .ok [port]

/-- One pass of the loop over the items. -/
def parseItem (lib : Lib) (op : Keyword) (s : List Char) : Except Stop (List Word) :=
  match op with
  | .ipAddr | .ipSrc | .ipDst => parseAddr lib s
  | .ip6Addr | .ip6Src | .ip6Dst => parseAddr6 lib s
  | .ipP => match lib.getproto s with
    | none => .error (.error none)
    | some p => .ok [p]
  | .tcpFlags => .ok (parseFlags lib s)
  | .tcpPort | .tcpSport | .tcpDport => parsePort lib ['t', 'c', 'p'] s
  | .udpPort | .udpSport | .udpDport => parsePort lib ['u', 'd', 'p'] s
  | .tcpState => .ok [lib.atoi s]
  | .idleGt => .error (.error (some "unknown word"))

/-- One operand. `mem` is what the memory for the arguments holds before: an empty item at the end
is counted and not parsed. -/
def parseOp (lib : Lib) (mem : ℕ → Word) (ops : List Char) : Except Stop Term := do
  let pos := ops.idxOf '='
  if '=' ∉ ops ∨ pos < 2 then .error (.error (some "bad 'arg' vlaue"))
  else
    let not := ops[pos - 1]? == some '!'
    let word := if not then ops.take (pos - 1) else ops.take pos
    let arg := ops.drop (pos + 1)
    match opwords.find? (fun k => k.entry.ipoeWord.toList = word) with
    | none => .error (.error (some ("keyword (" ++ String.ofList (word.take 10) ++ ") not found")))
    | some op =>
      let items := arg.count ',' + 1
      if op.entry.ipoeMaxarg ≠ 0 ∧ items > op.entry.ipoeMaxarg then .error (.error (some "too many items"))
      else
        let texts := arg.splitOn ','
        let parsed ← (if texts.getLast? = some [] then texts.dropLast else texts).mapM (parseItem lib op)
        let args := (List.range (items * op.width)).map fun j => (parsed.flatten[j]?).getD (mem j)
        return ⟨op, not, items, args, Nat.succ_pos _, by simp [args]⟩

/-- The operands of a text. Memory for the first one is cleared, for the others it is as `realloc`
leaves it. The character before the start is read of an empty text. -/
def parseTerms (lib : Lib) (mem : ℕ → ℕ → Word) (line : List Char) : Except Stop (List Term) :=
  let temp := line.filter (! isspace ·)
  match temp.getLast? with
  | none => .error .fault
  | some c =>
    if c ≠ ';' then .error (.error (some "last character not ';'"))
    else
      ((temp.splitOn ';').filter (· ≠ [])).zipIdx.mapM fun ops =>
        parseOp lib (if ops.2 = 0 then fun _ => 0 else mem ops.2) ops.1

/-- The ints of a term. -/
def Term.ints (t : Term) : List Word :=
  [t.op.entry.ipoeCmd, if t.not then 1 else 0, BitVec.ofNat 32 (t.items * t.op.entry.ipoeNbasearg),
    BitVec.ofNat 32 (t.items * t.op.width + 4)] ++ t.args

/-- The array for some terms. -/
def oplist (ts : List Term) : List Word :=
  BitVec.ofNat 32 ((ts.flatMap Term.ints).length + 2) :: ts.flatMap Term.ints ++ [IPF_EXP_END]

/-- `parseipfexpr`. Without any operand there is no memory to write to. -/
def parseipfexpr (lib : Lib) (mem : ℕ → ℕ → Word) (line : List Char) : Except Stop (List Word) := do
  let ts ← parseTerms lib mem line
  if ts = [] then .error .fault else return oplist ts

/-! ## `ipf_matcharray_verify` -/

/-- The loop of `ipf_matcharray_verify`; `none` when it reads outside of the array. -/
def verifyLoop (array : List Word) (maxidx : ℕ) : ℕ → ℕ → Option ℤ
  | 0, _ => none
  | n + 1, i =>
    if i < maxidx then do
      let size ← array[i + 3]?
      if size.toInt < 1 ∨ size.toInt + i > maxidx then return -1
      else verifyLoop array maxidx n (i + size.toInt.toNat)
    else some 0

/-- `ipf_matcharray_verify` -/
def ipfMatcharrayVerify (array : List Word) (arraysize : ℕ) : Option ℤ := do
  let nelem := arraysize / 4
  let size ← array[0]?
  if size.toInt < 6 ∨ arraysize < 24 ∨ arraysize > 4096 then return -1
  else if size.toInt * 4 ≠ (arraysize : ℤ) then return -1
  else
    let maxidx := nelem - 1
    let last ← array[maxidx]?
    if last ≠ IPF_EXP_END then return -1 else verifyLoop array maxidx nelem 1

/-! ## `ipf_fr_matcharray` -/

/-- The fields of `fr_info_t` that are compared. Ports are in host byte order. -/
structure FrInfo where
  finV : BitVec 4
  finP : BitVec 8
  finSrc : Fin 4 → Word
  finDst : Fin 4 → Word
  finSport : Word
  finDport : Word
  finTcpf : BitVec 8

def FrInfo.finSaddr (fin : FrInfo) : Word := fin.finSrc 0

def FrInfo.finDaddr (fin : FrInfo) : Word := fin.finDst 0

/-- How running an array ends: with a value, by reading outside of it, or not yet. -/
inductive Res where
  | ret (rv : Word)
  | outside
  | running
  deriving DecidableEq, Repr

/-- `array[x]` -/
def read (array : List Word) (x : ℤ) : Option Word := if x < 0 then none else array[x.toNat]?

/-- `for (i = 0; !rv && i < narg; i++) rv |= ...` -/
def itemLoop (test : ℕ → Option Bool) : ℕ → ℕ → Option Bool
  | 0, _ => some false
  | n + 1, i => do if ← test i then return true else itemLoop test n (i + 1)

/-- `(a & arg[2i+1]) == arg[2i]` -/
def maskEq (a : Word) (arg : ℕ → Option Word) (i : ℕ) : Option Bool := do
  let mask ← arg (i * 2 + 1)
  let addr ← arg (i * 2)
  return a &&& mask == addr

/-- `IP6_MASKEQ(a, &arg[8i+4], &arg[8i])` -/
def ip6MaskEq (a : Fin 4 → Word) (arg : ℕ → Option Word) (i : ℕ) : Option Bool := do
  if a 0 &&& (← arg (i * 8 + 4)) ≠ (← arg (i * 8)) then return false
  else if a 1 &&& (← arg (i * 8 + 5)) ≠ (← arg (i * 8 + 1)) then return false
  else if a 2 &&& (← arg (i * 8 + 6)) ≠ (← arg (i * 8 + 2)) then return false
  else return a 3 &&& (← arg (i * 8 + 7)) == (← arg (i * 8 + 3))

/-- The switch over the commands. -/
def evalCmd (fin : FrInfo) (cmd : Word) (narg : ℕ) (arg : ℕ → Option Word) : Option Bool :=
  if cmd = IPF_EXP_IP_PR then
    itemLoop (fun i => do return fin.finP.setWidth 32 == (← arg i)) narg 0
  else if cmd = IPF_EXP_IP_SRCADDR then
    if fin.finV ≠ 4 then some false else itemLoop (maskEq fin.finSaddr arg) narg 0
  else if cmd = IPF_EXP_IP_DSTADDR then
    if fin.finV ≠ 4 then some false else itemLoop (maskEq fin.finDaddr arg) narg 0
  else if cmd = IPF_EXP_IP_ADDR then
    if fin.finV ≠ 4 then some false
    else itemLoop (fun i => do return (← maskEq fin.finSaddr arg i) || (← maskEq fin.finDaddr arg i)) narg 0
  else if cmd = IPF_EXP_IP6_SRCADDR then
    if fin.finV ≠ 6 then some false else itemLoop (ip6MaskEq fin.finSrc arg) narg 0
  else if cmd = IPF_EXP_IP6_DSTADDR then
    if fin.finV ≠ 6 then some false else itemLoop (ip6MaskEq fin.finDst arg) narg 0
  else if cmd = IPF_EXP_IP6_ADDR then
    if fin.finV ≠ 6 then some false
    else itemLoop (fun i => do return (← ip6MaskEq fin.finSrc arg i) || (← ip6MaskEq fin.finDst arg i)) narg 0
  else if cmd = IPF_EXP_UDP_PORT ∨ cmd = IPF_EXP_TCP_PORT then
    itemLoop (fun i => do return fin.finSport == (← arg i) || fin.finDport == (← arg i)) narg 0
  else if cmd = IPF_EXP_UDP_SPORT ∨ cmd = IPF_EXP_TCP_SPORT then
    itemLoop (fun i => do return fin.finSport == (← arg i)) narg 0
  else if cmd = IPF_EXP_UDP_DPORT ∨ cmd = IPF_EXP_TCP_DPORT then
    itemLoop (fun i => do return fin.finDport == (← arg i)) narg 0
  else if cmd = IPF_EXP_TCP_FLAGS then itemLoop (maskEq (fin.finTcpf.setWidth 32) arg) narg 0
  else some false

/-- The loop of `ipf_fr_matcharray`, for a number of passes. The step goes `3 + ipfe_size` ints
ahead and clears `rv`. -/
def matchLoop (fin : FrInfo) (array : List Word) : ℕ → ℤ → ℤ → Word → Res
  | 0, _, _, _ => .running
  | i + 1, n, x, rv =>
    if n ≤ 0 then .ret rv
    else
      match read array x with
      | none => .outside
      | some cmd =>
        if cmd = IPF_EXP_END then .ret rv
        else
          match read array (x + 1), read array (x + 2), read array (x + 3) with
          | some neg, some narg, some size =>
            let n := n - size.toInt
            let p := cmd.sshiftRight 16
            if p ≠ 0 ∧ p ≠ fin.finP.setWidth 32 then .ret rv
            else
              match evalCmd fin cmd narg.toInt.toNat (fun j => read array (x + 4 + j)) with
              | none => .outside
              | some m =>
                let rv := (rv ||| BitVec.ofNat 32 m.toNat) ^^^ neg
                if rv = 0 then .ret rv else matchLoop fin array i n (x + (3 + size.toInt)) 0
          | _, _, _ => .outside

/-- `ipf_fr_matcharray`, for a number of passes. -/
def ipfFrMatcharray (passes : ℕ) (fin : FrInfo) (array : List Word) : Res :=
  match array[0]? with
  | none => .outside
  | some n => matchLoop fin array passes n.toInt 1 0

end Ipfilter.Expr
