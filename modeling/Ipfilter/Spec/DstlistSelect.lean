import Ipfilter.Spec.Dstlist

/-!
# Selections for packets

What `ipf_dstlist_select` reads of a packet, the index that it hashes from it, and selections one after another. The first word
of the MD5 digest is a parameter: a function of what is hashed, which are the seed of the list and addresses.
-/

namespace Ipfilter.Dstlist

variable {Name : Type}

/-- A packet: its family and addresses, what `ipf_random` returns for it, and its interface. -/
structure Packet where
  finFamily : ℕ
  finSrc6 : BitVec 128
  finDst6 : BitVec 128
  random : ℕ
  finIfp : ℕ

/-- The addresses that a policy hashes. -/
def Policy.addresses : Policy → Packet → List (BitVec 128)
  | .hashed, p => [p.finSrc6, p.finDst6]
  | .srchash, p => [p.finSrc6]
  | .dsthash, p => [p.finDst6]
  | _, _ => []

/-- What is reduced to an index of the array. -/
def Policy.index (digest : BitVec 32 → List (BitVec 128) → BitVec 32) (seed : BitVec 32) (policy : Policy) (p : Packet) :
    ℕ :=
  if policy = .random then p.random else (digest seed (policy.addresses p)).toNat

section

variable (digest : BitVec 32 → List (BitVec 128) → BitVec 32) (seed : BitVec 32)

/-- `ipf_dstlist_select` for a packet: the node. -/
def Softd.select (w : Softd Name) (d : ℕ) (p : Packet) : Option ℕ :=
  (ipfDstlistSelect w d p.finFamily ((w.tab d).policy.index digest seed p)).bind Prod.snd

/-- `ipf_dstlist_select_node` for a packet: what it leaves. -/
def Softd.selectNode (w : Softd Name) (d : ℕ) (p : Packet) : Option (Softd Name) :=
  (ipfDstlistSelectNode w d p.finFamily ((w.tab d).policy.index digest seed p) p.finIfp).map Prod.fst

/-- The nodes for packets that come one after another. There is no result if a packet gets none. -/
def Softd.selections (d : ℕ) : Softd Name → List Packet → Option (List ℕ)
  | _, [] => some []
  | w, p :: ps =>
    match w.select digest seed d p, w.selectNode digest seed d p with
    | some x, some w' => (Softd.selections d w' ps).map (x :: ·)
    | _, _ => none

end

/-- The nodes of a list, in the order of the array. -/
def Softd.nodeList (w : Softd Name) (d : ℕ) : List ℕ :=
  match (w.tab d).dests with
  | none => []
  | some a => (List.range (w.tab d).nodes).filterMap (w.slot a)

end Ipfilter.Dstlist
