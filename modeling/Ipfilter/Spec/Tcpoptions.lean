import Ipfilter.Spec.TcpWindow

/-!
# The options of a TCP header

`ipf_tcpoptions` (`ip_state.c`) copies the options of a SYN into a buffer and goes through them. Bytes are read through `char`;
whether that is signed is up to the machine. Reading outside of what was copied is `none`, and so is copying what the packet
does not have. Counters are left out.
-/

namespace Ipfilter.Tcpoptions

open TcpWindow

abbrev Byte := BitVec 8

def TCPOPT_EOL : Byte := 0
def TCPOPT_NOP : Byte := 1
def TCPOPT_MAXSEG : Byte := 2
def TCPOPT_WINDOW : Byte := 3
def TCPOPT_SACK_PERMITTED : Byte := 4
def TCPOLEN_MAXSEG : ℤ := 4
def TCPOLEN_WINDOW : ℤ := 3
def TCPOLEN_SACK_PERMITTED : ℤ := 2
def TCP_WSCALE_MAX : ℤ := 14

/-- `tcpdata_t` -/
structure Tcpdata extends TcpWindow.Tcpdata where
  tdMaxseg : BitVec 32
deriving DecidableEq

/-- What is read of the packet: `m` has all its bytes, `ipoff` of them before the IP header. -/
structure Packet where
  m : List Byte
  finPlen : ℤ
  finDlen : ℤ
  finIpoff : ℤ
  thOff : BitVec 4

/-- `(int)*s` -/
def charInt (signed : Bool) (c : Byte) : ℤ := if signed then c.toInt else c.toNat

/-- `td_winscale`, from its byte. -/
def winscale (signed : Bool) (c : Byte) : BitVec 32 :=
  let i := charInt signed c
  BitVec.ofInt 32 (if i > TCP_WSCALE_MAX then TCP_WSCALE_MAX else if i < 0 then 0 else i)

/-- `td_maxseg`, from its two bytes. -/
def maxseg (signed : Bool) (hi lo : Byte) : BitVec 32 :=
  BitVec.ofInt 32 (charInt signed hi * 256 + charInt signed lo)

/-- The switch: what is recorded, and `retval`. -/
def record (signed : Bool) (buf : List Byte) (s : ℕ) (opt : Byte) (ol : ℤ) (td : Tcpdata) (retval : ℤ) :
    Option (Tcpdata × ℤ) :=
  if opt = TCPOPT_WINDOW then
    if ol = TCPOLEN_WINDOW then
      buf[s + 2]?.map fun c =>
        ({ td with tdWinscale := winscale signed c, tdWinflags := td.tdWinflags ||| (TCP_WSCALE_SEEN ||| TCP_WSCALE_FIRST) },
          retval)
    else some (td, -1)
  else if opt = TCPOPT_MAXSEG then
    if ol = TCPOLEN_MAXSEG then do
      let hi ← buf[s + 2]?
      let lo ← buf[s + 3]?
      return ({ td with tdMaxseg := maxseg signed hi lo }, retval)
    else some (td, -1)
  else if opt = TCPOPT_SACK_PERMITTED then
    if ol = TCPOLEN_SACK_PERMITTED then some ({ td with tdWinflags := td.tdWinflags ||| TCP_SACK_PERMIT }, retval)
    else some (td, -1)
  else some (td, retval)

/-- The loop; the first argument bounds the number of its turns. -/
def tcpoptionsLoop (signed : Bool) (buf : List Byte) : ℕ → ℕ → ℤ → Tcpdata → ℤ → Option (Tcpdata × ℤ)
  | n, s, len, td, retval =>
    if ¬len > 0 then some (td, retval)
    else match n with
      | 0 => none
      | n + 1 => do
        let opt ← buf[s]?
        if opt = TCPOPT_EOL then some (td, retval)
        else if opt = TCPOPT_NOP then tcpoptionsLoop signed buf n (s + 1) (len - 1) td retval
        else if len < 2 then some (td, retval)
        else do
          let ol := charInt signed (← buf[s + 1]?)
          if ol < 2 ∨ ol > len then some (td, retval)
          else do
            let (td, retval) ← record signed buf s opt ol td retval
            tcpoptionsLoop signed buf n (s + ol.toNat) (len - ol) td retval

/-- `COPYDATA` -/
def copydata (m : List Byte) (off len : ℤ) : Option (List Byte) :=
  if 0 ≤ off ∧ 0 ≤ len ∧ off + len ≤ m.length then some ((m.drop off.toNat).take len.toNat) else none

/-- `ipf_tcpoptions`: what it returns, and leaves in `td`. The buffer has 64 bytes. -/
def ipfTcpoptions (signed : Bool) (p : Packet) (td : Tcpdata) : Option (ℤ × Tcpdata) :=
  let hlen : ℤ := p.thOff.toNat <<< 2
  if p.finDlen < hlen then some (0, td)
  else
    let off := p.finPlen - p.finDlen + 20 + p.finIpoff
    let mlen := p.m.length - off
    let retval : ℤ := if hlen - 20 > mlen then 0 else 1
    let len := if hlen - 20 > mlen then mlen else hlen - 20
    if len > 64 then none
    else do
      let buf ← copydata p.m off len
      let (td, retval) ← tcpoptionsLoop signed buf 64 0 len td retval
      return (retval, td)

end Ipfilter.Tcpoptions
