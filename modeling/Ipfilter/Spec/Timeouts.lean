import Ipfilter.Spec.Tune

/-!
# Timeouts that can be tuned

`ipf_settimeout` with `ipf_state_settimeout`, `ipf_nat_settimeout`, `ipf_settimeout_tcp` and `ipf_apply_timeout`: what
`SIOCIPFSET` does when the tuneable is a timeout. The code tells timeouts apart by their names, which are an enumeration here.
The queues of the state table and those of the NAT table have the same keys.
-/

namespace Ipfilter.Tune

abbrev Word := BitVec 32

/-- The names that begin with `tcp_`. -/
inductive TcpName
  | tcpIdleTimeout
  | tcpEstablished
  | tcpCloseWait
  | tcpLastAck
  | tcpTimeout
  | tcpListen
  | tcpHalfEstablished
  | tcpClosing
  | tcpSynReceived
  | tcpSynSent
  | tcpClosed
  | tcpHalfClosed
  | tcpTimeWait
  | other
  deriving DecidableEq, Repr

/-- `ipft_name` -/
inductive Name
  | tcp (t : TcpName)
  | udpTimeout
  | udpAckTimeout
  | icmpTimeout
  | icmpAckTimeout
  | ipTimeout
  | other
  deriving DecidableEq, Repr

/-- The names in `ipf_main_tuneables` with `ipf_settimeout`. -/
def timeoutTuneables : List Name :=
  [.tcp .tcpIdleTimeout, .tcp .tcpCloseWait, .tcp .tcpLastAck, .tcp .tcpTimeout, .tcp .tcpSynSent, .tcp .tcpSynReceived,
    .tcp .tcpClosed, .tcp .tcpHalfClosed, .tcp .tcpTimeWait, .udpTimeout, .udpAckTimeout, .icmpTimeout, .icmpAckTimeout,
      .ipTimeout]

/-- `IPF_TCPS_LISTEN` and so on -/
inductive Tcps
  | listen
  | synSent
  | synReceived
  | halfEstab
  | established
  | closeWait
  | finWait1
  | closing
  | lastAck
  | finWait2
  | timeWait
  | closed
  deriving DecidableEq, Repr

/-- A queue of a table. -/
inductive Key
  | tcp (st : Tcps)
  | udp
  | udpAck
  | icmp
  | icmpAck
  | ip
  deriving DecidableEq, Repr

/-- `ipftq_t`: its time to live, and the times at which its entries die. -/
structure Ipftq where
  ifqTtl : Word
  tqeDie : List Word
  deriving DecidableEq

/-- The values of the timeouts, and the queues. -/
structure Timeouts where
  pint : Name → Word
  stateq : Key → Ipftq
  natq : Key → Ipftq

/-- `IPF_TTLVAL` -/
def IPF_TTLVAL (x : Word) : Word := x / 1 * 2

/-- `ipf_apply_timeout` -/
def ipfApplyTimeout (head : Ipftq) (seconds : Word) : Ipftq :=
  let delta := head.ifqTtl - IPF_TTLVAL seconds
  { ifqTtl := IPF_TTLVAL seconds, tqeDie := head.tqeDie.map fun die => die + delta }

/-- The value that `ipf_sttab_init` gives a TCP queue. -/
def ipfSttabInit : Tcps → TcpName
  | .closed => .tcpClosed
  | .listen => .tcpTimeout
  | .synSent => .tcpSynSent
  | .synReceived => .tcpSynReceived
  | .established => .tcpIdleTimeout
  | .closeWait => .tcpHalfClosed
  | .finWait1 => .tcpHalfClosed
  | .closing => .tcpTimeout
  | .lastAck => .tcpLastAck
  | .finWait2 => .tcpCloseWait
  | .timeWait => .tcpTimeWait
  | .halfEstab => .tcpTimeout

/-- The timeout of a queue, with which that of the state table is initialised. NAT begins with values of its own,
`ipf_nat_defage` and `ipf_nat_deficmpage`, for the queues that are not for TCP, and with `tcp_last_ack` for closed
connections. -/
def Key.tuneable : Key → Name
  | .tcp st => .tcp (ipfSttabInit st)
  | .udp => .udpTimeout
  | .udpAck => .udpAckTimeout
  | .icmp => .icmpTimeout
  | .icmpAck => .icmpAckTimeout
  | .ip => .ipTimeout

/-- The queues that `ipf_settimeout_tcp` applies a timeout to; `none` where it returns -1. -/
def tcpApplied : TcpName → Option (List Tcps)
  | .tcpIdleTimeout => some [.established]
  | .tcpEstablished => some [.established]
  | .tcpCloseWait => some [.closeWait]
  | .tcpLastAck => some [.lastAck]
  | .tcpTimeout => some [.listen, .halfEstab, .closing]
  | .tcpListen => some [.listen]
  | .tcpHalfEstablished => some [.halfEstab]
  | .tcpClosing => some [.closing]
  | .tcpSynReceived => some [.synReceived]
  | .tcpSynSent => some [.synSent]
  | .tcpClosed => some [.closed]
  | .tcpHalfClosed => some [.closed]
  | .tcpTimeWait => some [.timeWait]
  | .other => none

/-- Apply a timeout to some queues of a table. -/
def applyTo (keys : List Key) (p : Word) (tab : Key → Ipftq) : Key → Ipftq :=
  fun k => if k ∈ keys then ipfApplyTimeout (tab k) p else tab k

/-- `ipf_settimeout_tcp` -/
def ipfSettimeoutTcp (t : TcpName) (p : Word) (tab : Key → Ipftq) : (Key → Ipftq) × ℤ :=
  match tcpApplied t with
  | some sts => (applyTo (sts.map .tcp) p tab, 0)
  | none => (tab, -1)

/-- `ipf_state_settimeout` -/
def ipfStateSettimeout (s : Timeouts) (t : Name) (p : Word) : Timeouts × ℤ :=
  if s.pint t = p then (s, 0)
  else
    let store := fun key => ({ s with stateq := applyTo [key] p s.stateq, pint := Function.update s.pint t p }, (0 : ℤ))
    match t with
    | .tcp tcp =>
      let (tab, rv) := ipfSettimeoutTcp tcp p s.stateq
      ({ s with stateq := tab }, rv)
    | .udpTimeout => store .udp
    | .udpAckTimeout => store .udpAck
    | .icmpTimeout => store .icmp
    | .icmpAckTimeout => store .icmpAck
    | .ipTimeout => store .ip
    | .other => (s, ESRCH)

/-- `ipf_nat_settimeout` -/
def ipfNatSettimeout (s : Timeouts) (t : Name) (p : Word) : Timeouts × ℤ :=
  let apply := fun key => ({ s with natq := applyTo [key] p s.natq }, (0 : ℤ))
  match t with
  | .tcp tcp =>
    let (tab, rv) := ipfSettimeoutTcp tcp p s.natq
    ({ s with natq := tab }, rv)
  | .udpTimeout => apply .udp
  | .udpAckTimeout => apply .udpAck
  | .icmpTimeout => apply .icmp
  | .icmpAckTimeout => apply .icmpAck
  | .ipTimeout => apply .ip
  | .other => (s, ESRCH)

/-- `ipf_settimeout` -/
def ipfSettimeout (s : Timeouts) (t : Name) (p : Word) : Timeouts × ℤ :=
  let (s, rv) := ipfStateSettimeout s t p
  if rv = -1 then (s, -1)
  else
    let (s, rv) := ipfNatSettimeout s t p
    if rv = -1 then (s, -1) else (s, 0)

/-- `SIOCIPFSET` for a timeout: all have the minimum 1, the maximum `0x7fffffff` and no flags. `outobj` is the error of copying
out, which replaces that of `ipf_settimeout`. -/
def setTimeout (s : Timeouts) (t : Name) (value : Ulong) (outobj : ℕ) : Timeouts × ℕ :=
  if value < 1 ∨ value > 0x7fffffff then (s, EINVAL)
  else ((ipfSettimeout s t (value.setWidth 32)).1, outobj)

end Ipfilter.Tune
