import Ipfilter.Chain.Lists

/-!
# Proxy sessions and references to proxies

`ip_proxy.c`: the sessions (`ap_session_t`) that `ipf_proxy_new` makes for NAT entries, `ipf_proxy_free` gives back and
`ipf_proxy_check` may abandon, and the references that `ipf_proxy_lookup` takes to a proxy; with the parts of `ip_nat.c` that
call them: rules that are loaded and removed, entries that are made and deleted.

Memory of one kind that is allocated is a list of addresses. `none` is a step into memory that was freed, or the release of
something that is not allocated. Counters of events, logs and what a proxy does with the bytes of a packet are left out.
-/

namespace Ipfilter.ProxyLife

open Chain

/-! ## Data -/

/-- What the `apr_del` of a proxy does to the private data of a session: there is none, it leaves the data to the caller (`ftp`,
`tftp`, `rcmd`, `ipsec`, `pptp`, `rpcbu`), or it frees it and clears the pointer (`dns`). -/
inductive DelHook where
  | null
  | keeps
  | frees
  deriving DecidableEq

/-- `aproxy_t`. `aprDelete` is the flag `APR_DELETE`, `aprNew` is whether there is an `apr_new`. -/
structure Aproxy (Name : Type) where
  aprLabel : Name
  aprP : ℕ
  aprDelete : Bool
  aprRef : ℤ
  aprNew : Bool
  aprDel : DelHook

/-- `ipnat_t`, the part for proxies: `inPlabel` is the name of a proxy (`in_plabel` is not -1), `inRedirect` is `NAT_REDIRECT`
in `in_redir`, `inPurge` is the flag `IPN_PURGE`. Of two fields, `false` is the first one. -/
structure Ipnat (Name : Type) where
  inPlabel : Option Name
  inRedirect : Bool
  inPr : Bool → ℕ
  inAge : Bool → ℕ
  inApr : Option ℕ
  inUse : ℤ
  inPurge : Bool

/-- `ap_session_t` -/
structure ApSession where
  apsApr : ℕ
  apsNat : ℕ
  apsData : Option ℕ
  apsPsiz : ℕ

/-- `nat_t`; `natMe` is whether `nat_me` is set. -/
structure NatT where
  natPtr : Option ℕ
  natAps : Option ℕ
  natRef : ℤ
  natMe : Bool

/-- `ipf_proxy_softc_t` and `ipf_nat_softc_t`. `proxies` is `ips_proxies`, `natList` is `ipf_nat_list`, `instances` is
`ipf_nat_instances`; `sess` is `ips_sess_list` with the fields `aps_next`. Of rules, entries, sessions and private data,
`rules`, `nats`, `sessions` and `data` are allocated. -/
structure Soft (Name : Type) where
  proxies : List ℕ
  apr : ℕ → Aproxy Name
  ipn : ℕ → Ipnat Name
  rules : List ℕ
  natList : List ℕ
  nat : ℕ → NatT
  nats : List ℕ
  instances : List ℕ
  sess : Mem Unit ℕ
  aps : ℕ → ApSession
  sessions : List ℕ
  data : List ℕ

variable {Name : Type}

def Soft.updNat (w : Soft Name) (e : ℕ) (f : NatT → NatT) : Soft Name :=
  { w with nat := Function.update w.nat e (f (w.nat e)) }

/-- `apr_ref` goes up by `k`. -/
def Soft.addRef (w : Soft Name) (a : ℕ) (k : ℤ) : Soft Name :=
  { w with apr := Function.update w.apr a { w.apr a with aprRef := (w.apr a).aprRef + k } }

/-- `in_use` goes up by `k`. -/
def Soft.addUse (w : Soft Name) (n : ℕ) (k : ℤ) : Soft Name :=
  { w with ipn := Function.update w.ipn n { w.ipn n with inUse := (w.ipn n).inUse + k } }

/-- `KFREE` -/
def kfree (l : List ℕ) (x : ℕ) : Option (List ℕ) := if x ∈ l then some (l.erase x) else none

/-! ## References to proxies -/

/-- `ipf_proxy_lookup`: the proxy that is found has one reference more. -/
def ipfProxyLookup [DecidableEq Name] (w : Soft Name) (pr : ℕ) (name : Name) : Soft Name × Option ℕ :=
  match w.proxies.find? fun a => (w.apr a).aprP = pr ∧ (w.apr a).aprLabel = name with
  | some a => (w.addRef a 1, some a)
  | none => (w, none)

/-- `ipf_proxy_deref` -/
def ipfProxyDeref (w : Soft Name) (a : ℕ) : Soft Name := w.addRef a (-1)

/-- `ipf_proxy_ctl`, as far as it changes something here. -/
def ipfProxyCtl [DecidableEq Name] (w : Soft Name) (apcP : ℕ) (apcLabel : Name) : Soft Name :=
  (ipfProxyLookup w apcP apcLabel).1

/-! ## Rules -/

/-- `ipf_nat_resolverule`: the rule with its proxy, unless a proxy is named that does not exist. -/
def ipfNatResolverule [DecidableEq Name] (w : Soft Name) (r : Ipnat Name) : Option (Soft Name × Ipnat Name) :=
  match r.inPlabel with
  | none => some (w, r)
  | some label =>
    match ipfProxyLookup w (r.inPr (!r.inRedirect)) label with
    | (w, some a) => some (w, { r with inApr := some a })
    | (_, none) => none

/-- `ipf_nat_siocaddnat` for the rule `r` in new memory `n`, which the caller frees after an error. -/
def ipfNatSiocaddnat [DecidableEq Name] (w : Soft Name) (n : ℕ) (r : Ipnat Name) : Soft Name :=
  match ipfNatResolverule w r with
  | none => w
  | some (w, r) =>
    if r.inAge false = 0 ∧ r.inAge true ≠ 0 then w
    else { w with
      rules := n :: w.rules
      natList := w.natList ++ [n]
      ipn := Function.update w.ipn n { r with inUse := r.inUse + 1 } }

/-- `ipf_nat_rule_deref` -/
def ipfNatRuleDeref (w : Soft Name) (n : ℕ) : Option (Soft Name) :=
  if n ∉ w.rules then none
  else
    let w := w.addUse n (-1)
    if (w.ipn n).inUse > 0 then some w
    else
      let w := match (w.ipn n).inApr with
        | some a => ipfProxyDeref w a
        | none => w
      (kfree w.rules n).map fun rules => { w with rules := rules }

/-! ## Sessions -/

/-- What `apr_new` does: its result is not -1, and what it stores in `aps_data` and `aps_psiz`. -/
structure NewHook where
  ok : Bool
  data : Option ℕ
  psiz : ℕ

/-- The call of `apr_new`, if there is one. -/
def Soft.hooked (w : Soft Name) (a : ℕ) (hook : NewHook) : NewHook := if (w.apr a).aprNew then hook else ⟨true, none, 0⟩

/-- `KFREES` of the private data of a session. -/
def Soft.freeData (w : Soft Name) (x : ℕ) : Option (Soft Name) :=
  match (w.aps x).apsData with
  | none => none
  | some d => (kfree w.data d).map fun data => { w with data := data }

/-- What is left of the private data of a session is freed with the session, if it has a size. -/
def Soft.dropData (w : Soft Name) (x : ℕ) : Option (Soft Name) :=
  if (w.aps x).apsData ≠ none ∧ (w.aps x).apsPsiz ≠ 0 then w.freeData x else some w

/-- `ipf_proxy_new` for the entry `e`, which has the rule `n`: `aps` is the result of `KMALLOC`. -/
def ipfProxyNew (w : Soft Name) (e finP : ℕ) (aps : Option ℕ) (hook : NewHook) : Option (Soft Name × Bool) :=
  match (w.nat e).natPtr, (w.nat e).natAps with
  | some n, none =>
    match (w.ipn n).inApr with
    | none => none
    | some a =>
      if (w.apr a).aprDelete ∨ finP ≠ (w.apr a).aprP then some (w, false)
      else
        match aps with
        | none => some (w, false)
        | some x =>
          let hook := w.hooked a hook
          let w := { w with
            sessions := x :: w.sessions
            data := hook.data.toList ++ w.data
            aps := Function.update w.aps x ⟨a, e, hook.data, hook.psiz⟩ }
          if hook.ok then
            -- it goes to the front of the list
            some ({ w.updNat e fun nat => { nat with natAps := some x } with
              sess := (w.sess.set (.next x) (w.sess.head ())).set (.head ()) (some x) }, true)
          else do
            let w ← w.dropData x
            let sessions ← kfree w.sessions x
            return ({ w with sessions := sessions }, false)
  | _, _ => some (w, false)

/-- Take a session off the list, if it is there. -/
def Soft.unlink (w : Soft Name) (x : ℕ) : Soft Name :=
  let k := w.sess.seek (fun a => decide (a ≠ x)) w.sessions.length (.head ())
  if w.sess.get k = some x then { w with sess := w.sess.set k (w.sess.next x) } else w

/-- The call of `apr_del`. -/
def Soft.delHook (w : Soft Name) (x : ℕ) : Option (Soft Name) :=
  match (w.apr (w.aps x).apsApr).aprDel with
  | .null => some w
  | .keeps => some w
  | .frees => (w.freeData x).map fun w =>
    { w with aps := Function.update w.aps x { w.aps x with apsData := none, apsPsiz := 0 } }

/-- `ipf_proxy_free` -/
def ipfProxyFree (w : Soft Name) (x : ℕ) : Option (Soft Name) :=
  if x ∉ w.sessions then none
  else do
    let w ← (w.unlink x).delHook x
    let w ← w.dropData x
    let sessions ← kfree w.sessions x
    return { w with sessions := sessions }

/-- `ipf_proxy_check` where NAT calls it, which is for entries whose rule has a proxy: `rv` is the error in what the proxy's
handler returns. -/
def ipfProxyCheck (w : Soft Name) (e : ℕ) (rv : ℤ) : Option (Soft Name) :=
  if e ∉ w.nats then none
  else
    match (w.nat e).natPtr.bind fun n => (w.ipn n).inApr, (w.nat e).natAps with
    | some _, some x =>
      if x ∉ w.sessions then none
      else if rv = 2 then some ((ipfProxyDeref w (w.aps x).apsApr).updNat e fun nat => { nat with natAps := none })
      else some w
    | _, _ => some w

/-! ## Entries -/

/-- A packet for which `ipf_nat_add` makes an entry in the new memory `e`: the rule is `n`, `slave` is `NAT_SLAVE` in the flags,
`me` is whether `natsave` is given, and `finalised` is whether `ipf_nat_finalise` succeeds. -/
structure Creation where
  e : ℕ
  n : ℕ
  slave : Bool
  finP : ℕ
  me : Bool
  aps : Option ℕ
  hook : NewHook
  finalised : Bool

/-- The session of a new entry. -/
def Soft.newSession (w : Soft Name) (c : Creation) : Option (Soft Name × Bool) :=
  if (w.ipn c.n).inApr ≠ none ∧ c.slave = false then ipfProxyNew w c.e c.finP c.aps c.hook else some (w, true)

/-- The end of `ipf_nat_add`, after the addresses are chosen. -/
def ipfNatAdd (w : Soft Name) (c : Creation) : Option (Soft Name) := do
  let w := w.updNat c.e fun _ => ⟨some c.n, none, 0, c.me⟩
  let (w, ok) ← w.newSession c
  -- badnat: the entry is freed
  if !ok || !c.finalised then return w
  else return { (w.updNat c.e fun nat => { nat with natRef := if c.me then 2 else 1 }).addUse c.n 1 with
    nats := c.e :: w.nats, instances := c.e :: w.instances }

/-- An entry gives back its rule. -/
def Soft.clearPtr (w : Soft Name) (e : ℕ) : Option (Soft Name) :=
  match (w.nat e).natPtr with
  | some n => ipfNatRuleDeref (w.updNat e fun nat => { nat with natPtr := none }) n
  | none => some w

/-- An entry gives back its session. -/
def Soft.clearAps (w : Soft Name) (e : ℕ) : Option (Soft Name) :=
  match (w.nat e).natAps with
  | some x => (ipfProxyFree w x).map fun w => w.updNat e fun nat => { nat with natAps := none }
  | none => some w

/-- The end of `ipf_nat_delete`, when there is no reference to the entry any more. -/
def Soft.destroyNat (w : Soft Name) (e : ℕ) : Option (Soft Name) := do
  let w ← w.clearPtr e
  let w ← w.clearAps e
  let nats ← kfree w.nats e
  return { w with nats := nats }

/-- `ipf_nat_delete`; `destroy` is whether `logtype` is `NL_DESTROY`. -/
def ipfNatDelete (w : Soft Name) (e : ℕ) (destroy : Bool) : Option (Soft Name) :=
  if e ∉ w.nats then none
  else
    let w := { w with instances := w.instances.erase e }
    let w := if (w.nat e).natMe then w.updNat e fun nat => { nat with natMe := false, natRef := nat.natRef - 1 } else w
    if destroy = true ∧ (w.nat e).natRef > 2 then some (w.updNat e fun nat => { nat with natRef := nat.natRef - 2 })
    else if destroy = false ∧ (w.nat e).natRef > 1 then some (w.updNat e fun nat => { nat with natRef := nat.natRef - 1 })
    else w.destroyNat e

/-- The loop of `ipf_nat_delrule` over the entries of a rule. -/
def purgeLoop (n : ℕ) : List ℕ → Soft Name → Option (Soft Name)
  | [], w => some w
  | e :: l, w => if (w.nat e).natPtr = some n then (ipfNatDelete w e false).bind (purgeLoop n l) else purgeLoop n l w

/-- The entries of a rule go with it, if that is asked for. -/
def Soft.purgeEntries (w : Soft Name) (n : ℕ) (purge : Bool) : Option (Soft Name) :=
  if purge = true ∧ (w.ipn n).inPurge = true then purgeLoop n w.instances w else some w

/-- `ipf_nat_delrule` -/
def ipfNatDelrule (w : Soft Name) (n : ℕ) (purge : Bool) : Option (Soft Name) := do
  let w := { w with natList := w.natList.erase n }
  let w ← w.purgeEntries n purge
  ipfNatRuleDeref w n

/-! ## Steps -/

/-- What is done: a rule is loaded, or removed (with its sessions for `SIOCPURGENAT`, which sets `IPN_PURGE`; not when all rules
are removed); a proxy is controlled; an entry is made, gets a packet, is deleted, or is held by somebody else. -/
inductive Op (Name : Type) where
  | load (n : ℕ) (r : Ipnat Name)
  | remove (n : ℕ) (purge : Bool)
  | ctl (p : ℕ) (label : Name)
  | create (c : Creation)
  | packet (e : ℕ) (rv : ℤ)
  | delete (e : ℕ) (destroy : Bool)
  | hold (e : ℕ)

def step [DecidableEq Name] (w : Soft Name) : Op Name → Option (Soft Name)
  | .load n r => some (ipfNatSiocaddnat w n r)
  | .remove n purge => ipfNatDelrule { w with ipn := Function.update w.ipn n { w.ipn n with inPurge := purge } } n purge
  | .ctl p label => some (ipfProxyCtl w p label)
  | .create c => ipfNatAdd w c
  | .packet e rv => ipfProxyCheck w e rv
  | .delete e destroy => ipfNatDelete w e destroy
  | .hold e => some (w.updNat e fun nat => { nat with natRef := nat.natRef + 1 })

/-- Proxies without references, and nothing else. -/
def init (proxies : List ℕ) (apr : ℕ → Aproxy Name) (ipn : ℕ → Ipnat Name) (nat : ℕ → NatT)
    (aps : ℕ → ApSession) : Soft Name :=
  ⟨proxies, fun a => { apr a with aprRef := 0 }, ipn, [], [], nat, [], [], .empty, aps, [], []⟩

end Ipfilter.ProxyLife
