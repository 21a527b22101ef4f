import Ipfilter.Cyclic.Rounds
import Ipfilter.Spec.DnsPolicy
import Mathlib.Data.List.Perm.Basic

/-!
# The queries of dns-proxy

`c_queries` of `dns-proxy/main.c`: `add_query` with `query_exists` and `server_determine`, `add_reply` with `find_query`,
`check_answers` and `modify_packet`, and `expire_queries`. A query is a number that is never given out again, what is read of it
after it was freed is undefined (`none`). Counters other than `s_sends`, and what only `logit` reads, are left out.
-/

namespace Ipfilter.DnsProxy

/-- `struct sockaddr_in` -/
structure Sockaddr where
  sinAddr : BitVec 32
  sinPort : BitVec 16
  deriving DecidableEq, Repr

/-! ## Configuration -/

/-- `modify_t`. `m_keep` and `m_clean` have 256 bytes; what is behind them is whatever memory has there. -/
structure Modify where
  mAcls : List (Option ℕ)
  mType : Qtype
  mKeep : ℕ → Bool
  mClean : ℕ → Bool

/-- `forward_t` as it is read: acls are numbers, `none` is `NULL`, and `f_to` has places of `c_forwarders`. -/
structure Forward where
  fAcls : List (Option ℕ)
  fTo : List ℕ

/-- `config_t`. A forwarder is the list of the addresses of its servers. -/
structure Config where
  cAcls : List Acl
  iTransparent : ℕ → Bool
  cModifies : List Modify
  cForwarders : List (List (BitVec 32))
  cForwards : List Forward
  served : ∀ fr ∈ cForwarders, fr ≠ []
  given : ∀ f ∈ cForwards, f.fTo ≠ [] ∧ ∀ fr ∈ f.fTo, fr < cForwarders.length

/-- A server: its forwarder, and its place in `fr_servers`. The length of `fr_servers` is the place of the head of that list. -/
abbrev Server := ℕ × ℕ

/-- `fr_servers` -/
def Config.frServers (c : Config) (fr : ℕ) : List (BitVec 32) := c.cForwarders.getD fr []

/-- `s_ipaddr`. The head of a list has none. -/
def Config.sIpaddr (c : Config) (s : Server) : Option (BitVec 32) := (c.frServers s.1)[s.2]?

/-- `f_fwdr`, as a place in `f_to`, and `f_server`. -/
structure Cursor where
  fFwdr : ℕ
  fServer : Server
  deriving DecidableEq, Repr

/-- `forward_add` -/
def Forward.cursor (f : Forward) : Cursor := ⟨0, (f.fTo.getD 0 0, 0)⟩

/-! ## State -/

/-- `query_t` -/
structure Query where
  qArrived : ℕ
  qSrc : Sockaddr
  qDst : Sockaddr
  qOrigid : BitVec 16
  qNewid : BitVec 16
  qDies : ℤ
  qInfo : List Qrec

structure World where
  cQueries : List ℕ
  q : ℕ → Query
  /-- the queries that were not freed -/
  live : List ℕ
  next : ℕ
  cursor : ℕ → Cursor
  sSends : Server → ℕ

/-- A query as `calloc` gives it. -/
def Query.zero : Query := ⟨0, ⟨0, 0⟩, ⟨0, 0⟩, 0, 0, 0, []⟩

/-- After `load_config`. -/
def World.init (c : Config) : World where
  cQueries := []
  q _ := .zero
  live := []
  next := 0
  cursor r := (c.cForwards.getD r ⟨[], []⟩).cursor
  sSends _ := 0

/-- A packet that `query_validate` and `qinfo_build` accept, with the time, the answer of `SIOCGNATL`, and whether there is
memory for a query. `ptr` are the records whose name is a pointer. -/
structure Packet where
  port : ℕ
  sender : Sockaddr
  dnsId : BitVec 16
  qip : Qinfo
  ptr : ℕ → Bool
  tm : Tm
  now : ℤ
  nat : Option Sockaddr
  memory : Bool

/-- A packet on `c_outfd` that is longer than a header. `qip` is `none` when `qinfo_alloc` or `qinfo_build` fails. -/
structure Reply where
  sender : Sockaddr
  dnsId : BitVec 16
  dnsQr : Bool
  qip : Option Qinfo

/-- A query that was passed on: the client's, and where `add_query` sent it. -/
structure Passed where
  query : ℕ
  again : Bool
  port : ℕ
  client : Sockaddr
  dnsId : BitVec 16
  qip : Qinfo
  dst : Sockaddr
  newid : BitVec 16
  /-- the number of the forward rule, and the server -/
  rule : Option (ℕ × Server)

/-- A reply that was sent to a client. -/
structure Delivery where
  query : ℕ
  port : ℕ
  client : Sockaddr
  dnsId : BitVec 16
  deriving DecidableEq, Repr

/-- What a step does to queries. -/
structure Output where
  made : Option ℕ := none
  passed : Option Passed := none
  delivered : Option Delivery := none
  freed : List ℕ := []

/-! ## Lists of queries -/

/-- `STAILQ_FOREACH` up to a query with `p`. -/
def World.walk (w : World) (p : Query → Bool) : List ℕ → Option (Option ℕ)
  | [] => some none
  | h :: l => if h ∈ w.live then if p (w.q h) then some (some h) else w.walk p l else none

/-- `query_free` -/
def World.queryFree (w : World) (h : ℕ) : Option World :=
  if h ∈ w.live then some { w with live := w.live.erase h } else none

/-- `STAILQ_INSERT_TAIL`, which writes to the last query. -/
def World.insertTail (w : World) (h : ℕ) : Option World :=
  if w.cQueries.getLast?.all (· ∈ w.live) then some { w with cQueries := w.cQueries ++ [h] } else none

def World.set (w : World) (h : ℕ) (q : Query) : World := { w with q := Function.update w.q h q }

/-! ## Queries -/

/-- `qi_acl`, which `qinfo_alloc` clears and nothing sets. -/
def qiAcl : Option ℕ := none

/-- `modify_apply`, as far as it changes the record: a name that is cleared in the packet is cleared in the record. -/
def modifyApply (m : Modify) (ptr : Bool) (qr : Qrec) : Qrec :=
  if m.mKeep qr.qirRrtype then qr
  else if m.mClean qr.qirRrtype ∧ ptr = false then { qr with qirName := [] }
  else qr

/-- `modify_packet` for one record. -/
def modifyRec (ms : List Modify) (ptr : Bool) (qr : Qrec) : Qrec :=
  ms.foldl (fun qr m => if m.mType = qr.qirQtype ∧ m.mAcls.any fun a => a = none ∨
    a = qiAcl then modifyApply m ptr qr else qr) qr

/-- `modify_packet` on a query. -/
def modifyPacket (c : Config) (ptr : ℕ → Bool) (recs : List Qrec) : List Qrec :=
  recs.mapIdx fun i qr => modifyRec c.cModifies (ptr i) qr

/-- The forward rule that `server_determine` stops at. `f_server` is not `NULL`. -/
def Config.rule (c : Config) : Option ℕ := c.cForwards.findIdx? fun f => f.fAcls.any fun a => a = qiAcl

/-- The end of `server_determine`. -/
def Config.advance (c : Config) (f : Forward) (cur : Cursor) : Cursor :=
  let fl := f.fTo.getD cur.fFwdr 0
  let s := cur.fServer
  if s.1 = fl ∧ s.2 + 1 = (c.frServers fl).length then
    -- `fl` is still the forwarder that is done
    { fFwdr := if cur.fFwdr + 1 = f.fTo.length then 0 else cur.fFwdr + 1, fServer := (fl, 0) }
  else
    -- `CIRCLEQ_LOOP_NEXT` is given the list of `fl`, so the last server of another one is followed by the head of its list
    { cur with fServer := (s.1, s.2 + 1) }

/-- `server_determine`: the rule and the server. -/
def serverDetermine (c : Config) (w : World) : Option ((ℕ × Server) × World) :=
  c.rule.map fun r =>
    let cur := w.cursor r
    ((r, cur.fServer),
      { w with cursor := Function.update w.cursor r (c.advance (c.cForwards.getD r ⟨[], []⟩) cur) })

/-- `query_exists` -/
def queryExists (w : World) (e : Packet) : Option (Option ℕ) :=
  w.walk (fun q => e.dnsId = q.qOrigid ∧ q.qArrived = e.port ∧ e.sender = q.qSrc) w.cQueries

/-- The address that `get_transparent` finds for a transparent port. -/
def transparentDst (c : Config) (e : Packet) : Option Sockaddr := if c.iTransparent e.port then e.nat else none

/-- `add_query` once the query is there, with `q_info` as `check_query` sets it. -/
def addQueryTo (c : Config) (e : Packet) (again : Bool) (w : World) (h : ℕ) : Option (World × Output) :=
  let w := w.set h { w.q h with qDies := e.now + 180 }
  let made := if again then none else some h
  let passed (dst : Sockaddr) (newid : BitVec 16) (rule : Option (ℕ × Server)) : Passed :=
    ⟨h, again, e.port, e.sender, e.dnsId, e.qip, dst, newid, rule⟩
  let info := modifyPacket c e.ptr e.qip.qiRecs
  match w.insertTail h with
  | none => none
  | some w =>
    match transparentDst c e with
    | some dst =>
      some (w.set h { w.q h with qDst := dst, qInfo := info }, { made, passed := some (passed dst (w.q h).qNewid none) })
    | none =>
      match serverDetermine c w with
      | none => (w.queryFree h).map fun w => (w, { made, freed := [h] })
      | some (rs, w) =>
        match c.sIpaddr rs.2 with
        | none => none
        | some a =>
          -- `dns` is set for a new query only
          if again then none
          else
            let newid := BitVec.ofNat 16 (w.sSends rs.2)
            let dst := ⟨a, 53⟩
            some (w.set h { w.q h with qDst := dst, qNewid := newid, qInfo := info },
              { made, passed := some (passed dst newid (some rs)) })

/-- `add_query` -/
def addQuery (c : Config) (w : World) (e : Packet) : Option (World × Output) :=
  match queryExists w e with
  | none => none
  | some (some h) => addQueryTo c e true { w with cQueries := w.cQueries.erase h } h
  | some none =>
    if e.memory then
      let h := w.next
      addQueryTo c e false
        ({ w with live := h :: w.live, next := h + 1 }.set h
          { Query.zero with qArrived := e.port, qOrigid := e.dnsId, qSrc := e.sender }) h
    else some (w, {})

/-! ## Replies -/

/-- The first question with a name is marked. -/
def markFirst (name : List Byte) : List Qrec → Option (List Qrec)
  | [] => none
  | qra :: l =>
    if qra.qirQtype = .question ∧ qra.qirName = name then some ({ qra with qirQtype := .matched } :: l)
    else (markFirst name l).map (qra :: ·)

/-- The loop over the questions of the reply: the records of the query as they are marked. -/
def answersLoop : List Qrec → List Qrec → Option (List Qrec)
  | [], recs => some recs
  | qr :: l, recs =>
    if qr.qirQtype ≠ .question then answersLoop l recs
    else
      match markFirst qr.qirName recs with
      | none => none
      | some recs => answersLoop l recs

/-- `check_answers` -/
def checkAnswers (qInfo : List Qrec) (qip : Qinfo) : Action :=
  match answersLoop qip.qiRecs qInfo with
  | none => .block
  | some recs => if recs.any fun qra => qra.qirQtype = .question then .block else .noMatch

/-- `find_query` -/
def findQuery (w : World) (e : Reply) : Option (Option ℕ) :=
  w.walk (fun q => e.sender.sinAddr = q.qDst.sinAddr ∧ q.qNewid = e.dnsId) w.cQueries

/-- The search for the server at the start of `add_reply`: `CIRCLEQ_FOREACH` never leaves `NULL` in `s`, so it ends in the first
forwarder; counting the reply is undefined when `s` is the head of the list, or when there is no forwarder. -/
def serverKnown (c : Config) (e : Reply) : Bool := c.cForwarders.head?.any fun fr => e.sender.sinAddr ∈ fr

/-- `add_reply` -/
def addReply (c : Config) (w : World) (e : Reply) : Option (World × Output) :=
  if serverKnown c e then
    match findQuery w e with
    | none => none
    | some none => some (w, {})
    | some (some h) =>
      if e.dnsQr = false then some (w, {})
      else
        match e.qip with
        | none => some (w, {})
        | some qip =>
          let q := w.q h
          let delivered :=
            if checkQuestions qip = .block then none
            else if checkAnswers q.qInfo qip = .block then none
            else some ⟨h, q.qArrived, q.qSrc, q.qOrigid⟩
          ({ w with cQueries := w.cQueries.erase h }.queryFree h).map fun w => (w, { delivered, freed := [h] })
  else none

/-! ## Steps -/

/-- The loop of `expire_queries` over `c_queries`. -/
def expireLoop (now : ℤ) (w : World) : List ℕ → Option (World × List ℕ)
  | [] => some ({ w with cQueries := [] }, [])
  | h :: l =>
    if h ∈ w.live then
      if (w.q h).qDies > now then some ({ w with cQueries := h :: l }, [])
      else (expireLoop now { w with live := w.live.erase h } l).map fun r => (r.1, h :: r.2)
    else none

/-- `expire_queries` -/
def expireQueries (w : World) (now : ℤ) : Option (World × Output) :=
  (expireLoop now w w.cQueries).map fun r => (r.1, { freed := r.2 })

inductive Event where
  | query (e : Packet)
  | reply (e : Reply)
  | tick (now : ℤ)

def step (c : Config) (w : World) : Event → Option (World × Output)
  | .query e =>
    if checkQuery c.cAcls ⟨e.port, e.sender.sinAddr⟩ e.qip e.tm true = .forwarded then addQuery c w e else some (w, {})
  | .reply e => addReply c w e
  | .tick now => expireQueries w now

/-! ## What it promises -/

/-- The steps so far, the first one first. -/
abbrev History := List (Event × Output)

/-- **A run** of steps that meet `P`. -/
inductive Run (c : Config) (P : World → Event → Prop) : World → History → Prop where
  | init : Run c P (World.init c) []
  | step {w w' hist e o} : Run c P w hist → P w e → DnsProxy.step c w e = some (w', o) → Run c P w' (hist ++ [(e, o)])

def made (hist : History) : List ℕ := hist.filterMap fun x => x.2.made

def freed (hist : History) : List ℕ := hist.flatMap fun x => x.2.freed

def passes (hist : History) : List Passed := hist.filterMap fun x => x.2.passed

/-- How a query was passed on the last time. -/
def lastPassed (hist : History) (h : ℕ) : Option Passed := ((passes hist).filter fun p => p.query = h).getLast?

/-- The servers of a forward rule that queries were given to. -/
def used (r : ℕ) (hist : History) : List Server :=
  (passes hist).filterMap fun p => p.rule.bind fun rs => if rs.1 = r then some rs.2 else none

/-- The servers of each forwarder of a forward rule. -/
def Config.rows (c : Config) (f : Forward) : List (List Server) :=
  f.fTo.map fun fr => (List.range (c.frServers fr).length).map fun k => (fr, k)

/-- The servers of a forward rule, in the order of its forwarders and of their lists. -/
def Config.servers (c : Config) (f : Forward) : List Server := (c.rows f).flatten

/-- What a question asks. -/
def Qrec.asks (qr : Qrec) : List Byte × ℕ := (qr.qirName, qr.qirRrtype)

/-- The questions of `q_info`. -/
def Query.questions (q : Query) : List Qrec := q.qInfo.filter fun qr => qr.qirQtype = .question

/-- **The reply is for the client:** it comes from the server that the query was sent to, with the id and the questions of the
query, and the client gets it with the id that the client gave. -/
structure Rightful (p : Passed) (e : Reply) (qip : Qinfo) (d : Delivery) : Prop where
  server : e.sender.sinAddr = p.dst.sinAddr
  newid : e.dnsId = p.newid
  questions : (qip.questions.map Qrec.asks).Perm (p.qip.questions.map Qrec.asks)
  port : d.port = p.port
  client : d.client = p.client
  dnsId : d.dnsId = p.dnsId

/-- A delivery, after the steps `l`, of a query that is not freed yet. -/
def Answered (l : History) (e : Event) (d : Delivery) : Prop :=
  ∃ r qip p, e = .reply r ∧ r.qip = some qip ∧ lastPassed l d.query = some p ∧ d.query ∉ freed l ∧
    Rightful p r qip d

/-- **What dns-proxy promises.** A server is its address. -/
structure Right (c : Config) (w : World) (hist : History) : Prop where
  sent : ∀ h ∈ w.cQueries, ∃ p, lastPassed hist h = some p ∧ p.dst = (w.q h).qDst ∧ p.newid = (w.q h).qNewid
  newids : ∀ h ∈ w.cQueries, ∀ h' ∈ w.cQueries, h ≠ h' → (w.q h).qDst.sinAddr = (w.q h').qDst.sinAddr →
    (w.q h).qNewid ≠ (w.q h').qNewid
  delivered : ∀ l e o l', hist = l ++ (e, o) :: l' → ∀ d, o.delivered = some d → Answered l e d
  again : ∀ p ∈ passes hist, ∀ p' ∈ passes hist, p.query = p'.query → p.dst.sinAddr = p'.dst.sinAddr
  rounds : ∀ r f, c.cForwards[r]? = some f → Cyclic.Rounds (c.servers f) (used r hist)
  live : ∀ h ∈ w.cQueries, h ∈ w.live
  nodup : (made hist).Nodup
  once : (freed hist ++ w.cQueries).Perm (made hist)

/-! ## When it keeps the promise -/

/-- No outstanding query goes to the address. -/
def World.NotAsked (w : World) (a : BitVec 32) : Prop := ∀ h ∈ w.cQueries, (w.q h).qDst.sinAddr ≠ a

/-- The packet is from the client of the query, with the same id, and came to the same port. -/
def Packet.SameAs (e : Packet) (q : Query) : Prop := e.dnsId = q.qOrigid ∧ q.qArrived = e.port ∧ e.sender = q.qSrc

/-- A forwarder whose servers were all used is followed by itself. -/
def Config.Turns (c : Config) (f : Forward) (cur : Cursor) : Prop :=
  cur.fServer.2 + 1 = (c.frServers cur.fServer.1).length →
    f.fTo.getD (if cur.fFwdr + 1 = f.fTo.length then 0 else cur.fFwdr + 1) 0 = cur.fServer.1

/-- **A new query has a destination** that no outstanding query goes to. -/
def Destined (c : Config) (w : World) (e : Packet) : Prop :=
  match transparentDst c e with
  | some dst => w.NotAsked dst.sinAddr
  | none => ∃ r, c.rule = some r ∧ c.Turns (c.cForwards.getD r ⟨[], []⟩) (w.cursor r) ∧
      ∀ a ∈ c.sIpaddr (w.cursor r).fServer, w.NotAsked a

/-- **The condition on a step.** -/
def Meets (c : Config) (w : World) : Event → Prop
  | .query e =>
    checkQuery c.cAcls ⟨e.port, e.sender.sinAddr⟩ e.qip e.tm true = .forwarded →
    -- the address of a retransmitted query is found again, and is the same
    (∀ h ∈ w.cQueries, e.SameAs (w.q h) → ∃ dst, transparentDst c e = some dst ∧
      dst.sinAddr = (w.q h).qDst.sinAddr) ∧
    ((∀ h ∈ w.cQueries, ¬e.SameAs (w.q h)) → e.memory = true → Destined c w e)
  | .reply e =>
    -- the sender is a server of the first forwarder, and questions with the same names are the same questions
    (∃ fr, c.cForwarders.head? = some fr ∧ e.sender.sinAddr ∈ fr) ∧
    ∀ h ∈ w.cQueries, (w.q h).qDst.sinAddr = e.sender.sinAddr → (w.q h).qNewid = e.dnsId → e.dnsQr = true →
      ∀ qip ∈ e.qip, checkQuestions qip ≠ .block →
      (qip.questions.map Qrec.qirName).Perm ((w.q h).questions.map Qrec.qirName) →
      (qip.questions.map Qrec.asks).Perm ((w.q h).questions.map Qrec.asks)
  | .tick _ => True

end Ipfilter.DnsProxy
