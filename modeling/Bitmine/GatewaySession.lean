import Bitmine.Lib.Await
import Bitmine.Lib.JsonText
import Bitmine.Shares

namespace Bitmine.GatewaySession

open Bitmine.Lib.UniqueTable Bitmine.Lib.Throwing Bitmine.Lib.Await Bitmine.Lib.JsonText
open Bitmine.Schema Bitmine.Deployment Bitmine.Shares

/-- A JSON-RPC message; a member that is `none` is absent. -/
structure Message where
  id : Option Json := none
  jsonrpc : Option Json := none
  method : Option Json := none
  params : Option Json := none
  result : Option Json := none
  error : Option Json := none

namespace Message

def hasMethod (m : Message) : Bool := m.method.any Json.truthy

def isMethod (m : Message) (name : String) : Bool := m.method.any (Json.isStr name)

def idOrNull (m : Message) : Json := m.id.getD .null

def paramItems (m : Message) : List Json := (m.params.map Json.items).getD []

def paramMember (m : Message) (key : String) : Option Json := m.params.bind (Json.get? key)

end Message

structure Authorized where
  workerId : Id
  customerId : Id
  connectionLeaseId : String

structure Lease where
  workerId : Id
  leaseId : String
  deriving DecidableEq

def Authorized.lease (a : Authorized) : Lease := ⟨a.workerId, a.connectionLeaseId⟩

structure UpstreamBinding where
  upstreamId : Id
  username : String
  password : String

structure PendingRpc where
  downstreamId : Json
  method : String
  shareEvent : Option ShareReference

/-- Where `close` stands: the command whose settling it awaits. -/
inductive ClosePoint where
  | unknown (code : String) (shares : List ShareReference)
  | raise (code : String)
  | failure (code : String)
  | closeConnection (code : String) (connectionId : Id)
  | zrem (lease : Lease)
  | zcard (workerId : Id)
  | del (workerId : Id)
  | finished

structure Session where
  upstream : Option ℕ
  binding : Option UpstreamBinding
  authorized : Option Authorized
  connectionId : Option Id
  difficulty : String
  nextId : ℕ
  pending : List (String × PendingRpc)
  countedConnection : Bool
  heartbeats : ℕ
  downstreamDestroyed : Bool
  closing : Option ClosePoint

def Session.start : Session := ⟨none, none, none, none, "1", 1, [], false, 0, false, none⟩

/-- What the session reads of a submit before it asks the journal, and what its
upstream had said by then. -/
structure Submit where
  received : Message
  message : Message
  jobId : String
  auth : Authorized
  upstreamId : Id
  connectionId : Id
  requestKey : String
  difficulty : String
  heard : List Message

/-- The past of a session: the messages it has handled, the shares it has
journaled, forwarded and resolved, and what it has sent to the miner. -/
inductive Observation where
  | received (message : Message)
  | journaled (submit : Submit) (share : ShareEvent)
  | forwarded (upstreamId : ℕ) (message : Message) (pending : PendingRpc) (reached : Bool)
  | heard (socket : ℕ) (message : Message)
  | resolved (share : ShareReference) (status : Option ShareStatus) (message : Message)
  | sent (message : Message) (origin : Option PendingRpc)

/-- Leases, sockets and connection rows: those the session ever got, and what
holds of them outside the session. -/
structure Resources where
  leases : List Lease
  acquired : List Lease
  renewed : List Lease
  opened : List ℕ
  destroyed : List ℕ
  created : List Id
  disconnected : List Id

structure Gateway where
  session : Session
  db : Database
  resources : Resources
  log : List Observation

def heardIn (log : List Observation) : List Message :=
  log.filterMap (fun
    | .heard _ m => some m
    | _ => none)

structure Candidate where
  upstreamId : Id
  password : String

structure Reply extends Answer where
  auth : Option Authorized := none
  candidates : List Candidate := []
  username : String := ""
  latencyMs : ℤ := 0

namespace Gateway

variable (g : Gateway)

def set (s : Session) : Gateway := { g with session := s }

def tell (o : Observation) : Gateway := { g with log := g.log ++ [o] }

def store (db : Database) : Gateway := { g with db := db }

def hold (r : Resources) : Gateway := { g with resources := r }

/-- `downstream.send`: nothing is written to a destroyed socket. -/
def send (m : Message) (origin : Option PendingRpc) : Gateway :=
  if g.session.downstreamDestroyed then g else g.tell (.sent m origin)

/-- The synchronous beginning of `close`; of the timers it knows the last. -/
def close (code : String) : Gateway :=
  if g.session.closing.isSome then g
  else g.set { g.session with
    heartbeats := g.session.heartbeats - 1
    closing := some (.unknown code (g.session.pending.filterMap (fun p => p.2.shareEvent))) }

end Gateway

section Downstream

def unavailable : AssetCode → String
  | .btc => "Bitcoin upstream is unavailable"
  | .xmr => "Monero upstream unavailable"

def noneEnabled : AssetCode → String
  | .btc => "No Bitcoin upstream is enabled"
  | .xmr => "No Monero upstream is enabled"

inductive After where
  | authorize (message : Message) (auth : Authorized)
  | forward (message : Message) (method : String) (share : Option ShareReference)

/-- The awaited effects of `onDownstream`. Where a result is put to use only
after another step could come between, that use has a point of its own. -/
inductive DownPoint where
  | receive (message : Message)
  | authenticate (message : Message)
  | authenticated (message : Message) (auth : Authorized)
  | candidates (after : After)
  | resolveGatewayProxy (after : After) (upstream : Candidate) (rest : List Candidate)
  | connectUpstream (after : After) (upstream : Candidate) (rest : List Candidate)
  | connected (after : After) (upstream : Candidate) (rest : List Candidate) (socket : ℕ)
  | success (after : After) (upstream : Candidate) (rest : List Candidate)
  | succeeded (after : After)
  | failure (after : After) (upstream : Candidate) (rest : List Candidate) (error : String)
  | createConnection (message : Message) (auth : Authorized)
  | connectionCreated (message : Message) (auth : Authorized) (connectionId : Id)
  | updateWorker (message : Message)
  | workerUpdated (message : Message)
  | activePolicy (submit : Submit)
  | createShare (submit : Submit) (difficulty : ℚ) (splitPolicyId : Id)
  | shareCreated (submit : Submit) (share : ShareReference)
  | protocolError (error : String)

/-- The code up to the next await. What it throws goes to the protocol error
handler of the peer. -/
def settle (g : Gateway) : Except String (Gateway × Option DownPoint) → Gateway × Option DownPoint
  | .ok r => r
  | .error e => (g, some (.protocolError e))

def setPending (pending : List (String × PendingRpc)) (key : String) (p : PendingRpc) :
    List (String × PendingRpc) :=
  pending.filter (fun e => e.1 ≠ key) ++ [(key, p)]

def withUpstreamId (kind : AssetCode) (m : Message) (n : ℕ) : Message :=
  { m with
    id := some (.num (toString n))
    jsonrpc := match kind with
      | .btc => m.jsonrpc
      | .xmr => some ((m.jsonrpc.filter (fun j => !j.isNull)).getD (.str "2.0")) }

def forward (kind : AssetCode) (g : Gateway) (m : Message) (method : String)
    (share : Option ShareReference) : Except String (Gateway × Option DownPoint) :=
  match g.session.upstream with
  | none => .error (unavailable kind)
  | some socket =>
    let n := g.session.nextId
    let p : PendingRpc := ⟨m.idOrNull, method, share⟩
    .ok ((g.set { g.session with
        nextId := n + 1
        pending := setPending g.session.pending (toString n) p }).tell
      (.forwarded n (withUpstreamId kind m n) p (socket ∉ g.resources.destroyed)), none)

def continueAfter (kind : AssetCode) (g : Gateway) (a : Reply) : After →
    Except String (Gateway × Option DownPoint)
  | .forward m method share => forward kind g m method share
  | .authorize m auth =>
    match g.session.binding with
    | none => .error (unavailable kind)
    | some binding =>
      if kind = .btc ∧ g.session.upstream.isNone then .error (unavailable kind)
      else .ok (g.set { g.session with binding := some { binding with username := a.username } },
        some (.createConnection m auth))

/-- `ensureUpstream` keeps a connection it has; `connectPool` always makes one. -/
def ensureUpstream (kind : AssetCode) (g : Gateway) (a : Reply) (after : After) :
    Except String (Gateway × Option DownPoint) :=
  if kind = .btc ∧ g.session.upstream.isSome then continueAfter kind g a after
  else .ok (g, some (.candidates after))

/-- `forward` of Bitcoin makes sure of the upstream first. -/
def dispatch (kind : AssetCode) (g : Gateway) (a : Reply) (m : Message) (method : String)
    (share : Option ShareReference) : Except String (Gateway × Option DownPoint) :=
  match kind with
  | .btc => ensureUpstream .btc g a (.forward m method share)
  | .xmr => forward .xmr g m method share

def errorReply (kind : AssetCode) (m : Message) (result : Option Json) (error : Json) : Message :=
  match kind with
  | .btc => { id := some m.idOrNull, result := result, error := some error }
  | .xmr => { id := some m.idOrNull, jsonrpc := some (.str "2.0"), error := some error }

def stratumError (code : String) (text : String) (detail : Json) : Json :=
  .arr [.num code, .str text, detail]

def rpcError (code : String) (text : String) : Json :=
  .obj [("code", .num code), ("message", .str text)]

def jobIdOf (kind : AssetCode) (m : Message) : String :=
  match kind with
  | .btc => (m.paramItems[1]?.bind Json.scalar?).getD ""
  | .xmr => ((m.paramMember "job_id").bind Json.scalar?).getD ""

def nonceOf (kind : AssetCode) (m : Message) : String :=
  match kind with
  | .btc => (m.paramItems[4]?.bind Json.scalar?).getD ""
  | .xmr => ((m.paramMember "nonce").bind Json.scalar?).getD ""

def rewriteSubmit (kind : AssetCode) (m : Message) (username : String) : Message :=
  match kind with
  | .btc => { m with params := some (.arr (.str username :: m.paramItems.tail)) }
  | .xmr => m

def submitMethod : AssetCode → String
  | .btc => "mining.submit"
  | .xmr => "submit"

def submit (kind : AssetCode) (g : Gateway) (m : Message) (a : Reply) : Gateway × Option DownPoint :=
  let s := g.session
  match s.authorized, s.connectionId, s.binding, s.upstream with
  | some auth, some connectionId, some binding, some _ =>
    let jobId := jobIdOf kind m
    let requestKey := m.idOrNull.text ++ ":" ++ jobId ++ ":" ++ nonceOf kind m ++ ":" ++ toString a.now
    (g, some (.activePolicy ⟨m, rewriteSubmit kind m binding.username, jobId, auth, binding.upstreamId,
      connectionId, requestKey, s.difficulty, heardIn g.log⟩))
  | _, _, _, _ =>
    (g.send (match kind with
      | .btc => errorReply kind m (some (.bool false)) (stratumError "24" "Authorize first" .null)
      | .xmr => errorReply kind m none (rpcError "-1" "Login first")) none, none)

def forwardable : List String :=
  ["mining.subscribe", "mining.configure", "mining.extranonce.subscribe",
    "mining.suggest_difficulty"]

def onDownstreamBitcoin (g : Gateway) (m : Message) (a : Reply) :
    Except String (Gateway × Option DownPoint) :=
  if ¬ m.hasMethod then .ok (g, none)
  else if m.isMethod "mining.authorize" then .ok (g, some (.authenticate m))
  else if m.isMethod "mining.submit" then .ok (submit .btc g m a)
  else
    match forwardable.find? m.isMethod with
    | some method => dispatch .btc g a m method none
    | none => .ok (g.send (errorReply .btc m (some .null)
        (stratumError "20" "Unsupported method" (m.method.getD .null))) none, none)

def onDownstreamMonero (g : Gateway) (m : Message) (a : Reply) :
    Except String (Gateway × Option DownPoint) :=
  if m.isMethod "login" then .ok (g, some (.authenticate m))
  else if m.isMethod "submit" then .ok (submit .xmr g m a)
  else if m.isMethod "keepalived" ∧ g.session.upstream.isSome then
    dispatch .xmr g a m "keepalived" none
  else .ok (g.send (errorReply .xmr m none (rpcError "-32601" "Unsupported method")) none, none)

def rewriteLogin (kind : AssetCode) (m : Message) (b : UpstreamBinding) : Message :=
  match kind with
  | .btc => { m with params := some (.arr [.str b.username, .str b.password]) }
  | .xmr =>
    let members := match m.params with
      | some (.obj members) => members
      | _ => []
    { m with params := some (.obj
        (Json.put (Json.put members "login" (.str b.username)) "pass" (.str b.password))) }

def loginMethod : AssetCode → String
  | .btc => "mining.authorize"
  | .xmr => "login"

def forwardLogin (kind : AssetCode) (g : Gateway) (a : Reply) (m : Message) :
    Except String (Gateway × Option DownPoint) :=
  match g.session.binding with
  | none => .error "Cannot read properties of undefined"
  | some binding => dispatch kind g a (rewriteLogin kind m binding) (loginMethod kind) none

def authorizationFailed (kind : AssetCode) (m : Message) : Message :=
  match kind with
  | .btc => errorReply kind m (some (.bool false)) (stratumError "24" "Local authorization failed" .null)
  | .xmr => errorReply kind m none (rpcError "-1" "Local authorization failed")

def referenceOf (s : ShareEvent) : ShareReference := ⟨s.id, s.submittedAt⟩

/-- The text of a difficulty as a number; `none` where the constructor throws. -/
abbrev Decimal := String → Option ℚ

def Submit.input (kind : AssetCode) (s : Submit) (difficulty : ℚ) : PendingInput :=
  ⟨kind, s.auth.customerId, s.auth.workerId, s.upstreamId, s.connectionId, s.requestKey, difficulty⟩

def onDownstream (decimal : Decimal) (kind : AssetCode) (g : Gateway) (p : DownPoint) (a : Reply) :
    Except String (Gateway × Option DownPoint) :=
  let s := g.session
  let r := g.resources
  match p with
  | .receive m =>
    let g := g.tell (.received m)
    .ok (settle g (match kind with
      | .btc => onDownstreamBitcoin g m a
      | .xmr => onDownstreamMonero g m a))
  | .authenticate m =>
    match a.auth with
    | none => .ok ((g.send (authorizationFailed kind m) none).close "authorization-failed", none)
    | some auth =>
      .ok (g.hold { r with leases := r.leases ++ [auth.lease], acquired := r.acquired ++ [auth.lease] },
        some (.authenticated m auth))
  | .authenticated m auth =>
    let g := g.set { s with
      authorized := some auth, countedConnection := true, heartbeats := s.heartbeats + 1 }
    .ok (settle g (ensureUpstream kind g a (.authorize m auth)))
  | .candidates after =>
    match a.candidates with
    | [] => .error (noneEnabled kind)
    | upstream :: rest => .ok (g, some (.resolveGatewayProxy after upstream rest))
  | .resolveGatewayProxy after upstream rest => .ok (g, some (.connectUpstream after upstream rest))
  | .connectUpstream after upstream rest =>
    .ok (g.hold { r with opened := r.opened ++ [r.opened.length] },
      some (.connected after upstream rest r.opened.length))
  | .connected after upstream rest socket =>
    .ok (g.set { s with
        binding := some ⟨upstream.upstreamId, "", upstream.password⟩
        upstream := some socket }, some (.success after upstream rest))
  | .success after _ _ => .ok (g, some (.succeeded after))
  | .succeeded after => .ok (settle g (continueAfter kind g a after))
  | .failure after _ rest error =>
    match rest with
    | [] => .error error
    | upstream :: rest => .ok (g, some (.resolveGatewayProxy after upstream rest))
  | .createConnection m auth => do
    let connections ← orThrow uniqueViolation (g.db.connections.insert ⟨a.newId 0, 0, 0⟩)
    pure ((g.store (withConnections g.db connections)).hold
      { r with created := r.created ++ [a.newId 0] }, some (.connectionCreated m auth (a.newId 0)))
  | .connectionCreated m _ id => .ok (g.set { s with connectionId := some id },
      some (.updateWorker m))
  | .updateWorker m => .ok (g, some (.workerUpdated m))
  | .workerUpdated m => .ok (settle g (forwardLogin kind g a m))
  | .activePolicy submit => do
    let policy ← Shares.activePolicy a.toAnswer g.db submit.auth.customerId kind
    let difficulty ← orThrow ("[DecimalError] Invalid argument: " ++ submit.difficulty)
      (decimal submit.difficulty)
    pure (g, some (.createShare submit difficulty policy.id))
  | .createShare submit difficulty splitPolicyId => do
    let share := pendingShare a.toAnswer (submit.input kind difficulty) splitPolicyId
    let shares ← orThrow uniqueViolation (g.db.shareEvents.insert share)
    pure ((g.store (withShares g.db shares)).tell (.journaled submit share),
      some (.shareCreated submit (referenceOf share)))
  | .shareCreated submit share =>
    .ok (settle g (dispatch kind g a submit.message (submitMethod kind) (some share)))
  | .protocolError error => .ok (g.close ("protocol:" ++ error), none)

def onDownstreamThrow (p : DownPoint) (error : String) : Option DownPoint :=
  match p with
  | .resolveGatewayProxy after upstream rest => some (.failure after upstream rest error)
  | .connectUpstream after upstream rest => some (.failure after upstream rest error)
  | .connected after upstream rest _ => some (.failure after upstream rest error)
  | .success after upstream rest => some (.failure after upstream rest error)
  | .protocolError _ => none
  | _ => some (.protocolError error)

end Downstream

section Upstream

/-- The awaited effects of `onUpstream`. -/
inductive UpPoint where
  | receive (message : Message)
  | resolve (message : Message) (pending : PendingRpc) (share : ShareReference)
  | resolved (message : Message) (pending : PendingRpc)
  | protocolError (error : String)

def isHex (c : Char) : Bool :=
  ('0' ≤ c ∧ c ≤ '9') ∨ ('a' ≤ c ∧ c ≤ 'f') ∨ ('A' ≤ c ∧ c ≤ 'F')

def hexValue (c : Char) : ℕ :=
  if c ≤ '9' then c.toNat - 48 else if c ≤ 'F' then c.toNat - 55 else c.toNat - 87

def littleEndian : List Char → ℕ
  | high :: low :: rest => 16 * hexValue high + hexValue low + 256 * littleEndian rest
  | _ => 0

def difficultyFromTarget (target : String) : String :=
  let clean :=
    if "0x".toList.isPrefixOf target.toList then target.toList.drop 2 else target.toList
  if clean.isEmpty ∨ ¬ clean.all isHex ∨ clean.length % 2 ≠ 0 then "1"
  else
    let value := littleEndian clean
    if value = 0 then "1"
    else toString (max 1 ((2 ^ (4 * clean.length) - 1) / value))

mutual

/-- The last target that `inspectJob` comes to: an inner job overrides. -/
def inspectJob : Json → Option String
  | .obj members =>
    (inspectInner members).or ((Json.get? "target" (.obj members)).bind Json.string?)
  | _ => none

def inspectInner : List (String × Json) → Option String
  | [] => none
  | (key, value) :: rest => if key = "job" then inspectJob value else inspectInner rest

end

/-- The difficulty that a message of the upstream announces, if any. -/
def announces (kind : AssetCode) (m : Message) : Option String :=
  match kind with
  | .btc =>
    if m.isMethod "mining.set_difficulty" then m.paramItems.head?.bind Json.scalar? else none
  | .xmr =>
    ((m.result.bind inspectJob).or (m.params.bind inspectJob)).map difficultyFromTarget

def accepts (kind : AssetCode) (m : Message) : Bool :=
  match kind with
  | .btc => m.result.any (Json.isBool true) && m.error.all Json.isNull
  | .xmr => !m.error.any Json.truthy && !m.result.any Json.isNull && !m.result.any (Json.isBool false)

def rejectReason (m : Message) : String :=
  ((m.error.filter (fun e => !e.isNull)).getD (.str "Share rejected")).stringify

def answered (kind : AssetCode) (g : Gateway) (m : Message) (p : PendingRpc) : Gateway :=
  let g := g.send { m with id := some p.downstreamId } (some p)
  let refused : Bool := match kind with
    | .btc => p.method = "mining.authorize" ∧ ¬ m.result.any (Json.isBool true)
    | .xmr => p.method = "login" ∧ m.error.any Json.truthy
  if refused then g.close "upstream-authorization-failed" else g

def statusOf (db : Database) (r : ShareReference) : Option ShareStatus :=
  (db.shareEvents.find? (matchesReference r)).map ShareEvent.status

def onResponse (kind : AssetCode) (g : Gateway) (m : Message) : Gateway × Option UpPoint :=
  match m.id.filter (fun j => !j.isNull) with
  | none => (g, none)
  | some id =>
    match g.session.pending.find? (fun e => e.1 = id.text) with
    | none => (g, none)
    | some (key, p) =>
      let g := g.set { g.session with pending := g.session.pending.filter (fun e => e.1 ≠ key) }
      match p.shareEvent with
      | some share => (g, some (.resolve m p share))
      | none => (answered kind g m p, none)

def onUpstream (kind : AssetCode) (socket : ℕ) (g : Gateway) (p : UpPoint) (a : Reply) :
    Except String (Gateway × Option UpPoint) :=
  match p with
  | .receive m =>
    let g := (g.set { g.session with
      difficulty := (announces kind m).getD g.session.difficulty }).tell (.heard socket m)
    if m.hasMethod then
      if kind = .btc ∧ m.isMethod "client.reconnect" then
        .ok (g.close "upstream-requested-reconnect", none)
      else .ok (g.send m none, none)
    else .ok (onResponse kind g m)
  | .resolve m p share => do
    let accepted := accepts kind m
    let db ← Shares.resolve g.db a.now share accepted a.latencyMs
      (if accepted then none else some (rejectReason m))
    pure ((g.store db).tell (.resolved share (statusOf db share) m), some (.resolved m p))
  | .resolved m p => .ok (answered kind g m p, none)
  | .protocolError error => .ok (g.close ("upstream-protocol:" ++ error), none)

def onUpstreamThrow (p : UpPoint) (error : String) : Option UpPoint :=
  match p with
  | .protocolError _ => none
  | _ => some (.protocolError error)

end Upstream

section Close

variable (g : Gateway)

def Gateway.closeAt (point : ClosePoint) : Gateway :=
  g.set { g.session with closing := some point }

def closed : Gateway := g.set { g.session with closing := some .finished, countedConnection := false }

def closeLease : Gateway :=
  match g.session.authorized with
  | some auth => if g.session.countedConnection then g.closeAt (.zrem auth.lease) else g.closeAt .finished
  | none => g.closeAt .finished

def closeSockets (code : String) : Gateway :=
  let r := g.resources
  let g := (g.set { g.session with downstreamDestroyed := true }).hold
    { r with destroyed := r.destroyed ++ g.session.upstream.toList }
  match g.session.connectionId with
  | some id => g.closeAt (.closeConnection code id)
  | none => closeLease g

/-- The command that `close` awaits settles, having taken effect or not; a
failure is swallowed. -/
def closeStep (took : Bool) (now : Instant) : Gateway :=
  let r := g.resources
  match g.session.closing with
  | none => g
  | some (.unknown code shares) =>
    let g := if took then g.store (Shares.unknown g.db now shares code) else g
    g.closeAt (.raise code)
  | some (.raise code) =>
    let g := g.set { g.session with pending := [] }
    if g.session.binding.isSome ∧ "upstream-".toList.isPrefixOf code.toList then
      g.closeAt (.failure code)
    else closeSockets g code
  | some (.failure code) => closeSockets g code
  | some (.closeConnection _ id) =>
    closeLease (if took then g.hold { r with disconnected := r.disconnected ++ [id] } else g)
  | some (.zrem lease) =>
    if took then (g.hold { r with leases := r.leases.filter (· ≠ lease) }).closeAt
      (.zcard lease.workerId)
    else closed g
  | some (.zcard workerId) =>
    if took ∧ r.leases.all (fun l => l.workerId ≠ workerId) then g.closeAt (.del workerId)
    else closed g
  | some (.del workerId) =>
    closed (if took then g.hold { r with leases := r.leases.filter (fun l => l.workerId ≠ workerId) }
      else g)
  | some .finished => g

end Close

inductive Call where
  | downstream (p : DownPoint)
  | upstream (socket : ℕ) (p : UpPoint)

def Call.entry : Call → Bool
  | .downstream (.receive _) => true
  | .upstream _ (.receive _) => true
  | _ => false

def queue : Call → Option (Option ℕ)
  | .downstream _ => some none
  | .upstream socket _ => some (some socket)

def effect (decimal : Decimal) (kind : AssetCode) (g : Gateway) (call : Call) (a : Reply) :
    Except String (Gateway × Option Call) :=
  match call with
  | .downstream p => (onDownstream decimal kind g p a).map (fun r => (r.1, r.2.map .downstream))
  | .upstream socket p => (onUpstream kind socket g p a).map (fun r => (r.1, r.2.map (.upstream socket)))

def handler (call : Call) (error : String) : Option Call :=
  match call with
  | .downstream p => (onDownstreamThrow p error).map .downstream
  | .upstream socket p => (onUpstreamThrow p error).map (.upstream socket)

/-- What happens beside the handlers: a cause of close outside them (timeouts, a
line that is no message), the progress of close, sockets that are closed from
the other side, the timer that renews the lease, leases that expire or belong to
other sessions, and what other services do to the journal. -/
inductive Event where
  | close (code : String)
  | closeStep (took : Bool) (now : Instant)
  | downstreamClosed
  | upstreamClosed (socket : ℕ) (code : String)
  | renew
  | leaseExpires (lease : Lease)
  | leaseElsewhere (lease : Lease)
  | rewriteShares (f : ShareEvent → ShareEvent) (hf : KeepsKeys f)
  | insertShare (share : ShareEvent)
  | policies (t : Table SplitPolicyVersion)

def event (g : Gateway) : Event → Gateway
  | .close code => g.close code
  | .closeStep took now => closeStep g took now
  | .downstreamClosed =>
    (g.set { g.session with downstreamDestroyed := true }).close "downstream-closed"
  | .upstreamClosed socket code =>
    if socket ∈ g.resources.opened then
      (g.hold { g.resources with destroyed := g.resources.destroyed ++ [socket] }).close code
    else g
  | .renew =>
    match g.session.authorized.filter (fun _ => g.session.heartbeats ≠ 0) with
    | none => g
    | some auth =>
      if auth.lease ∈ g.resources.leases then
        g.hold { g.resources with renewed := g.resources.renewed ++ [auth.lease] }
      else g.close "connection-lease-lost"
  | .leaseExpires lease =>
    g.hold { g.resources with leases := g.resources.leases.filter (· ≠ lease) }
  | .leaseElsewhere lease =>
    if lease ∈ g.resources.acquired then g
    else g.hold { g.resources with leases := g.resources.leases ++ [lease] }
  | .rewriteShares f hf => g.store (withShares g.db (g.db.shareEvents.update (fun _ => true) f hf))
  | .insertShare share =>
    match g.db.shareEvents.insert share with
    | some shares => g.store (withShares g.db shares)
    | none => g
  | .policies t => g.store { g.db with splitPolicies := t }

def gateway (decimal : Decimal) (kind : AssetCode) : Machine Gateway Call Reply Event :=
  ⟨Call.entry, effect decimal kind, handler, fun _ r _ => r, event⟩

/-- A miner has just connected. -/
structure Gateway.Fresh (g : Gateway) : Prop where
  session : g.session = Session.start
  log : g.log = []
  acquired : g.resources.acquired = []
  opened : g.resources.opened = []
  created : g.resources.created = []

section Sample

def sampleGateway (kind : AssetCode) : Gateway :=
  ⟨Session.start, { Database.empty ⟨"UTC", .customer, 1000, 100, fun _ => 1, fun _ => 900⟩
      (fun _ => ⟨.manual, "cold", 1⟩) with splitPolicies := .single ⟨1, 1, kind, 8000, 0⟩ },
    ⟨[], [], [], [], [], [], []⟩, []⟩

theorem sampleGateway_fresh (kind : AssetCode) : (sampleGateway kind).Fresh :=
  ⟨rfl, rfl, rfl, rfl, rfl⟩

def sampleDecimal : Decimal := fun s =>
  if s = "" then none
  else (s.toList.foldlM (fun (n : ℕ) (c : Char) =>
    if c.isDigit then some (10 * n + (c.toNat - 48)) else none) 0).map (fun n => (n : ℚ))

def handles (m : Message) (a : Reply) (awaits : ℕ) : List (Action Call Reply Event) :=
  .call 0 (.downstream (.receive m)) :: List.replicate awaits (.resolve 0 a)

def tells (m : Message) (awaits : ℕ) : List (Action Call Reply Event) :=
  .call 0 (.upstream 0 (.receive m)) :: List.replicate awaits (.resolve 0 {})

def login (kind : AssetCode) : List (Action Call Reply Event) :=
  handles { id := some (.num "1"), method := some (.str (loginMethod kind)) }
    { auth := some ⟨1, 1, "lease"⟩, candidates := [⟨1, "x"⟩], username := "pool.1",
      newId := fun _ => 7 } 13

def submits (kind : AssetCode) (id job : String) (share : Id) (now : Instant) :
    List (Action Call Reply Event) :=
  handles
    { id := some (.num id)
      method := some (.str (submitMethod kind))
      params := some (match kind with
        | .btc => .arr [.str "x", .str job]
        | .xmr => .obj [("job_id", .str job)]) }
    { newId := fun _ => share, now := now, createdAt := now } 4

end Sample

end Bitmine.GatewaySession
