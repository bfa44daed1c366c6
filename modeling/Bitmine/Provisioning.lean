import Bitmine.Security
import Bitmine.Lib.Trace

namespace Bitmine.Provisioning

open Bitmine.Lib.UniqueTable Bitmine.Lib.GroupSum Bitmine.Schema Bitmine.Security

structure CustomerRow where
  id : Id
  slug : String
  displayName : String
  status : EntityStatus

instance : Row CustomerRow := ⟨Id, String, CustomerRow.id, fun c => some c.slug⟩

structure Credential where
  tokenHash : String
  tokenPrefix : String
  activeFrom : Instant
  expiresAt : Option Instant
  revokedAt : Option Instant

structure WorkerRow where
  id : Id
  customerId : Id
  asset : AssetCode
  slug : String
  status : EntityStatus
  maxConnections : ℕ
  allowedIps : List String
  credentials : List Credential

instance : Row WorkerRow :=
  ⟨Id, Id × AssetCode × String, WorkerRow.id, fun w => some (w.customerId, w.asset, w.slug)⟩

inductive IpType where
  | ipv4 | ipv6
  deriving DecidableEq

/-- The network functions of the platform. `toInteger` is `Number` on the texts
of integers. -/
structure Network where
  isIP : String → Option IpType
  toInteger : String → Option ℤ
  checkAddress : (address remote : String) → IpType → Bool
  checkSubnet : (address : String) → (bits : ℤ) → (remote : String) → IpType → Bool

structure Config where
  autoProvision : Bool
  customerBps : ℤ
  maxConnections : ℕ
  positive : 0 < maxConnections
  maxPerIpPerHour : ℕ

def isHex8 (s : String) : Bool :=
  s.toList.length = 8 && s.toList.all (fun c => c.isDigit || ('a' ≤ c && c ≤ 'f'))

structure Draw where
  now : Instant
  hex : String
  isHex : isHex8 hex = true
  salt : String
  leaseToken : String
  customerId : Id
  workerId : Id
  policyId : AssetCode → Id
  order : Order SplitPolicyVersion

structure Lease where
  token : String
  expiresAt : Instant

structure Gateway where
  customers : Table CustomerRow
  workers : Table WorkerRow
  policies : Table SplitPolicyVersion
  accounts : Table LedgerAccount
  attempts : String → ℕ
  leases : Id → List Lease

structure AuthorizedWorker where
  worker : WorkerRow
  customer : CustomerRow
  policy : SplitPolicyVersion
  connectionLeaseId : String

variable (p : Platform) (net : Network) (cfg : Config)

section Slugs

def replaceRuns (bad : Char → Bool) : (inRun : Bool) → List Char → List Char
  | _, [] => []
  | inRun, c :: cs =>
    if bad c then (if inRun then replaceRuns bad true cs else '-' :: replaceRuns bad true cs)
    else c :: replaceRuns bad false cs

def isDash (c : Char) : Bool := c = '-'

def dropRight (bad : Char → Bool) (cs : List Char) : List Char := (cs.reverse.dropWhile bad).reverse

def customerChar (c : Char) : Bool := c.isLower || c.isDigit || isDash c

def workerChar (c : Char) : Bool := c.isAlphanum || c = '_' || isDash c

/-- The part of `sanitizeCustomerSlug` that looks at the text alone. -/
def cleanCustomer (raw : String) : List Char :=
  let replaced := replaceRuns (fun c => !customerChar c) false (p.toLowerCase raw).toList
  let single := replaceRuns isDash false replaced
  dropRight isDash ((dropRight isDash (single.dropWhile isDash)).take 48)

def sanitizeCustomerSlug (hex raw : String) : String :=
  let cleaned := cleanCustomer p raw
  if 3 ≤ cleaned.length then String.ofList cleaned
  else
    let base := if cleaned = [] then ['r', 'i', 'g'] else cleaned
    String.ofList ((base ++ '-' :: hex.toList).take 48)

def sanitizeWorkerSlug (raw : String) : String :=
  let replaced := replaceRuns (fun c => !workerChar c) false raw.toList
  let cleaned := (replaced.dropWhile (fun c => !c.isAlphanum)).take 64
  if cleaned = [] then "default" else String.ofList cleaned

/-- `customer.worker`, or with auto-provisioning a bare name. -/
def parseUsername (username : String) : Option (String × String) :=
  let before := username.toList.takeWhile (· ≠ '.')
  match username.toList.dropWhile (· ≠ '.') with
  | _ :: worker =>
    if before ≠ [] then some (p.toLowerCase (String.ofList before), String.ofList worker) else bare
  | [] => bare
where
  bare : Option (String × String) :=
    let trimmed := p.toLowerCase (trim username)
    if !cfg.autoProvision || trimmed = "" then none else some (trimmed, "default")

end Slugs

section Addresses

def splitLastSlash (s : String) : Option (String × String) :=
  let tail := s.toList.reverse.takeWhile (· ≠ '/')
  match s.toList.reverse.dropWhile (· ≠ '/') with
  | _ :: front => some (String.ofList front.reverse, String.ofList tail.reverse)
  | [] => none

def parsedRule (rule : String) : Option (String × IpType × Option ℤ) :=
  let normalized := trim rule
  match splitLastSlash normalized with
  | none => (net.isIP normalized).map (fun version => (normalized, version, none))
  | some (address, bits) => do
    let version ← net.isIP address
    let n ← net.toInteger bits
    if n < 0 ∨ (match version with | .ipv4 => 32 | .ipv6 => 128) < n then none
    else some (address, version, some n)

def ipAllowed (remoteIp : String) (rules : List String) : Bool :=
  if rules = [] then true
  else
    let mapped := "::ffff:"
    let normalized := if mapped.toList.isPrefixOf remoteIp.toList then
      String.ofList (remoteIp.toList.drop 7) else remoteIp
    match net.isIP normalized with
    | none => false
    | some version => rules.any (fun rule =>
      match parsedRule net rule with
      | some (address, type, none) => type = version && net.checkAddress address normalized type
      | some (address, type, some n) => type = version && net.checkSubnet address n normalized type
      | none => false)

end Addresses

section Authenticate

def Credential.live (now : Instant) (c : Credential) : Bool :=
  c.revokedAt = none && c.activeFrom ≤ now && c.expiresAt.all (now < ·)

def hasSlug (slug : String) (c : CustomerRow) : Bool := c.slug = slug

def findActiveWorker (s : Gateway) (asset : AssetCode) (customerSlug workerSlug : String) :
    Option (WorkerRow × CustomerRow) := do
  let customer ← s.customers.find? (fun c => hasSlug customerSlug c && c.status = .active)
  let worker ← s.workers.find? (fun w =>
    w.asset = asset && w.slug = workerSlug && w.status = .active && w.customerId = customer.id)
  pure (worker, customer)

def effectivePolicy (env : Draw) (s : Gateway) (customerId : Id) (asset : AssetCode) :
    Option SplitPolicyVersion :=
  (((env.order.arrange s.policies.rows).filter (fun v =>
    v.customerId = customerId && v.asset = asset && v.effectiveAt ≤ env.now)).insertionSort
      (fun v v' => v'.effectiveAt ≤ v.effectiveAt)).head?

def leaseMs : Instant := 180000

def liveLeases (now : Instant) (l : List Lease) : List Lease := l.filter (fun x => now < x.expiresAt)

def setLeases (s : Gateway) (workerId : Id) (l : List Lease) : Gateway :=
  { s with leases := Function.update s.leases workerId l }

def finalize (env : Draw) (s : Gateway) (worker : WorkerRow) (customer : CustomerRow)
    (asset : AssetCode) : Gateway × Option AuthorizedWorker :=
  match effectivePolicy env s worker.customerId asset with
  | none => (s, none)
  | some policy =>
    let live := liveLeases env.now (s.leases worker.id)
    if worker.maxConnections ≤ live.length then (setLeases s worker.id live, none)
    else
      let others := live.filter (fun x => x.token ≠ env.leaseToken)
      (setLeases s worker.id (others ++ [⟨env.leaseToken, env.now + leaseMs⟩]),
        some ⟨worker, customer, policy, env.leaseToken⟩)

def newCustomer (env : Draw) (slug : String) : CustomerRow := ⟨env.customerId, slug, slug, .active⟩

def newPolicy (env : Draw) (customerId : Id) (asset : AssetCode) : SplitPolicyVersion :=
  ⟨env.policyId asset, customerId, asset, cfg.customerBps, env.now⟩

def newAccount (customer : CustomerRow) (asset : AssetCode) : LedgerAccount :=
  ⟨asset, .customerLiability customer.id, some customer.id, customer.displayName ++ " liability",
    .liability⟩

def createCustomer (env : Draw) (s : Gateway) (slug : String) : Option (Gateway × CustomerRow) := do
  let customer := newCustomer env slug
  let customers ← s.customers.insert customer
  let policies ← s.policies.insertAll ([.btc, .xmr].map (newPolicy cfg env customer.id))
  let accounts ← s.accounts.insertAll ([.btc, .xmr].map (newAccount customer))
  pure ({ s with customers := customers, policies := policies, accounts := accounts }, customer)

def newWorker (env : Draw) (customerId : Id) (asset : AssetCode) (slug password : String) : WorkerRow :=
  ⟨env.workerId, customerId, asset, slug, .active, cfg.maxConnections, [],
    [⟨p.hashSecret env.salt password,
      if password = "" then "auto-claimed" else String.ofList (password.toList.take 10),
      env.now, none, none⟩]⟩

def findOrCreateCustomer (env : Draw) (s : Gateway) (slug : String) : Option (Gateway × CustomerRow) :=
  match s.customers.find? (hasSlug slug) with
  | some customer => some (s, customer)
  | none => createCustomer cfg env s slug

/-- The transaction; a unique constraint, a disabled customer and an existing
worker all roll it back. -/
def provision (env : Draw) (s : Gateway) (asset : AssetCode) (customerSlug workerSlug password : String) :
    Option (Gateway × WorkerRow × CustomerRow) := do
  let (s, customer) ← findOrCreateCustomer cfg env s customerSlug
  if customer.status ≠ .active then none
  else if s.workers.rows.any (fun w =>
      w.customerId = customer.id && w.asset = asset && w.slug = workerSlug) then none
  else do
    let worker := newWorker p cfg env customer.id asset workerSlug password
    let workers ← s.workers.insert worker
    pure ({ s with workers := workers }, worker, customer)

def countAttempt (s : Gateway) (remoteIp : String) : Gateway × ℕ :=
  let key := "gateway:autoprovision:" ++ p.sha256 remoteIp
  let attempts := s.attempts key + 1
  ({ s with attempts := Function.update s.attempts key attempts }, attempts)

def autoProvision (env : Draw) (s : Gateway) (asset : AssetCode)
    (customerSlugRaw workerSlugRaw password remoteIp : String) :
    Gateway × Option (WorkerRow × CustomerRow) :=
  let counted := countAttempt p s remoteIp
  if cfg.maxPerIpPerHour < counted.2 then (counted.1, none)
  else
    match provision p cfg env counted.1 asset (sanitizeCustomerSlug p env.hex customerSlugRaw)
      (sanitizeWorkerSlug workerSlugRaw) password with
    | some (provisioned, worker, customer) => (provisioned, some (worker, customer))
    | none => (counted.1, none)

def authenticate (env : Draw) (s : Gateway) (asset : AssetCode) (username password remoteIp : String) :
    Gateway × Option AuthorizedWorker :=
  match parseUsername p cfg username with
  | none => (s, none)
  | some (customerSlug, workerSlug) =>
    match findActiveWorker s asset customerSlug workerSlug with
    | some (worker, customer) =>
      if !ipAllowed net remoteIp worker.allowedIps then (s, none)
      else if (worker.credentials.filter (Credential.live env.now)).any
          (fun c => p.verifySecret c.tokenHash password) then
        finalize env s worker customer asset
      else (s, none)
    | none =>
      if !cfg.autoProvision then (s, none)
      else
        match autoProvision p cfg env s asset customerSlug workerSlug password remoteIp with
        | (provisioned, some (worker, customer)) => finalize env provisioned worker customer asset
        | (counted, none) => (counted, none)

end Authenticate

end Bitmine.Provisioning
