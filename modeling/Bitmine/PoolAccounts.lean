import Bitmine.Deposits

namespace Bitmine.PoolAccounts

open Bitmine.Lib.UniqueTable Bitmine.Lib.GroupSum Bitmine.Lib.Throwing
open Bitmine.Schema Bitmine.Security

inductive PoolProtocol where
  | bitcoinStratumV1 | moneroJsonRpc
  deriving DecidableEq

/-- A row of the upstream table with the columns that administrators edit. -/
structure Endpoint where
  id : Id
  accountKey : String
  asset : AssetCode
  protocol : PoolProtocol
  name : String
  host : String
  port : ℕ
  tls : Bool
  priority : ℤ
  enabled : Bool
  usernameTemplate : String
  passwordCiphertext : Option String
  receiveAddress : Option String

instance : Row Endpoint := ⟨Id, Unit, Endpoint.id, fun _ => none⟩

def Endpoint.upstream (u : Endpoint) : Upstream :=
  ⟨u.id, u.accountKey, u.asset, u.priority, u.enabled, u.receiveAddress⟩

def upstreams (t : Table Endpoint) : Table Upstream :=
  ⟨t.rows.map Endpoint.upstream, by
    refine List.pairwise_map.mpr (t.unique.imp ?_)
    rintro u v huv (hid | ⟨_, hn⟩)
    · exact huv (.inl hid)
    · cases hn⟩

/-- `^[a-z0-9][a-z0-9._-]{1,118}[a-z0-9]$` -/
def isAccountKey (s : String) : Bool :=
  let alphanumeric : Char → Bool := fun c => c.isLower || c.isDigit
  let cs := s.toList
  3 ≤ cs.length && cs.length ≤ 120 && cs.head?.all alphanumeric && cs.getLast?.all alphanumeric &&
    cs.all (fun c => alphanumeric c || c = '.' || c = '_' || c = '-')

abbrev AccountKey := { s : String // isAccountKey s = true }

structure CreateUpstream where
  accountKey : Option AccountKey
  asset : AssetCode
  protocol : PoolProtocol
  name : String
  host : String
  port : ℕ
  tls : Bool
  priority : ℤ
  usernameTemplate : String
  password : Option String
  receiveAddress : Option String

/-- A request to change an endpoint. Password and address may be missing, null
or a text; a null for another column is refused by the database client. -/
structure UpdateUpstream where
  accountKey : Option AccountKey := none
  name : Option String := none
  host : Option String := none
  port : Option ℕ := none
  tls : Option Bool := none
  priority : Option ℤ := none
  enabled : Option Bool := none
  usernameTemplate : Option String := none
  password : Option (Option String) := none
  receiveAddress : Option (Option String) := none

/-- A text that can stand between dots. -/
def Undotted (s : String) : Prop := s ≠ "" ∧ '.' ∉ s.toList

/-- What a call draws or learns from outside: a fresh identifier, the vectors
of the encryptions in base64url, the verdict of the wallet, the order of a query. -/
structure Draw where
  id : Id
  iv : Id → String
  undotted : ∀ id, Undotted (iv id)
  validateAddress : AssetCode → String → Bool
  order : Order Endpoint

variable (prim : Primitives)

def passwordContext (id : Id) : String := "upstream:" ++ toString id ++ ":password"

def password (u : Endpoint) : Except String String :=
  match truthy u.passwordCiphertext with
  | some ciphertext => decrypt prim ciphertext (passwordContext u.id)
  | none => .ok "x"

def sealPassword (env : Draw) (id : Id) (password : Option String) : Option String :=
  (truthy password).map (fun p => encrypt prim (env.iv id) p (passwordContext id))

def protocolMatches : AssetCode → PoolProtocol → Bool
  | .btc, .bitcoinStratumV1 => true
  | .xmr, .moneroJsonRpc => true
  | _, _ => false

def Distinct (u v : Endpoint) : Prop :=
  ¬ (u.asset = v.asset ∧ u.name = v.name) ∧
  ¬ (u.asset = v.asset ∧ u.accountKey = v.accountKey ∧ u.host = v.host ∧ u.port = v.port ∧
    u.tls = v.tls)

instance (u v : Endpoint) : Decidable (Distinct u v) := inferInstanceAs (Decidable (_ ∧ _))

def checkIndexes (t : Table Endpoint) : Except String (Table Endpoint) :=
  if t.rows.Pairwise Distinct then .ok t else .error uniqueViolation

def inAccount (asset : AssetCode) (accountKey : String) (u : Endpoint) : Bool :=
  u.asset = asset ∧ u.accountKey = accountKey

def refuse (condition : Bool) (message : String) : Except String Unit :=
  if condition then .error message else .ok ()

def joinPeer (env : Draw) (dto : CreateUpstream) (peer : Endpoint) :
    Except String (Option String) := do
  refuse (peer.protocol ≠ dto.protocol) "Pool-account endpoints must use the same protocol"
  refuse (peer.receiveAddress ≠ dto.receiveAddress)
    "Pool-account endpoints must use the same receive address"
  refuse (peer.usernameTemplate ≠ dto.usernameTemplate)
    "Pool-account endpoints must use the same username template"
  let p ← password prim peer
  refuse (dto.password.getD "x" ≠ p) "Pool-account endpoints must use the same password"
  pure (if (truthy peer.passwordCiphertext).isSome then
    some (encrypt prim (env.iv env.id) p (passwordContext env.id)) else none)

def accountKeyOf (env : Draw) (dto : CreateUpstream) : String :=
  (dto.accountKey.map Subtype.val).getD (toString env.id)

def newEndpoint (env : Draw) (dto : CreateUpstream) (ciphertext : Option String) : Endpoint :=
  ⟨env.id, accountKeyOf env dto, dto.asset, dto.protocol, dto.name, dto.host, dto.port, dto.tls,
    dto.priority, true, dto.usernameTemplate, ciphertext, dto.receiveAddress⟩

def findPeer (env : Draw) (t : Table Endpoint) (dto : CreateUpstream) : Option Endpoint :=
  if dto.accountKey.isSome then
    (env.order.arrange t.rows).find? (inAccount dto.asset (accountKeyOf env dto))
  else none

def newPassword (env : Draw) (t : Table Endpoint) (dto : CreateUpstream) :
    Except String (Option String) :=
  match findPeer env t dto with
  | some peer => joinPeer prim env dto peer
  | none => .ok (sealPassword prim env env.id dto.password)

def create (env : Draw) (t : Table Endpoint) (dto : CreateUpstream) :
    Except String (Table Endpoint) := do
  refuse (!protocolMatches dto.asset dto.protocol) "Protocol does not match asset"
  refuse ((truthy dto.receiveAddress).any (fun a => !env.validateAddress dto.asset a))
    "Invalid receive address for upstream asset"
  let ciphertext ← newPassword prim env t dto
  let t' ← orThrow uniqueViolation (t.insert (newEndpoint env dto ciphertext))
  checkIndexes t'

section Update

variable (env : Draw) (dto : UpdateUpstream)

def editShared (u : Endpoint) : Endpoint :=
  { u with
    usernameTemplate := dto.usernameTemplate.getD u.usernameTemplate
    receiveAddress := dto.receiveAddress.getD u.receiveAddress
    passwordCiphertext := match dto.password with
      | some p => sealPassword prim env u.id p
      | none => u.passwordCiphertext }

def editOwn (u : Endpoint) : Endpoint :=
  { editShared prim env dto u with
    accountKey := (dto.accountKey.map Subtype.val).getD u.accountKey
    name := dto.name.getD u.name
    host := dto.host.getD u.host
    port := dto.port.getD u.port
    tls := dto.tls.getD u.tls
    priority := dto.priority.getD u.priority
    enabled := dto.enabled.getD u.enabled }

def nextAccountKey (before : Endpoint) : String :=
  (dto.accountKey.map Subtype.val).getD before.accountKey

def nextAddress (before : Endpoint) : Option String := dto.receiveAddress.getD before.receiveAddress

def nextTemplate (before : Endpoint) : String := dto.usernameTemplate.getD before.usernameTemplate

def nextPassword (before : Endpoint) : Except String String :=
  match dto.password with
  | some p => .ok ((truthy p).getD "x")
  | none => password prim before

def joiningExistingAccount (before : Endpoint) : Bool := nextAccountKey dto before ≠ before.accountKey

def peersOf (t : Table Endpoint) (before : Endpoint) : List Endpoint :=
  t.rows.filter (fun u => inAccount before.asset (nextAccountKey dto before) u ∧ u.id ≠ before.id)

def checkPeers (before : Endpoint) (peers : List Endpoint) : Except String Unit := do
  let joining := joiningExistingAccount dto before
  refuse (joining && peers.any (fun u => u.receiveAddress ≠ nextAddress dto before))
    "Pool-account endpoints must use the same receive address"
  refuse (joining && peers.any (fun u => u.usernameTemplate ≠ nextTemplate dto before))
    "Pool-account endpoints must use the same username template"
  let next ← nextPassword prim dto before
  if joining then
    let differs ← peers.anyM (fun u => do
      let p ← password prim u
      pure (decide (p ≠ next)))
    refuse differs "Pool-account endpoints must use the same password"

theorem editShared_keepsKeys : KeepsKeys (editShared prim env dto) := fun _ => ⟨rfl, rfl⟩

theorem editOwn_keepsKeys : KeepsKeys (editOwn prim env dto) := fun _ => ⟨rfl, rfl⟩

def writeUpdate (t : Table Endpoint) (before : Endpoint) (peers : List Endpoint) :
    Except String (Table Endpoint) := do
  let t ← checkIndexes (t.update (fun u => u.id = before.id) (editOwn prim env dto)
    (editOwn_keepsKeys prim env dto))
  if joiningExistingAccount dto before then pure t
  else pure (t.update (fun u => peers.any (fun p => p.id = u.id)) (editShared prim env dto)
    (editShared_keepsKeys prim env dto))

def update (t : Table Endpoint) (id : Id) : Except String (Table Endpoint) := do
  let before ← orThrow "Upstream not found" (t.find? (fun u => u.id = id))
  refuse ((dto.receiveAddress.bind truthy).any (fun a =>
    some a ≠ before.receiveAddress && !env.validateAddress before.asset a))
    "Invalid receive address for upstream asset"
  let peers := peersOf dto t before
  checkPeers prim dto before peers
  writeUpdate prim env dto t before peers

end Update

inductive Request where
  | create (env : Draw) (dto : CreateUpstream)
  | update (env : Draw) (id : Id) (dto : UpdateUpstream)

def attempt (t : Table Endpoint) : Request → Except String (Table Endpoint)
  | .create env dto => create prim env t dto
  | .update env id dto => update prim env dto t id

/-- A rejected call leaves the rows as they are. The audit record comes after
the write, so its failure does not undo it. -/
def perform (t : Table Endpoint) (q : Request) : Table Endpoint :=
  match attempt prim t q with
  | .ok t' => t'
  | .error _ => t

section Encryption

/-- Authenticated encryption: what was sealed under a context opens under it.
Tags are never empty, ciphertexts only for an empty plaintext, and neither has
a dot in base64url. -/
structure Authentic : Prop where
  opens : ∀ iv context plaintext, prim.decipher iv (prim.encipher iv context plaintext).1
    (prim.encipher iv context plaintext).2 context = some plaintext
  tag : ∀ iv context plaintext, Undotted (prim.encipher iv context plaintext).1
  ciphertext : ∀ iv context plaintext, plaintext ≠ "" →
    Undotted (prim.encipher iv context plaintext).2

variable {prim}

theorem splitDots_encrypt {iv context plaintext : String} (hiv : '.' ∉ iv.toList)
    (htag : '.' ∉ (prim.encipher iv context plaintext).1.toList)
    (htext : '.' ∉ (prim.encipher iv context plaintext).2.toList) :
    splitDots (encrypt prim iv plaintext context) =
      ["v1", iv, (prim.encipher iv context plaintext).1, (prim.encipher iv context plaintext).2] := by
  have hjoin : (encrypt prim iv plaintext context).toList = ['.'].intercalate
      ["v1".toList, iv.toList, (prim.encipher iv context plaintext).1.toList,
        (prim.encipher iv context plaintext).2.toList] := by
    simp [encrypt, List.intercalate, List.intersperse]
  rw [splitDots, hjoin, List.splitOn_intercalate _ _ (by simp)]
  · simp
  · intro l hl
    simp only [List.mem_cons, List.not_mem_nil, or_false] at hl
    obtain rfl | rfl | rfl | rfl := hl
    · decide
    · exact hiv
    · exact htag
    · exact htext

theorem truthy_some {s : String} (h : s ≠ "") : truthy (some s) = some s := if_neg h

theorem decrypt_encrypt (h : Authentic prim) {iv context plaintext : String} (hiv : Undotted iv)
    (hp : plaintext ≠ "") : decrypt prim (encrypt prim iv plaintext context) context = .ok plaintext := by
  have htag := h.tag iv context plaintext
  have htext := h.ciphertext iv context plaintext hp
  simp only [decrypt, splitDots_encrypt hiv.2 htag.2 htext.2, List.getElem?_cons_zero,
    List.getElem?_cons_succ, truthy_some hiv.1, truthy_some htag.1, truthy_some htext.1, h.opens]
  rfl

theorem encrypt_ne_empty (iv plaintext context : String) : encrypt prim iv plaintext context ≠ "" := by
  intro he
  have hl := congrArg String.toList he
  simp [encrypt] at hl

end Encryption

end Bitmine.PoolAccounts
