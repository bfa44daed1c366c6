import Bitmine.AccountConsistency
import Bitmine.ConcurrentLogins

namespace Bitmine.Authorization

open Bitmine.Lib.UniqueTable Bitmine.Lib.Throwing Bitmine.Lib.Await
open Bitmine.Schema Bitmine.Security Bitmine.AdminSessions Bitmine.Enrolment
open Bitmine.ConcurrentLogins (AuthCall)
open Bitmine.AccountConsistency (truthy_eq_some)

/-- What `@UseGuards` names. -/
inductive GuardClass where
  | authGuard
  | rolesGuard
  deriving DecidableEq

structure Controller where
  path : String
  guards : List GuardClass
  roles : Option (List AdminRole)
  deriving DecidableEq

structure Route where
  controller : Controller
  method : String
  path : String
  isPublic : Bool
  roles : Option (List AdminRole)
  deriving DecidableEq

section Controllers

def anyone : Option (List AdminRole) := some [.owner, .operator, .viewer]

def staff : Option (List AdminRole) := some [.owner, .operator]

def owner : Option (List AdminRole) := some [.owner]

def both : List GuardClass := [.authGuard, .rolesGuard]

def Controller.handlers (c : Controller) (l : List (String × String × Option (List AdminRole))) :
    List Route :=
  l.map (fun (method, path, roles) => ⟨c, method, path, false, roles⟩)

def authController : Controller := ⟨"api/v1/auth", [.authGuard], none⟩

def login : Route := ⟨authController, "POST", "login", true, none⟩

def logout : Route := ⟨authController, "POST", "logout", false, none⟩

def me : Route := ⟨authController, "GET", "me", false, none⟩

def setupTotp : Route := ⟨authController, "POST", "totp/setup", false, none⟩

def enableTotp : Route := ⟨authController, "POST", "totp/enable", false, none⟩

def upstreamsController : Controller := ⟨"api/v1/upstreams", both, none⟩

def statsController : Controller := ⟨"api/v1/stats", both, anyone⟩

def walletsController : Controller := ⟨"api/v1/wallets", both, anyone⟩

def validate : Route := ⟨walletsController, "POST", "validate-address", false, none⟩

def auditController : Controller := ⟨"api/v1/audit", both, anyone⟩

def verify : Route := ⟨auditController, "GET", "verify", false, owner⟩

def customersController : Controller := ⟨"api/v1/customers", both, none⟩

def proxySettingsController : Controller := ⟨"api/v1/network/proxy", both, none⟩

def updateProxy : Route := ⟨proxySettingsController, "PUT", "", false, owner⟩

def eventsController : Controller := ⟨"api/v1/events", [.authGuard], none⟩

def ledgerController : Controller := ⟨"api/v1/ledger", both, anyone⟩

def settingsController : Controller := ⟨"api/v1/settings", both, none⟩

def updateSchedule : Route := ⟨settingsController, "PUT", "payout-schedule", false, owner⟩

def updateOperatorPayout : Route := ⟨settingsController, "PUT", "operator-payout", false, owner⟩

def publicPortalController : Controller := ⟨"api/v1/public/portal", [], none⟩

def summary : Route := ⟨publicPortalController, "POST", "summary", false, none⟩

def addPayoutDestination : Route := ⟨publicPortalController, "POST", "payout-destinations", false, none⟩

def healthController : Controller := ⟨"health", [], none⟩

def live : Route := ⟨healthController, "GET", "live", true, none⟩

def ready : Route := ⟨healthController, "GET", "ready", true, none⟩

def metricsController : Controller := ⟨"metrics", [], none⟩

def metrics : Route := ⟨metricsController, "GET", "", true, none⟩

def payoutsController : Controller := ⟨"api/v1/payouts", both, none⟩

def planOperator : Route := ⟨payoutsController, "POST", "operator/plan", false, owner⟩

def approve : Route := ⟨payoutsController, "POST", ":id/approve", false, owner⟩

def execute : Route := ⟨payoutsController, "POST", ":id/execute", false, owner⟩

def alertsController : Controller := ⟨"api/v1/alerts", both, anyone⟩

def routes : List Route :=
  [login, logout, me, setupTotp, enableTotp, validate, verify, updateProxy, updateSchedule,
    updateOperatorPayout, summary, addPayoutDestination, live, ready, metrics, planOperator, approve,
    execute] ++
  upstreamsController.handlers [("GET", "", anyone), ("POST", "", staff), ("PATCH", ":id", staff),
    ("POST", ":id/test", staff)] ++
  statsController.handlers [("GET", "dashboard", none), ("GET", "workers", none)] ++
  walletsController.handlers [("GET", "status", none), ("POST", "receive-address", staff),
    ("POST", "scan", staff), ("GET", "deposits", none)] ++
  auditController.handlers [("GET", "", none)] ++
  customersController.handlers [("GET", "", anyone), ("GET", ":id", anyone), ("POST", "", staff),
    ("PATCH", ":id", staff), ("POST", ":id/disable", staff), ("POST", ":id/enable", staff),
    ("POST", ":id/workers", staff), ("POST", "workers/:workerId/credentials/rotate", staff),
    ("POST", "credentials/:credentialId/revoke", staff), ("POST", ":id/portal-access/rotate", staff),
    ("POST", ":id/split-policies", staff), ("POST", ":id/payout-destinations", staff)] ++
  proxySettingsController.handlers [("GET", "", anyone)] ++
  eventsController.handlers [("GET", "", none)] ++
  ledgerController.handlers [("GET", "transactions", none), ("GET", "customer-balances", none),
    ("GET", "trial-balance/:asset", none), ("POST", "allocate/:depositId", staff)] ++
  settingsController.handlers [("GET", "", anyone)] ++
  payoutsController.handlers [("GET", "", anyone), ("POST", "plan", staff), ("POST", "reconcile", staff)] ++
  alertsController.handlers [("GET", "", none), ("POST", ":id/resolve", staff)]

end Controllers

inductive Body where
  | login (dto : LoginDto)
  | totpCode (code : String)
  | other

structure Request where
  route : Route
  method : String
  cookie : Option String
  csrf : Option String
  body : Body

def safeMethods : List String := ["GET", "HEAD", "OPTIONS"]

/-- The router serves HEAD by the handlers for GET. -/
def Route.accepts (r : Route) (method : String) : Bool :=
  method = r.method || (r.method = "GET" && method = "HEAD")

/-- `getAllAndOverride`: the handler's metadata before the class's. -/
def Route.required (r : Route) : Option (List AdminRole) := r.roles.or r.controller.roles

/-- `RolesGuard.canActivate`. -/
def Route.permits (r : Route) (admin : Option SessionPayload) : Bool :=
  match r.required with
  | none => true
  | some [] => true
  | some required => admin.any (fun a => a.role ∈ required)

def checkCsrf (q : Request) (session : SessionPayload) : Except String Unit :=
  if q.method ∉ safeMethods ∧ q.csrf ≠ some session.csrfToken then .error "Invalid CSRF token" else .ok ()

structure Moment where
  now : Instant
  accounts : Accounts

/-- A request under way, and how many effects had taken place when its guards began. -/
structure Visit where
  request : Request
  begun : ℕ

/-- A session that a login has stored, for the account as that login had read it, and how
many effects had taken place and how many handlers had run when it did. -/
structure Granted where
  key : String
  session : SessionPayload
  admin : Account
  effects : ℕ
  requests : ℕ

/-- A request whose handler has run, with its `request.admin`. -/
structure Served where
  visit : Visit
  admin : Option SessionPayload

structure Server where
  logins : ConcurrentLogins.State
  past : List Moment
  granted : List Granted
  served : List Served

/-- The awaits of the guards and of the handlers for logins, logouts and the second factor. -/
inductive Point where
  | arrive (q : Request)
  | connect (v : Visit) (token : String) (rest : List GuardClass)
  | get (v : Visit) (token : String) (rest : List GuardClass)
  | readAdmin (v : Visit) (token : String) (session : SessionPayload) (rest : List GuardClass)
  | del (token : String)
  | set (v : Visit) (token : String) (session : SessionPayload) (rest : List GuardClass)
  | handle (v : Visit) (admin : Option SessionPayload)
  | logout (token : String)
  | beginTotp (adminId : Id)
  | storeSecret (adminId : Id) (ciphertext : String)
  | auth (r : AuthCall)

def Point.entry : Point → Bool
  | .arrive q => q.route ∈ routes && q.route.accepts q.method
  | _ => false

/-- Run the guards that are left, up to the next await. -/
def activate (v : Visit) (admin : Option SessionPayload) : List GuardClass → Except String Point
  | [] => .ok (.handle v admin)
  | .authGuard :: rest =>
    if v.request.route.isPublic then activate v admin rest
    else match truthy v.request.cookie with
      | some token => .ok (.connect v token rest)
      | none => .error "Authentication required"
  | .rolesGuard :: rest =>
    if v.request.route.permits admin then activate v admin rest else .error "Insufficient role"

def dispatch (q : Request) (admin : Option SessionPayload) : Except String (Option Point) :=
  if q.route = login then
    match q.body with
    | .login dto => .ok (some (.auth (.login dto)))
    | _ => .error "Bad Request"
  else if q.route = logout then .ok ((truthy q.cookie).map .logout)
  else if q.route = setupTotp then
    match admin with
    | some a => .ok (some (.beginTotp a.id))
    | none => .error "TypeError"
  else if q.route = enableTotp then
    match admin, q.body with
    | some a, .totpCode code => .ok (some (.auth (.enableTotp a.id code)))
    | none, .totpCode _ => .error "TypeError"
    | _, _ => .error "Bad Request"
  else .ok none

def profile (a : Account) : AdminProfile := ⟨a.email, a.displayName, a.role, a.status⟩

variable (p : Platform)

namespace Server

variable (s : Server)

def sessions : List (String × SessionPayload) := s.logins.accounts.sessions

def put (sessions : List (String × SessionPayload)) : Server :=
  { s with logins := { s.logins with accounts := { s.logins.accounts with sessions := sessions } } }

def remove (token : String) : Server :=
  s.put (s.sessions.filter (fun e => e.1 ≠ sessionKey p token))

def store (token : String) (session : SessionPayload) : Server :=
  s.put ((sessionKey p token, session) :: s.sessions)

def serve (v : Visit) (admin : Option SessionPayload) : Server :=
  { s with served := s.served ++ [⟨v, admin⟩] }

def grant (logins : ConcurrentLogins.State) (granted : List Granted) : Server :=
  { s with logins := logins, granted := s.granted ++ granted }

def record (now : Instant) : Server := { s with past := s.past ++ [⟨now, s.logins.accounts⟩] }

end Server

def grants (s : Server) (env : Draw) : AuthCall → List Granted
  | .setSession _ admin _ =>
    [⟨sessionKey p (env.token 0), newSession p env admin, admin, s.past.length, s.served.length⟩]
  | _ => []

def perform (s : Server) (r : Point) (env : Draw) : Except String (Server × Option Point) :=
  match r with
  | .arrive q => do
    let r ← activate ⟨q, s.past.length⟩ none q.route.controller.guards
    pure (s, some r)
  | .connect v token rest => .ok (s, some (.get v token rest))
  | .get v token rest => do
    let (_, session) ← orThrow "Authentication required"
      (s.sessions.find? (fun e => e.1 = sessionKey p token))
    pure (s, some (.readAdmin v token session rest))
  | .readAdmin v token session rest =>
    match s.logins.accounts.admins.find? (byId session.id) with
    | some admin =>
      if admin.status = .active then
        .ok (s, some (.set v token (revalidate session (profile admin) (p.toISOString env.now)) rest))
      else .ok (s, some (.del token))
    | none => .ok (s, some (.del token))
  | .del token => .ok (s.remove p token, none)
  | .set v token session rest =>
    .ok (s.store p token session, (do
      let _ ← checkCsrf v.request session
      activate v (some session) rest : Except String Point).toOption)
  | .handle v admin => do
    let o ← dispatch v.request admin
    pure (s.serve v admin, o)
  | .logout token => .ok (s.remove p token, none)
  | .beginTotp adminId => do
    let _ ← orThrow recordNotFound (s.logins.accounts.admins.find? (byId adminId))
    pure (s, some (.storeSecret adminId
      (encrypt p.toPrimitives env.iv (generateTotpSecret env.bytes) (totpContext adminId))))
  | .storeSecret adminId ciphertext => do
    let logins ← ConcurrentLogins.updateAdmin s.logins adminId (setSecret ciphertext)
      (setSecret_keys ciphertext)
    pure (s.grant logins [], none)
  | .auth r => do
    let (logins, o) ← ConcurrentLogins.effect p s.logins r env
    pure (s.grant logins (grants p s env r), o.map .auth)

/-- Keys expire, and administrators are edited elsewhere. -/
inductive Change where
  | expire (key : String)
  | edit (admins : Table Account)

def change (s : Server) : Change → Server
  | .expire key => s.put (s.sessions.filter (fun e => e.1 ≠ key))
  | .edit admins => { s with logins := s.logins.withAdmins admins }

def server : Machine Server Point Draw Change where
  entry := Point.entry
  effect s r env := perform p (s.record env.now) r env
  handler _ _ := none
  background _ r _ := r
  event := change

def Server.start (accounts : Accounts) (now : Instant) : Server :=
  ⟨.start accounts now, [], [], []⟩

section Specification

def Found (past : List Moment) (dto : LoginDto) (admin : Account) (later : List Moment) : Prop :=
  ∃ earlier m, past = earlier ++ m :: later ∧
    m.accounts.admins.find? (byEmail (p.toLowerCase (trim dto.email))) = some admin

def Offered (moments : List Moment) (admin : Account) (b : BackupCode) : Prop :=
  ∃ m ∈ moments, b ∈ m.accounts.backupCodes.rows ∧ b.adminId = admin.id ∧ b.usedAt = none

def Factor (moments : List Moment) (now : Instant) (admin : Account) (code : String) : Prop :=
  (∃ ciphertext secret, admin.totpSecretCiphertext = some ciphertext ∧
    openSecret p admin ciphertext = .ok secret ∧
    verifyTotp p.toPrimitives secret code now = .ok true) ∨
  ∃ b, Offered moments admin b ∧ p.verifySecret b.codeHash (normalizeCode p code) = true

/-- What a login shows for an account as it has read it: the password, and the second factor
where the account has one. -/
structure Proven (past : List Moment) (dto : LoginDto) (admin : Account) : Prop where
  password : p.verifySecret admin.passwordHash dto.password = true
  active : admin.status = .active
  checked : ∃ later, Found p past dto admin later ∧ ∃ m ∈ later,
    admin.lockedUntil.any (m.now < ·) = false ∧
    (admin.totpEnabled = true → ∃ code, dto.totpCode = some code ∧ Factor p later m.now admin code)

def Requested (served : List Served) (dto : LoginDto) : Prop :=
  ∃ e ∈ served, e.visit.request.route = login ∧ e.visit.request.body = .login dto

def LoggedIn (past : List Moment) (served : List Served) (admin : Account) : Prop :=
  ∃ dto, Requested served dto ∧ Proven p past dto admin

/-- A session was stored for an account that had been logged in to by then. -/
structure Earned (s : Server) (g : Granted) : Prop where
  id : g.session.id = g.admin.id
  effects : g.effects ≤ s.past.length
  requests : g.requests ≤ s.served.length
  loggedIn : LoggedIn p (s.past.take g.effects) (s.served.take g.requests) g.admin

structure SameSession (a b : SessionPayload) : Prop where
  id : a.id = b.id
  sessionId : a.sessionId = b.sessionId
  csrfToken : a.csrfToken = b.csrfToken
  createdAt : a.createdAt = b.createdAt

def Origin (s : Server) (key : String) (session : SessionPayload) : Prop :=
  ∃ g ∈ s.granted, g.key = key ∧ SameSession g.session session

/-- Who stands behind a session: someone who has logged in to its account. -/
def Vouched (s : Server) (key : String) (session : SessionPayload) : Prop :=
  ∃ g ∈ s.granted, g.key = key ∧ SameSession g.session session ∧ Earned p s g

/-- Since the request's guards began the session has been in the store under the key. -/
def Stored (s : Server) (v : Visit) (key : String) (session : SessionPayload) : Prop :=
  ∃ i m e, v.begun ≤ i ∧ s.past[i]? = some m ∧ e ∈ m.accounts.sessions ∧ e.1 = key ∧
    SameSession e.2 session

/-- Since the request's guards began the administrator has been active in this role. -/
def Current (s : Server) (v : Visit) (session : SessionPayload) : Prop :=
  ∃ i m admin, v.begun ≤ i ∧ s.past[i]? = some m ∧
    m.accounts.admins.find? (byId session.id) = some admin ∧ admin.status = .active ∧
      admin.role = session.role

structure Authorized (s : Server) (v : Visit) (session : SessionPayload) : Prop where
  opened : ∃ token, truthy v.request.cookie = some token ∧ Origin s (sessionKey p token) session ∧
    Stored s v (sessionKey p token) session
  current : Current s v session
  csrf : v.request.method ∉ safeMethods → v.request.csrf = some session.csrfToken
  role : .rolesGuard ∈ v.request.route.controller.guards →
    v.request.route.permits (some session) = true

def Listed (q : Request) : Prop := q.route ∈ routes ∧ q.route.accepts q.method = true

def Cleared (s : Server) (v : Visit) (admin : Option SessionPayload) : Prop :=
  Listed v.request ∧ (v.request.route.isPublic = true ∨ v.request.route.controller.guards = [] ∨
    ∃ session, admin = some session ∧ Authorized p s v session)

/-- Every session traces back to a login, and every request that has been served was cleared. -/
structure Secure (s : Server) : Prop where
  sessions : ∀ e ∈ s.sessions, Origin s e.1 e.2
  granted : ∀ g ∈ s.granted, Earned p s g
  served : ∀ e ∈ s.served, Cleared p s e.visit e.admin

end Specification

section Growth

structure Grows (s s' : Server) : Prop where
  past : s.past <+: s'.past
  granted : s.granted ⊆ s'.granted
  served : s.served <+: s'.served

variable {p} {s s' : Server}

theorem Grows.refl (s : Server) : Grows s s :=
  ⟨List.prefix_refl _, List.Subset.refl _, List.prefix_refl _⟩

theorem Grows.trans {s'' : Server} (h : Grows s s') (h' : Grows s' s'') : Grows s s'' :=
  ⟨h.past.trans h'.past, List.Subset.trans h.granted h'.granted, h.served.trans h'.served⟩

theorem Found.append {past later : List Moment} {dto : LoginDto} {admin : Account}
    (h : Found p past dto admin later) (moments : List Moment) :
    Found p (past ++ moments) dto admin (later ++ moments) := by
  obtain ⟨earlier, m, rfl, hfind⟩ := h
  exact ⟨earlier, m, by rw [List.append_assoc, List.cons_append], hfind⟩

theorem Offered.mono {moments moments' : List Moment} (hs : moments ⊆ moments') {admin : Account}
    {b : BackupCode} (h : Offered moments admin b) : Offered moments' admin b :=
  h.imp (fun _ hm => ⟨hs hm.1, hm.2⟩)

theorem Factor.mono {moments moments' : List Moment} (hs : moments ⊆ moments') {now : Instant}
    {admin : Account} {code : String} (h : Factor p moments now admin code) :
    Factor p moments' now admin code :=
  h.imp_right (fun ⟨b, hb, hcode⟩ => ⟨b, hb.mono hs, hcode⟩)

theorem Proven.later {past past' : List Moment} (hp : past <+: past') {dto : LoginDto} {admin : Account}
    (h : Proven p past dto admin) : Proven p past' dto admin := by
  obtain ⟨moments, rfl⟩ := hp
  obtain ⟨later, hfound, m, hm, hunlocked, hfactor⟩ := h.checked
  refine ⟨h.password, h.active, later ++ moments, hfound.append moments, m, ?_, hunlocked, fun he => ?_⟩
  · exact List.mem_append_left moments hm
  · obtain ⟨code, hcode, hshown⟩ := hfactor he
    exact ⟨code, hcode, hshown.mono (List.subset_append_left _ _)⟩

theorem Requested.later {served served' : List Served} (hs : served <+: served') {dto : LoginDto}
    (h : Requested served dto) : Requested served' dto := by
  obtain ⟨e, he, hlogin⟩ := h
  exact ⟨e, hs.subset he, hlogin⟩

theorem LoggedIn.grows (hg : Grows s s') {admin : Account} (h : LoggedIn p s.past s.served admin) :
    LoggedIn p s'.past s'.served admin := by
  obtain ⟨dto, hdto, hproven⟩ := h
  exact ⟨dto, hdto.later hg.served, hproven.later hg.past⟩

theorem Earned.grows (hg : Grows s s') {g : Granted} (h : Earned p s g) : Earned p s' g := by
  refine ⟨h.id, h.effects.trans hg.past.length_le, h.requests.trans hg.served.length_le, ?_⟩
  obtain ⟨moments, hpast⟩ := hg.past
  obtain ⟨requests, hserved⟩ := hg.served
  rw [← hpast, ← hserved, List.take_append_of_le_length h.effects,
    List.take_append_of_le_length h.requests]
  exact h.loggedIn

theorem Origin.grows (hg : Grows s s') {key : String} {session : SessionPayload}
    (h : Origin s key session) : Origin s' key session := by
  obtain ⟨g, hgranted, hkey⟩ := h
  exact ⟨g, hg.granted hgranted, hkey⟩

theorem Grows.moment (hg : Grows s s') {i : ℕ} {m : Moment} (hm : s.past[i]? = some m) :
    s'.past[i]? = some m := by
  obtain ⟨later, he⟩ := hg.past
  have hlt : i < s.past.length := (List.getElem?_eq_some_iff.mp hm).1
  rw [← he, List.getElem?_append_left hlt]
  exact hm

theorem Stored.grows (hg : Grows s s') {v : Visit} {key : String} {session : SessionPayload}
    (h : Stored s v key session) : Stored s' v key session := by
  obtain ⟨i, m, e, hi, hm, he⟩ := h
  exact ⟨i, m, e, hi, hg.moment hm, he⟩

theorem Current.grows (hg : Grows s s') {v : Visit} {session : SessionPayload}
    (h : Current s v session) : Current s' v session := by
  obtain ⟨i, m, admin, hi, hm, hadmin⟩ := h
  exact ⟨i, m, admin, hi, hg.moment hm, hadmin⟩

theorem Authorized.grows (hg : Grows s s') {v : Visit} {session : SessionPayload}
    (h : Authorized p s v session) : Authorized p s' v session where
  opened := h.opened.imp (fun _ ho => ⟨ho.1, ho.2.1.grows hg, ho.2.2.grows hg⟩)
  current := h.current.grows hg
  csrf := h.csrf
  role := h.role

theorem Cleared.grows (hg : Grows s s') {v : Visit} {admin : Option SessionPayload}
    (h : Cleared p s v admin) : Cleared p s' v admin := by
  obtain ⟨hlisted, hpublic | hnone | ⟨session, hadmin, hauthorized⟩⟩ := h
  · exact ⟨hlisted, .inl hpublic⟩
  · exact ⟨hlisted, .inr (.inl hnone)⟩
  · exact ⟨hlisted, .inr (.inr ⟨session, hadmin, hauthorized.grows hg⟩)⟩

theorem Secure.extend (h : Secure p s) (hg : Grows s s')
    (hsessions : ∀ e ∈ s'.sessions, e ∈ s.sessions ∨ Origin s' e.1 e.2)
    (hgranted : ∀ g ∈ s'.granted, g ∈ s.granted ∨ Earned p s' g)
    (hserved : ∀ e ∈ s'.served, e ∈ s.served ∨ Cleared p s' e.visit e.admin) : Secure p s' where
  sessions e he := (hsessions e he).elim (fun hm => (h.sessions e hm).grows hg) id
  granted g hm := (hgranted g hm).elim (fun hm => (h.granted g hm).grows hg) id
  served e he := (hserved e he).elim (fun hm => (h.served e hm).grows hg) id

theorem grows_record (s : Server) (now : Instant) : Grows s (s.record now) :=
  ⟨List.prefix_append _ _, List.Subset.refl _, List.prefix_refl _⟩

theorem grows_put (s : Server) (sessions : List (String × SessionPayload)) : Grows s (s.put sessions) :=
  ⟨List.prefix_refl _, List.Subset.refl _, List.prefix_refl _⟩

theorem grows_serve (s : Server) (v : Visit) (admin : Option SessionPayload) : Grows s (s.serve v admin) :=
  ⟨List.prefix_refl _, List.Subset.refl _, List.prefix_append _ _⟩

theorem grows_grant (s : Server) (logins : ConcurrentLogins.State) (granted : List Granted) :
    Grows s (s.grant logins granted) :=
  ⟨List.prefix_refl _, List.subset_append_left _ _, List.prefix_refl _⟩

theorem Secure.record (h : Secure p s) (now : Instant) : Secure p (s.record now) :=
  h.extend (grows_record s now) (fun _ he => .inl he) (fun _ hg => .inl hg) (fun _ he => .inl he)

theorem Secure.put (h : Secure p s) {sessions : List (String × SessionPayload)}
    (hs : ∀ e ∈ sessions, e ∈ s.sessions ∨ Origin s e.1 e.2) : Secure p (s.put sessions) :=
  h.extend (grows_put s sessions) (fun e he => (hs e he).imp_right (·.grows (grows_put s sessions)))
    (fun _ hg => .inl hg) (fun _ he => .inl he)

theorem Secure.remove (h : Secure p s) (keep : String × SessionPayload → Bool) :
    Secure p (s.put (s.sessions.filter keep)) :=
  h.put (fun _ he => .inl (List.mem_of_mem_filter he))

theorem Secure.serve (h : Secure p s) {v : Visit} {admin : Option SessionPayload}
    (hc : Cleared p s v admin) : Secure p (s.serve v admin) := by
  refine h.extend (grows_serve s v admin) (fun _ he => .inl he) (fun _ hg => .inl hg) (fun e he => ?_)
  obtain he | he := List.mem_append.mp he
  · exact .inl he
  · rw [List.mem_singleton.mp he]
    exact .inr (hc.grows (grows_serve s v admin))

theorem Secure.grant (h : Secure p s) {logins : ConcurrentLogins.State} {granted : List Granted}
    (hgranted : ∀ g ∈ granted, Earned p s g)
    (hs : ∀ e ∈ logins.accounts.sessions, e ∈ s.sessions ∨ ∃ g ∈ granted, e = (g.key, g.session)) :
    Secure p (s.grant logins granted) := by
  have hgrows := grows_grant s logins granted
  refine h.extend hgrows (fun e he => ?_) (fun g hg => ?_) (fun _ he => .inl he)
  · obtain he | ⟨g, hg, rfl⟩ := hs e he
    · exact .inl he
    · exact .inr ⟨g, List.mem_append_right _ hg, rfl, ⟨rfl, rfl, rfl, rfl⟩⟩
  · obtain hg | hg := List.mem_append.mp hg
    · exact .inl hg
    · exact .inr ((hgranted g hg).grows hgrows)

end Growth

section Logins

/-- The password has been shown, and the second factor is to be shown by a recovery code. -/
structure Halfway (s : Server) (dto : LoginDto) (admin : Account) (later : List Moment) : Prop where
  requested : Requested s.served dto
  found : Found p s.past dto admin later
  password : p.verifySecret admin.passwordHash dto.password = true
  unlocked : ∃ m ∈ later, admin.lockedUntil.any (m.now < ·) = false
  code : ∃ code, dto.totpCode = some code

def AuthLoc (s : Server) : AuthCall → Prop
  | .login dto => Requested s.served dto
  | .verifySecret _ dto found =>
    Requested s.served dto ∧ ∀ admin ∈ found, ∃ later, Found p s.past dto admin later
  | .findMany _ dto admin => ∃ later, Halfway p s dto admin later
  | .verifyCode _ dto admin code rest =>
    ∃ later, Halfway p s dto admin later ∧ ∀ b ∈ code :: rest, Offered later admin b
  | .updateMany _ admin _ => LoggedIn p s.past s.served admin
  | .setSession _ admin _ => LoggedIn p s.past s.served admin
  | _ => True

variable {p} {s s' : Server} {env : Draw} {logins : ConcurrentLogins.State} {o : Option AuthCall}

theorem Halfway.grows (hg : Grows s s') {dto : LoginDto} {admin : Account} {later : List Moment}
    (h : Halfway p s dto admin later) :
    ∃ moments, s'.past = s.past ++ moments ∧ Halfway p s' dto admin (later ++ moments) := by
  obtain ⟨moments, hpast⟩ := hg.past
  refine ⟨moments, hpast.symm, h.requested.later hg.served, ?_, h.password, ?_, h.code⟩
  · rw [← hpast]
    exact h.found.append moments
  · exact h.unlocked.imp (fun _ hm => ⟨List.mem_append_left moments hm.1, hm.2⟩)

theorem AuthLoc.grows (hg : Grows s s') {r : AuthCall} (h : AuthLoc p s r) : AuthLoc p s' r := by
  cases r with
  | login dto => exact Requested.later hg.served h
  | verifySecret t dto found =>
    refine ⟨h.1.later hg.served, fun admin hadmin => ?_⟩
    obtain ⟨later, hfound⟩ := h.2 admin hadmin
    obtain ⟨moments, hpast⟩ := hg.past
    exact ⟨later ++ moments, hpast ▸ hfound.append moments⟩
  | findMany t dto admin =>
    obtain ⟨later, hhalf⟩ := h
    obtain ⟨moments, _, hhalf'⟩ := hhalf.grows hg
    exact ⟨later ++ moments, hhalf'⟩
  | verifyCode t dto admin code rest =>
    obtain ⟨later, hhalf, hoffered⟩ := h
    obtain ⟨moments, _, hhalf'⟩ := hhalf.grows hg
    exact ⟨later ++ moments, hhalf', fun b hb => (hoffered b hb).mono (List.subset_append_left _ _)⟩
  | updateMany t admin id => exact LoggedIn.grows hg h
  | setSession t admin code => exact LoggedIn.grows hg h
  | countFailure | lockUntil | clearFailures | enableTotp | storeCodes => trivial

theorem checked_authLoc {t : ℕ} {admin : Account} {passwordOk totpOk locked : Bool} {code : Option Id}
    (h : passwordOk = true → totpOk = true → locked = false → admin.status = .active →
      LoggedIn p s.past s.served admin) :
    AuthLoc p s (ConcurrentLogins.checked t admin passwordOk totpOk locked code) := by
  unfold ConcurrentLogins.checked
  split
  · rename_i hall
    simp only [Bool.and_eq_true, Bool.not_eq_true', decide_eq_true_eq] at hall
    obtain ⟨⟨⟨hpassword, htotp⟩, hlocked⟩, hactive⟩ := hall
    have hin := h hpassword htotp hlocked hactive
    cases code with
    | none => exact hin
    | some id => exact hin
  · trivial

theorem tryNext_authLoc {t : ℕ} {dto : LoginDto} {admin : Account} {later : List Moment}
    {codes : List BackupCode} (h : Halfway p s dto admin later)
    (hcodes : ∀ b ∈ codes, Offered later admin b) :
    AuthLoc p s (ConcurrentLogins.tryNext t dto admin codes) := by
  cases codes with
  | nil =>
    have hno : AuthLoc p s (ConcurrentLogins.checked t admin true false false none) :=
      checked_authLoc (fun _ htotp => absurd htotp Bool.false_ne_true)
    exact hno
  | cons code rest => exact ⟨later, h, hcodes⟩

theorem codeMatches_true {dto : LoginDto} {admin : Account} (h : codeMatches p env dto admin = .ok true) :
    ∃ code, dto.totpCode = some code ∧ ∃ ciphertext secret,
      admin.totpSecretCiphertext = some ciphertext ∧ openSecret p admin ciphertext = .ok secret ∧
      verifyTotp p.toPrimitives secret code env.now = .ok true := by
  unfold codeMatches at h
  split at h
  · rename_i code ciphertext hcode hciphertext
    obtain ⟨secret, hopen, hvalid⟩ := bind_eq_ok.mp h
    exact ⟨code, (truthy_eq_some hcode).1, ciphertext, secret, (truthy_eq_some hciphertext).1, hopen,
      hvalid⟩
  · cases h

/-- What a login has shown so far goes with it from one await to the next. -/
theorem effect_authLoc {r : AuthCall} (h : AuthLoc p s r)
    (he : ConcurrentLogins.effect p s.logins r env = .ok (logins, o)) :
    ∀ r' ∈ o, AuthLoc p (s.record env.now) r' := by
  have hgrows := grows_record s env.now
  -- the moment of the effect comes after those that the login has seen
  have hnow : ∀ later : List Moment,
      ⟨env.now, s.logins.accounts⟩ ∈ later ++ [⟨env.now, s.logins.accounts⟩] :=
    fun later => List.mem_append_right later (List.mem_singleton_self _)
  cases r with
  | login dto =>
    cases he
    rintro _ ⟨⟩
    exact ⟨h, fun admin hadmin => ⟨[], s.past, _, rfl, hadmin⟩⟩
  | verifySecret t dto found =>
    cases found with
    | none => cases he
    | some admin =>
      obtain ⟨later, hfound⟩ := h.2 admin rfl
      have hfound' := hfound.append [⟨env.now, s.logins.accounts⟩]
      simp only [ConcurrentLogins.effect, Option.map_some, Option.getD_some] at he
      split at he
      · rename_i henabled
        obtain ⟨totpOk, htotp, he⟩ := bind_eq_ok.mp he
        split at he
        · rename_i hnext
          cases he
          rintro _ ⟨⟩
          simp only [Bool.and_eq_true, Bool.not_eq_true'] at hnext
          obtain ⟨code, hcode⟩ := Option.isSome_iff_exists.mp hnext.2
          exact ⟨_, h.1, hfound', hnext.1.1.2, ⟨_, hnow later, hnext.1.2⟩, code, (truthy_eq_some hcode).1⟩
        · cases he
          rintro _ ⟨⟩
          refine checked_authLoc (fun hpassword hok hlocked hactive => ?_)
          subst hok
          obtain ⟨code, hcode, hshown⟩ := codeMatches_true htotp
          exact ⟨dto, h.1, hpassword, hactive, _, hfound', _, hnow later, hlocked,
            fun _ => ⟨code, hcode, .inl hshown⟩⟩
      · rename_i hdisabled
        cases he
        rintro _ ⟨⟩
        refine checked_authLoc (fun hpassword _ hlocked hactive => ?_)
        exact ⟨dto, h.1, hpassword, hactive, _, hfound', _, hnow later, hlocked,
          fun henabled => absurd henabled hdisabled⟩
  | findMany t dto admin =>
    cases he
    rintro _ ⟨⟩
    obtain ⟨later, hhalf⟩ := h
    obtain ⟨moments, hpast, hhalf'⟩ := hhalf.grows hgrows
    obtain rfl := List.append_cancel_left hpast
    refine tryNext_authLoc hhalf' (fun b hb => ?_)
    obtain ⟨hrow, hunused⟩ := List.mem_filter.mp hb
    obtain ⟨hid, hused⟩ := of_decide_eq_true hunused
    exact ⟨_, hnow later, (env.order.perm _).mem_iff.mp hrow, hid, hused⟩
  | verifyCode t dto admin code rest =>
    obtain ⟨later, hhalf, hoffered⟩ := h
    obtain ⟨moments, _, hhalf'⟩ := hhalf.grows hgrows
    have hoffered' : ∀ b ∈ code :: rest, Offered (later ++ moments) admin b :=
      fun b hb => (hoffered b hb).mono (List.subset_append_left _ _)
    simp only [ConcurrentLogins.effect] at he
    split at he
    · rename_i hmatch
      cases he
      rintro _ ⟨⟩
      refine checked_authLoc (fun _ _ _ hactive => ?_)
      obtain ⟨m, hm, hunlocked⟩ := hhalf'.unlocked
      obtain ⟨shown, hshown⟩ := hhalf'.code
      rw [hshown] at hmatch
      refine ⟨dto, hhalf'.requested, hhalf'.password, hactive, _, hhalf'.found, m, hm, hunlocked, fun _ => ?_⟩
      exact ⟨shown, hshown, .inr ⟨code, hoffered' code List.mem_cons_self, hmatch⟩⟩
    · cases he
      rintro _ ⟨⟩
      exact tryNext_authLoc hhalf' (fun b hb => hoffered' b (List.mem_cons_of_mem code hb))
  | countFailure t admin locked =>
    simp only [ConcurrentLogins.effect, bind_eq_ok, pure_eq_ok] at he
    obtain ⟨_, _, he⟩ := he
    obtain ⟨_, rfl⟩ := Prod.mk.inj he
    intro r' hr'
    split at hr' <;> cases hr'
    trivial
  | lockUntil t admin time =>
    simp only [ConcurrentLogins.effect, bind_eq_ok, pure_eq_ok] at he
    obtain ⟨_, _, he⟩ := he
    cases he
    exact fun r' hr' => (by cases hr')
  | updateMany t admin id =>
    simp only [ConcurrentLogins.effect] at he
    split at he <;> cases he <;> rintro _ ⟨⟩
    exact LoggedIn.grows hgrows h
  | setSession t admin code =>
    cases he
    rintro _ ⟨⟩
    trivial
  | clearFailures t admin =>
    simp only [ConcurrentLogins.effect, bind_eq_ok, pure_eq_ok] at he
    obtain ⟨_, _, he⟩ := he
    cases he
    exact fun r' hr' => (by cases hr')
  | enableTotp adminId code =>
    simp only [ConcurrentLogins.effect, bind_eq_ok] at he
    obtain ⟨_, _, _, _, _, _, valid, _, he⟩ := he
    split at he <;> cases he
    rintro _ ⟨⟩
    trivial
  | storeCodes adminId backupCodes =>
    simp only [ConcurrentLogins.effect, bind_eq_ok, pure_eq_ok] at he
    obtain ⟨_, _, _, _, he⟩ := he
    cases he
    exact fun r' hr' => (by cases hr')

theorem effect_sessions {r : AuthCall}
    (he : ConcurrentLogins.effect p s.logins r env = .ok (logins, o)) :
    ∀ e ∈ logins.accounts.sessions, e ∈ s.sessions ∨ ∃ g ∈ grants p s env r, e = (g.key, g.session) := by
  intro e hm
  cases ConcurrentLogins.effect_logged he with
  | won hconsume =>
    simp only [consume] at hconsume
    split at hconsume <;> cases hconsume
    exact .inl hm
  | opened =>
    obtain rfl | hm := List.mem_cons.mp hm
    · exact .inr ⟨_, List.mem_cons_self, rfl⟩
    · exact .inl hm
  | read | check | list | attempt | count | lock | lost | clear | verify | store => exact .inl hm

theorem grants_earned {r : AuthCall} (h : AuthLoc p s r) : ∀ g ∈ grants p s env r, Earned p s g := by
  intro g hg
  cases r with
  | setSession t admin code =>
    obtain rfl := List.mem_singleton.mp hg
    refine ⟨rfl, le_rfl, le_rfl, ?_⟩
    rw [List.take_length, List.take_length]
    exact h
  | login | verifySecret | findMany | verifyCode | countFailure | lockUntil | updateMany | clearFailures
  | enableTotp | storeCodes => cases hg

end Logins

section Requests

structure Underway (s : Server) (v : Visit) (token : String) (rest : List GuardClass) : Prop where
  listed : Listed v.request
  begun : v.begun ≤ s.past.length
  guards : v.request.route.controller.guards = .authGuard :: rest
  cookie : truthy v.request.cookie = some token

def Loc (s : Server) : Point → Prop
  | .arrive q => Listed q
  | .connect v token rest => Underway s v token rest
  | .get v token rest => Underway s v token rest
  | .readAdmin v token session rest => Underway s v token rest ∧
    Origin s (sessionKey p token) session ∧ Stored s v (sessionKey p token) session
  | .set v token session rest => Underway s v token rest ∧
    Origin s (sessionKey p token) session ∧ Stored s v (sessionKey p token) session ∧ Current s v session
  | .handle v admin => Cleared p s v admin
  | .auth r => AuthLoc p s r
  | .del _ => True
  | .logout _ => True
  | .beginTotp _ => True
  | .storeSecret _ _ => True

variable {p} {s s' : Server}

theorem Underway.grows (hg : Grows s s') {v : Visit} {token : String} {rest : List GuardClass}
    (h : Underway s v token rest) : Underway s' v token rest := by
  exact ⟨h.listed, h.begun.trans hg.past.length_le, h.guards, h.cookie⟩

theorem Loc.grows (hg : Grows s s') {r : Point} (h : Loc p s r) : Loc p s' r := by
  cases r with
  | arrive q => exact h
  | connect v token rest => exact Underway.grows hg h
  | get v token rest => exact Underway.grows hg h
  | readAdmin v token session rest => exact ⟨h.1.grows hg, h.2.1.grows hg, h.2.2.grows hg⟩
  | set v token session rest =>
    exact ⟨h.1.grows hg, h.2.1.grows hg, h.2.2.1.grows hg, h.2.2.2.grows hg⟩
  | handle v admin => exact Cleared.grows hg h
  | auth r => exact AuthLoc.grows hg h
  | del | logout | beginTotp | storeSecret => trivial

theorem SameSession.revalidate {a b : SessionPayload} (h : SameSession a b) (admin : AdminProfile)
    (now : String) : SameSession a (revalidate b admin now) :=
  ⟨h.id, h.sessionId, h.csrfToken, h.createdAt⟩

theorem routes_guards : ∀ r ∈ routes, r.controller.guards = [] ∨ r.controller.guards = [.authGuard] ∨
    (r.controller.guards = both ∧ r.isPublic = false) := by
  decide +kernel

theorem activate_begin {q : Request} (hq : Listed q) {begun : ℕ} (hb : begun ≤ s.past.length) {r : Point}
    (h : activate ⟨q, begun⟩ none q.route.controller.guards = .ok r) : Loc p s r := by
  obtain hg | hg | ⟨hg, hpublic⟩ := routes_guards q.route hq.1
  · rw [hg] at h
    cases h
    exact ⟨hq, .inr (.inl hg)⟩
  · rw [hg] at h
    simp only [activate] at h
    split at h
    · rename_i hpublic
      cases h
      exact ⟨hq, .inl hpublic⟩
    · split at h <;> cases h
      exact ⟨hq, hb, hg, ‹_›⟩
  · rw [hg] at h
    simp only [both, activate, hpublic, Bool.false_eq_true, if_false] at h
    split at h <;> cases h
    exact ⟨hq, hb, hg, ‹_›⟩

theorem activate_rest {v : Visit} {token : String} {session : SessionPayload} {rest : List GuardClass}
    {r : Point} (hu : Underway s v token rest) (h : activate v (some session) rest = .ok r) :
    r = .handle v (some session) ∧
      (.rolesGuard ∈ v.request.route.controller.guards → v.request.route.permits (some session) = true) := by
  have hguards := hu.guards
  obtain hg | hg | ⟨hg, _⟩ := routes_guards v.request.route hu.listed.1
  · rw [hg] at hguards
    cases hguards
  · rw [hg] at hguards ⊢
    cases hguards
    cases h
    exact ⟨rfl, fun hm => by simp at hm⟩
  · rw [hg] at hguards
    cases hguards
    simp only [activate] at h
    split at h
    · rename_i hpermits
      cases h
      exact ⟨rfl, fun _ => hpermits⟩
    · cases h

theorem checkCsrf_ok {q : Request} {session : SessionPayload} (h : checkCsrf q session = .ok ()) :
    q.method ∉ safeMethods → q.csrf = some session.csrfToken := by
  intro hm
  by_contra hne
  rw [checkCsrf, if_pos ⟨hm, hne⟩] at h
  cases h

end Requests

section Steps

/-- What one effect leaves behind: the server in order, and a call that knows where it stands. -/
structure Advances (s s' : Server) (o : Option Point) : Prop where
  secure : Secure p s'
  grows : Grows s s'
  next : ∀ r ∈ o, Loc p s' r

variable {p} {s s' : Server} {env : Draw} {o : Option Point}

theorem Advances.stay (h : Secure p s) (ho : ∀ r ∈ o, Loc p s r) : Advances p s s o :=
  ⟨h, .refl s, ho⟩

theorem Advances.remove (h : Secure p s) (token : String) : Advances p s (s.remove p token) none :=
  ⟨Secure.remove h _, grows_put s _, fun _ hr => by cases hr⟩

theorem Advances.updateAdmin (h : Secure p s) {adminId : Id} {f : Account → Account} {hf : KeepsKeys f}
    {logins : ConcurrentLogins.State}
    (hu : ConcurrentLogins.updateAdmin s.logins adminId f hf = .ok logins) :
    Advances p s (s.grant logins []) none := by
  obtain ⟨_, rfl⟩ := ConcurrentLogins.updateAdmin_ok hu
  exact ⟨h.grant (fun _ hg => by cases hg) (fun _ he => .inl he), grows_grant s _ _,
    fun _ hr => by cases hr⟩

theorem eq_ok_of_mem_toOption {x : Except String Point} {r : Point} (h : r ∈ x.toOption) : x = .ok r := by
  cases x with
  | error e => cases h
  | ok r' =>
    cases h
    rfl

theorem Advances.store (h : Secure p s) {v : Visit} {token : String} {session : SessionPayload}
    {rest : List GuardClass} (hu : Underway s v token rest)
    (horigin : Origin s (sessionKey p token) session)
    (hstored : Stored s v (sessionKey p token) session) (hcurrent : Current s v session)
    (ho : o = (do
      let _ ← checkCsrf v.request session
      activate v (some session) rest : Except String Point).toOption) :
    Advances p s (s.store p token session) o := by
  have hgrows : Grows s (s.store p token session) := grows_put s _
  refine ⟨h.put (fun e he => ?_), hgrows, fun r hr => ?_⟩
  · obtain rfl | he := List.mem_cons.mp he
    · exact .inr horigin
    · exact .inl he
  · rw [ho] at hr
    obtain ⟨_, hcsrf, hactivate⟩ := bind_eq_ok.mp (eq_ok_of_mem_toOption hr)
    obtain ⟨rfl, hrole⟩ := activate_rest hu hactivate
    refine Cleared.grows hgrows ⟨hu.listed, .inr (.inr ⟨session, rfl, ?_⟩)⟩
    exact ⟨⟨token, hu.cookie, horigin, hstored⟩, hcurrent, checkCsrf_ok hcsrf, hrole⟩

theorem dispatch_loc {v : Visit} {admin : Option SessionPayload}
    (h : dispatch v.request admin = .ok o) : ∀ r ∈ o, Loc p (s.serve v admin) r := by
  have hserved : ⟨v, admin⟩ ∈ (s.serve v admin).served :=
    List.mem_append_right _ (List.mem_singleton_self _)
  rintro r rfl
  unfold dispatch at h
  split at h
  · rename_i hlogin
    split at h <;> cases h
    exact ⟨_, hserved, hlogin, ‹_›⟩
  · split at h
    · obtain ⟨token, _, rfl⟩ := Option.map_eq_some_iff.mp (Except.ok.inj h)
      trivial
    · split at h
      · split at h <;> cases h
        trivial
      · split at h
        · split at h <;> cases h
          trivial
        · cases h

/-- One effect of one request. -/
theorem perform_advances {r : Point} (h : Secure p s) (hl : Loc p s r)
    (he : perform p (s.record env.now) r env = .ok (s', o)) : Advances p (s.record env.now) s' o := by
  have hrecord := grows_record s env.now
  have hsecure := h.record env.now
  have hloc := hl.grows hrecord
  cases r with
  | arrive q =>
    simp only [perform, bind_eq_ok, pure_eq_ok] at he
    obtain ⟨r, hr, he⟩ := he
    cases he
    refine .stay hsecure ?_
    rintro _ ⟨⟩
    exact activate_begin hl le_rfl hr
  | connect v token rest =>
    cases he
    refine .stay hsecure ?_
    rintro _ ⟨⟩
    exact hloc
  | get v token rest =>
    simp only [perform, bind_eq_ok, pure_eq_ok] at he
    obtain ⟨⟨key, session⟩, hfind, he⟩ := he
    cases he
    refine .stay hsecure ?_
    rintro _ ⟨⟩
    have hfound := orThrow_eq_ok.mp hfind
    have hkey : key = sessionKey p token := by simpa using List.find?_some hfound
    have hmem := List.mem_of_find?_eq_some hfound
    refine ⟨hloc, hkey ▸ hsecure.sessions _ hmem, ?_⟩
    exact ⟨s.past.length, ⟨env.now, s.logins.accounts⟩, (key, session), hl.begun, by simp [Server.record],
      hmem, hkey, ⟨rfl, rfl, rfl, rfl⟩⟩
  | readAdmin v token session rest =>
    have hdel : ∀ r ∈ some (Point.del token), Loc p (s.record env.now) r := by
      rintro _ ⟨⟩
      trivial
    simp only [perform] at he
    split at he
    · rename_i admin hadmin
      split at he <;> cases he
      · rename_i hactive
        refine .stay hsecure ?_
        rintro _ ⟨⟩
        obtain ⟨hunderway, ⟨g, hg, hkey, hsame⟩, i, m, e, hi, hm, hmem, hekey, hesame⟩ := hloc
        refine ⟨hunderway, ⟨g, hg, hkey, hsame.revalidate _ _⟩,
          ⟨i, m, e, hi, hm, hmem, hekey, hesame.revalidate _ _⟩, ?_⟩
        exact ⟨s.past.length, ⟨env.now, s.logins.accounts⟩, admin, hl.1.begun, by simp [Server.record],
          hadmin, hactive, rfl⟩
      · exact .stay hsecure hdel
    · cases he
      exact .stay hsecure hdel
  | del token | logout token =>
    cases he
    exact .remove hsecure token
  | set v token session rest =>
    cases he
    obtain ⟨hunderway, horigin, hstored, hcurrent⟩ := hloc
    exact .store hsecure hunderway horigin hstored hcurrent rfl
  | handle v admin =>
    simp only [perform, bind_eq_ok, pure_eq_ok] at he
    obtain ⟨o, ho, he⟩ := he
    cases he
    exact ⟨hsecure.serve hloc, grows_serve _ v admin, dispatch_loc ho⟩
  | beginTotp adminId =>
    simp only [perform, bind_eq_ok, pure_eq_ok] at he
    obtain ⟨admin, _, he⟩ := he
    cases he
    refine .stay hsecure ?_
    rintro _ ⟨⟩
    trivial
  | storeSecret adminId ciphertext =>
    simp only [perform, bind_eq_ok, pure_eq_ok] at he
    obtain ⟨logins, hu, he⟩ := he
    cases he
    exact .updateAdmin hsecure hu
  | auth r =>
    simp only [perform, bind_eq_ok, pure_eq_ok] at he
    obtain ⟨⟨logins, o⟩, heffect, he⟩ := he
    cases he
    have hgrows := grows_grant (s.record env.now) logins (grants p (s.record env.now) env r)
    refine ⟨hsecure.grant (grants_earned hloc) (effect_sessions heffect), hgrows, fun r' hr' => ?_⟩
    obtain ⟨r'', hr'', rfl⟩ := Option.map_eq_some_iff.mp hr'
    exact AuthLoc.grows hgrows (effect_authLoc hl heffect r'' hr'')

theorem change_advances (h : Secure p s) (e : Change) : Advances p s (change s e) none := by
  cases e with
  | expire key => exact ⟨h.remove _, grows_put s _, fun _ hr => by cases hr⟩
  | edit admins =>
    have hgrows : Grows s (change s (.edit admins)) :=
      ⟨List.prefix_refl _, List.Subset.refl _, List.prefix_refl _⟩
    exact ⟨h.extend hgrows (fun _ he => .inl he) (fun _ hg => .inl hg) (fun _ he => .inl he), hgrows,
      fun _ hr => by cases hr⟩

end Steps

section Table

end Table

section Run

variable {p} {accounts : Accounts} {now : Instant} {c : Config Server Point}

theorem outline : Outline (server p) (shared (ρ := Point)) (fun _ _ _ => True) (fun _ _ => True)
    (Secure p) (Loc p) (fun _ => Grows) where
  entry s r _ h := by
    cases r with
    | arrive q => simpa [server, Point.entry, Loc, Listed] using h
    | connect | get | readAdmin | del | set | handle | logout | beginTotp | storeSecret | auth => cases h
  effect s r env s' o h hl _ he := by
    have hadvances := perform_advances h hl he
    exact ⟨hadvances.secure, (grows_record s env.now).trans hadvances.grows, hadvances.next,
      fun _ _ hr => by cases hr⟩
  handler _ _ _ _ _ _ h := by cases h
  background _ _ _ _ h := h
  event s e h _ :=
    ⟨(change_advances h e).secure, fun _ hl => hl.grows (change_advances h e).grows⟩
  stable _ _ _ _ _ hg _ hl := hl.grows hg

end Run

section Sample

end Sample

end Bitmine.Authorization
