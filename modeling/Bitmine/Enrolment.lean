import Bitmine.AdminSessions
import Bitmine.Security

namespace Bitmine.Enrolment

open Bitmine.Lib.UniqueTable Bitmine.Lib.GroupSum Bitmine.Lib.Throwing
open Bitmine.Schema Bitmine.Security Bitmine.AdminSessions

structure Account where
  id : Id
  email : String
  displayName : String
  passwordHash : String
  role : AdminRole
  status : EntityStatus
  totpSecretCiphertext : Option String
  totpEnabled : Bool
  failedLoginCount : ℕ
  lockedUntil : Option Instant
  lastLoginAt : Option Instant

instance : Row Account := ⟨Id, String, Account.id, fun a => some a.email⟩

structure BackupCode where
  id : Id
  adminId : Id
  codeHash : String
  usedAt : Option Instant

instance : Row BackupCode := ⟨Id, Unit, BackupCode.id, fun _ => none⟩

structure Accounts where
  admins : Table Account
  backupCodes : Table BackupCode
  sessions : List (String × SessionPayload)

structure LoginDto where
  email : String
  password : String
  totpCode : Option String

/-- What a call draws or learns from outside: the clock, random bytes, tokens,
salts and identifiers, the order of a query. -/
structure Draw where
  now : Instant
  bytes : List ℕ
  iv : String
  token : ℕ → String
  salt : ℕ → String
  id : ℕ → Id
  order : Order BackupCode

variable (p : Platform)

def lettersOfBits : List Bool → List Char
  | b0 :: b1 :: b2 :: b3 :: b4 :: bits =>
    alphabet.getD (ofBits [b0, b1, b2, b3, b4]) 'A' :: lettersOfBits bits
  | [] => []
  | bits => [alphabet.getD (ofBits (bits ++ List.replicate (5 - bits.length) false)) 'A']

def generateTotpSecret (bytes : List ℕ) : String :=
  String.ofList (lettersOfBits (bytes.flatMap (bitsOf 8)))

def totpUri (secret email : String) : String :=
  let issuer := "Mining Gateway"
  let label := p.encodeURIComponent (issuer ++ ":" ++ email)
  "otpauth://totp/" ++ label ++ "?secret=" ++ secret ++ "&issuer=" ++ p.encodeURIComponent issuer ++
    "&algorithm=SHA1&digits=6&period=30"

def totpContext (adminId : Id) : String := "admin:" ++ toString adminId ++ ":totp"

def byId (adminId : Id) (a : Account) : Bool := a.id = adminId

def byEmail (email : String) (a : Account) : Bool := a.email = email

section Columns

def KeepsFactor (f : Account → Account) : Prop := ∀ a,
  (f a).totpEnabled = a.totpEnabled ∧ (f a).totpSecretCiphertext = a.totpSecretCiphertext

def setSecret (ciphertext : String) (a : Account) : Account :=
  { a with totpSecretCiphertext := some ciphertext, totpEnabled := false }

def setEnabled (a : Account) : Account := { a with totpEnabled := true }

def countFailure (a : Account) : Account := { a with failedLoginCount := a.failedLoginCount + 1 }

def lockUntil (time : Instant) (a : Account) : Account := { a with lockedUntil := some time }

def clearFailures (now : Instant) (a : Account) : Account :=
  { a with failedLoginCount := 0, lockedUntil := none, lastLoginAt := some now }

def spend (now : Instant) (b : BackupCode) : BackupCode := { b with usedAt := some now }

theorem setSecret_keys (ciphertext : String) : KeepsKeys (setSecret ciphertext) := fun _ => ⟨rfl, rfl⟩

theorem setEnabled_keys : KeepsKeys setEnabled := fun _ => ⟨rfl, rfl⟩

theorem countFailure_keys : KeepsKeys countFailure := fun _ => ⟨rfl, rfl⟩

theorem lockUntil_keys (time : Instant) : KeepsKeys (lockUntil time) := fun _ => ⟨rfl, rfl⟩

theorem clearFailures_keys (now : Instant) : KeepsKeys (clearFailures now) := fun _ => ⟨rfl, rfl⟩

theorem openSession_keys (env : Draw) : KeepsKeys (clearFailures env.now) := clearFailures_keys env.now

theorem countFailure_factor : KeepsFactor countFailure := fun _ => ⟨rfl, rfl⟩

theorem lockUntil_factor (time : Instant) : KeepsFactor (lockUntil time) := fun _ => ⟨rfl, rfl⟩

theorem clearFailures_factor (now : Instant) : KeepsFactor (clearFailures now) :=
  fun _ => ⟨rfl, rfl⟩

theorem spend_keys (now : Instant) : KeepsKeys (spend now) := fun _ => ⟨rfl, rfl⟩

end Columns

def beginTotp (env : Draw) (s : Accounts) (adminId : Id) :
    Except String (Accounts × String × String) := do
  let admin ← orThrow recordNotFound (s.admins.find? (byId adminId))
  let secret := generateTotpSecret env.bytes
  let ciphertext := encrypt p.toPrimitives env.iv secret (totpContext adminId)
  pure ({ s with
    admins := s.admins.update (byId adminId) (setSecret ciphertext) (setSecret_keys ciphertext) },
    secret, totpUri p secret admin.email)

def openSecret (admin : Account) (ciphertext : String) : Except String String :=
  decrypt p.toPrimitives ciphertext (totpContext admin.id)

def backupCode (token : String) : String :=
  let letters := token.toList.map (fun c => if c = '-' ∨ c = '_' then 'A' else c)
  p.toUpperCase (String.ofList (letters.take 12))

def newBackupCodes (env : Draw) (adminId : Id) (codes : List String) : List BackupCode :=
  codes.zipIdx.map (fun (code, i) => ⟨env.id i, adminId, p.hashSecret (env.salt i) code, none⟩)

def enableTotp (env : Draw) (s : Accounts) (adminId : Id) (code : String) :
    Except String (Accounts × List String) := do
  let admin ← orThrow recordNotFound (s.admins.find? (byId adminId))
  let ciphertext ← orThrow "TOTP setup has not started" (truthy admin.totpSecretCiphertext)
  let secret ← openSecret p admin ciphertext
  let valid ← verifyTotp p.toPrimitives secret code env.now
  if valid then do
    let backupCodes := (List.range 10).map (fun i => backupCode p (env.token i))
    let emptied := s.backupCodes.delete (fun b => b.adminId = adminId)
    let stored ← orThrow uniqueViolation
      (emptied.insertAll (newBackupCodes p env adminId backupCodes))
    pure ({ s with
      admins := s.admins.update (byId adminId) setEnabled setEnabled_keys
      backupCodes := stored }, backupCodes)
  else .error "Invalid TOTP code"

def assertTotp (env : Draw) (s : Accounts) (adminId : Id) (code : String) : Except String Unit := do
  let admin ← orThrow recordNotFound (s.admins.find? (byId adminId))
  match admin.totpEnabled, truthy admin.totpSecretCiphertext with
  | true, some ciphertext =>
    let secret ← openSecret p admin ciphertext
    let valid ← verifyTotp p.toPrimitives secret code env.now
    if valid then pure () else .error "Invalid TOTP code"
  | _, _ => .error "TOTP must be enabled before approving payouts"

section Login

variable (env : Draw) (s : Accounts) (dto : LoginDto)

def dummyHash : String :=
  "$argon2id$v=19$m=65536,t=3,p=1$JHNhbHQxMjM0NTY3OA$RZ9PZ1jC3LM1I1bs2N0DgPzjF0KnxY3Q5kJATPR9xJ0"

def normalizeCode (code : String) : String :=
  p.toUpperCase (String.ofList (code.toList.filter (fun c => !(isSpace c || c = '-'))))

def codeMatches (admin : Account) : Except String Bool :=
  match truthy dto.totpCode, truthy admin.totpSecretCiphertext with
  | some code, some ciphertext => do
    let secret ← openSecret p admin ciphertext
    verifyTotp p.toPrimitives secret code env.now
  | _, _ => .ok false

def findBackupCode (adminId : Id) (code : String) : Option BackupCode :=
  ((env.order.arrange s.backupCodes.rows).filter (fun b => b.adminId = adminId ∧ b.usedAt = none)).find?
    (fun b => p.verifySecret b.codeHash (normalizeCode p code))

def secondFactor (admin : Account) (passwordOk locked : Bool) : Except String (Bool × Option Id) :=
  if admin.totpEnabled then do
    let totpOk ← codeMatches p env dto admin
    match truthy dto.totpCode with
    | some code =>
      if !totpOk && passwordOk && !locked then
        match findBackupCode p env s admin.id code with
        | some b => pure (true, some b.id)
        | none => pure (false, none)
      else pure (totpOk, none)
    | none => pure (totpOk, none)
  else pure (true, none)

def isLocked (admin : Account) : Bool := admin.lockedUntil.any (env.now < ·)

def recordFailure (admin : Account) : Accounts :=
  let counted := s.admins.update (byId admin.id) countFailure countFailure_keys
  let count := ((counted.find? (byId admin.id)).map Account.failedLoginCount).getD 0
  let until15 := env.now + 15 * 60000
  { s with
    admins := if 5 ≤ count && !isLocked env admin then
      counted.update (byId admin.id) (lockUntil until15) (lockUntil_keys until15) else counted }

def consume (backupCodeId : Option Id) : Except String Accounts :=
  match backupCodeId with
  | none => .ok s
  | some id =>
    let unused : BackupCode → Bool := fun b => b.id = id ∧ b.usedAt = none
    if s.backupCodes.rows.countP unused = 1 then
      .ok { s with backupCodes := s.backupCodes.update unused (spend env.now) (spend_keys env.now) }
    else .error "Backup code has already been used"

def newSession (admin : Account) : SessionPayload :=
  let now := p.toISOString env.now
  ⟨admin.id, admin.email, admin.displayName, admin.role, env.token 1, env.token 2, now, now⟩

def sessionKey (token : String) : String := "auth:session:" ++ p.sha256 token

def openSession (admin : Account) : Accounts :=
  { s with
    sessions := (sessionKey p (env.token 0), newSession p env admin) :: s.sessions
    admins := s.admins.update (byId admin.id) (clearFailures env.now) (openSession_keys env) }

/-- A failed attempt throws too, but it is counted. -/
def login : Accounts × Except String SessionPayload :=
  let email := p.toLowerCase (trim dto.email)
  let found := s.admins.find? (byEmail email)
  let passwordOk := p.verifySecret ((found.map Account.passwordHash).getD dummyHash) dto.password
  match found with
  | none => (s, .error "Invalid credentials or TOTP")
  | some admin =>
    let locked := isLocked env admin
    match secondFactor p env s dto admin passwordOk locked with
    | .error e => (s, .error e)
    | .ok (totpOk, backupCodeId) =>
      if passwordOk && totpOk && !locked && admin.status = .active then
        match consume env s backupCodeId with
        | .error e => (s, .error e)
        | .ok consumed => (openSession p env consumed admin, .ok (newSession p env admin))
      else (recordFailure env s admin, .error "Invalid credentials or TOTP")

end Login

inductive Call where
  | beginTotp (env : Draw) (adminId : Id)
  | enableTotp (env : Draw) (adminId : Id) (code : String)
  | login (env : Draw) (dto : LoginDto)
  | assertTotp (env : Draw) (adminId : Id) (code : String)

/-- A call that throws leaves everything as it was, a failed login apart. -/
def perform (s : Accounts) : Call → Accounts
  | .beginTotp env adminId => ((beginTotp p env s adminId).toOption.map Prod.fst).getD s
  | .enableTotp env adminId code => ((enableTotp p env s adminId code).toOption.map Prod.fst).getD s
  | .login env dto => (login p env s dto).1
  | .assertTotp _ _ _ => s

def run (s : Accounts) (calls : List Call) : Accounts := calls.foldl (perform p) s

def enrolment (s : Accounts) (adminId : Id) : Option (Bool × Option String) :=
  (s.admins.find? (byId adminId)).map (fun a => (a.totpEnabled, a.totpSecretCiphertext))

def enrolledSecret (s : Accounts) (adminId : Id) : Option String := do
  let admin ← s.admins.find? (byId adminId)
  let ciphertext ← truthy admin.totpSecretCiphertext
  (openSecret p admin ciphertext).toOption

def Enabled (s : Accounts) (adminId : Id) : Prop :=
  ∃ ciphertext, enrolment s adminId = some (true, ciphertext)

def ValidCode (s : Accounts) (adminId : Id) (code : String) (now : Instant) : Prop :=
  ∃ secret, enrolledSecret p s adminId = some secret ∧
    verifyTotp p.toPrimitives secret code now = .ok true

def ValidBackupCode (s : Accounts) (adminId : Id) (code : String) : Prop :=
  ∃ b ∈ s.backupCodes.rows, b.adminId = adminId ∧ b.usedAt = none ∧
    p.verifySecret b.codeHash (normalizeCode p code) = true

/-- The call has shown a code for the secret that is enrolled, or a recovery code. -/
def Presents (s : Accounts) (adminId : Id) : Call → Prop
  | .beginTotp _ _ => False
  | .enableTotp env id code | .assertTotp env id code =>
    id = adminId ∧ ValidCode p s adminId code env.now
  | .login env dto =>
    (∃ admin, s.admins.find? (byEmail (p.toLowerCase (trim dto.email))) = some admin ∧
      admin.id = adminId) ∧
    ∃ code, dto.totpCode = some code ∧
      (ValidCode p s adminId code env.now ∨ ValidBackupCode p s adminId code)

/-- A secret is enrolled at the start, or by a call that has shown a code for the
one before it. -/
inductive Entitled (s : Accounts) (adminId : Id) : List Call → String → Prop
  | start {secret : String} : enrolledSecret p s adminId = some secret → Entitled s adminId [] secret
  | keep {calls : List Call} {call : Call} {secret : String} :
    Entitled s adminId calls secret → Entitled s adminId (calls ++ [call]) secret
  | change {calls : List Call} {call : Call} {secret : String} :
    Presents p (run p s calls) adminId call →
    enrolledSecret p (run p s (calls ++ [call])) adminId = some secret →
    Entitled s adminId (calls ++ [call]) secret

/-- Over a sequence of calls the second factor changes only by a call that has
shown a code, and every approval proves possession of a secret enrolled so. -/
structure Guarded (s : Accounts) (adminId : Id) (calls : List Call) : Prop where
  changes : ∀ before call after, calls = before ++ call :: after →
    enrolment (run p s (before ++ [call])) adminId ≠ enrolment (run p s before) adminId →
    Presents p (run p s before) adminId call
  approvals : ∀ before env code after, calls = before ++ .assertTotp env adminId code :: after →
    assertTotp p env (run p s before) adminId code = .ok () →
    ∃ secret, Entitled p s adminId before secret ∧
      verifyTotp p.toPrimitives secret code env.now = .ok true

section Steps

variable {p} {s : Accounts} {adminId : Id}

theorem enrolment_update {id : Id} {f : Account → Account} {hf : KeepsKeys f} {admins : Table Account}
    (hadmins : admins = s.admins.update (byId id) f hf) {codes : Table BackupCode}
    {sessions : List (String × SessionPayload)} :
    enrolment ⟨admins, codes, sessions⟩ adminId = (s.admins.find? (byId adminId)).map (fun a =>
      let b := if a.id = id then f a else a
      (b.totpEnabled, b.totpSecretCiphertext)) := by
  have hkey : ∀ a, byId adminId (f a) = byId adminId a := by
    intro a
    have hid : (f a).id = a.id := (hf a).1
    rw [byId, byId, hid]
  rw [enrolment, hadmins, Table.find?_update hkey, Option.map_map]
  simp only [Function.comp_def, byId, decide_eq_true_eq]

theorem enrolment_update_eq {id : Id} {f : Account → Account} (hf : KeepsKeys f)
    {admins : Table Account} (hcols : KeepsFactor f)
    (hadmins : admins = s.admins.update (byId id) f hf) {codes : Table BackupCode} {sessions : List (String × SessionPayload)} :
    enrolment ⟨admins, codes, sessions⟩ adminId = enrolment s adminId := by
  rw [enrolment_update hadmins, enrolment]
  congr 1
  funext a
  by_cases hid : a.id = id
  · simp only [if_pos hid, (hcols a).1, (hcols a).2]
  · simp only [if_neg hid]

theorem enrolment_recordFailure (env : Draw) (admin : Account) :
    enrolment (recordFailure env s admin) adminId = enrolment s adminId := by
  simp only [recordFailure]
  split
  · refine (enrolment_update_eq (s := ⟨_, s.backupCodes, s.sessions⟩) (lockUntil_keys _)
      (lockUntil_factor _) rfl).trans ?_
    exact enrolment_update_eq countFailure_keys countFailure_factor rfl
  · exact enrolment_update_eq countFailure_keys countFailure_factor rfl

theorem enrolment_consume {env : Draw} {backupCodeId : Option Id} {s' : Accounts}
    (h : consume env s backupCodeId = .ok s') : enrolment s' adminId = enrolment s adminId := by
  simp only [consume] at h
  split at h
  · cases h
    rfl
  · split at h
    · cases h
      rfl
    · cases h

theorem enrolment_login (env : Draw) (dto : LoginDto) :
    enrolment (login p env s dto).1 adminId = enrolment s adminId := by
  simp only [login]
  split
  · rfl
  · split
    · rfl
    · split
      · split
        · rfl
        · rename_i hconsume
          exact (enrolment_update_eq (clearFailures_keys env.now) (clearFailures_factor env.now)
            rfl).trans (enrolment_consume hconsume)
      · exact enrolment_recordFailure env _

theorem beginTotp_eq_ok {env : Draw} {id : Id} {r : Accounts × String × String}
    (h : beginTotp p env s id = .ok r) : ∃ ciphertext, r.1 = { s with
      admins := s.admins.update (byId id) (setSecret ciphertext) (setSecret_keys ciphertext) } := by
  simp only [beginTotp, bind_eq_ok, pure_eq_ok] at h
  obtain ⟨_, _, rfl⟩ := h
  exact ⟨_, rfl⟩

theorem enableTotp_eq_ok {env : Draw} {id : Id} {code : String} {r : Accounts × List String}
    (h : enableTotp p env s id code = .ok r) : ∃ codes, r.1 = { s with
      admins := s.admins.update (byId id) setEnabled setEnabled_keys, backupCodes := codes } := by
  simp only [enableTotp, bind_eq_ok] at h
  obtain ⟨_, _, _, _, _, _, valid, _, h⟩ := h
  split at h
  · simp only [bind_eq_ok, pure_eq_ok] at h
    obtain ⟨codes, _, rfl⟩ := h
    exact ⟨codes, rfl⟩
  · cases h

/-- Once the second factor is on, nothing but a new set-up changes it. -/
theorem perform_enrolment (hon : Enabled s adminId) {call : Call}
    (hcall : ∀ env, call ≠ .beginTotp env adminId) :
    enrolment (perform p s call) adminId = enrolment s adminId := by
  cases call with
  | beginTotp env id =>
    have hne : adminId ≠ id := by
      rintro rfl
      exact hcall env rfl
    simp only [perform]
    cases hr : beginTotp p env s id with
    | error => rfl
    | ok r =>
      obtain ⟨ciphertext, hs⟩ := beginTotp_eq_ok hr
      simp only [Except.toOption, Option.map_some, Option.getD_some, hs]
      rw [enrolment_update rfl, enrolment]
      refine Option.map_congr (fun a ha => ?_)
      have hid : a.id = adminId := by simpa [byId] using (Table.find?_mem ha).2
      rw [if_neg (hid ▸ hne)]
  | enableTotp env id code =>
    simp only [perform]
    cases hr : enableTotp p env s id code with
    | error => rfl
    | ok r =>
      obtain ⟨codes, hs⟩ := enableTotp_eq_ok hr
      obtain ⟨ciphertext, hon⟩ := hon
      simp only [Except.toOption, Option.map_some, Option.getD_some, hs]
      rw [enrolment_update rfl, enrolment]
      refine Option.map_congr (fun a ha => ?_)
      -- the flag is already set
      have ht : a.totpEnabled = true := by
        rw [enrolment, ha] at hon
        exact (Prod.mk.inj (Option.some.inj hon)).1
      by_cases hid : a.id = id
      · simp only [if_pos hid, setEnabled, ht]
      · simp only [if_neg hid]
  | login env dto => exact enrolment_login env dto
  | assertTotp => rfl

theorem perform_beginTotp (hon : Enabled s adminId) (env : Draw) :
    ¬ Enabled (perform p s (.beginTotp env adminId)) adminId := by
  obtain ⟨ciphertext, hon⟩ := hon
  obtain ⟨admin, hfind, -⟩ := Option.map_eq_some_iff.mp hon
  have hid : admin.id = adminId := by simpa [byId] using (Table.find?_mem hfind).2
  rintro ⟨ciphertext', hafter⟩
  simp only [perform, beginTotp, hfind, orThrow, bind, Except.bind, pure, Except.pure,
    Except.toOption, Option.map_some, Option.getD_some] at hafter
  rw [enrolment_update rfl, hfind, Option.map_some] at hafter
  simp only [if_pos hid, setSecret] at hafter
  cases hafter

end Steps

section Sequences

variable {p} {s : Accounts} {adminId : Id}

theorem run_snoc (calls : List Call) (call : Call) :
    run p s (calls ++ [call]) = perform p (run p s calls) call := by
  rw [run, List.foldl_append, List.foldl_cons, List.foldl_nil, run]

theorem run_enrolment (hon : Enabled s adminId) {calls : List Call}
    (hcalls : ∀ call ∈ calls, ∀ env, call ≠ .beginTotp env adminId) :
    enrolment (run p s calls) adminId = enrolment s adminId := by
  induction calls using List.reverseRecOn with
  | nil => rfl
  | append_singleton calls call ih =>
    have hbefore := ih (fun c hc => hcalls c (List.mem_append_left _ hc))
    have hstill : Enabled (run p s calls) adminId := by
      rw [Enabled, hbefore]
      exact hon
    rw [run_snoc, perform_enrolment hstill (hcalls call (by simp)), hbefore]

theorem enrolledSecret_congr {s' : Accounts} (h : enrolment s' adminId = enrolment s adminId) :
    enrolledSecret p s' adminId = enrolledSecret p s adminId := by
  have hform : ∀ u : Accounts, enrolledSecret p u adminId = (enrolment u adminId).bind (fun e =>
      (truthy e.2).bind (fun ciphertext =>
        (decrypt p.toPrimitives ciphertext (totpContext adminId)).toOption)) := by
    intro u
    simp only [enrolledSecret, enrolment, Option.bind_eq_bind]
    cases hfind : u.admins.find? (byId adminId) with
    | none => rfl
    | some admin =>
      have hid : admin.id = adminId := by simpa [byId] using (Table.find?_mem hfind).2
      simp only [Option.bind_some, Option.map_some, openSecret, hid]
  rw [hform, hform, h]

theorem assertTotp_validCode {env : Draw} {code : String}
    (h : assertTotp p env s adminId code = .ok ()) : ValidCode p s adminId code env.now := by
  simp only [assertTotp, bind_eq_ok, orThrow_eq_ok] at h
  obtain ⟨admin, hfind, h⟩ := h
  split at h
  · rename_i ciphertext _ htruthy
    simp only [bind_eq_ok] at h
    obtain ⟨secret, hopen, valid, hvalid, h⟩ := h
    split at h
    · rename_i ht
      refine ⟨secret, ?_, ht ▸ hvalid⟩
      simp only [enrolledSecret, hfind, htruthy, Option.bind_eq_bind, Option.bind_some, hopen]
      rfl
    · cases h
  · cases h

theorem Entitled.of_start {secret : String} (h : enrolledSecret p s adminId = some secret)
    (calls : List Call) : Entitled p s adminId calls secret := by
  induction calls using List.reverseRecOn with
  | nil => exact .start h
  | append_singleton calls call ih => exact .keep ih

theorem guarded_of_no_setup (hon : Enabled s adminId) {calls : List Call}
    (hcalls : ∀ call ∈ calls, ∀ env, call ≠ .beginTotp env adminId) :
    Guarded p s adminId calls where
  changes before call after he hne := by
    refine absurd ?_ hne
    rw [run_enrolment hon (fun c hc env => hcalls c (by rw [he]; simp at hc ⊢; tauto) env),
      run_enrolment hon (fun c hc env => hcalls c (by rw [he]; simp [hc]) env)]
  approvals before env code after he hok := by
    have hsame : enrolment (run p s before) adminId = enrolment s adminId :=
      run_enrolment hon (fun c hc env => hcalls c (by rw [he]; simp [hc]) env)
    obtain ⟨secret, hsecret, hvalid⟩ := assertTotp_validCode hok
    rw [enrolledSecret_congr hsame] at hsecret
    exact ⟨secret, .of_start hsecret before, hvalid⟩

theorem Guarded.no_setup (hon : Enabled s adminId) {calls : List Call}
    (h : Guarded p s adminId calls) {before after : List Call} (he : calls = before ++ after) :
    ∀ call ∈ before, ∀ env, call ≠ .beginTotp env adminId := by
  induction before using List.reverseRecOn generalizing after with
  | nil => simp
  | append_singleton before call ih =>
    rw [List.append_assoc, List.singleton_append] at he
    have hbefore := ih he
    intro c hc env
    obtain hc | hc := List.mem_append.mp hc
    · exact hbefore c hc env
    · rw [List.mem_singleton.mp hc]
      rintro rfl
      have hstill : Enabled (run p s before) adminId := by
        rw [Enabled, run_enrolment hon hbefore]
        exact hon
      refine h.changes before _ after he (fun hsame => ?_)
      apply perform_beginTotp (p := p) hstill env
      rw [run_snoc] at hsame
      rw [Enabled, hsame]
      exact hstill

/-- Over a sequence of calls that starts with the second factor on, the claim of
the enrolment holds exactly when no new set-up is begun. -/
theorem totp_guards_enrolment (hon : Enabled s adminId) (calls : List Call) :
    Guarded p s adminId calls ↔ ∀ call ∈ calls, ∀ env, call ≠ .beginTotp env adminId :=
  ⟨fun h => h.no_setup hon (List.append_nil calls).symm, guarded_of_no_setup hon⟩

end Sequences

section Sample

def samplePlatform : Platform :=
  ⟨⟨fun _ _ plaintext => ("tag", plaintext), fun _ _ ciphertext _ => some ciphertext, fun key _ => key⟩,
    fun _ secret => secret, fun hash secret => hash = secret, id, id, id, id, fun _ => "now"⟩

def sampleDraw (byte : ℕ) : Draw :=
  ⟨60000, List.replicate 20 byte, "iv", fun i => toString i, fun _ => "salt", id, .asStored⟩

def sampleAccounts : Accounts :=
  ⟨.single ⟨1, "owner@example.com", "Owner", "long password", .owner, .active,
    some "v1.iv.tag.AAAAAAAAAAAAAAAAAAAAAAAAAAAAAAAA", true, 0, none, none⟩, .empty, []⟩

theorem eq_ok_of_isOk {x : Except String Unit} (h : x.isOk = true) : x = .ok () := by
  cases x with
  | error => cases h
  | ok => rfl

theorem sampleAccounts_enabled : Enabled sampleAccounts 1 := ⟨_, rfl⟩

def sampleCalls : List Call :=
  [.login (sampleDraw 0) ⟨"owner@example.com", "long password", some "000000"⟩,
    .enableTotp (sampleDraw 0) 1 "000000", .beginTotp (sampleDraw 0) 2,
    .assertTotp (sampleDraw 0) 1 "000000"]

theorem totp_guards_enrolment_sample :
    Enabled sampleAccounts 1 ∧ (run samplePlatform sampleAccounts sampleCalls).sessions.length = 1 ∧
    assertTotp samplePlatform (sampleDraw 0) (run samplePlatform sampleAccounts sampleCalls) 1
      "000000" = .ok () ∧
    Guarded samplePlatform sampleAccounts 1 sampleCalls := by
  refine ⟨sampleAccounts_enabled, by decide +kernel, eq_ok_of_isOk (by decide +kernel),
    (totp_guards_enrolment sampleAccounts_enabled sampleCalls).mpr ?_⟩
  intro call hc env
  simp only [sampleCalls, List.mem_cons, List.not_mem_nil, or_false] at hc
  obtain rfl | rfl | rfl | rfl := hc <;> simp

def sampleTakeover : List Call :=
  [.beginTotp (sampleDraw 1) 1, .enableTotp (sampleDraw 1) 1 "843009"]

/-- A set-up replaces the secret without a code for it, and approvals then go by
the new secret. -/
theorem session_replaces_totp : Enabled sampleAccounts 1 ∧
    ¬ ValidCode samplePlatform sampleAccounts 1 "843009" (sampleDraw 1).now ∧
    assertTotp samplePlatform (sampleDraw 1) (run samplePlatform sampleAccounts sampleTakeover) 1
      "843009" = .ok () ∧
    ¬ Guarded samplePlatform sampleAccounts 1
      (sampleTakeover ++ [.assertTotp (sampleDraw 1) 1 "843009"]) := by
  refine ⟨sampleAccounts_enabled, ?_, eq_ok_of_isOk (by decide +kernel), fun h => ?_⟩
  · rintro ⟨secret, hsecret, hvalid⟩
    have hold : enrolledSecret samplePlatform sampleAccounts 1 =
        some "AAAAAAAAAAAAAAAAAAAAAAAAAAAAAAAA" := by decide +kernel
    have hno : (verifyTotp samplePlatform.toPrimitives "AAAAAAAAAAAAAAAAAAAAAAAAAAAAAAAA" "843009"
        (sampleDraw 1).now).toOption = some false := by decide +kernel
    rw [hold] at hsecret
    cases hsecret
    rw [hvalid] at hno
    cases hno
  · exact h.changes [] _ _ rfl (by decide +kernel)

end Sample

end Bitmine.Enrolment
