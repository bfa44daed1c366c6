import Bitmine.Enrolment
import Bitmine.Lib.Resources

namespace Bitmine.ConcurrentLogins

open Bitmine.Lib.UniqueTable Bitmine.Lib.Throwing Bitmine.Lib.Await
open Bitmine.Lib.Resources (HoldOutline)
open Bitmine.Schema Bitmine.Security Bitmine.AdminSessions Bitmine.Enrolment

/-- A recovery code that a login has used up. A stored code is known by its
identifier and the number of the regeneration that stored it. -/
structure Win where
  login : ℕ
  code : Id × ℕ
  deriving DecidableEq

/-- A session that a login has created, with what was known of the account then:
the failures recorded since the session before, and the last lock among them. -/
structure Opening where
  login : ℕ
  adminId : Id
  code : Option (Id × ℕ)
  now : Instant
  failures : ℕ
  lock : Option Instant
  deriving DecidableEq

structure State where
  accounts : Accounts
  clock : Instant
  logins : ℕ
  generation : ℕ
  issued : Id → ℕ
  recoveries : List ℕ
  wins : List Win
  losses : List ℕ
  failures : Id → ℕ
  lock : Id → Option Instant
  openings : List Opening

/-- The awaited effects of `login` and `enableTotp`. Each login has a number. -/
inductive AuthCall where
  | login (dto : LoginDto)
  | verifySecret (t : ℕ) (dto : LoginDto) (found : Option Account)
  | findMany (t : ℕ) (dto : LoginDto) (admin : Account)
  | verifyCode (t : ℕ) (dto : LoginDto) (admin : Account) (code : BackupCode)
    (rest : List BackupCode)
  | countFailure (t : ℕ) (admin : Account) (locked : Bool)
  | lockUntil (t : ℕ) (admin : Account) (time : Instant)
  | updateMany (t : ℕ) (admin : Account) (backupCodeId : Id)
  | setSession (t : ℕ) (admin : Account) (code : Option (Id × ℕ))
  | clearFailures (t : ℕ) (admin : Account)
  | enableTotp (adminId : Id) (code : String)
  | storeCodes (adminId : Id) (backupCodes : List String)

def AuthCall.entry : AuthCall → Bool
  | .login _ => true
  | .enableTotp _ _ => true
  | _ => false

def AuthCall.ticket : AuthCall → Option ℕ
  | .login _ => none
  | .verifySecret t _ _ => some t
  | .findMany t _ _ => some t
  | .verifyCode t _ _ _ _ => some t
  | .countFailure t _ _ => some t
  | .lockUntil t _ _ => some t
  | .updateMany t _ _ => some t
  | .setSession t _ _ => some t
  | .clearFailures t _ => some t
  | .enableTotp _ _ => none
  | .storeCodes _ _ => none

namespace State

variable (p : Platform) (env : Draw) (s : State)

def tick : State := { s with clock := env.now }

def withAdmins (admins : Table Account) : State :=
  { s with accounts := { s.accounts with admins := admins } }

def recover (t : ℕ) : State := { s with recoveries := t :: s.recoveries }

def fail (adminId : Id) : State :=
  { s with failures := Function.update s.failures adminId (s.failures adminId + 1) }

def bar (adminId : Id) (time : Instant) : State :=
  { s with lock := Function.update s.lock adminId (some time) }

def win (t : ℕ) (backupCodeId : Id) (accounts : Accounts) : State :=
  { s with accounts := accounts, wins := ⟨t, backupCodeId, s.issued backupCodeId⟩ :: s.wins }

def lose (t : ℕ) : State := { s with losses := t :: s.losses }

def grant (t : ℕ) (admin : Account) (code : Option (Id × ℕ)) : State :=
  { s with
    accounts := { s.accounts with
      sessions := (sessionKey p (env.token 0), newSession p env admin) :: s.accounts.sessions }
    openings := ⟨t, admin.id, code, env.now, s.failures admin.id, s.lock admin.id⟩ :: s.openings
    failures := Function.update s.failures admin.id 0
    lock := Function.update s.lock admin.id none }

def regenerate (ids : List Id) (accounts : Accounts) : State :=
  { s with
    accounts := accounts
    generation := s.generation + 1
    issued := fun id => if id ∈ ids then s.generation + 1 else s.issued id }

end State

variable (p : Platform)

def checked (t : ℕ) (admin : Account) (passwordOk totpOk locked : Bool) (backupCodeId : Option Id) :
    AuthCall :=
  if passwordOk && totpOk && !locked && admin.status = .active then
    match backupCodeId with
    | some id => .updateMany t admin id
    | none => .setSession t admin none
  else .countFailure t admin locked

def tryNext (t : ℕ) (dto : LoginDto) (admin : Account) : List BackupCode → AuthCall
  | [] => checked t admin true false false none
  | code :: rest => .verifyCode t dto admin code rest

def updateAdmin (s : State) (adminId : Id) (f : Account → Account) (hf : KeepsKeys f) :
    Except String State := do
  let _ ← orThrow recordNotFound (s.accounts.admins.find? (byId adminId))
  pure (s.withAdmins (s.accounts.admins.update (byId adminId) f hf))

def effect (s : State) (r : AuthCall) (env : Draw) : Except String (State × Option AuthCall) :=
  match r with
  | .login dto =>
    let found := s.accounts.admins.find? (byEmail (p.toLowerCase (trim dto.email)))
    .ok ({ s.tick env with logins := s.logins + 1 }, some (.verifySecret s.logins dto found))
  | .verifySecret t dto found =>
    let passwordOk := p.verifySecret ((found.map Account.passwordHash).getD dummyHash) dto.password
    match found with
    | none => .error "Invalid credentials or TOTP"
    | some admin =>
      let locked := isLocked env admin
      if admin.totpEnabled then do
        let totpOk ← codeMatches p env dto admin
        if !totpOk && passwordOk && !locked && (truthy dto.totpCode).isSome then
          pure (s.tick env, some (.findMany t dto admin))
        else pure (s.tick env, some (checked t admin passwordOk totpOk locked none))
      else .ok (s.tick env, some (checked t admin passwordOk true locked none))
  | .findMany t dto admin =>
    let backupCodes := (env.order.arrange s.accounts.backupCodes.rows).filter
      (fun b => b.adminId = admin.id ∧ b.usedAt = none)
    .ok ((s.tick env).recover t, some (tryNext t dto admin backupCodes))
  | .verifyCode t dto admin code rest =>
    if p.verifySecret code.codeHash (normalizeCode p (dto.totpCode.getD "")) then
      .ok (s.tick env, some (checked t admin true true false (some code.id)))
    else .ok (s.tick env, some (tryNext t dto admin rest))
  | .countFailure t admin locked => do
    let s' ← updateAdmin (s.tick env) admin.id countFailure countFailure_keys
    let count := ((s'.accounts.admins.find? (byId admin.id)).map Account.failedLoginCount).getD 0
    pure (s'.fail admin.id, if 5 ≤ count && !locked then
      some (.lockUntil t admin (env.now + 15 * 60000)) else none)
  | .lockUntil _ admin time => do
    let s' ← updateAdmin (s.tick env) admin.id (lockUntil time) (lockUntil_keys time)
    pure (s'.bar admin.id time, none)
  | .updateMany t admin backupCodeId =>
    match consume env s.accounts (some backupCodeId) with
    | .ok accounts => .ok ((s.tick env).win t backupCodeId accounts,
        some (.setSession t admin (some (backupCodeId, s.issued backupCodeId))))
    | .error _ => .ok ((s.tick env).lose t, none)
  | .setSession t admin code =>
    .ok ((s.tick env).grant p env t admin code, some (.clearFailures t admin))
  | .clearFailures _ admin => do
    let s' ← updateAdmin (s.tick env) admin.id (clearFailures env.now) (clearFailures_keys env.now)
    pure (s', none)
  | .enableTotp adminId code => do
    let admin ← orThrow recordNotFound (s.accounts.admins.find? (byId adminId))
    let ciphertext ← orThrow "TOTP setup has not started" (truthy admin.totpSecretCiphertext)
    let secret ← openSecret p admin ciphertext
    let valid ← verifyTotp p.toPrimitives secret code env.now
    if valid then
      pure (s.tick env, some (.storeCodes adminId
        ((List.range 10).map (fun i => backupCode p (env.token i)))))
    else .error "Invalid TOTP code"
  | .storeCodes adminId backupCodes => do
    let s' ← updateAdmin (s.tick env) adminId setEnabled setEnabled_keys
    let emptied := s.accounts.backupCodes.delete (fun b => b.adminId = adminId)
    let created := newBackupCodes p env adminId backupCodes
    let stored ← orThrow uniqueViolation (emptied.insertAll created)
    pure (s'.regenerate (created.map BackupCode.id) { s'.accounts with backupCodes := stored }, none)

inductive Change where
  | edit (admins : Table Account)

def change (s : State) : Change → State
  | .edit admins => s.withAdmins admins

def auth : Machine State AuthCall Draw Change :=
  ⟨AuthCall.entry, effect p, fun _ _ => none, fun _ r _ => r, change⟩

def State.start (accounts : Accounts) (now : Instant) : State :=
  ⟨accounts, now, 0, 0, fun _ => 0, [], [], [],
    fun id => ((accounts.admins.find? (byId id)).map Account.failedLoginCount).getD 0,
    fun id => (accounts.admins.find? (byId id)).bind Account.lockedUntil, []⟩

section Inversion

variable (s : State) (env : Draw)

/-- Everything a resolved effect can do. -/
inductive Logged : AuthCall → State → Option AuthCall → Prop where
  | read {dto : LoginDto} {found : Option Account} :
      Logged (.login dto) { s.tick env with logins := s.logins + 1 }
        (some (.verifySecret s.logins dto found))
  | check {t : ℕ} {dto : LoginDto} {admin : Account} {r : AuthCall}
      (h : r = .countFailure t admin (isLocked env admin) ∨ (isLocked env admin = false ∧
        (r = .findMany t dto admin ∨ r = .setSession t admin none))) :
      Logged (.verifySecret t dto (some admin)) (s.tick env) (some r)
  | list {t : ℕ} {dto : LoginDto} {admin : Account} {backupCodes : List BackupCode} :
      Logged (.findMany t dto admin) ((s.tick env).recover t) (some (tryNext t dto admin backupCodes))
  | attempt {t : ℕ} {dto : LoginDto} {admin : Account} {code : BackupCode}
      {rest : List BackupCode} {r : AuthCall} (h : r = .updateMany t admin code.id ∨
        r = .countFailure t admin false ∨ r = tryNext t dto admin rest) :
      Logged (.verifyCode t dto admin code rest) (s.tick env) (some r)
  | count {t : ℕ} {admin : Account} {locked : Bool} {admins : Table Account} {o : Option AuthCall}
      (h : o = none ∨ o = some (.lockUntil t admin (env.now + 15 * 60000))) :
      Logged (.countFailure t admin locked) (((s.tick env).withAdmins admins).fail admin.id) o
  | lock {t : ℕ} {admin : Account} {time : Instant} {admins : Table Account} :
      Logged (.lockUntil t admin time) (((s.tick env).withAdmins admins).bar admin.id time) none
  | won {t : ℕ} {admin : Account} {id : Id} {accounts : Accounts}
      (h : consume env s.accounts (some id) = .ok accounts) :
      Logged (.updateMany t admin id) ((s.tick env).win t id accounts)
        (some (.setSession t admin (some (id, s.issued id))))
  | lost {t : ℕ} {admin : Account} {id : Id} :
      Logged (.updateMany t admin id) ((s.tick env).lose t) none
  | opened {t : ℕ} {admin : Account} {code : Option (Id × ℕ)} :
      Logged (.setSession t admin code) ((s.tick env).grant p env t admin code)
        (some (.clearFailures t admin))
  | clear {t : ℕ} {admin : Account} {admins : Table Account} :
      Logged (.clearFailures t admin) ((s.tick env).withAdmins admins) none
  | verify {adminId : Id} {code : String} {backupCodes : List String} :
      Logged (.enableTotp adminId code) (s.tick env) (some (.storeCodes adminId backupCodes))
  | store {adminId : Id} {backupCodes : List String} {created : List BackupCode}
      {admins : Table Account} {stored : Table BackupCode}
      (h : (s.accounts.backupCodes.delete (fun b => b.adminId = adminId)).insertAll created =
        some stored) :
      Logged (.storeCodes adminId backupCodes)
        (((s.tick env).withAdmins admins).regenerate (created.map BackupCode.id)
          { (s.withAdmins admins).accounts with backupCodes := stored }) none

variable {p s env}

theorem updateAdmin_ok {s s' : State} {adminId : Id} {f : Account → Account} {hf : KeepsKeys f}
    (h : updateAdmin s adminId f hf = .ok s') : ∃ admins, s' = s.withAdmins admins := by
  simp only [updateAdmin, bind_eq_ok, pure_eq_ok] at h
  obtain ⟨_, _, rfl⟩ := h
  exact ⟨_, rfl⟩

theorem checked_none (t : ℕ) (admin : Account) (passwordOk totpOk locked : Bool) :
    checked t admin passwordOk totpOk locked none = .countFailure t admin locked ∨
      (locked = false ∧ checked t admin passwordOk totpOk locked none = .setSession t admin none) := by
  rw [checked]
  split
  · rename_i h
    simp only [Bool.and_eq_true, Bool.not_eq_true'] at h
    exact .inr ⟨h.1.2, rfl⟩
  · exact .inl rfl

theorem effect_logged {r : AuthCall} {s' : State} {o : Option AuthCall}
    (h : effect p s r env = .ok (s', o)) : Logged p s env r s' o := by
  cases r with
  | login dto =>
    cases h
    exact .read
  | verifySecret t dto found =>
    cases found with
    | none => cases h
    | some admin =>
      have hchecked : ∀ passwordOk totpOk, Logged p s env (.verifySecret t dto (some admin))
          (s.tick env) (some (checked t admin passwordOk totpOk (isLocked env admin) none)) :=
        fun passwordOk totpOk => .check ((checked_none t admin passwordOk totpOk _).imp_right
          (fun hs => ⟨hs.1, .inr hs.2⟩))
      simp only [effect] at h
      split at h
      · rw [bind_eq_ok] at h
        obtain ⟨totpOk, _, h⟩ := h
        split at h
        · rename_i hnext
          cases h
          simp only [Bool.and_eq_true, Bool.not_eq_true'] at hnext
          exact .check (.inr ⟨hnext.1.2, .inl rfl⟩)
        · cases h
          exact hchecked _ _
      · cases h
        exact hchecked _ _
  | findMany t dto admin =>
    cases h
    exact .list
  | verifyCode t dto admin code rest =>
    simp only [effect] at h
    split at h <;> cases h
    · refine .attempt ?_
      rw [checked]
      split
      · exact .inl rfl
      · exact .inr (.inl rfl)
    · exact .attempt (.inr (.inr rfl))
  | countFailure t admin locked =>
    simp only [effect, bind_eq_ok, pure_eq_ok] at h
    obtain ⟨s₁, hu, he⟩ := h
    obtain ⟨admins, rfl⟩ := updateAdmin_ok hu
    cases he
    refine .count ?_
    split
    · exact .inr rfl
    · exact .inl rfl
  | lockUntil t admin time =>
    simp only [effect, bind_eq_ok, pure_eq_ok] at h
    obtain ⟨s₁, hu, he⟩ := h
    obtain ⟨admins, rfl⟩ := updateAdmin_ok hu
    cases he
    exact .lock
  | updateMany t admin id =>
    simp only [effect] at h
    split at h <;> cases h
    · exact .won ‹_›
    · exact .lost
  | setSession t admin code =>
    cases h
    exact .opened
  | clearFailures t admin =>
    simp only [effect, bind_eq_ok, pure_eq_ok] at h
    obtain ⟨s₁, hu, he⟩ := h
    obtain ⟨admins, rfl⟩ := updateAdmin_ok hu
    cases he
    exact .clear
  | enableTotp adminId code =>
    simp only [effect, bind_eq_ok] at h
    obtain ⟨_, _, _, _, _, _, valid, _, h⟩ := h
    split at h <;> cases h
    exact .verify
  | storeCodes adminId backupCodes =>
    simp only [effect, bind_eq_ok, orThrow_eq_ok, pure_eq_ok] at h
    obtain ⟨s₁, hu, stored, hs, he⟩ := h
    obtain ⟨admins, rfl⟩ := updateAdmin_ok hu
    cases he
    exact .store hs

end Inversion

section SingleUse

/-- Every code is used up once, and a session by a code belongs to the login that
has used it up. -/
structure SingleUse (s : State) : Prop where
  issued : ∀ id, s.issued id ≤ s.generation
  past : ∀ win ∈ s.wins, win.code.2 ≤ s.generation
  unused : ∀ b ∈ s.accounts.backupCodes.rows, b.usedAt = none →
    ∀ win ∈ s.wins, win.code ≠ (b.id, s.issued b.id)
  distinct : (s.wins.map Win.code).Nodup
  won : ∀ o ∈ s.openings, ∀ code, o.code = some code → Win.mk o.login code ∈ s.wins
  once : (s.openings.map Opening.login).Nodup
  lost : ∀ o ∈ s.openings, o.login ∉ s.losses
  recovered : ∀ o ∈ s.openings, o.code = none → o.login ∉ s.recoveries
  opened : ∀ o ∈ s.openings, o.login < s.logins
  ended : ∀ t ∈ s.losses, t < s.logins
  begun : ∀ t ∈ s.recoveries, t < s.logins

/-- What a running login may rely on: it has neither lost nor, before the end,
created a session; a session by a code waits for a code that the login has used up,
and one without a code for a login that has not looked for one. -/
def loginLoc (s : State) (t : ℕ) : AuthCall → Prop
  | .clearFailures _ _ => True
  | .verifySecret _ _ _ => (∀ o ∈ s.openings, o.login ≠ t) ∧ t ∉ s.recoveries
  | .setSession _ _ code => (∀ o ∈ s.openings, o.login ≠ t) ∧
      (∀ c, code = some c → Win.mk t c ∈ s.wins) ∧ (code = none → t ∉ s.recoveries)
  | _ => ∀ o ∈ s.openings, o.login ≠ t

def Loc (s : State) (r : AuthCall) : Prop :=
  ∀ t, r.ticket = some t → t < s.logins ∧ t ∉ s.losses ∧ loginLoc s t r

structure Respects (r : AuthCall) (s s' : State) : Prop where
  logins : s.logins ≤ s'.logins
  wins : ∀ win ∈ s.wins, win ∈ s'.wins
  losses : ∀ t ∈ s'.losses, t ∈ s.losses ∨ r.ticket = some t
  recoveries : ∀ t ∈ s'.recoveries, t ∈ s.recoveries ∨ r.ticket = some t
  openings : ∀ o ∈ s'.openings, o ∈ s.openings ∨ r.ticket = some o.login

variable {p : Platform} {s s' : State} {env : Draw}

theorem tickets (p : Platform) : Lib.Resources.Holding (auth p)
    (fun r t => r.ticket = some t) (fun s t => t < s.logins) where
  entry r t h ht := by
    cases r with
    | login | enableTotp => cases ht
    | verifySecret | findMany | verifyCode | countFailure | lockUntil | updateMany | setSession
    | clearFailures | storeCodes => cases h
  enters s r env s' o h r' hr' t ht := by
    obtain hr' | ⟨_, hr'⟩ := hr'
    case inr => cases hr'
    have hlog : Logged p s env r s' o := effect_logged h
    clear h
    cases hlog with
    | read =>
      cases hr'
      cases ht
      exact ⟨.inr (lt_irrefl _), fun _ => Nat.lt_succ_self _⟩
    | check h =>
      cases hr'
      obtain rfl | ⟨_, rfl | rfl⟩ := h <;> exact ⟨.inl ht, fun hs => hs ht⟩
    | @list _ _ _ codes =>
      cases hr'
      cases codes <;> exact ⟨.inl ht, fun hs => hs ht⟩
    | @attempt _ _ _ _ rest _ h =>
      cases hr'
      obtain rfl | rfl | rfl := h
      · exact ⟨.inl ht, fun hs => hs ht⟩
      · exact ⟨.inl ht, fun hs => hs ht⟩
      · cases rest <;> exact ⟨.inl ht, fun hs => hs ht⟩
    | count h =>
      obtain rfl | rfl := h <;> cases hr'
      exact ⟨.inl ht, fun hs => hs ht⟩
    | won h =>
      cases hr'
      exact ⟨.inl ht, fun hs => hs ht⟩
    | opened =>
      cases hr'
      exact ⟨.inl ht, fun hs => hs ht⟩
    | verify =>
      cases hr'
      cases ht
    | lock | lost | clear | store => cases hr'
  keeps s r env s' o t h _ ht := by
    cases effect_logged h with
    | read => exact Nat.lt_succ_of_lt ht
    | check | list | attempt | count | lock | won | lost | opened | clear | verify | store => exact ht
  handler r e r' t h _ := by cases h
  background s r b t h := h

/-- Nothing but the accounts of administrators and the clock changes. -/
theorem SingleUse.same (h : SingleUse s) (hcodes : s'.accounts.backupCodes = s.accounts.backupCodes)
    (hgen : s'.generation = s.generation) (hissued : s'.issued = s.issued) (hwins : s'.wins = s.wins)
    (hlosses : s'.losses = s.losses) (hrec : s'.recoveries = s.recoveries)
    (hopenings : s'.openings = s.openings) (hlogins : s.logins ≤ s'.logins) : SingleUse s' := by
  refine ⟨?_, ?_, ?_, ?_, ?_, ?_, ?_, ?_, ?_, ?_, ?_⟩
  · rw [hissued, hgen]
    exact h.issued
  · rw [hwins, hgen]
    exact h.past
  · rw [hcodes, hwins, hissued]
    exact h.unused
  · rw [hwins]
    exact h.distinct
  · rw [hopenings, hwins]
    exact h.won
  · rw [hopenings]
    exact h.once
  · rw [hopenings, hlosses]
    exact h.lost
  · rw [hopenings, hrec]
    exact h.recovered
  · rw [hopenings]
    exact fun o ho => (h.opened o ho).trans_le hlogins
  · rw [hlosses]
    exact fun t ht => (h.ended t ht).trans_le hlogins
  · rw [hrec]
    exact fun t ht => (h.begun t ht).trans_le hlogins

/-- A code is used up that was unused. -/
theorem SingleUse.win (h : SingleUse s) {t : ℕ} {id : Id} {accounts : Accounts}
    (hc : consume env s.accounts (some id) = .ok accounts) :
    SingleUse (s.win t id accounts) := by
  simp only [consume] at hc
  split at hc
  case isFalse => cases hc
  rename_i hone
  cases hc
  obtain ⟨b, hb, hunused⟩ := List.countP_pos_iff.mp (hone ▸ Nat.one_pos)
  obtain ⟨rfl, hnone⟩ := of_decide_eq_true hunused
  have hnew : ∀ win ∈ s.wins, win.code ≠ (b.id, s.issued b.id) := h.unused b hb hnone
  refine ⟨h.issued, ?_, ?_, ?_, ?_, h.once, h.lost, h.recovered, h.opened, h.ended, h.begun⟩
  · intro win hw
    obtain rfl | hw := List.mem_cons.mp hw
    · exact h.issued b.id
    · exact h.past win hw
  · intro b' hb' hnone' win hw
    obtain ⟨b₀, hb₀, rfl⟩ := List.mem_map.mp hb'
    split at hnone'
    · cases hnone'
    · rename_i hnot
      rw [if_neg hnot]
      obtain rfl | hw := List.mem_cons.mp hw
      · intro he
        have hid : b.id = b₀.id := (Prod.mk.inj he).1
        exact hnot (decide_eq_true ⟨hid.symm, hnone'⟩)
      · exact h.unused b₀ hb₀ hnone' win hw
  · refine List.nodup_cons.mpr ⟨fun hm => ?_, h.distinct⟩
    obtain ⟨win, hw, hcode⟩ := List.mem_map.mp hm
    exact hnew win hw hcode
  · exact fun o ho code hcode => List.mem_cons_of_mem _ (h.won o ho code hcode)

theorem SingleUse.recover (h : SingleUse s) {t : ℕ} (ht : t < s.logins)
    (hnone : ∀ o ∈ s.openings, o.login ≠ t) : SingleUse (s.recover t) := by
  refine ⟨h.issued, h.past, h.unused, h.distinct, h.won, h.once, h.lost, fun o ho hcode hm => ?_,
    h.opened, h.ended, ?_⟩
  · obtain rfl | hm := List.mem_cons.mp hm
    · exact hnone o ho rfl
    · exact h.recovered o ho hcode hm
  · intro t' hm
    obtain rfl | hm := List.mem_cons.mp hm
    · exact ht
    · exact h.begun t' hm

theorem SingleUse.lose (h : SingleUse s) {t : ℕ} (ht : t < s.logins)
    (hnone : ∀ o ∈ s.openings, o.login ≠ t) : SingleUse (s.lose t) := by
  refine ⟨h.issued, h.past, h.unused, h.distinct, h.won, h.once, fun o ho hm => ?_,
    h.recovered, h.opened, ?_, h.begun⟩
  · obtain rfl | hm := List.mem_cons.mp hm
    · exact hnone o ho rfl
    · exact h.lost o ho hm
  · intro t' hm
    obtain rfl | hm := List.mem_cons.mp hm
    · exact ht
    · exact h.ended t' hm

theorem SingleUse.grant (h : SingleUse s) {t : ℕ} {admin : Account} {code : Option (Id × ℕ)}
    (ht : t < s.logins) (hlost : t ∉ s.losses) (hnone : ∀ o ∈ s.openings, o.login ≠ t)
    (hcode : ∀ c, code = some c → Win.mk t c ∈ s.wins) (hrec : code = none → t ∉ s.recoveries) :
    SingleUse (s.grant p env t admin code) := by
  refine ⟨h.issued, h.past, h.unused, h.distinct, fun o ho => ?_, ?_, fun o ho => ?_, fun o ho => ?_,
    fun o ho => ?_, h.ended, h.begun⟩
  · obtain rfl | ho := List.mem_cons.mp ho
    · exact hcode
    · exact h.won o ho
  · refine List.nodup_cons.mpr ⟨fun hm => ?_, h.once⟩
    obtain ⟨o, ho, he⟩ := List.mem_map.mp hm
    exact hnone o ho he
  · obtain rfl | ho := List.mem_cons.mp ho
    · exact hlost
    · exact h.lost o ho
  · obtain rfl | ho := List.mem_cons.mp ho
    · exact hrec
    · exact h.recovered o ho
  · obtain rfl | ho := List.mem_cons.mp ho
    · exact ht
    · exact h.opened o ho

theorem SingleUse.regenerate (h : SingleUse s) {adminId : Id} {created : List BackupCode}
    {stored : Table BackupCode} {accounts : Accounts} (hcodes : accounts.backupCodes = stored)
    (hs : (s.accounts.backupCodes.delete (fun b => b.adminId = adminId)).insertAll created =
      some stored) : SingleUse (s.regenerate (created.map BackupCode.id) accounts) := by
  have hrows := Table.insertAll_eq_some hs
  refine ⟨fun id => ?_, fun win hw => (h.past win hw).trans (Nat.le_succ _), ?_, h.distinct, h.won,
    h.once, h.lost, h.recovered, h.opened, h.ended, h.begun⟩
  · simp only [State.regenerate]
    split
    · exact le_rfl
    · exact (h.issued id).trans (Nat.le_succ _)
  · intro b hb hnone win hw he
    simp only [State.regenerate, hcodes, hrows, List.mem_append] at hb he
    split at he
    · have := h.past win hw
      rw [he] at this
      exact absurd this (Nat.not_succ_le_self _)
    · rename_i hnot
      obtain hb | hb := hb
      · exact h.unused b (List.mem_of_mem_filter hb) hnone win hw he
      · exact hnot (List.mem_map_of_mem hb)

theorem Loc.move (hl : s.logins ≤ s'.logins) (hlosses : s'.losses = s.losses)
    (hopenings : s'.openings = s.openings) {r r' : AuthCall} (ht : r'.ticket = r.ticket)
    (hr : ∀ t, loginLoc s t r → ∀ o ∈ s.openings, o.login ≠ t)
    (hr' : ∀ t, (∀ o ∈ s'.openings, o.login ≠ t) → loginLoc s' t r') (h : Loc s r) : Loc s' r' := by
  intro t hticket
  obtain ⟨hlt, hlost, hloc⟩ := h t (ht ▸ hticket)
  refine ⟨hlt.trans_le hl, hlosses ▸ hlost, hr' t ?_⟩
  rw [hopenings]
  exact hr t hloc

theorem Respects.quiet {r : AuthCall} (hl : s.logins ≤ s'.logins) (hwins : s'.wins = s.wins)
    (hlosses : s'.losses = s.losses) (hrec : s'.recoveries = s.recoveries)
    (hopenings : s'.openings = s.openings) : Respects r s s' :=
  ⟨hl, fun _ hw => hwins ▸ hw, fun _ ht => .inl (hlosses ▸ ht), fun _ ht => .inl (hrec ▸ ht),
    fun _ ho => .inl (hopenings ▸ ho)⟩

/-- One resolved effect. -/
theorem logged_singleUse {r : AuthCall} {o : Option AuthCall} (h : SingleUse s) (hl : Loc s r)
    (hlog : Logged p s env r s' o) :
    SingleUse s' ∧ Respects r s s' ∧ ∀ r' ∈ o, Loc s' r' := by
  cases hlog with
  | read =>
    refine ⟨h.same rfl rfl rfl rfl rfl rfl rfl (Nat.le_succ _), .quiet (Nat.le_succ _) rfl rfl rfl rfl, ?_⟩
    rintro _ ⟨⟩ t ⟨⟩
    exact ⟨Nat.lt_succ_self _, fun hm => lt_irrefl _ (h.ended _ hm), fun o ho => (h.opened o ho).ne,
      fun hm => lt_irrefl _ (h.begun _ hm)⟩
  | check hr =>
    refine ⟨h.same rfl rfl rfl rfl rfl rfl rfl le_rfl, .quiet le_rfl rfl rfl rfl rfl, ?_⟩
    rintro _ ⟨⟩
    obtain rfl | ⟨_, rfl | rfl⟩ := hr <;> intro t ht <;>
      obtain ⟨hlt, hlost, hnone, hrec⟩ := hl t ht
    · exact ⟨hlt, hlost, hnone⟩
    · exact ⟨hlt, hlost, hnone⟩
    · exact ⟨hlt, hlost, hnone, fun _ hcode => (by cases hcode), fun _ => hrec⟩
  | @list t _ _ codes =>
    obtain ⟨hlt, _, hnone⟩ := hl t rfl
    refine ⟨(h.same rfl rfl rfl rfl rfl rfl rfl le_rfl : SingleUse (s.tick env)).recover hlt hnone,
      ⟨le_rfl, fun _ => id, fun _ => .inl, fun t' ht => ?_, fun _ => .inl⟩, ?_⟩
    · exact (List.mem_cons.mp ht).symm.imp_right (fun he => congrArg some he.symm)
    rintro _ ⟨⟩
    cases codes <;> exact hl.move le_rfl rfl rfl rfl (fun _ => id) (fun _ => id)
  | @attempt _ _ _ _ rest _ hr =>
    refine ⟨h.same rfl rfl rfl rfl rfl rfl rfl le_rfl, .quiet le_rfl rfl rfl rfl rfl, ?_⟩
    rintro _ ⟨⟩
    obtain rfl | rfl | rfl := hr
    · exact hl.move le_rfl rfl rfl rfl (fun _ => id) (fun _ => id)
    · exact hl.move le_rfl rfl rfl rfl (fun _ => id) (fun _ => id)
    · cases rest <;> exact hl.move le_rfl rfl rfl rfl (fun _ => id) (fun _ => id)
  | count ho =>
    refine ⟨h.same rfl rfl rfl rfl rfl rfl rfl le_rfl, .quiet le_rfl rfl rfl rfl rfl, ?_⟩
    obtain rfl | rfl := ho <;> rintro _ ⟨⟩
    exact hl.move le_rfl rfl rfl rfl (fun _ => id) (fun _ => id)
  | lock | clear =>
    exact ⟨h.same rfl rfl rfl rfl rfl rfl rfl le_rfl, .quiet le_rfl rfl rfl rfl rfl,
      fun _ hr' => (by cases hr')⟩
  | @won t admin id accounts hc =>
    obtain ⟨hlt, hlost, hnone⟩ := hl t rfl
    refine ⟨(h.same rfl rfl rfl rfl rfl rfl rfl le_rfl : SingleUse (s.tick env)).win hc,
      ⟨le_rfl, fun win hw => List.mem_cons_of_mem _ hw, fun _ => .inl, fun _ => .inl, fun _ => .inl⟩,
      ?_⟩
    rintro _ ⟨⟩ t ⟨⟩
    refine ⟨hlt, hlost, hnone, ?_, fun hcode => (by cases hcode)⟩
    rintro c ⟨⟩
    exact List.mem_cons_self
  | @lost t =>
    obtain ⟨hlt, _, hnone⟩ := hl t rfl
    refine ⟨(h.same rfl rfl rfl rfl rfl rfl rfl le_rfl : SingleUse (s.tick env)).lose hlt hnone,
      ⟨le_rfl, fun _ => id, fun t' ht => ?_, fun _ => .inl, fun _ => .inl⟩,
      fun _ hr' => (by cases hr')⟩
    exact (List.mem_cons.mp ht).symm.imp_right (fun he => congrArg some he.symm)
  | @opened t admin code =>
    obtain ⟨hlt, hlost, hnone, hcode, hrec⟩ := hl t rfl
    have htick : SingleUse (s.tick env) := h.same rfl rfl rfl rfl rfl rfl rfl le_rfl
    refine ⟨htick.grant hlt hlost hnone hcode hrec,
      ⟨le_rfl, fun _ => id, fun _ => .inl, fun _ => .inl, fun o ho => ?_⟩, ?_⟩
    · obtain rfl | ho := List.mem_cons.mp ho
      · exact .inr rfl
      · exact .inl ho
    · rintro _ ⟨⟩ t ⟨⟩
      exact ⟨hlt, hlost, trivial⟩
  | verify =>
    refine ⟨h.same rfl rfl rfl rfl rfl rfl rfl le_rfl, .quiet le_rfl rfl rfl rfl rfl, ?_⟩
    rintro _ ⟨⟩ t ⟨⟩
  | @store adminId backupCodes created admins stored hs =>
    have hsame : SingleUse ((s.tick env).withAdmins admins) :=
      h.same rfl rfl rfl rfl rfl rfl rfl le_rfl
    exact ⟨hsame.regenerate rfl hs, .quiet le_rfl rfl rfl rfl rfl, fun _ hr' => (by cases hr')⟩

theorem Loc.stable {r r' : AuthCall} (h : Respects r s s')
    (hr : ∀ t, r.ticket = some t → r'.ticket ≠ some t) (hl : Loc s r') : Loc s' r' := by
  intro t ht
  obtain ⟨hlt, hlost, hloc⟩ := hl t ht
  have hnone : (∀ o ∈ s.openings, o.login ≠ t) → ∀ o ∈ s'.openings, o.login ≠ t := by
    intro hall o ho he
    obtain ho | hown := h.openings o ho
    · exact hall o ho he
    · exact hr o.login hown (he ▸ ht)
  have hrec : t ∉ s.recoveries → t ∉ s'.recoveries := fun hnot hm =>
    (h.recoveries t hm).elim hnot (fun hown => hr t hown ht)
  refine ⟨hlt.trans_le h.logins, fun hm => ?_, ?_⟩
  · obtain hm | hown := h.losses t hm
    · exact hlost hm
    · exact hr t hown ht
  · cases r' with
    | clearFailures => trivial
    | setSession t' admin code =>
      exact ⟨hnone hloc.1, fun c hc => h.wins _ (hloc.2.1 c hc), fun hc => hrec (hloc.2.2 hc)⟩
    | verifySecret => exact ⟨hnone hloc.1, hrec hloc.2⟩
    | login | findMany | verifyCode | countFailure | lockUntil | updateMany
    | enableTotp | storeCodes => exact hnone hloc

theorem outline (p : Platform) : HoldOutline (auth p) (fun r t => r.ticket = some t)
    (fun _ _ _ => True) SingleUse Loc Respects where
  entry s r _ h t ht := by
    cases r with
    | login | enableTotp => cases ht
    | verifySecret | findMany | verifyCode | countFailure | lockUntil | updateMany | setSession
    | clearFailures | storeCodes => cases h
  effect s r env s' o h hl _ he := by
    obtain ⟨hs, hr, ho⟩ := logged_singleUse h hl (effect_logged he)
    exact ⟨hs, hr, ho, fun _ _ hr' => (by cases hr')⟩
  handler _ _ _ _ _ _ h := by cases h
  background _ _ _ _ hl := hl
  event s e h := by
    cases e with
    | edit admins =>
      refine ⟨h.same rfl rfl rfl rfl rfl rfl rfl le_rfl, fun r hl => ?_⟩
      exact @Loc.stable s (s.withAdmins admins) (.login ⟨"", "", none⟩) r
        (.quiet le_rfl rfl rfl rfl rfl) (fun _ ht => (by cases ht)) hl
  stable _ _ _ _ _ h hr hl := hl.stable h hr

theorem start_singleUse (accounts : Accounts) (now : Instant) : SingleUse (.start accounts now) := by
  refine ⟨fun _ => le_rfl, ?_, ?_, List.nodup_nil, ?_, List.nodup_nil, ?_, ?_, ?_, ?_, ?_⟩ <;>
    simp [State.start]

theorem reaches_singleUse {accounts : Accounts} {now : Instant} {c : Config State AuthCall}
    (h : (auth p).Reaches (.idle (.start accounts now)) c) : SingleUse c.shared := by
  refine ((outline p).run (tickets p) (start_singleUse accounts now) ?_).inv
  refine h.mono (fun c act _ => ?_)
  cases act with
  | event e =>
    cases e with
    | edit => exact fun _ _ _ _ _ ht => ht
  | resolve | rejectAfter => exact fun _ _ => trivial
  | call | reject | background | stop => trivial

/-- However logins and regenerations interleave: a stored recovery code is used up
by one login at most, and only that login gets a session by it, one session. A login
that looks for a recovery code gets no session but by one it has used up, and a
login that finds its code used up gets none. -/
theorem codes_single_use {accounts : Accounts} {now : Instant} {c : Config State AuthCall}
    (h : (auth p).Reaches (.idle (.start accounts now)) c) :
    (∀ code, (c.shared.openings.filter (fun o => o.code = some code)).length ≤ 1) ∧
    (∀ o ∈ c.shared.openings, ∀ code, o.code = some code → Win.mk o.login code ∈ c.shared.wins) ∧
    (∀ win ∈ c.shared.wins, ∀ win' ∈ c.shared.wins, win.code = win'.code → win = win') ∧
    (∀ o ∈ c.shared.openings, o.login ∈ c.shared.recoveries → o.code ≠ none) ∧
    ∀ t ∈ c.shared.losses, ∀ o ∈ c.shared.openings, o.login ≠ t := by
  have hs := reaches_singleUse h
  have hwin := List.inj_on_of_nodup_map hs.distinct
  refine ⟨fun code => ?_, hs.won, fun win hw win' hw' he => hwin hw hw' he,
    fun o ho hr hcode => hs.recovered o ho hcode hr, fun t ht o ho he => ?_⟩
  · have hnodup : (c.shared.openings.filter (fun o => o.code = some code)).Nodup :=
      (List.Nodup.of_map _ hs.once).filter _
    have hmem : ∀ o ∈ c.shared.openings.filter (fun o => o.code = some code),
        o ∈ c.shared.openings ∧ Win.mk o.login code ∈ c.shared.wins := fun o ho => by
      obtain ⟨ho, hcode⟩ := List.mem_filter.mp ho
      exact ⟨ho, hs.won o ho code (of_decide_eq_true hcode)⟩
    match hl : c.shared.openings.filter (fun o => o.code = some code) with
    | [] => exact hl ▸ Nat.zero_le _
    | [_] => exact hl ▸ le_rfl
    | o :: o' :: rest =>
      rw [hl] at hnodup hmem
      obtain ⟨ho, hw⟩ := hmem o (by simp)
      obtain ⟨ho', hw'⟩ := hmem o' (by simp)
      have hlogin : o.login = o'.login := congrArg Win.login (hwin hw hw' rfl)
      have heq : o = o' := List.inj_on_of_nodup_map hs.once ho ho' hlogin
      exact absurd heq (fun he => (List.nodup_cons.mp hnodup).1 (he ▸ by simp))
  · exact hs.lost o ho (he ▸ ht)

end SingleUse

section Lockout

/-- A session that comes after five failures comes after the end of the lock. -/
def Lockout (s : State) : Prop :=
  ∀ o ∈ s.openings, 5 ≤ o.failures → ∃ u, o.lock = some u ∧ u ≤ o.now

/-- The clock does not go back. -/
def Timed (s : State) (_ : AuthCall) (env : Draw) : Prop := s.clock ≤ env.now

/-- A session after five failures is created by a login that had read the lock
written for them. -/
def Informed (s : State) : AuthCall → Prop
  | .setSession _ admin _ => 5 ≤ s.failures admin.id →
      s.lock admin.id ≠ none ∧ admin.lockedUntil = s.lock admin.id
  | _ => True

/-- The lock that a login has read is over once the login has passed its test. -/
def Passed (s : State) : AuthCall → Prop
  | .findMany _ _ admin => ∀ u ∈ admin.lockedUntil, u ≤ s.clock
  | .verifyCode _ _ admin _ _ => ∀ u ∈ admin.lockedUntil, u ≤ s.clock
  | .updateMany _ admin _ => ∀ u ∈ admin.lockedUntil, u ≤ s.clock
  | .setSession _ admin _ => ∀ u ∈ admin.lockedUntil, u ≤ s.clock
  | _ => True

variable {p : Platform} {s s' : State} {env : Draw}

theorem Passed.later (hc : s.clock ≤ s'.clock) {r : AuthCall} (h : Passed s r) : Passed s' r := by
  cases r with
  | findMany | verifyCode | updateMany | setSession => exact fun u hu => (h u hu).trans hc
  | login | verifySecret | countFailure | lockUntil | clearFailures | enableTotp | storeCodes =>
    trivial

theorem Passed.tryNext {t : ℕ} {dto : LoginDto} {admin : Account}
    (h : ∀ u ∈ admin.lockedUntil, u ≤ s.clock) (codes : List BackupCode) :
    Passed s (tryNext t dto admin codes) := by
  cases codes with
  | nil => trivial
  | cons => exact h

theorem isLocked_false {admin : Account} (h : isLocked env admin = false) :
    ∀ u ∈ admin.lockedUntil, u ≤ env.now := by
  intro u hu
  simp only [isLocked, Option.mem_def.mp hu, Option.any_some, decide_eq_false_iff_not, not_lt] at h
  exact h

/-- What one effect makes of the clock, of the sessions and of its own login. -/
theorem logged_passed {r : AuthCall} {o : Option AuthCall} (h : Passed s r)
    (ht : s.clock ≤ env.now) (hlog : Logged p s env r s' o) :
    s'.clock = env.now ∧ (∀ r' ∈ o, Passed s' r') ∧
    (s'.openings = s.openings ∨ ∃ t admin code, r = .setSession t admin code ∧ s'.openings =
      ⟨t, admin.id, code, env.now, s.failures admin.id, s.lock admin.id⟩ :: s.openings) := by
  cases hlog with
  | read =>
    refine ⟨rfl, ?_, .inl rfl⟩
    rintro _ ⟨⟩
    trivial
  | check hr =>
    refine ⟨rfl, ?_, .inl rfl⟩
    rintro _ ⟨⟩
    obtain rfl | ⟨hlocked, rfl | rfl⟩ := hr
    · trivial
    · exact isLocked_false hlocked
    · exact isLocked_false hlocked
  | list =>
    refine ⟨rfl, ?_, .inl rfl⟩
    rintro _ ⟨⟩
    exact Passed.tryNext (fun u hu => (h u hu).trans ht) _
  | attempt hr =>
    refine ⟨rfl, ?_, .inl rfl⟩
    rintro _ ⟨⟩
    have hpast : ∀ u ∈ _, u ≤ env.now := fun u hu => (h u hu).trans ht
    obtain rfl | rfl | rfl := hr
    · exact hpast
    · trivial
    · exact Passed.tryNext hpast _
  | count ho =>
    refine ⟨rfl, ?_, .inl rfl⟩
    obtain rfl | rfl := ho <;> rintro _ ⟨⟩
    trivial
  | won =>
    refine ⟨rfl, ?_, .inl rfl⟩
    rintro _ ⟨⟩
    exact fun u hu => (h u hu).trans ht
  | opened =>
    refine ⟨rfl, ?_, .inr ⟨_, _, _, rfl, rfl⟩⟩
    rintro _ ⟨⟩
    trivial
  | verify =>
    refine ⟨rfl, ?_, .inl rfl⟩
    rintro _ ⟨⟩
    trivial
  | lock | lost | clear | store => exact ⟨rfl, fun _ hr' => (by cases hr'), .inl rfl⟩

theorem informed (p : Platform) : Annotation (auth p) (fun _ _ => True)
    (fun s r env => Timed s r env ∧ Informed s r) (fun _ _ => True) Lockout Passed where
  entry s r _ h _ := by
    cases r with
    | login | enableTotp => trivial
    | verifySecret | findMany | verifyCode | countFailure | lockUntil | updateMany | setSession
    | clearFailures | storeCodes => cases h
  effect s r env s' o h hl hP he := by
    obtain ⟨ht, hseen⟩ := hP
    obtain ⟨hclock, ho, hopen⟩ := logged_passed hl ht (effect_logged he)
    refine ⟨?_, ho, fun _ _ hr' => (by cases hr'), fun r' => Passed.later (hclock ▸ ht)⟩
    obtain hopen | ⟨t, admin, code, rfl, hopen⟩ := hopen
    · rw [Lockout, hopen]
      exact h
    · rw [Lockout, hopen]
      intro opening hm hfive
      obtain rfl | hm := List.mem_cons.mp hm
      · obtain ⟨hsome, hread⟩ := hseen hfive
        obtain ⟨u, hu⟩ := Option.ne_none_iff_exists'.mp hsome
        exact ⟨u, hu, (hl u (hread.trans hu)).trans ht⟩
      · exact h opening hm hfive
  handler _ _ _ _ _ _ h := by cases h
  background _ _ _ _ hl := hl
  event s e h _ := by
    cases e with
    | edit => exact ⟨h, fun r => Passed.later le_rfl⟩

/-- Where a session after five failures is only ever created by a login that had
read their lock, the account opens again only when the lock is over. -/
theorem lockout_of_informed {accounts : Accounts} {now : Instant} {c : Config State AuthCall}
    (h : (auth p).Run (Admits (fun _ _ => True) (fun s r env => Timed s r env ∧ Informed s r)
      (fun _ _ => True)) (.idle (.start accounts now)) c) : Lockout c.shared := by
  refine ((informed p).run ?_ h).1
  intro o ho
  cases ho

end Lockout

section Sample

def drawAt (now : Instant) : Draw := { sampleDraw 0 with now := 60000 + now }

def logsIn (totpCode : String) (password : String) : AuthCall :=
  .login ⟨"owner@example.com", password, some totpCode⟩

def begins (pid : ℕ) (r : AuthCall) (times : List Instant) : List (Action AuthCall Draw Change) :=
  .call pid r :: times.map (fun now => .resolve pid (drawAt now))

def codeAccounts : Accounts :=
  { sampleAccounts with backupCodes := .single ⟨5, 1, "abcdefgh", none⟩ }

/-- Two logins find the same recovery code, one of them uses it up; then the codes
are made anew. -/
def sampleRace : List (Action AuthCall Draw Change) :=
  begins 0 (logsIn "abcd-efgh" "long password") [1, 2, 3, 4] ++
    begins 1 (logsIn "abcd-efgh" "long password") [5, 6, 7, 8] ++
    [.resolve 0 (drawAt 9), .resolve 1 (drawAt 10), .resolve 0 (drawAt 11), .resolve 0 (drawAt 12)] ++
    begins 2 (.enableTotp 1 "000000") [13, 14]

structure Uses where
  wins : List Win
  sessions : List ℕ
  losses : List ℕ
  deriving DecidableEq

def uses (s : State) : Uses := ⟨s.wins, s.openings.map Opening.login, s.losses⟩

theorem codes_single_use_sample : ∃ c, (auth samplePlatform).Reaches
      (.idle (.start codeAccounts 0)) c ∧
    uses c.shared = ⟨[⟨0, 5, 0⟩], [0], [1]⟩ ∧
    (∀ code, (c.shared.openings.filter (fun o => o.code = some code)).length ≤ 1) ∧
    (∀ o ∈ c.shared.openings, ∀ code, o.code = some code → Win.mk o.login code ∈ c.shared.wins) ∧
    (∀ win ∈ c.shared.wins, ∀ win' ∈ c.shared.wins, win.code = win'.code → win = win') ∧
    (∀ o ∈ c.shared.openings, o.login ∈ c.shared.recoveries → o.code ≠ none) ∧
    ∀ t ∈ c.shared.losses, ∀ o ∈ c.shared.openings, o.login ≠ t := by
  have hexec : ((auth samplePlatform).exec (.idle (.start codeAccounts 0)) sampleRace).map
      (fun c => uses c.shared) = some ⟨[⟨0, 5, 0⟩], [0], [1]⟩ := by
    decide +kernel
  obtain ⟨c, hc, hv⟩ := Option.map_eq_some_iff.mp hexec
  have hreach := Machine.exec_reaches hc
  exact ⟨c, hreach, hv, codes_single_use hreach⟩

/-- The conditions of a step, as a test; `strict` says whether the lock has to be
known. -/
def testStep (strict : Bool) (s : State) (r : AuthCall) (env : Draw) : Bool :=
  s.clock ≤ env.now && (!strict || match r with
    | .setSession _ admin _ => s.failures admin.id < 5 ||
        ((s.lock admin.id).isSome && admin.lockedUntil = s.lock admin.id)
    | _ => true)

theorem testStep_timed {s : State} {r : AuthCall} {env : Draw} (h : testStep false s r env = true) :
    Timed s r env := by
  simpa [testStep, Timed] using h

theorem testStep_informed {s : State} {r : AuthCall} {env : Draw}
    (h : testStep true s r env = true) : Timed s r env ∧ Informed s r := by
  cases r with
  | setSession t admin code =>
    simp only [testStep, Bool.not_true, Bool.false_or, Bool.and_eq_true, Bool.or_eq_true,
      decide_eq_true_eq] at h
    obtain ⟨ht, hfew | ⟨hsome, hread⟩⟩ := h
    · exact ⟨ht, fun hfive => absurd hfew (not_lt.mpr hfive)⟩
    · exact ⟨ht, fun _ => ⟨Option.isSome_iff_ne_none.mp hsome, hread⟩⟩
  | login | verifySecret | findMany | verifyCode | countFailure | lockUntil | updateMany
  | clearFailures | enableTotp | storeCodes =>
    exact ⟨by simpa [testStep, Timed] using h, trivial⟩

def sampleAttack (pid : ℕ) : List (Action AuthCall Draw Change) :=
  (List.range 4).flatMap (fun i => begins (pid + i) (logsIn "000000" "guess") [1, 1, 1]) ++
    begins (pid + 4) (logsIn "000000" "guess") [1, 1, 1, 2]

def entries (s : State) : List (ℕ × Option Instant × Instant) :=
  s.openings.map (fun o => (o.failures, o.lock, o.now))

theorem lockout_of_informed_sample : ∃ c, (auth samplePlatform).Run
      (Admits (fun _ _ => True) (fun s r env => Timed s r env ∧ Informed s r) (fun _ _ => True))
      (.idle (.start sampleAccounts 0)) c ∧
    entries c.shared = [(5, some 960001, 960010)] ∧ Lockout c.shared := by
  have hexec : ((auth samplePlatform).execChecked (testing (testStep true))
      (.idle (.start sampleAccounts 0)) (sampleAttack 0 ++
        begins 9 (logsIn "000000" "long password") [900007, 900008, 900010, 900011])).map
      (fun c => entries c.shared) = some [(5, some 960001, 960010)] := by
    decide +kernel
  obtain ⟨c, hc, hv⟩ := Option.map_eq_some_iff.mp hexec
  have hrun := Machine.execChecked_run (testing_admits (fun _ _ _ => testStep_informed)) hc
  exact ⟨c, hrun, hv, lockout_of_informed hrun⟩

/-- A login that has read the account before the attempts gets a session right after
the lock. -/
theorem early_read_evades_lockout : ¬ ∀ (p : Platform) (accounts : Accounts) (now : Instant)
    (c : Config State AuthCall), (auth p).Run
      (Admits (fun _ _ => True) Timed (fun _ _ => True)) (.idle (.start accounts now)) c →
    Lockout c.shared := by
  intro h
  have hexec : ((auth samplePlatform).execChecked (testing (testStep false))
      (.idle (.start sampleAccounts 0)) (begins 9 (logsIn "000000" "long password") [0] ++
        sampleAttack 0 ++ [.resolve 9 (drawAt 8), .resolve 9 (drawAt 9)])).map
      (fun c => entries c.shared) = some [(5, some 960001, 60009)] := by
    decide +kernel
  obtain ⟨c, hc, hv⟩ := Option.map_eq_some_iff.mp hexec
  have hall := h _ _ _ c (Machine.execChecked_run (testing_admits (fun _ _ _ => testStep_timed)) hc)
  have hmem : (5, some 960001, 60009) ∈ c.shared.openings.map (fun o => (o.failures, o.lock, o.now)) := by
    rw [show c.shared.openings.map _ = _ from hv]
    exact List.mem_singleton_self _
  obtain ⟨o, ho, he⟩ := List.mem_map.mp hmem
  obtain ⟨hfive, hrest⟩ := Prod.mk.inj he
  obtain ⟨hlock, hnow⟩ := Prod.mk.inj hrest
  obtain ⟨u, hu, hle⟩ := hall o ho hfive.ge
  rw [hlock] at hu
  cases hu
  rw [hnow] at hle
  exact absurd hle (by decide)

end Sample

end Bitmine.ConcurrentLogins
