import Bitmine.Lib.Await
import Bitmine.Security

namespace Bitmine.ProxyDecision

open Bitmine.Lib.Await Bitmine.Lib.Throwing
open Bitmine.Schema Bitmine.Security

inductive ProxyMode where
  | alwaysOn | failover
  deriving DecidableEq

inductive ProxyProtocol where
  | socks5 | http
  deriving DecidableEq

inductive VpnConfigType where
  | none | openvpn | wireguard
  deriving DecidableEq

structure ProxySetting where
  enabled : Bool
  mode : ProxyMode
  applyToGateway : Bool
  applyToSystem : Bool
  protocol : ProxyProtocol
  host : String
  port : ℕ
  username : Option String
  passwordCiphertext : Option String
  healthCheckHost : String
  healthCheckPort : ℕ
  healthCheckIntervalSeconds : ℕ
  healthCheckFailureThreshold : ℕ
  vpnConfigType : VpnConfigType
  vpnConfigCiphertext : Option String
  deriving DecidableEq

structure ResolvedGatewayProxy where
  protocol : ProxyProtocol
  host : String
  port : ℕ
  username : Option String
  password : Option String

def defaultSetting : ProxySetting where
  enabled := false
  mode := .failover
  applyToGateway := true
  applyToSystem := false
  protocol := .socks5
  host := ""
  port := 1080
  username := none
  passwordCiphertext := none
  healthCheckHost := "1.1.1.1"
  healthCheckPort := 443
  healthCheckIntervalSeconds := 30
  healthCheckFailureThreshold := 3
  vpnConfigType := .none
  vpnConfigCiphertext := none

structure UpdateProxySettingsDto where
  enabled : Bool
  mode : ProxyMode
  applyToGateway : Bool
  applyToSystem : Bool
  protocol : ProxyProtocol
  host : String
  port : ℕ
  username : Option String
  password : Option String
  healthCheckHost : String
  healthCheckPort : ℕ
  healthCheckIntervalSeconds : ℕ
  healthCheckFailureThreshold : ℕ
  vpnConfigType : VpnConfigType
  vpnConfig : Option String

inductive ActiveMode where
  | direct | proxy
  deriving DecidableEq

/-- `state.json`, which the privileged helper reads. -/
structure StateFile where
  applyToSystem : Bool
  active : Bool
  vpnConfigType : VpnConfigType
  updatedAt : Instant

structure Network where
  setting : Option ProxySetting
  directUp : Bool
  consecutiveFailures : ℕ
  lastCheckedAt : Option Instant
  stateFile : Option StateFile
  vpnConfigFile : Option String

structure Outcome where
  now : Instant
  reachable : Bool
  passwordIv : String
  vpnConfigIv : String

def passwordContext : String := "network-proxy:password"

def vpnConfigContext : String := "network-proxy:vpn-config"

variable (prim : Primitives)

namespace Network

variable (s : Network)

def get : ProxySetting := s.setting.getD defaultSetting

def decryptPassword (setting : ProxySetting) : Except String (Option String) :=
  match truthy setting.passwordCiphertext with
  | some ciphertext => (decrypt prim ciphertext passwordContext).map some
  | none => .ok none

def resolveGatewayProxy : Except String (Option ResolvedGatewayProxy) :=
  let setting := s.get
  if !setting.enabled || !setting.applyToGateway || setting.host = "" then .ok none
  else if setting.mode = .failover ∧ s.directUp then .ok none
  else (decryptPassword prim setting).map (fun password =>
    some ⟨setting.protocol, setting.host, setting.port, setting.username, password⟩)

/-- The decision goes to the state file first; the configuration of the tunnel
follows unless it cannot be decrypted. -/
def writeState (setting : ProxySetting) (activeMode : Option ActiveMode) (now : Instant) : Network :=
  let useProxy := activeMode = some .proxy ∨ (activeMode = none ∧ setting.mode = .alwaysOn)
  let state : StateFile := ⟨setting.applyToSystem && setting.enabled,
    setting.applyToSystem && setting.enabled && useProxy, setting.vpnConfigType, now⟩
  let config := match truthy setting.vpnConfigCiphertext with
    | some ciphertext =>
      if setting.vpnConfigType ≠ VpnConfigType.none then (decrypt prim ciphertext vpnConfigContext).toOption
      else none
    | none => none
  { s with stateFile := some state, vpnConfigFile := config.or s.vpnConfigFile }

def probed (threshold : ℕ) (reachable : Bool) : Network :=
  if reachable then { s with directUp := true, consecutiveFailures := 0 }
  else
    let failures := s.consecutiveFailures + 1
    { s with
      consecutiveFailures := failures
      directUp := s.directUp && failures < threshold }

end Network

def newSetting (dto : UpdateProxySettingsDto) (before : ProxySetting) (a : Outcome) :
    Except String ProxySetting :=
  if dto.applyToGateway && trim dto.host = "" then
    .error "A proxy host is required when applying to the gateway"
  else if dto.applyToSystem && dto.vpnConfigType = VpnConfigType.none then
    .error "System-wide proxying requires an OpenVPN or WireGuard configuration"
  else if dto.applyToSystem && dto.vpnConfigType ≠ VpnConfigType.none &&
      (truthy (dto.vpnConfig.map trim)).isNone && (before.vpnConfigType ≠ dto.vpnConfigType ||
        (truthy before.vpnConfigCiphertext).isNone) then
    .error "Upload a VPN configuration before enabling this mode"
  else .ok {
    enabled := dto.enabled
    mode := dto.mode
    applyToGateway := dto.applyToGateway
    applyToSystem := dto.applyToSystem
    protocol := dto.protocol
    host := trim dto.host
    port := dto.port
    username := truthy (dto.username.map trim)
    passwordCiphertext := match dto.password with
      | none => before.passwordCiphertext
      | some password => (truthy (some password)).map
          (fun password => encrypt prim a.passwordIv password passwordContext)
    healthCheckHost := trim dto.healthCheckHost
    healthCheckPort := dto.healthCheckPort
    healthCheckIntervalSeconds := dto.healthCheckIntervalSeconds
    healthCheckFailureThreshold := dto.healthCheckFailureThreshold
    vpnConfigType := dto.vpnConfigType
    vpnConfigCiphertext := match dto.vpnConfig with
      | none => if before.vpnConfigType = dto.vpnConfigType then before.vpnConfigCiphertext else none
      | some config => some (encrypt prim a.vpnConfigIv config vpnConfigContext) }

/-- The awaited effects of `update` and of `tick`. -/
inductive ProxyCall where
  | update (dto : UpdateProxySettingsDto)
  | upsert (value : ProxySetting)
  | record (value : ProxySetting)
  | tick
  | probe (setting : ProxySetting)

def ProxyCall.entry : ProxyCall → Bool
  | .update _ => true
  | .tick => true
  | _ => false

def effect (s : Network) (r : ProxyCall) (a : Outcome) :
    Except String (Network × Option ProxyCall) :=
  match r with
  | .update dto => do
    let value ← newSetting prim dto s.get a
    pure (s, some (.upsert value))
  | .upsert value => .ok ({ s with setting := some value }, some (.record value))
  | .record value => .ok (s.writeState prim value none a.now, none)
  | .tick =>
    let setting := s.get
    if !setting.enabled then .ok ({ s with directUp := true, consecutiveFailures := 0 }, none)
    else if setting.mode = .alwaysOn then .ok (s.writeState prim setting (some .proxy) a.now, none)
    else if s.lastCheckedAt.any
        (fun t => a.now - t < setting.healthCheckIntervalSeconds * 1000) then .ok (s, none)
    else .ok ({ s with lastCheckedAt := some a.now }, some (.probe setting))
  | .probe setting =>
    let s' := s.probed setting.healthCheckFailureThreshold a.reachable
    .ok (s'.writeState prim setting (some (if s'.directUp then .direct else .proxy)) a.now, none)

def proxy : Machine Network ProxyCall Outcome Empty :=
  ⟨ProxyCall.entry, effect prim, fun _ _ => none, fun _ r _ => r, fun s _ => s⟩

/-- The direct path is given up, under the stored setting and what the probes have
shown. -/
def Network.viaProxy (s : Network) : Bool :=
  s.get.enabled && (s.get.mode = .alwaysOn || !s.directUp)

/-- The flag last written agrees with the decision. -/
def Follows (s : Network) : Prop :=
  ∀ file ∈ s.stateFile, file.active = (s.get.applyToSystem && s.viaProxy)

/-- The gateway takes the proxy exactly when the decision says so. -/
def Agrees (s : Network) : Prop :=
  s.get.applyToGateway = true → s.get.host ≠ "" →
    (s.resolveGatewayProxy prim = .ok none ↔ s.viaProxy = false)

def TurnsOff (s : Network) (value : ProxySetting) : Prop :=
  value.applyToSystem = true ∧ value.enabled = true ∧ value.mode = .failover ∧ s.directUp = false

/-- A call writes the file for the setting that is stored, and an update does not
turn the tunnel off while the direct path is down. -/
def Prompt (s : Network) : ProxyCall → Prop
  | .record value => s.setting = some value ∧ ¬ TurnsOff s value
  | .probe setting => s.get = setting
  | _ => True

/-- The effects are prompt, and an update that has stored its setting goes on. -/
def Orderly (c : Config Network ProxyCall) : Action ProxyCall Outcome Empty → Prop
  | .resolve pid _ => ∀ r, c.calls pid = some r → Prompt c.shared r
  | .rejectAfter _ _ _ => False
  | .reject pid _ => ∀ value, c.calls pid ≠ some (.record value)
  | .stop pid => ∀ value, c.calls pid ≠ some (.record value)
  | _ => True

section Steps

variable {prim} {s s' : Network} {a : Outcome}

theorem agrees (s : Network) : Agrees prim s := by
  intro hgateway hhost
  simp only [Network.resolveGatewayProxy, Network.viaProxy, hgateway, hhost, Bool.not_true,
    Bool.or_false, decide_false]
  cases henabled : s.get.enabled with
  | false => simp
  | true =>
    cases hmode : s.get.mode with
    | alwaysOn =>
      cases Network.decryptPassword prim s.get <;> simp [Except.map]
    | failover =>
      cases hup : s.directUp with
      | true => simp
      | false => cases Network.decryptPassword prim s.get <;> simp [Except.map]

/-- An update leaves the flag right exactly where it does not turn the tunnel off
while the direct path is down. -/
theorem record_follows {value : ProxySetting} (hs : s.setting = some value) :
    Follows (s.writeState prim value none a.now) ↔ ¬ TurnsOff s value := by
  simp only [Follows, Network.writeState, Network.viaProxy, Network.get, hs, Option.mem_def,
    Option.some.injEq, forall_eq', Option.getD_some, TurnsOff]
  cases value.applyToSystem <;> cases value.enabled <;> cases value.mode <;> cases s.directUp <;>
    simp

theorem writes_follows {mode : ActiveMode}
    (h : mode = .proxy ↔ s.get.mode = .alwaysOn ∨ s.directUp = false) :
    Follows (s.writeState prim s.get (some mode) a.now) := by
  have hget : (s.writeState prim s.get (some mode) a.now).get = s.get := rfl
  intro file hfile
  cases hfile
  rw [Network.viaProxy, hget]
  simp only [Network.writeState, Option.some.injEq, reduceCtorEq, false_and, or_false]
  cases s.get.applyToSystem <;> cases s.get.enabled <;> simp [h]

def Probes (r : ProxyCall) : Prop := ∀ setting, r = .probe setting → setting.mode = .failover

theorem effect_probes {r : ProxyCall} {o : Option ProxyCall} (h : effect prim s r a = .ok (s', o)) :
    ∀ r' ∈ o, Probes r' := by
  rintro _ ho setting rfl
  cases Option.mem_def.mp ho
  cases r with
  | update dto =>
    simp only [effect, bind_eq_ok, pure_eq_ok] at h
    obtain ⟨_, _, h⟩ := h
    cases h
  | upsert | record | probe => cases h
  | tick =>
    simp only [effect] at h
    split at h
    · cases h
    · split at h
      · cases h
      · rename_i hmode
        split at h <;> cases h
        cases hfail : s.get.mode with
        | alwaysOn => exact absurd hfail hmode
        | failover => rfl

theorem effect_follows {r : ProxyCall} {o : Option ProxyCall} (hP : Prompt s r)
    (h : effect prim s r a = .ok (s', o)) (hr : Probes r)
    (hf : (∀ value, r ≠ .record value) → Follows s) :
    Follows s' ∨ ∃ value, o = some (.record value) := by
  cases r with
  | update dto =>
    simp only [effect, bind_eq_ok, pure_eq_ok] at h
    obtain ⟨_, _, h⟩ := h
    cases h
    exact .inl (hf (fun _ hr => by cases hr))
  | upsert value =>
    cases h
    exact .inr ⟨value, rfl⟩
  | record value =>
    cases h
    exact .inl ((record_follows hP.1).mpr hP.2)
  | tick =>
    have hs : Follows s := hf (fun _ hr => by cases hr)
    simp only [effect] at h
    split at h
    · rename_i henabled
      cases h
      -- what is disabled has no active tunnel, whatever the probes have shown
      refine .inl (fun file hfile => (hs file hfile).trans ?_)
      simp only [Network.viaProxy, Network.get, Bool.not_eq_true'] at henabled ⊢
      simp only [henabled, Bool.false_and]
    · split at h
      · rename_i hmode
        cases h
        exact .inl (writes_follows (iff_of_true rfl (.inl hmode)))
      · split at h <;> cases h
        · exact .inl hs
        · exact .inl hs
  | probe setting =>
    cases h
    obtain rfl : s.get = setting := hP
    have hget : (s.probed s.get.healthCheckFailureThreshold a.reachable).get = s.get := by
      simp only [Network.probed]
      split <;> rfl
    have hfollows := @writes_follows prim
      (s.probed s.get.healthCheckFailureThreshold a.reachable) a
      (if (s.probed s.get.healthCheckFailureThreshold a.reachable).directUp then .direct else .proxy)
    rw [hget, hr s.get rfl] at hfollows
    refine .inl (hfollows ?_)
    split <;> simp_all

end Steps

variable {prim}

/-- Unless an update is half done, the flag is right. -/
structure Sound (c : Config Network ProxyCall) : Prop where
  follows : Follows c.shared ∨ ∃ pid value, c.calls pid = some (.record value)
  probes : ∀ pid r, c.calls pid = some r → Probes r

theorem Sound.put {c : Config Network ProxyCall} {s : Network} {pid : ℕ} {o : Option ProxyCall}
    (hc : Sound c) (ho : ∀ r ∈ o, Probes r)
    (hf : (∀ q value, q ≠ pid → c.calls q ≠ some (.record value)) →
      Follows s ∨ ∃ value, o = some (.record value)) : Sound (c.put s pid o) := by
  refine ⟨?_, fun q r hq => ?_⟩
  · by_cases hother : ∃ q value, q ≠ pid ∧ c.calls q = some (.record value)
    · obtain ⟨q, value, hne, hq⟩ := hother
      exact .inr ⟨q, value, by simpa [Config.put, Function.update_of_ne hne] using hq⟩
    · simp only [not_exists, not_and] at hother
      obtain hfollows | ⟨value, ho⟩ := hf hother
      · exact .inl hfollows
      · exact .inr ⟨pid, value, by simp [Config.put, ho]⟩
  · by_cases hp : q = pid
    · subst q
      simp only [Config.put, Function.update_self] at hq
      exact ho r hq
    · simp only [Config.put, Function.update_of_ne hp] at hq
      exact hc.probes q r hq

theorem Sound.quiet {c : Config Network ProxyCall} {pid : ℕ} {r : ProxyCall} {o : Option ProxyCall}
    (hc : Sound c) (hr : c.calls pid = some r) (ho : o = some r ∨ (o = none ∧ ∀ value, r ≠ .record value)) :
    Sound (c.put c.shared pid o) := by
  refine hc.put (fun r' hr' => ?_) (fun hother => ?_)
  · obtain rfl | ⟨rfl, _⟩ := ho
    · cases Option.mem_def.mp hr'
      exact hc.probes pid r hr
    · cases hr'
  · obtain hf | ⟨q, value, hq⟩ := hc.follows
    · exact .inl hf
    · by_cases hp : q = pid
      · subst q
        obtain rfl : r = .record value := Option.some.inj (hr.symm.trans hq)
        obtain rfl | ⟨_, hne⟩ := ho
        · exact .inr ⟨value, rfl⟩
        · exact absurd rfl (hne value)
      · exact absurd hq (hother q value hp)

theorem next_sound {c d : Config Network ProxyCall} {act : Action ProxyCall Outcome Empty}
    (hc : Sound c) (ha : Orderly c act) (h : (proxy prim).next c act = some d) : Sound d := by
  obtain ⟨e, _⟩ | ⟨pid, r, rfl, he, hnone, rfl⟩ | ⟨pid, r, a, s, o, rfl, hr, he, rfl⟩ |
    ⟨pid, r, a, e, s, o, rfl, _⟩ | ⟨pid, r, e, hact, hr, rfl⟩ | ⟨pid, r, b, rfl, hr, rfl⟩ |
    ⟨pid, r, rfl, hr, rfl⟩ := Machine.next_inversion h
  · exact e.elim
  · refine hc.put ?_ (fun hother => .inl ?_)
    · rintro _ ⟨⟩ setting rfl
      cases he
    · refine hc.follows.resolve_right (fun ⟨q, value, hq⟩ => hother q value ?_ hq)
      rintro rfl
      rw [hnone] at hq
      cases hq
  · refine hc.put (effect_probes he) (fun hother => ?_)
    refine effect_follows (ha r hr) he (hc.probes pid r hr) (fun hself => ?_)
    refine hc.follows.resolve_right (fun ⟨q, value, hq⟩ => ?_)
    by_cases hp : q = pid
    · subst q
      exact hself value (Option.some.inj (hr.symm.trans hq))
    · exact hother q value hp hq
  · exact ha.elim
  · refine hc.quiet hr (.inr ⟨rfl, fun value hrec => ?_⟩)
    obtain rfl | ⟨a, he⟩ := hact
    · exact ha value (hrec ▸ hr)
    · subst hrec
      cases he
  · exact hc.quiet hr (.inl rfl)
  · exact hc.quiet hr (.inr ⟨rfl, fun value hrec => ha value (hrec ▸ hr)⟩)

/-- In every run in which the file is written for the setting that is stored and no
update turns the tunnel off while the direct path is down: whenever no update is half
done, the flag last written says whether the system goes through the proxy, and the
gateway takes the proxy by the same decision. -/
theorem flag_follows_decision {s : Network} (hs : Follows s) {c : Config Network ProxyCall}
    (h : (proxy prim).Run Orderly (.idle s) c)
    (hdone : ∀ pid value, c.calls pid ≠ some (.record value)) :
    Follows c.shared ∧ Agrees prim c.shared := by
  have hidle : Sound (.idle s) := ⟨.inl hs, fun _ _ hr => (by cases hr)⟩
  have hsound : Sound c := h.invariant (I := Sound) (fun _ _ _ hc ha hn => next_sound hc ha hn) hidle
  refine ⟨hsound.follows.resolve_right ?_, agrees c.shared⟩
  rintro ⟨pid, value, hcall⟩
  exact hdone pid value hcall

section Sample

def sampleDto (port : ℕ) : UpdateProxySettingsDto where
  enabled := true
  mode := .failover
  applyToGateway := true
  applyToSystem := true
  protocol := .socks5
  host := "proxy.example.com"
  port := port
  username := none
  password := none
  healthCheckHost := "1.1.1.1"
  healthCheckPort := 443
  healthCheckIntervalSeconds := 5
  healthCheckFailureThreshold := 1
  vpnConfigType := .wireguard
  vpnConfig := some "[Interface]"

def samplePrimitives : Primitives :=
  ⟨fun _ _ plaintext => ("tag", plaintext), fun _ _ ciphertext _ => some ciphertext, fun _ _ => []⟩

def sampleNetwork : Network := ⟨none, true, 0, none, none, none⟩

def answers (times : List Instant) : List (Action ProxyCall Outcome Empty) :=
  times.map (fun t => .resolve 0 ⟨t, false, "iv", "iv"⟩)

def sampleFailure : List (Action ProxyCall Outcome Empty) :=
  .call 0 (.update (sampleDto 1080)) :: answers [0, 0, 0] ++ .call 0 .tick :: answers [10000, 10001]

instance (s : Network) (value : ProxySetting) : Decidable (TurnsOff s value) :=
  inferInstanceAs (Decidable (_ ∧ _ ∧ _ ∧ _))

def testStep (s : Network) (r : ProxyCall) (_ : Outcome) : Bool :=
  match r with
  | .record value => s.setting = some value ∧ ¬ TurnsOff s value
  | .probe setting => s.get = setting
  | _ => true

theorem testStep_prompt {s : Network} {r : ProxyCall} {a : Outcome} (h : testStep s r a = true) :
    Prompt s r := by
  cases r with
  | record value => exact show s.setting = some value ∧ ¬ TurnsOff s value from of_decide_eq_true h
  | probe setting => exact show s.get = setting from of_decide_eq_true h
  | update | upsert | tick => trivial

/-- One process starts one call after the other, and nothing is rejected; `strict`
says whether the effects are tested. -/
def testAction (strict : Bool) (c : Config Network ProxyCall) :
    Action ProxyCall Outcome Empty → Bool
  | .resolve 0 a => !strict || (c.calls 0).all (fun r => testStep c.shared r a)
  | .call 0 _ => true
  | _ => false

theorem testAction_orderly (c : Config Network ProxyCall) (act : Action ProxyCall Outcome Empty)
    (h : testAction true c act = true) : Orderly c act ∧ act.pid = some 0 := by
  unfold testAction at h
  split at h
  · refine ⟨fun r hr => ?_, rfl⟩
    rename_i a
    exact @testStep_prompt c.shared r a (by simpa [hr] using h)
  · exact ⟨trivial, rfl⟩
  · cases h

theorem testAction_alone (c : Config Network ProxyCall) (act : Action ProxyCall Outcome Empty)
    (h : testAction false c act = true) : act.pid = some 0 := by
  unfold testAction at h
  split at h
  · rfl
  · rfl
  · cases h

theorem run_alone {m : Machine Network ProxyCall Outcome Empty}
    {ok : Config Network ProxyCall → Action ProxyCall Outcome Empty → Prop}
    (hok : ∀ c act, ok c act → act.pid = some 0) {s : Network} {d : Config Network ProxyCall}
    (h : m.Run ok (.idle s) d) (hd : d.calls 0 = none) : ∀ pid, d.calls pid = none := by
  have hothers : ∀ pid, pid ≠ 0 → d.calls pid = none := by
    refine h.invariant (I := fun d => ∀ pid, pid ≠ 0 → d.calls pid = none)
      (fun c act e hc ha hn pid hp => ?_) (fun _ _ => rfl)
    rw [Machine.next_calls_ne hn (by simpa [hok c act ha] using Ne.symm hp)]
    exact hc pid hp
  intro pid
  by_cases hp : pid = 0
  · exact hp ▸ hd
  · exact hothers pid hp

structure View where
  active : Option Bool
  directUp : Bool
  running : Bool
  deriving DecidableEq

def view (c : Config Network ProxyCall) : View :=
  ⟨c.shared.stateFile.map StateFile.active, c.shared.directUp, (c.calls 0).isSome⟩

theorem flag_follows_decision_sample : ∃ c, (proxy samplePrimitives).Run Orderly
      (.idle sampleNetwork) c ∧ view c = ⟨some true, false, false⟩ ∧
    Follows c.shared ∧ Agrees samplePrimitives c.shared := by
  have hexec : ((proxy samplePrimitives).execChecked (testAction true) (.idle sampleNetwork)
      sampleFailure).map view = some ⟨some true, false, false⟩ := by
    decide +kernel
  obtain ⟨c, hc, hv⟩ := Option.map_eq_some_iff.mp hexec
  have hrun := Machine.execChecked_run testAction_orderly hc
  have hnone : c.calls 0 = none := Option.isSome_eq_false_iff.mp (congrArg View.running hv) |>
    Option.isNone_iff_eq_none.mp
  have horderly := hrun.mono (fun _ _ ha => ha.1)
  refine ⟨c, horderly, hv, flag_follows_decision (fun _ hf => by cases hf) horderly
    (fun pid value hcall => ?_)⟩
  rw [run_alone (fun _ _ ha => ha.2) hrun hnone pid] at hcall
  cases hcall

/-- The port of the proxy is changed while the direct path is down: the tunnel goes
off, and the gateway stays on the proxy. -/
theorem update_turns_tunnel_off : ¬ ∀ (prim : Primitives) (s : Network)
    (c : Config Network ProxyCall), Follows s → (proxy prim).Reaches (.idle s) c →
    (∀ pid, c.calls pid = none) → Follows c.shared ∧ Agrees prim c.shared := by
  intro h
  have hexec : ((proxy samplePrimitives).execChecked (testAction false) (.idle sampleNetwork)
      (sampleFailure ++ .call 0 (.update (sampleDto 1081)) :: answers [10002, 10003, 10004])).map
      (fun c => (view c, c.shared.get.applyToSystem && c.shared.viaProxy)) =
        some (⟨some false, false, false⟩, true) := by
    decide +kernel
  obtain ⟨c, hc, hv⟩ := Option.map_eq_some_iff.mp hexec
  obtain ⟨hv, hdecision⟩ := Prod.mk.inj hv
  have hrun := Machine.execChecked_run testAction_alone hc
  have hnone : c.calls 0 = none := Option.isSome_eq_false_iff.mp (congrArg View.running hv) |>
    Option.isNone_iff_eq_none.mp
  have hfollows := (h samplePrimitives sampleNetwork c (fun _ hf => by cases hf) hrun.reaches
    (run_alone (fun _ _ ha => ha) hrun hnone)).1
  obtain ⟨file, hfile, hactive⟩ := Option.map_eq_some_iff.mp
    (show c.shared.stateFile.map StateFile.active = some false from congrArg View.active hv)
  have hwrong := hfollows file hfile
  rw [hactive, hdecision] at hwrong
  cases hwrong

end Sample

end Bitmine.ProxyDecision
