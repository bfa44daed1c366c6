import Bitmine.IpRules
import Bitmine.Slugs
import Bitmine.Lib.Throwing

namespace Bitmine.CredentialRotation

open Bitmine.Lib.UniqueTable Bitmine.Lib.Throwing Bitmine.Schema
open Bitmine.Security Bitmine.Provisioning Bitmine.IpRules
open Bitmine.Slugs (samplePlatform)

structure CreateWorkerDto where
  slug : String
  asset : AssetCode
  maxConnections : Option ℕ
  allowedIps : Option (List String)

structure RotateCredentialDto where
  graceMinutes : Option ℕ

structure Issue where
  now : Instant
  token : String
  salt : String
  workerId : Id

variable (p : Platform) (net : Network)

def issued (env : Issue) : Credential :=
  ⟨p.hashSecret env.salt env.token, String.ofList (env.token.toList.take 10), env.now, none, none⟩

def createWorker (s : Gateway) (customerId : Id) (dto : CreateWorkerDto) (env : Issue) :
    Except String (Gateway × WorkerRow) := do
  let _ ← orThrow recordNotFound (s.customers.find? (fun c => c.id = customerId))
  match (dto.allowedIps.getD []).find? (fun rule => !isValidIpRule net rule) with
  | some rule => .error ("Invalid worker IP rule: " ++ rule)
  | none =>
    let worker : WorkerRow := ⟨env.workerId, customerId, dto.asset, dto.slug, .active,
      dto.maxConnections.getD 1, dto.allowedIps.getD [], [issued p env]⟩
    let workers ← orThrow "Unique constraint failed" (s.workers.insert worker)
    pure ({ s with workers := workers }, worker)

def graceEnd (dto : RotateCredentialDto) (env : Issue) : Instant :=
  env.now + (dto.graceMinutes.getD 10 : ℕ) * 60000

def expire (expiresAt : Instant) (c : Credential) : Credential :=
  if c.revokedAt = none ∧ c.expiresAt = none then { c with expiresAt := some expiresAt } else c

def rotated (credentials : List Credential) (dto : RotateCredentialDto) (env : Issue) : List Credential :=
  credentials.map (expire (graceEnd dto env)) ++ [issued p env]

def rotateCredential (s : Gateway) (workerId : Id) (dto : RotateCredentialDto) (env : Issue) :
    Except String (Gateway × Instant) := do
  let _ ← orThrow "Worker not found" (s.workers.find? (fun w => w.id = workerId))
  pure ({ s with
    workers := s.workers.update (fun w => w.id = workerId)
      (fun w => { w with credentials := rotated p w.credentials dto env }) (fun _ => ⟨rfl, rfl⟩) },
    graceEnd dto env)

inductive Call where
  | createWorker (customerId : Id) (dto : CreateWorkerDto) (env : Issue)
  | rotateCredential (workerId : Id) (dto : RotateCredentialDto) (env : Issue)

def Call.now : Call → Instant
  | .createWorker _ _ env => env.now
  | .rotateCredential _ _ env => env.now

def perform (s : Gateway) : Call → Gateway
  | .createWorker customerId dto env =>
    match createWorker p net s customerId dto env with
    | .ok (s', _) => s'
    | .error _ => s
  | .rotateCredential workerId dto env =>
    match rotateCredential p s workerId dto env with
    | .ok (s', _) => s'
    | .error _ => s

def rotationsOf (id : Id) (calls : List Call) : List (RotateCredentialDto × Issue) :=
  calls.filterMap (fun
    | .rotateCredential workerId dto env => if workerId = id then some (dto, env) else none
    | .createWorker _ _ _ => none)

/-- From the end of a rotation's grace on, whatever is accepted at a login was created by
it or later: the first credential is the worker's own, the others are the rotations'. -/
def Bounded (credentials : List Credential) (rotations : List (RotateCredentialDto × Issue)) : Prop :=
  ∀ (i : ℕ) (r : RotateCredentialDto × Issue), rotations[i]? = some r →
    ∀ now, graceEnd r.1 r.2 ≤ now →
      ∀ (k : ℕ) (c : Credential), credentials[k]? = some c → c.live now = true → i < k

theorem authenticate_live {cfg : Config} {env : Draw} {s : Gateway} {asset : AssetCode}
    {username password remoteIp customerSlug workerSlug : String} {w : WorkerRow} {c : CustomerRow}
    {r : AuthorizedWorker} (hparse : parseUsername p cfg username = some (customerSlug, workerSlug))
    (hfind : findActiveWorker s asset customerSlug workerSlug = some (w, c))
    (h : (authenticate p net cfg env s asset username password remoteIp).2 = some r) :
    ∃ credential ∈ w.credentials, credential.live env.now = true ∧
      p.verifySecret credential.tokenHash password = true := by
  simp only [authenticate, hparse, hfind] at h
  split at h
  · cases h
  · split at h
    · rename_i hverified
      obtain ⟨credential, hmem, hverify⟩ := List.any_eq_true.mp hverified
      obtain ⟨hmem, hlive⟩ := List.mem_filter.mp hmem
      exact ⟨credential, hmem, hlive, hverify⟩
    · cases h

section Rows

variable {p net} {s : Gateway} {w : WorkerRow}

theorem createWorker_spec {s' : Gateway} {customerId : Id} {dto : CreateWorkerDto} {env : Issue}
    (h : createWorker p net s customerId dto env = .ok (s', w)) :
    w ∈ s'.workers.rows ∧ w.id = env.workerId ∧ w.credentials = [issued p env] ∧
      ∀ x ∈ s.workers.rows, x ∈ s'.workers.rows := by
  simp only [createWorker, bind_eq_ok] at h
  obtain ⟨_, _, h⟩ := h
  split at h
  · cases h
  · simp only [bind_eq_ok, orThrow_eq_ok, pure_eq_ok, Prod.mk.injEq] at h
    obtain ⟨workers, hinsert, rfl, rfl⟩ := h
    have hrows := (Table.insert_eq_some hinsert).1
    refine ⟨?_, rfl, rfl, fun x hx => ?_⟩
    · rw [hrows]
      simp
    · rw [hrows]
      exact List.mem_append_left _ hx

variable (p net) in
/-- A call leaves a worker alone, unless it rotates the worker's credential. -/
theorem perform_credentials (hw : w ∈ s.workers.rows) (call : Call) :
    ∃ w' ∈ (perform p net s call).workers.rows, w'.id = w.id ∧ w'.credentials =
      (rotationsOf w.id [call]).foldl (fun cs r => rotated p cs r.1 r.2) w.credentials := by
  cases call with
  | createWorker customerId dto env =>
    refine ⟨w, ?_, rfl, rfl⟩
    simp only [perform]
    split
    · rename_i s' created h
      exact (createWorker_spec h).2.2.2 w hw
    · exact hw
  | rotateCredential workerId dto env =>
    have hfound : workerId = w.id → (s.workers.find? (fun w => w.id = workerId)).isSome = true := by
      rintro rfl
      rw [Table.find?, List.find?_isSome]
      exact ⟨w, hw, by simp⟩
    by_cases hid : workerId = w.id
    · obtain ⟨x, hx⟩ := Option.isSome_iff_exists.mp (hfound hid)
      have hrotations : rotationsOf w.id [.rotateCredential workerId dto env] = [(dto, env)] := by
        simp [rotationsOf, hid]
      refine ⟨{ w with credentials := rotated p w.credentials dto env }, ?_, rfl, by rw [hrotations]; rfl⟩
      simp only [perform, rotateCredential, hx, orThrow]
      refine List.mem_map.mpr ⟨w, hw, ?_⟩
      rw [if_pos (by simp [hid])]
    · have hrotations : rotationsOf w.id [.rotateCredential workerId dto env] = [] := by
        simp [rotationsOf, hid]
      refine ⟨w, ?_, rfl, by rw [hrotations]; rfl⟩
      simp only [perform]
      split
      · rename_i s' expiresAt h
        simp only [rotateCredential, bind_eq_ok, pure_eq_ok, Prod.mk.injEq] at h
        obtain ⟨_, _, rfl, _⟩ := h
        refine List.mem_map.mpr ⟨w, hw, ?_⟩
        rw [if_neg (by simpa using Ne.symm hid)]
      · exact hw

variable (p net) in
theorem run_credentials (hw : w ∈ s.workers.rows) (calls : List Call) :
    ∃ w' ∈ (calls.foldl (perform p net) s).workers.rows, w'.id = w.id ∧ w'.credentials =
      (rotationsOf w.id calls).foldl (fun cs r => rotated p cs r.1 r.2) w.credentials := by
  induction calls generalizing s w with
  | nil => exact ⟨w, hw, rfl, rfl⟩
  | cons call calls ih =>
    obtain ⟨x, hx, hxid, hxcreds⟩ := perform_credentials p net hw call
    obtain ⟨w', hw', hid, hcreds⟩ := ih hx
    have hsplit : rotationsOf w.id (call :: calls) = rotationsOf w.id [call] ++ rotationsOf w.id calls :=
      List.filterMap_append (l := [call])
    refine ⟨w', hw', hid.trans hxid, ?_⟩
    rw [hcreds, hxcreds, hxid, hsplit, List.foldl_append]

theorem rotationsOf_times (id : Id) (calls : List Call) :
    ((rotationsOf id calls).map (fun r => r.2.now)).Sublist (calls.map Call.now) := by
  induction calls with
  | nil => exact List.nil_sublist _
  | cons call calls ih =>
    cases call with
    | createWorker customerId dto env => exact ih.cons _
    | rotateCredential workerId dto env =>
      by_cases hid : workerId = id
      · simp only [rotationsOf, List.filterMap_cons, if_pos hid, List.map_cons]
        exact ih.cons_cons _
      · simp only [rotationsOf, List.filterMap_cons, if_neg hid, List.map_cons]
        exact ih.cons _

end Rows

section Credentials

variable {p} {c : Credential} {rotations : List (RotateCredentialDto × Issue)}

def closed (c : Credential) : List (RotateCredentialDto × Issue) → List Credential
  | [] => [c]
  | r :: rs => { c with expiresAt := some (graceEnd r.1 r.2) } :: closed (issued p r.2) rs

theorem foldl_rotated {done : List Credential} (hdone : ∀ d ∈ done, d.expiresAt ≠ none)
    (hopen : c.expiresAt = none) (hvalid : c.revokedAt = none) :
    rotations.foldl (fun cs r => rotated p cs r.1 r.2) (done ++ [c]) = done ++ closed (p := p) c rotations := by
  induction rotations generalizing done c with
  | nil => rfl
  | cons r rs ih =>
    have hkept : done.map (expire (graceEnd r.1 r.2)) = done := by
      refine (List.map_congr_left (fun d hd => ?_)).trans (List.map_id done)
      exact if_neg (fun h => hdone d hd h.2)
    have hclosed : expire (graceEnd r.1 r.2) c =
        { c with expiresAt := some (graceEnd r.1 r.2) } := if_pos ⟨hvalid, hopen⟩
    rw [List.foldl_cons, rotated, List.map_append, List.map_cons, List.map_nil, hkept, hclosed,
      ih (fun d hd => ?_) rfl rfl, List.append_assoc]
    · rfl
    · obtain hd | hd := List.mem_append.mp hd
      · exact hdone d hd
      · rw [List.mem_singleton.mp hd]
        exact Option.some_ne_none _

theorem closed_getElem? {j : ℕ} {r : RotateCredentialDto × Issue} (hr : rotations[j]? = some r)
    (hvalid : c.revokedAt = none) :
    ∃ d, (closed (p := p) c rotations)[j]? = some d ∧ d.expiresAt = some (graceEnd r.1 r.2) ∧
      d.revokedAt = none ∧ (c.activeFrom :: rotations.map (fun r => r.2.now))[j]? = some d.activeFrom := by
  induction rotations generalizing c j with
  | nil => simp at hr
  | cons q qs ih =>
    cases j with
    | zero =>
      cases hr
      exact ⟨_, rfl, rfl, hvalid, rfl⟩
    | succ j =>
      obtain ⟨d, hd, hexpires, hd', hactive⟩ := ih (c := issued p q.2) hr rfl
      exact ⟨d, hd, hexpires, hd', hactive⟩

theorem live_iff {now : Instant} {expiresAt : Instant} (hvalid : c.revokedAt = none)
    (hexpires : c.expiresAt = some expiresAt) :
    c.live now = true ↔ c.activeFrom ≤ now ∧ now < expiresAt := by
  simp [Credential.live, hvalid, hexpires]

theorem bounded_of_sorted (hvalid : c.revokedAt = none)
    (h : rotations.Pairwise (fun r r' => graceEnd r.1 r.2 ≤ graceEnd r'.1 r'.2)) :
    Bounded (closed (p := p) c rotations) rotations := by
  intro i r hr now hnow k d hd hlive
  by_contra hki
  obtain ⟨hi, rfl⟩ := List.getElem?_eq_some_iff.mp hr
  have hk : k < rotations.length := by omega
  obtain ⟨d', hd', hexpires, hvalid', _⟩ :=
    closed_getElem? (p := p) (List.getElem?_eq_getElem hk) hvalid
  rw [hd] at hd'
  cases hd'
  have hle : graceEnd rotations[k].1 rotations[k].2 ≤ graceEnd rotations[i].1 rotations[i].2 := by
    obtain hlt | heq := Nat.lt_or_eq_of_le (not_lt.mp hki)
    · exact List.pairwise_iff_getElem.mp h k i hk hi hlt
    · simp only [heq, le_refl]
  have hlate := ((live_iff hvalid' hexpires).mp hlive).2
  exact absurd hlate (not_lt.mpr (hle.trans hnow))

theorem le_graceEnd (dto : RotateCredentialDto) (env : Issue) : env.now ≤ graceEnd dto env := by
  rw [graceEnd]
  exact le_add_of_nonneg_right (by positivity)

theorem sorted_of_bounded (hvalid : c.revokedAt = none)
    (htimes : (c.activeFrom :: rotations.map (fun r => r.2.now)).Pairwise (· ≤ ·))
    (h : Bounded (closed (p := p) c rotations) rotations) :
    rotations.Pairwise (fun r r' => graceEnd r.1 r.2 ≤ graceEnd r'.1 r'.2) := by
  rw [List.pairwise_iff_getElem]
  intro j i hj hi hji
  by_contra hlate
  obtain ⟨d, hd, hexpires, hvalid', hactive⟩ :=
    closed_getElem? (p := p) (List.getElem?_eq_getElem hj) hvalid
  have hstarted : d.activeFrom ≤ rotations[i].2.now := by
    obtain ⟨hj', hj''⟩ := List.getElem?_eq_some_iff.mp hactive
    have hi' : i + 1 < (c.activeFrom :: rotations.map (fun r => r.2.now)).length := by simpa using hi
    have hle := List.pairwise_iff_getElem.mp htimes j (i + 1) hj' hi' (by omega)
    rw [hj''] at hle
    simpa using hle
  have hlive : d.live (graceEnd rotations[i].1 rotations[i].2) = true := by
    rw [live_iff hvalid' hexpires]
    exact ⟨hstarted.trans (le_graceEnd _ _), not_le.mp hlate⟩
  have hnewer := h i _ (List.getElem?_eq_getElem hi) _ le_rfl j d hd hlive
  omega

end Credentials

/-- Old credentials are bounded by each rotation of a worker exactly when no grace ends
before the grace of an earlier rotation. -/
theorem bounded_iff_sorted {p : Platform} {net : Network} {s s' : Gateway} {customerId : Id}
    {dto : CreateWorkerDto} {env : Issue} {w : WorkerRow}
    (hcreated : createWorker p net s customerId dto env = .ok (s', w)) {calls : List Call}
    (htimes : (env.now :: calls.map Call.now).Pairwise (· ≤ ·)) {w' : WorkerRow}
    (hw' : w' ∈ (calls.foldl (perform p net) s').workers.rows) (hid : w'.id = w.id) :
    Bounded w'.credentials (rotationsOf w.id calls) ↔
      (rotationsOf w.id calls).Pairwise (fun r r' => graceEnd r.1 r.2 ≤ graceEnd r'.1 r'.2) := by
  obtain ⟨hmem, _, hissued, _⟩ := createWorker_spec hcreated
  obtain ⟨x, hx, hxid, hcredentials⟩ := run_credentials p net hmem calls
  have hxw : x = w' := Table.eq_of_id _ hx hw' (hxid.trans hid.symm)
  rw [hxw, hissued] at hcredentials
  have hclosed := @foldl_rotated p (issued p env) (rotationsOf w.id calls) []
    (fun d hd => by cases hd) rfl rfl
  rw [List.nil_append, List.nil_append] at hclosed
  rw [hcredentials, hclosed]
  have hsubset : (env.now :: (rotationsOf w.id calls).map (fun r => r.2.now)).Sublist
      (env.now :: calls.map Call.now) := (rotationsOf_times w.id calls).cons_cons _
  exact ⟨sorted_of_bounded (c := issued p env) rfl (htimes.sublist hsubset),
    bounded_of_sorted (c := issued p env) rfl⟩

section Sample

def sampleNetwork : Network := ⟨fun _ => none, fun _ => none, fun _ _ _ => false, fun _ _ _ _ => false⟩

def sampleIssue (now : Instant) (token : String) : Issue := ⟨now, token, "salt", 7⟩

def sampleGateway : Gateway :=
  ⟨.single ⟨3, "acme", "Acme", .active⟩, .empty, .empty, .empty, fun _ => 0, fun _ => []⟩

def sampleDto : CreateWorkerDto := ⟨"rig1", .btc, none, none⟩

def sampleCalls (first second : ℕ) : List Call :=
  [.rotateCredential 7 ⟨some first⟩ (sampleIssue 60000 "second-token"),
    .rotateCredential 7 ⟨some second⟩ (sampleIssue 660000 "third-token")]

theorem sample_created : ∃ s w, createWorker samplePlatform sampleNetwork sampleGateway 3 sampleDto
    (sampleIssue 0 "first-token") = .ok (s, w) := by
  cases h : createWorker samplePlatform sampleNetwork sampleGateway 3 sampleDto
      (sampleIssue 0 "first-token") with
  | ok r => exact ⟨r.1, r.2, rfl⟩
  | error e =>
    have hok : (createWorker samplePlatform sampleNetwork sampleGateway 3 sampleDto
      (sampleIssue 0 "first-token")).toBool = true := by decide
    rw [h] at hok
    cases hok

theorem bounded_iff_sorted_sample : ∃ s w w', createWorker samplePlatform sampleNetwork sampleGateway 3
      sampleDto (sampleIssue 0 "first-token") = .ok (s, w) ∧
    w' ∈ ((sampleCalls 10 10).foldl (perform samplePlatform sampleNetwork) s).workers.rows ∧
    Bounded w'.credentials (rotationsOf 7 (sampleCalls 10 10)) := by
  obtain ⟨s, w, hcreated⟩ := sample_created
  obtain ⟨hmem, hid, _⟩ := createWorker_spec hcreated
  obtain ⟨w', hw', hid', _⟩ := run_credentials samplePlatform sampleNetwork hmem
    (sampleCalls 10 10)
  have hseven : w.id = 7 := hid
  refine ⟨s, w, w', hcreated, hw', ?_⟩
  rw [← hseven]
  apply (bounded_iff_sorted hcreated (by decide) hw' hid').mpr
  rw [hseven]
  decide

/-- The first credential was given a day, and a later rotation without any grace leaves it that. -/
theorem long_grace_outlives_rotation : ∃ s w w', createWorker samplePlatform sampleNetwork sampleGateway 3
      sampleDto (sampleIssue 0 "first-token") = .ok (s, w) ∧
    w' ∈ ((sampleCalls 1440 0).foldl (perform samplePlatform sampleNetwork) s).workers.rows ∧
    (∃ c ∈ w'.credentials.head?, c.live 660000 = true) ∧
    ¬ Bounded w'.credentials (rotationsOf 7 (sampleCalls 1440 0)) := by
  obtain ⟨s, w, hcreated⟩ := sample_created
  obtain ⟨hmem, hid, hissued, _⟩ := createWorker_spec hcreated
  obtain ⟨w', hw', _, hcredentials⟩ := run_credentials samplePlatform sampleNetwork hmem
    (sampleCalls 1440 0)
  have hseven : w.id = 7 := hid
  have hfirst : ∃ c, w'.credentials[0]? = some c ∧ c.live 660000 = true := by
    rw [hcredentials, hissued, hseven]
    exact ⟨_, rfl, by decide⟩
  obtain ⟨c, hc, hlive⟩ := hfirst
  refine ⟨s, w, w', hcreated, hw', ⟨c, ?_, hlive⟩, fun hbounded => ?_⟩
  · rw [List.head?_eq_getElem?]
    exact hc
  · exact absurd (hbounded 1 _ rfl 660000 (by decide) 0 c hc hlive) (by decide)

end Sample

end Bitmine.CredentialRotation
