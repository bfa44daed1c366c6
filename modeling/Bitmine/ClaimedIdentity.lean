import Bitmine.Slugs

namespace Bitmine.ClaimedIdentity

open Bitmine.Lib.UniqueTable Bitmine.Lib.GroupSum Bitmine.Lib.Trace
open Bitmine.Schema Bitmine.Security Bitmine.Provisioning Bitmine.Slugs

variable (p : Platform) (net : Network) (cfg : Config)

/-- A password verifies against its own hash only, and lower-case letters,
digits and dashes are left as they are. -/
structure Trusted : Prop where
  verifies : ∀ salt secret attempt,
    p.verifySecret (p.hashSecret salt secret) attempt = true ↔ attempt = secret
  lowers : ∀ s : String, (∀ c ∈ s.toList, customerChar c = true) → p.toLowerCase s = s

/-- Someone connects, or anything else is changed: by administrators, by closed
connections and by time. -/
inductive Event where
  | authenticate (env : Draw) (asset : AssetCode) (username password remoteIp : String)
  | edit (s : Gateway)

def next (s : Gateway) : Event → Gateway
  | .authenticate env asset username password remoteIp =>
    (authenticate p net cfg env s asset username password remoteIp).1
  | .edit s' => s'

def SameIdentity (w w' : WorkerRow) : Prop :=
  w'.id = w.id ∧ w'.customerId = w.customerId ∧ w'.asset = w.asset ∧ w'.slug = w.slug ∧
    w'.allowedIps = w.allowedIps ∧ w'.credentials = w.credentials

/-- The edit leaves the names, the addresses and the credentials of one worker alone. -/
def Spares (w : WorkerRow) (s : Gateway) : Event → Prop
  | .authenticate _ _ _ _ _ => True
  | .edit s' => (∃ w' ∈ s'.workers.rows, SameIdentity w w') ∧
    ∀ c ∈ s.customers.rows, c.id = w.customerId → ∃ c' ∈ s'.customers.rows,
      c'.id = w.customerId ∧ c'.slug = c.slug

/-- Worker and customer are active, a policy is in force and a connection is free. -/
def Live (env : Draw) (s : Gateway) (w : WorkerRow) : Prop :=
  (∃ w' ∈ s.workers.rows, w'.id = w.id ∧ w'.status = .active ∧
    (liveLeases env.now (s.leases w.id)).length < w'.maxConnections) ∧
  (∃ c ∈ s.customers.rows, c.id = w.customerId ∧ c.status = .active) ∧
  ∃ v ∈ s.policies.rows, v.customerId = w.customerId ∧ v.asset = w.asset ∧ v.effectiveAt ≤ env.now

/-- The call has created the worker. -/
def Provisions (env : Draw) (s : Gateway) (asset : AssetCode) (username password remoteIp : String)
    (w : WorkerRow) : Prop :=
  w ∈ (authenticate p net cfg env s asset username password remoteIp).1.workers.rows ∧
    ∀ x ∈ s.workers.rows, x.id ≠ w.id

/-- Whenever the worker is live, the same name and password resolve to it and
create nothing, and every other password is refused. -/
def Stable (env : Draw) (s : Gateway) (asset : AssetCode) (username password : String) (w : WorkerRow) :
    Prop :=
  ∀ s', Reach (next p net cfg) (Spares w) s s' → ∀ env' remoteIp, env.now ≤ env'.now → Live env' s' w →
    (∃ r, (authenticate p net cfg env' s' asset username password remoteIp).2 = some r ∧
      r.worker.id = w.id ∧
      (authenticate p net cfg env' s' asset username password remoteIp).1.customers = s'.customers ∧
      (authenticate p net cfg env' s' asset username password remoteIp).1.workers = s'.workers) ∧
    ∀ password' ≠ password,
      (authenticate p net cfg env' s' asset username password' remoteIp).2 = none

/-- Both names are left as they are by the sanitisers. -/
def Sanitary (username : String) : Prop :=
  ∀ customerSlug workerSlug, parseUsername p cfg username = some (customerSlug, workerSlug) →
    cleanCustomer p customerSlug = customerSlug.toList ∧ 3 ≤ customerSlug.toList.length ∧
    sanitizeWorkerSlug workerSlug = workerSlug

section Calls

variable {p net cfg} {env : Draw} {s s' : Gateway} {asset : AssetCode} {w : WorkerRow} {c : CustomerRow}

theorem finalize_tables (env : Draw) (s : Gateway) (w : WorkerRow) (c : CustomerRow)
    (asset : AssetCode) : (finalize env s w c asset).1.customers = s.customers ∧
    (finalize env s w c asset).1.workers = s.workers ∧
    ∀ a ∈ (finalize env s w c asset).2, a.worker = w := by
  rw [finalize]
  split
  · exact ⟨rfl, rfl, fun a ha => (by cases ha)⟩
  · simp only
    split
    · exact ⟨rfl, rfl, fun a ha => (by cases ha)⟩
    · exact ⟨rfl, rfl, fun a ha => (by cases ha; rfl)⟩

theorem finalize_some (c : CustomerRow) {v : SplitPolicyVersion} (hv : v ∈ s.policies.rows)
    (hcustomer : v.customerId = w.customerId) (hasset : v.asset = asset)
    (hforce : v.effectiveAt ≤ env.now)
    (hfree : (liveLeases env.now (s.leases w.id)).length < w.maxConnections) :
    ∃ a, (finalize env s w c asset).2 = some a := by
  have hpolicy : ∃ v', effectivePolicy env s w.customerId asset = some v' := by
    refine Option.isSome_iff_exists.mp (List.isSome_head?.mpr (List.ne_nil_of_mem (a := v) ?_))
    rw [List.mem_insertionSort, List.mem_filter]
    exact ⟨(env.order.perm _).mem_iff.mpr hv, by simp [hcustomer, hasset, hforce]⟩
  obtain ⟨v', hv'⟩ := hpolicy
  simp only [finalize, hv', if_neg (not_le.mpr hfree)]
  exact ⟨_, rfl⟩

structure Created (p : Platform) (cfg : Config) (env : Draw) (s s' : Gateway) (asset : AssetCode)
    (customerSlug workerSlug password : String) (w : WorkerRow) (c : CustomerRow) : Prop where
  worker : w = newWorker p cfg env c.id asset workerSlug password
  workers : s'.workers.rows = s.workers.rows ++ [w]
  customer : c ∈ s'.customers.rows
  slug : c.slug = customerSlug
  active : c.status = .active
  customers : ∀ x ∈ s.customers.rows, x ∈ s'.customers.rows

theorem Created.congr {customerSlug workerSlug password : String} {s'' : Gateway}
    (h : Created p cfg env s s' asset customerSlug workerSlug password w c)
    (hc : s''.customers = s'.customers) (hw : s''.workers = s'.workers) :
    Created p cfg env s s'' asset customerSlug workerSlug password w c :=
  ⟨h.worker, hw ▸ h.workers, hc ▸ h.customer, h.slug, h.active, hc ▸ h.customers⟩

theorem createCustomer_spec {slug : String} (h : createCustomer cfg env s slug = some (s', c)) :
    s'.workers = s.workers ∧ c ∈ s'.customers.rows ∧ c.slug = slug ∧
      ∀ x ∈ s.customers.rows, x ∈ s'.customers.rows := by
  simp only [createCustomer, Option.bind_eq_bind, Option.bind_eq_some_iff, Option.pure_def,
    Option.some.injEq, Prod.mk.injEq] at h
  obtain ⟨customers, hinsert, _, _, _, _, rfl, rfl⟩ := h
  have hrows := (Table.insert_eq_some hinsert).1
  refine ⟨rfl, ?_, rfl, fun x hx => ?_⟩
  · rw [hrows]
    simp
  · rw [hrows]
    exact List.mem_append_left _ hx

theorem findOrCreateCustomer_spec {slug : String}
    (h : findOrCreateCustomer cfg env s slug = some (s', c)) :
    s'.workers = s.workers ∧ c ∈ s'.customers.rows ∧ c.slug = slug ∧
      ∀ x ∈ s.customers.rows, x ∈ s'.customers.rows := by
  rw [findOrCreateCustomer] at h
  split at h
  · rename_i customer hfind
    cases h
    obtain ⟨hmem, hslug⟩ := Table.find?_mem hfind
    exact ⟨rfl, hmem, by simpa [hasSlug] using hslug, fun x hx => hx⟩
  · exact createCustomer_spec h

theorem provision_created {customerSlug workerSlug password : String}
    (h : provision p cfg env s asset customerSlug workerSlug password = some (s', w, c)) :
    Created p cfg env s s' asset customerSlug workerSlug password w c := by
  simp only [provision, Option.bind_eq_bind, Option.bind_eq_some_iff] at h
  obtain ⟨⟨mid, customer⟩, hmid, h⟩ := h
  obtain ⟨hworkers, hmem, hslug, hsub⟩ := findOrCreateCustomer_spec hmid
  split at h
  · cases h
  · rename_i hactive
    split at h
    · cases h
    · simp only [Option.bind_eq_some_iff, Option.pure_def, Option.some.injEq,
        Prod.mk.injEq] at h
      obtain ⟨workers, hinsert, rfl, rfl, rfl⟩ := h
      refine ⟨rfl, ?_, hmem, hslug, by simpa using hactive, hsub⟩
      rw [(Table.insert_eq_some hinsert).1, hworkers]

theorem autoProvision_cases {customerSlug workerSlug password remoteIp : String} {o : Option (WorkerRow × CustomerRow)}
    (h : autoProvision p cfg env s asset customerSlug workerSlug password remoteIp = (s', o)) :
    (o = none ∧ s'.customers = s.customers ∧ s'.workers = s.workers) ∨
    ∃ w c, o = some (w, c) ∧
      Created p cfg env s s' asset (sanitizeCustomerSlug p env.hex customerSlug)
        (sanitizeWorkerSlug workerSlug) password w c := by
  simp only [autoProvision] at h
  split at h
  · cases h
    exact .inl ⟨rfl, rfl, rfl⟩
  · split at h
    · rename_i provisioned worker customer hprov
      cases h
      obtain ⟨hw, hws, hc, hslug, hactive, hsub⟩ := provision_created hprov
      exact .inr ⟨worker, customer, rfl, hw, hws, hc, hslug, hactive, hsub⟩
    · cases h
      exact .inl ⟨rfl, rfl, rfl⟩

/-- A call either leaves customers and workers alone and resolves by the names,
or finds nothing under them and creates a worker. -/
theorem authenticate_cases (p : Platform) (net : Network) (cfg : Config) (env : Draw) (s : Gateway)
    (asset : AssetCode) (username password remoteIp : String) :
    ((authenticate p net cfg env s asset username password remoteIp).1.customers = s.customers ∧
      (authenticate p net cfg env s asset username password remoteIp).1.workers = s.workers ∧
      ∀ a ∈ (authenticate p net cfg env s asset username password remoteIp).2,
        ∃ customerSlug workerSlug customer,
          parseUsername p cfg username = some (customerSlug, workerSlug) ∧
          findActiveWorker s asset customerSlug workerSlug = some (a.worker, customer)) ∨
    ∃ customerSlug workerSlug w c,
      parseUsername p cfg username = some (customerSlug, workerSlug) ∧
      findActiveWorker s asset customerSlug workerSlug = none ∧
      Created p cfg env s (authenticate p net cfg env s asset username password remoteIp).1 asset
        (sanitizeCustomerSlug p env.hex customerSlug) (sanitizeWorkerSlug workerSlug) password w c := by
  rw [authenticate]
  split
  · exact .inl ⟨rfl, rfl, fun a ha => (by cases ha)⟩
  · rename_i customerSlug workerSlug hparse
    split
    · rename_i worker customer hfind
      split
      · exact .inl ⟨rfl, rfl, fun a ha => (by cases ha)⟩
      · split
        · obtain ⟨hc, hw, ha⟩ := finalize_tables env s worker customer asset
          refine .inl ⟨hc, hw, fun a hm => ⟨customerSlug, workerSlug, customer, hparse, ?_⟩⟩
          rw [hfind, ha a hm]
        · exact .inl ⟨rfl, rfl, fun a ha => (by cases ha)⟩
    · rename_i hfind
      split
      · exact .inl ⟨rfl, rfl, fun a ha => (by cases ha)⟩
      · split
        · rename_i provisioned worker customer hauto
          obtain ⟨hnone, _⟩ | ⟨w, c, ho, hcreated⟩ := autoProvision_cases hauto
          · cases hnone
          · cases ho
            obtain ⟨hc, hw, _⟩ := finalize_tables env provisioned worker customer asset
            exact .inr ⟨customerSlug, workerSlug, worker, customer, hparse, hfind,
              hcreated.congr hc hw⟩
        · rename_i counted hauto
          obtain ⟨_, hc, hw⟩ | ⟨w, c, ho, _⟩ := autoProvision_cases hauto
          · exact .inl ⟨hc, hw, fun a ha => (by cases ha)⟩
          · cases ho

end Calls

section Identity

variable {p net cfg} {env : Draw} {s s' : Gateway} {asset : AssetCode} {w : WorkerRow}

def Holds (w : WorkerRow) (slug : String) (s : Gateway) : Prop :=
  (∃ w' ∈ s.workers.rows, SameIdentity w w') ∧
    ∃ c ∈ s.customers.rows, c.id = w.customerId ∧ c.slug = slug

theorem Holds.next {slug : String} {e : Event} (h : Holds w slug s) (he : Spares w s e) :
    Holds w slug (next p net cfg s e) := by
  obtain ⟨⟨w', hw', hsame⟩, c, hc, hid, hslug⟩ := h
  cases e with
  | edit s' =>
    obtain ⟨hworker, hcustomer⟩ := he
    obtain ⟨c', hc', hid', hslug'⟩ := hcustomer c hc hid
    exact ⟨hworker, c', hc', hid', hslug'.trans hslug⟩
  | authenticate env asset username password remoteIp =>
    obtain ⟨hcs, hws, _⟩ | ⟨_, _, x, y, _, _, hcreated⟩ := authenticate_cases p net cfg env s
      asset username password remoteIp
    · refine ⟨⟨w', ?_, hsame⟩, c, ?_, hid, hslug⟩
      · simp only [ClaimedIdentity.next]
        rw [hws]
        exact hw'
      · simp only [ClaimedIdentity.next]
        rw [hcs]
        exact hc
    · refine ⟨⟨w', ?_, hsame⟩, c, hcreated.customers c hc, hid, hslug⟩
      simp only [ClaimedIdentity.next]
      rw [hcreated.workers]
      exact List.mem_append_left _ hw'

theorem findActiveWorker_live {slug : String} (h : Holds w slug s) (hlive : Live env s w) :
    ∃ w' c, findActiveWorker s w.asset slug w.slug = some (w', c) ∧ SameIdentity w w' ∧
      (liveLeases env.now (s.leases w.id)).length < w'.maxConnections := by
  obtain ⟨⟨w', hw', hsame⟩, c, hc, hcid, hslug⟩ := h
  obtain ⟨⟨x, hx, hxid, hxactive, hfree⟩, ⟨d, hd, hdid, hdactive⟩, _⟩ := hlive
  have hxw : x = w' := s.workers.eq_of_id hx hw' (hxid.trans hsame.1.symm)
  have hdc : d = c := s.customers.eq_of_id hd hc (hdid.trans hcid.symm)
  subst hxw hdc
  have hcustomer : s.customers.find? (fun c => hasSlug slug c && c.status = .active) = some d := by
    refine Table.find?_eq_of_mem hc (by simp [hasSlug, hslug, hdactive]) (fun b hb hp => ?_)
    simp only [hasSlug, Bool.and_eq_true, decide_eq_true_eq] at hp
    exact .inr ⟨by simp [Row.uniq, hp.1, hslug], rfl⟩
  obtain ⟨hid, hcust, hasset, hwslug, hips, hcreds⟩ := hsame
  have hworker : s.workers.find? (fun v => v.asset = w.asset && v.slug = w.slug &&
      v.status = .active && v.customerId = d.id) = some x := by
    refine Table.find?_eq_of_mem hx (by simp [hasset, hwslug, hxactive, hcust, hcid])
      (fun b hb hp => ?_)
    simp only [Bool.and_eq_true, decide_eq_true_eq] at hp
    obtain ⟨⟨⟨hba, hbs⟩, _⟩, hbc⟩ := hp
    exact .inr ⟨by simp [Row.uniq, hba, hbs, hbc, hasset, hwslug, hcust, hcid], rfl⟩
  refine ⟨x, d, ?_, ⟨hid, hcust, hasset, hwslug, hips, hcreds⟩, hfree⟩
  simp only [findActiveWorker, hcustomer, Option.bind_eq_bind, Option.bind_some, hworker,
    Option.pure_def]

theorem ipAllowed_nil (remoteIp : String) : ipAllowed net remoteIp [] = true := by
  simp [ipAllowed]

theorem provisions_spec {username password remoteIp : String}
    (h : Provisions p net cfg env s asset username password remoteIp w) :
    ∃ customerSlug workerSlug c, parseUsername p cfg username = some (customerSlug, workerSlug) ∧
      Created p cfg env s (authenticate p net cfg env s asset username password remoteIp).1 asset
        (sanitizeCustomerSlug p env.hex customerSlug) (sanitizeWorkerSlug workerSlug) password w c := by
  obtain ⟨hmem, hnew⟩ := h
  obtain ⟨_, hws, _⟩ | ⟨customerSlug, workerSlug, x, c, hparse, _, hcreated⟩ :=
    authenticate_cases p net cfg env s asset username password remoteIp
  · rw [hws] at hmem
    exact absurd rfl (hnew w hmem)
  · have hx : w = x := by
      rw [hcreated.workers] at hmem
      obtain hmem | hmem := List.mem_append.mp hmem
      · exact absurd rfl (hnew w hmem)
      · exact List.mem_singleton.mp hmem
    exact ⟨customerSlug, workerSlug, c, hparse, hx ▸ hcreated⟩

/-- Names that the sanitisers leave alone keep leading to the worker. -/
theorem stable_of_sanitary (hp : Trusted p) {username password remoteIp : String}
    (h : Provisions p net cfg env s asset username password remoteIp w)
    (hclean : Sanitary p cfg username) :
    Stable p net cfg env (authenticate p net cfg env s asset username password remoteIp).1 asset
      username password w := by
  obtain ⟨customerSlug, workerSlug, c, hparse, hcreated⟩ := provisions_spec h
  obtain ⟨hcustomer, hlen, hworker⟩ := hclean customerSlug workerSlug hparse
  have hneat : Neat customerSlug.toList := hcustomer ▸ cleanCustomer_neat customerSlug
  rw [(sanitizeCustomerSlug_eq hp.lowers env.isHex).mpr ⟨hneat, hlen⟩, hworker] at hcreated
  have hw : w = newWorker p cfg env c.id asset workerSlug password := hcreated.worker
  have hstart : Holds w customerSlug
      (authenticate p net cfg env s asset username password remoteIp).1 := by
    refine ⟨⟨w, ?_, rfl, rfl, rfl, rfl, rfl, rfl⟩, c, hcreated.customer, by rw [hw]; rfl, hcreated.slug⟩
    rw [hcreated.workers]
    simp
  intro s' hreach env' ip' htime hlive
  have hholds := hreach.invariant (fun s e hs he => Holds.next hs he) hstart
  obtain ⟨w', c', hfind, ⟨hid, hcust, hasset, _, hips, hcreds⟩, hfree⟩ :=
    findActiveWorker_live hholds hlive
  have hasset' : w.asset = asset := by rw [hw]; rfl
  have hslug : w.slug = workerSlug := by rw [hw]; rfl
  rw [hasset', hslug] at hfind
  have hlives : w'.credentials.filter (Credential.live env'.now) = w'.credentials := by
    rw [hcreds, hw]
    simp [newWorker, Credential.live, htime]
  have hverify : ∀ attempt, w'.credentials.any (fun c => p.verifySecret c.tokenHash attempt) = true ↔
      attempt = password := by
    intro attempt
    rw [hcreds, hw]
    simp only [newWorker, List.any_cons, List.any_nil, Bool.or_false]
    exact hp.verifies _ _ _
  have hips' : ipAllowed net ip' w'.allowedIps = true := by
    rw [hips, hw]
    exact ipAllowed_nil ip'
  have hauth : ∀ attempt, authenticate p net cfg env' s' asset username attempt ip' =
      if attempt = password then finalize env' s' w' c' asset else (s', none) := by
    intro attempt
    simp only [authenticate, hparse, hfind, hips', hlives, Bool.not_true, Bool.false_eq_true,
      if_false]
    by_cases heq : attempt = password
    · rw [if_pos ((hverify attempt).mpr heq), if_pos heq]
    · rw [if_neg (fun hv => heq ((hverify attempt).mp hv)), if_neg heq]
  refine ⟨?_, fun attempt hne => by rw [hauth, if_neg hne]⟩
  obtain ⟨_, _, v, hv, hvc, hva, hve⟩ := hlive
  obtain ⟨a, ha⟩ := finalize_some c' hv (hvc.trans hcust.symm)
    (hva.trans hasset') hve (hid ▸ hfree)
  obtain ⟨hcs, hws, hworker'⟩ := finalize_tables env' s' w' c' asset
  rw [hauth, if_pos rfl]
  exact ⟨a, ha, (congrArg WorkerRow.id (hworker' a ha)).trans hid, hcs, hws⟩

theorem findActiveWorker_spec {customerSlug workerSlug : String} {c : CustomerRow}
    (h : findActiveWorker s asset customerSlug workerSlug = some (w, c)) :
    w ∈ s.workers.rows ∧ c ∈ s.customers.rows ∧ w.customerId = c.id ∧ c.slug = customerSlug ∧
      w.slug = workerSlug ∧ w.asset = asset := by
  simp only [findActiveWorker, Option.bind_eq_bind, Option.bind_eq_some_iff, Option.pure_def,
    Option.some.injEq, Prod.mk.injEq] at h
  obtain ⟨customer, hc, worker, hw, rfl, rfl⟩ := h
  obtain ⟨hcm, hcp⟩ := Table.find?_mem hc
  obtain ⟨hwm, hwp⟩ := Table.find?_mem hw
  simp only [hasSlug, Bool.and_eq_true, decide_eq_true_eq] at hcp hwp
  exact ⟨hwm, hcm, hwp.2, hcp.1, hwp.1.1.2, hwp.1.1.1⟩

def opened (s : Gateway) (v : SplitPolicyVersion) : Gateway :=
  { s with policies := .single v, leases := fun _ => [] }

/-- Names that the sanitisers change never lead back to the worker. -/
theorem sanitary_of_stable (hp : Trusted p) {username password remoteIp : String}
    (h : Provisions p net cfg env s asset username password remoteIp w)
    (hstable : Stable p net cfg env
      (authenticate p net cfg env s asset username password remoteIp).1 asset username password w) :
    Sanitary p cfg username := by
  obtain ⟨customerSlug, workerSlug, c, hparse, hcreated⟩ := provisions_spec h
  generalize (authenticate p net cfg env s asset username password remoteIp).1 = s1 at hcreated hstable
  have hw : w = newWorker p cfg env c.id asset (sanitizeWorkerSlug workerSlug) password :=
    hcreated.worker
  have hcid : c.id = w.customerId := by rw [hw]; rfl
  have hmem : w ∈ s1.workers.rows := by
    rw [hcreated.workers]
    simp
  let v : SplitPolicyVersion := ⟨0, w.customerId, w.asset, 0, env.now⟩
  have hreach : Reach (next p net cfg) (Spares w) s1 (opened s1 v) := by
    refine .single ⟨.edit (opened s1 v), ⟨⟨w, hmem, rfl, rfl, rfl, rfl, rfl, rfl⟩, ?_⟩, rfl⟩
    exact fun d hd hid => ⟨d, hd, hid, rfl⟩
  have hlive : Live env (opened s1 v) w := by
    refine ⟨⟨w, hmem, rfl, by rw [hw]; rfl, ?_⟩, ⟨c, hcreated.customer, hcid, hcreated.active⟩, v,
      by simp [opened], rfl, rfl, le_rfl⟩
    rw [hw]
    exact cfg.positive
  obtain ⟨⟨r, hr, hid, _, hws⟩, _⟩ := hstable _ hreach env remoteIp le_rfl hlive
  obtain ⟨_, _, hresolved⟩ | ⟨_, _, x, _, _, _, hanother⟩ :=
    authenticate_cases p net cfg env (opened s1 v) asset username password remoteIp
  · obtain ⟨customerSlug', workerSlug', d, hparse', hfind⟩ := hresolved r hr
    rw [hparse] at hparse'
    cases hparse'
    obtain ⟨hrm, hdm, hrd, hdslug, hrslug, _⟩ := findActiveWorker_spec hfind
    have hrw : r.worker = w := s1.workers.eq_of_id hrm hmem hid
    have hdc : d = c := s1.customers.eq_of_id hdm hcreated.customer
      (hrd.symm.trans ((congrArg WorkerRow.customerId hrw).trans hcid.symm))
    have hcustomer : sanitizeCustomerSlug p env.hex customerSlug = customerSlug :=
      hcreated.slug.symm.trans (hdc ▸ hdslug)
    have hworker : sanitizeWorkerSlug workerSlug = workerSlug := by
      have hwslug : w.slug = sanitizeWorkerSlug workerSlug := by rw [hw]; rfl
      exact hwslug.symm.trans (hrw ▸ hrslug)
    intro customerSlug' workerSlug' hparse'
    rw [hparse] at hparse'
    cases hparse'
    obtain ⟨hneat, hlen⟩ := (sanitizeCustomerSlug_eq hp.lowers env.isHex).mp hcustomer
    exact ⟨cleanCustomer_eq_self hp.lowers hneat, hlen, hworker⟩
  · have hrows := hanother.workers
    rw [hws] at hrows
    exact absurd (congrArg List.length hrows) (by simp)

/-- A worker that was claimed by its first connection is stable exactly when both
names are what the sanitisers make of them. -/
theorem claimed_identity_stable (hp : Trusted p) {username password remoteIp : String}
    (h : Provisions p net cfg env s asset username password remoteIp w) :
    Stable p net cfg env (authenticate p net cfg env s asset username password remoteIp).1 asset
      username password w ↔ Sanitary p cfg username :=
  ⟨sanitary_of_stable hp h, stable_of_sanitary hp h⟩

end Identity

section Sample

theorem samplePlatform_trusted : Trusted samplePlatform where
  verifies salt secret attempt := by
    simp only [samplePlatform, decide_eq_true_eq]
    exact eq_comm
  lowers := samplePlatform_lowers

def sampleNetwork : Network := ⟨fun _ => none, fun _ => none, fun _ _ _ => false, fun _ _ _ _ => false⟩

def sampleConfig : Config := ⟨true, 8000, 4, by decide, 20⟩

def sampleDraw (now : Instant) (workerId : Id) : Provisioning.Draw :=
  ⟨now, "0a1b2c3d", by decide, "salt", "lease", 5, workerId,
    fun asset => match asset with | .btc => 1 | .xmr => 2, .asStored⟩

def sampleGateway : Gateway := ⟨.empty, .empty, .empty, .empty, fun _ => 0, fun _ => []⟩

def sampleClaim (username : String) : Gateway × Option AuthorizedWorker :=
  authenticate samplePlatform sampleNetwork sampleConfig (sampleDraw 1000 7) sampleGateway .btc username
    "x" "10.0.0.9"

theorem sampleClaim_provisions {username : String}
    (h : (sampleClaim username).1.workers.rows.map WorkerRow.id = [7]) :
    ∃ w, Provisions samplePlatform sampleNetwork sampleConfig (sampleDraw 1000 7) sampleGateway .btc
      username "x" "10.0.0.9" w := by
  obtain ⟨w, rest, hrows, _⟩ := List.map_eq_cons_iff.mp h
  have hmem : w ∈ (sampleClaim username).1.workers.rows := by
    rw [hrows]
    exact List.mem_cons_self
  exact ⟨w, hmem, fun x hx => (by cases hx)⟩

theorem claimed_identity_stable_sample : ∃ w,
    Provisions samplePlatform sampleNetwork sampleConfig (sampleDraw 1000 7) sampleGateway .btc
      "alice.rig01" "x" "10.0.0.9" w ∧
    Stable samplePlatform sampleNetwork sampleConfig (sampleDraw 1000 7) (sampleClaim "alice.rig01").1
      .btc "alice.rig01" "x" w := by
  have hids : (sampleClaim "alice.rig01").1.workers.rows.map WorkerRow.id = [7] := by decide +kernel
  obtain ⟨w, hw⟩ := sampleClaim_provisions hids
  refine ⟨w, hw, (claimed_identity_stable samplePlatform_trusted hw).mpr ?_⟩
  intro customerSlug workerSlug hparse
  have hnames : parseUsername samplePlatform sampleConfig "alice.rig01" = some ("alice", "rig01") := by
    decide +kernel
  rw [hnames] at hparse
  cases hparse
  decide +kernel

/-- The name is looked up as it was sent and stored as it was sanitised: the
second connection with the same name and password is refused. -/
theorem sanitised_name_locks_out : ∃ w,
    Provisions samplePlatform sampleNetwork sampleConfig (sampleDraw 1000 7) sampleGateway .btc
      "my_rig.w1" "x" "10.0.0.9" w ∧
    (authenticate samplePlatform sampleNetwork sampleConfig (sampleDraw 2000 8)
      (sampleClaim "my_rig.w1").1 .btc "my_rig.w1" "x" "10.0.0.9").2.isNone = true ∧
    ¬ Stable samplePlatform sampleNetwork sampleConfig (sampleDraw 1000 7) (sampleClaim "my_rig.w1").1
      .btc "my_rig.w1" "x" w := by
  have hids : (sampleClaim "my_rig.w1").1.workers.rows.map WorkerRow.id = [7] := by decide +kernel
  obtain ⟨w, hw⟩ := sampleClaim_provisions hids
  refine ⟨w, hw, by decide +kernel, fun h => ?_⟩
  have hnames : parseUsername samplePlatform sampleConfig "my_rig.w1" = some ("my_rig", "w1") := by
    decide +kernel
  have hclean := (sanitary_of_stable samplePlatform_trusted hw h _ _ hnames).1
  exact absurd hclean (by decide +kernel)

end Sample

end Bitmine.ClaimedIdentity
