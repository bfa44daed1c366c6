import Bitmine.ClaimedIdentity

namespace Bitmine.FirstConnection

open Bitmine.Lib.UniqueTable Bitmine.Lib.GroupSum Bitmine.Schema
open Bitmine.Security Bitmine.Provisioning Bitmine.Slugs Bitmine.ClaimedIdentity

variable (p : Platform) (net : Network) (cfg : Config)

/-- An active customer's first connection as `slug.worker`, both of them names that the
administrators' forms accept. -/
structure First (env : Draw) (s : Gateway) (asset : AssetCode) (c : CustomerRow)
    (worker remoteIp : String) : Prop where
  enabled : cfg.autoProvision = true
  allowed : (countAttempt p s remoteIp).2 ≤ cfg.maxPerIpPerHour
  customer : c ∈ s.customers.rows
  active : c.status = .active
  customerSlug : CreateCustomerDto.slug c.slug = true
  workerSlug : CreateWorkerDto.slug worker = true
  new : ∀ w ∈ s.workers.rows, w.customerId = c.id → w.asset = asset → w.slug ≠ worker
  fresh : ∀ w ∈ s.workers.rows, w.id ≠ env.workerId

/-- The call creates the worker under exactly this customer. -/
def Attaches (env : Draw) (s : Gateway) (asset : AssetCode) (c : CustomerRow)
    (worker password remoteIp : String) : Prop :=
  ∃ w, (authenticate p net cfg env s asset (c.slug ++ "." ++ worker) password remoteIp).1.workers.rows =
      s.workers.rows ++ [w] ∧
    w.customerId = c.id ∧ w.asset = asset ∧ w.slug = worker

section Calls

variable {p net cfg} {env : Draw} {s : Gateway} {asset : AssetCode} {c : CustomerRow}
  {worker password remoteIp : String}

theorem parseUsername_dotted (hp : Lowers p) {slug : String} (h : slugPattern slug = true)
    (worker : String) : parseUsername p cfg (slug ++ "." ++ worker) = some (slug, worker) := by
  obtain ⟨hne, hchars⟩ := slugPattern_chars h
  have hdot : ∀ d ∈ slug.toList, decide (d ≠ '.') = true := by
    intro d hd
    have hd' := hchars d hd
    simp only [ne_eq, decide_eq_true_eq]
    rintro rfl
    exact absurd hd' (by decide)
  have hsplit : (slug ++ "." ++ worker).toList = slug.toList ++ '.' :: worker.toList := by
    simp
  simp only [parseUsername, hsplit, List.takeWhile_append_of_pos hdot,
    List.dropWhile_append_of_pos hdot]
  simp only [List.takeWhile, List.dropWhile, decide_false, ne_eq, not_true_eq_false,
    List.append_nil, String.ofList_toList]
  rw [if_pos hne, hp slug hchars]

theorem findActiveWorker_new (h : First p cfg env s asset c worker remoteIp) :
    findActiveWorker s asset c.slug worker = none := by
  by_contra hfound
  obtain ⟨⟨w, d⟩, hfind⟩ := Option.ne_none_iff_exists'.mp hfound
  obtain ⟨hw, hd, hcustomer, hslug, hworker, hasset⟩ := findActiveWorker_spec hfind
  have hdc : d = c := s.customers.eq_of_clash hd h.customer
    (.inr ⟨congrArg some hslug, rfl⟩)
  exact h.new w hw (hcustomer.trans (congrArg CustomerRow.id hdc)) hasset hworker

variable (password) in
/-- Under an existing customer's slug the transaction adds the worker to that customer. -/
theorem provision_known (h : First p cfg env s asset c worker remoteIp) (s' : Gateway)
    (hcs : s'.customers = s.customers) (hws : s'.workers = s.workers) :
    ∃ provisioned, provision p cfg env s' asset c.slug worker password =
        some (provisioned, newWorker p cfg env c.id asset worker password, c) ∧
      provisioned.workers.rows =
        s.workers.rows ++ [newWorker p cfg env c.id asset worker password] := by
  have hfind : s'.customers.find? (hasSlug c.slug) = some c := by
    rw [hcs]
    refine Table.find?_eq_of_mem h.customer (by simp [hasSlug]) (fun d _ hd => ?_)
    exact .inr ⟨congrArg some (by simpa [hasSlug] using hd), rfl⟩
  have hnone : s'.workers.rows.any (fun w =>
      w.customerId = c.id && w.asset = asset && w.slug = worker) = false := by
    rw [hws, List.any_eq_false]
    intro w hw hmatch
    simp only [Bool.and_eq_true, decide_eq_true_eq] at hmatch
    exact h.new w hw hmatch.1.1 hmatch.1.2 hmatch.2
  have hclash : ∀ w ∈ s'.workers.rows, ¬ Clash w (newWorker p cfg env c.id asset worker password) := by
    rw [hws]
    rintro w hw (hid | ⟨hkey, _⟩)
    · exact h.fresh w hw hid
    · simp only [Row.uniq, newWorker, Option.some.injEq, Prod.mk.injEq] at hkey
      exact h.new w hw hkey.1 hkey.2.1 hkey.2.2
  simp only [provision, findOrCreateCustomer, hfind, Option.bind_eq_bind, Option.bind_some,
    h.active, ne_eq, not_true_eq_false, if_false, hnone, Bool.false_eq_true, Table.insert,
    dif_pos hclash, Option.pure_def]
  exact ⟨_, rfl, congrArg (fun t : Table WorkerRow => t.rows ++ [_]) hws⟩

theorem attaches_of_unchanged (hp : Lowers p) (h : First p cfg env s asset c worker remoteIp)
    (hcustomer : sanitizeCustomerSlug p env.hex c.slug = c.slug) :
    Attaches p net cfg env s asset c worker password remoteIp := by
  obtain ⟨provisioned, hprovision, hrows⟩ := provision_known password h
    (countAttempt p s remoteIp).1 rfl rfl
  refine ⟨newWorker p cfg env c.id asset worker password, ?_, rfl, rfl, rfl⟩
  simp only [authenticate, parseUsername_dotted hp h.customerSlug, findActiveWorker_new h, h.enabled,
    Bool.not_true, Bool.false_eq_true, if_false, autoProvision, if_neg (not_lt.mpr h.allowed),
    hcustomer, sanitizeWorkerSlug_eq_self h.workerSlug, hprovision]
  rw [(finalize_tables env provisioned _ c asset).2.1, hrows]

theorem unchanged_of_attaches (hp : Lowers p) (h : First p cfg env s asset c worker remoteIp)
    (hattaches : Attaches p net cfg env s asset c worker password remoteIp) :
    sanitizeCustomerSlug p env.hex c.slug = c.slug := by
  obtain ⟨w, hrows, hid, _, _⟩ := hattaches
  obtain ⟨_, hsame, _⟩ | ⟨customerSlug, workerSlug, x, d, hparse, _, hcreated⟩ :=
    authenticate_cases p net cfg env s asset (c.slug ++ "." ++ worker) password remoteIp
  · rw [hsame] at hrows
    exact absurd (congrArg List.length hrows) (by simp)
  · rw [parseUsername_dotted hp h.customerSlug, Option.some.injEq, Prod.mk.injEq] at hparse
    obtain ⟨rfl, rfl⟩ := hparse
    have hxw : w = x := by
      have hboth := hrows.symm.trans hcreated.workers
      simpa using List.append_cancel_left hboth
    have hdid : d.id = c.id := by
      rw [← hid, hxw, hcreated.worker]
      rfl
    have hdc := Table.eq_of_id _ hcreated.customer (hcreated.customers c h.customer) hdid
    rw [← hcreated.slug, hdc]

end Calls

/-- A slug of the grammar is left alone exactly when no two dashes stand side by side
in it, and exactly then a first connection under it creates the worker where it belongs. -/
theorem attaches_iff_single {p : Platform} (hp : Lowers p) (net : Network) (cfg : Config) :
    (∀ hex slug, isHex8 hex = true → CreateCustomerDto.slug slug = true →
      (sanitizeCustomerSlug p hex slug = slug ↔ SingleDashes slug.toList)) ∧
    (∀ slug, CreateWorkerDto.slug slug = true → sanitizeWorkerSlug slug = slug) ∧
    ∀ env s asset c worker password remoteIp, First p cfg env s asset c worker remoteIp →
      (Attaches p net cfg env s asset c worker password remoteIp ↔ SingleDashes c.slug.toList) := by
  have hcustomer : ∀ hex slug, isHex8 hex = true → CreateCustomerDto.slug slug = true →
      (sanitizeCustomerSlug p hex slug = slug ↔ SingleDashes slug.toList) := by
    intro hex slug hhex haccepted
    rw [sanitizeCustomerSlug_eq hp hhex, ← accepted_single_iff]
    exact and_iff_right haccepted
  refine ⟨hcustomer, fun slug h => sanitizeWorkerSlug_eq_self h, ?_⟩
  intro env s asset c worker password remoteIp h
  rw [← hcustomer env.hex c.slug env.isHex h.customerSlug]
  exact ⟨unchanged_of_attaches hp h, attaches_of_unchanged hp h⟩

section Sample

def sampleCustomer (slug : String) : CustomerRow := ⟨3, slug, "Customer", .active⟩

def sampleStart (slug : String) : Option Gateway := do
  let customers ← (Table.empty.insert (⟨4, "a-b", "Other", .active⟩ : CustomerRow)) >>=
    (fun t => t.insert (sampleCustomer slug))
  pure { sampleGateway with customers := customers }

theorem sampleStart_first {slug : String} {s : Gateway} (hs : sampleStart slug = some s)
    (hslug : CreateCustomerDto.slug slug = true) :
    First samplePlatform sampleConfig (sampleDraw 1000 7) s .btc (sampleCustomer slug) "rig1"
      "10.0.0.9" := by
  simp only [sampleStart, Option.bind_eq_bind, Option.bind_eq_some_iff, Option.pure_def,
    Option.some.injEq] at hs
  obtain ⟨customers, ⟨_, _, hinsert⟩, rfl⟩ := hs
  refine ⟨rfl, show 0 + 1 ≤ 20 by decide, ?_, rfl, hslug, by decide, fun w hw => (by cases hw),
    fun w hw => (by cases hw)⟩
  rw [(Table.insert_eq_some hinsert).1]
  simp

theorem attaches_iff_single_sample : ∃ s, sampleStart "acme-1" = some s ∧
    sanitizeCustomerSlug samplePlatform "0a1b2c3d" "acme-1" = "acme-1" ∧
    Attaches samplePlatform sampleNetwork sampleConfig (sampleDraw 1000 7) s .btc
      (sampleCustomer "acme-1") "rig1" "x" "10.0.0.9" := by
  obtain ⟨s, hs⟩ := Option.isSome_iff_exists.mp (show (sampleStart "acme-1").isSome = true by decide)
  obtain ⟨hcustomer, _, hattaches⟩ :=
    attaches_iff_single samplePlatform_lowers sampleNetwork sampleConfig
  have hsingle : SingleDashes "acme-1".toList := by decide
  refine ⟨s, hs, (hcustomer _ _ (by decide) (by decide)).mpr hsingle, ?_⟩
  exact (hattaches _ _ _ _ _ _ _ (sampleStart_first hs (by decide))).mpr hsingle

/-- The worker of the customer `a--b` is created under the customer `a-b`. -/
theorem doubled_dash_misattributed :
    CreateCustomerDto.slug "a--b" = true ∧
    sanitizeCustomerSlug samplePlatform "0a1b2c3d" "a--b" = "a-b" ∧
    ∃ s, sampleStart "a--b" = some s ∧
      First samplePlatform sampleConfig (sampleDraw 1000 7) s .btc (sampleCustomer "a--b") "rig1"
        "10.0.0.9" ∧
      (authenticate samplePlatform sampleNetwork sampleConfig (sampleDraw 1000 7) s .btc "a--b.rig1" "x"
        "10.0.0.9").1.workers.rows.map (fun w => (w.customerId, w.slug)) = [(4, "rig1")] := by
  refine ⟨by decide, by decide +kernel, ?_⟩
  have hrun : (sampleStart "a--b").map (fun s => (authenticate samplePlatform sampleNetwork
      sampleConfig (sampleDraw 1000 7) s .btc "a--b.rig1" "x"
      "10.0.0.9").1.workers.rows.map (fun w => (w.customerId, w.slug))) = some [(4, "rig1")] := by
    decide +kernel
  obtain ⟨s, hs, hworkers⟩ := Option.map_eq_some_iff.mp hrun
  exact ⟨s, hs, sampleStart_first hs (by decide), hworkers⟩

end Sample

end Bitmine.FirstConnection
