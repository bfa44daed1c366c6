import Bitmine.AccountConsistency
import Bitmine.SingleCredit
import Bitmine.ReorgHalt

namespace Bitmine.WorkAccounts

open Bitmine.Lib.UniqueTable Bitmine.Lib.GroupSum Bitmine.Lib.Throwing Bitmine.Lib.Await
open Bitmine.Schema Bitmine.Deployment Bitmine.LedgerPosting Bitmine.AllocateDeposit
open Bitmine.AllocationSpec Bitmine.Deposits Bitmine.Shares Bitmine.Payouts Bitmine.Execute
open Bitmine.PayoutHistory Bitmine.Commitments Bitmine.System Bitmine.Income Bitmine.PoolAccounts
open Bitmine.AccountConsistency

structure Account where
  asset : AssetCode
  accountKey : String
  deriving DecidableEq

/-- The system together with the full rows of its upstreams and two facts about
the past: for which account a share was submitted, and which account received
a deposit. -/
structure Pools where
  world : World
  endpoints : Table Endpoint
  shareAccounts : Id × Instant → Option Account
  depositAccounts : Id → Option Account

def findEndpoint (t : Table Endpoint) (id : Id) : Option Endpoint := t.find? (fun u => u.id = id)

def accountOf (t : Table Endpoint) (id : Id) : Option Account :=
  (findEndpoint t id).map (fun u => ⟨u.asset, u.accountKey⟩)

def shareKey (s : ShareEvent) : Id × Instant := (s.id, s.submittedAt)

def submittedFor (t : Table Endpoint) (s : ShareEvent) : Option Account := accountOf t s.upstreamId

def receivedBy (t : Table Endpoint) (d : Deposit) : Option Account :=
  (findEndpoint t d.upstreamId).map (fun u => ⟨d.asset, u.accountKey⟩)

/-- Take down the accounts of the rows that have just appeared. -/
def Pools.record (p : Pools) (w : World) : Pools :=
  { p with
    world := w
    shareAccounts := fun k => (p.shareAccounts k).orElse (fun _ =>
      (w.db.shareEvents.find? (fun s => shareKey s = k)).bind (submittedFor p.endpoints))
    depositAccounts := fun id => (p.depositAccounts id).orElse (fun _ =>
      (w.db.deposits.find? (fun d => d.id = id)).bind (receivedBy p.endpoints)) }

def foreignKeyViolation : String := "Foreign key constraint violated"

def referential (t : Table Endpoint) (db : Database) : Bool :=
  db.shareEvents.rows.all (fun s => (findEndpoint t s.upstreamId).isSome) &&
    db.deposits.rows.all (fun d => (findEndpoint t d.upstreamId).isSome)

def effect (rt : Runtime) (p : Pools) (r : Call) (a : Answer) : Except String (Pools × Option Call) := do
  let (w, o) ← System.effect rt p.world r a
  if referential p.endpoints w.db then pure (p.record w, o) else .error foreignKeyViolation

inductive Event where
  | request (q : Request)
  | other (e : Change)

def withUpstreams (w : World) (t : Table Upstream) : World := w.store { w.db with upstreams := t }

def event (rt : Runtime) (p : Pools) : Event → Pools
  | .request q =>
    let t := PoolAccounts.perform rt.primitives p.endpoints q
    { p with endpoints := t, world := withUpstreams p.world (upstreams t) }
  | .other e => { p with world := withUpstreams (change p.world e) p.world.db.upstreams }

def pools (rt : Runtime) : Machine Pools Call Answer Event :=
  ⟨Call.entry, effect rt, System.handler, fun p r b => System.background p.world r b, event rt⟩

def Pools.start (w : World) (t : Table Endpoint) : Pools :=
  ⟨withUpstreams w (upstreams t), t, fun _ => none, fun _ => none⟩

section Frame

variable {rt : Runtime} {w w' : World} {a : Answer} {r : Call}

theorem postItem_upstreams {b : PayoutBatch} {db db' : Database} {i : PayoutItem}
    (h : postItem a b db i = .ok db') : db'.upstreams = db.upstreams := by
  rw [postItem] at h
  split at h
  · cases h
    rfl
  · simp only [bind_eq_ok] at h
    obtain ⟨mid, hj, hu⟩ := h
    obtain ⟨_, _, hframe⟩ := postJournal_ok hj
    obtain ⟨_, hframe'⟩ := updateItem_ok hu
    rw [hframe', hframe]
    rfl

theorem postTransaction_upstreams {db db' : Database} {id : Id} {held : Held} {ids : List String}
    (h : postTransaction a db id held ids = .ok db') : db'.upstreams = db.upstreams := by
  simp only [postTransaction, bind_eq_ok] at h
  obtain ⟨mid, hl, hu⟩ := h
  have hmid : mid.upstreams = db.upstreams :=
    foldlM_invariant (fun d => d.upstreams = db.upstreams) held.items
      (fun i _ d d' hd hp => (postItem_upstreams hp).trans hd) rfl hl
  rw [(updateBatch_ok hu).2.2]
  exact hmid

theorem executed_upstreams {c : ExecuteCall} {o : Option ExecuteCall}
    (h : Executed rt w c a w' o) : w'.db.upstreams = w.db.upstreams := by
  cases h with
  | acquire | checkReorg | unsigned | opened | readPolicy | prepare | known | unknown | readResult
  | fails | failsLater | release | broadcast => rfl
  | persist hp hs hd =>
    rw [World.observe_db, World.store_db, (persistTransaction_ok hd).2.2.2]
    rfl
  | post hp hd => exact postTransaction_upstreams hd
  | markFailed hp hd =>
    rw [World.store_db, (updateBatch_ok hd).2.2]
    rfl

theorem journals_upstreams {db db' : Database} (h : Journals a db db') :
    db'.upstreams = db.upstreams := by
  cases h with
  | idle h => rw [h]
  | inserts _ hf => rw [hf]; rfl
  | judges _ _ hf => rw [hf]; rfl

/-- No call of the services writes the upstreams. -/
theorem acted_upstreams {o : Option Call} (h : Acted rt w a r w' o) :
    w'.db.upstreams = w.db.upstreams := by
  have halloc : ∀ {db depositId batch}, allocateDeposit a.groupOrder (allocationIds a) a.now w.db
      depositId = .ok (batch, db) → db.upstreams = w.db.upstreams := by
    intro db depositId batch hd
    obtain ⟨rfl, _, _⟩ | ⟨_, _, _, _, _, _, hc⟩ := allocateDeposit_ok hd
    · rfl
    · rw [hc.frame]
      rfl
  cases h with
  | allocate hd => exact halloc hd
  | scan hs =>
    cases hs with
    | readUpstreams | scanReceipts | locked | read | reorg | upsert => rfl
    | allocate hd => exact halloc hd
  | share hs => exact journals_upstreams hs
  | prepares | preparesOperator => rfl
  | plans hp | plansOperator hp =>
    rw [World.store_db, hp.created.frame]
    rfl
  | approve hx =>
    cases hx with
    | assertTotp | readBatch => rfl
    | write hd =>
      rw [World.store_db, (updateBatch_ok hd).2.2]
      rfl
  | execute hx => exact executed_upstreams hx
  | reconcile hx =>
    cases hx with
    | list | pass | enough => rfl
    | write hd =>
      rw [World.store_db, (updateBatch_ok hd).2.2]
      rfl

end Frame

def Due (s : ShareEvent) : Prop := s.status = .accepted ∧ s.allocationBatchId = none

/-- A share stays with its endpoint, and it is due only when it was before or is
accepted now. -/
structure SameEndpoint (accepted : ShareEvent → Prop) (s s' : ShareEvent) : Prop where
  upstreamId : s'.upstreamId = s.upstreamId
  due : Due s' → accepted s ∨ Due s

theorem SameEndpoint.refl {accepted : ShareEvent → Prop} (s : ShareEvent) :
    SameEndpoint accepted s s := ⟨rfl, .inr⟩

theorem SameEndpoint.trans (s t u : ShareEvent) (h : SameEndpoint (fun _ => False) s t)
    (h' : SameEndpoint (fun _ => False) t u) : SameEndpoint (fun _ => False) s u :=
  ⟨h'.upstreamId.trans h.upstreamId, fun hu => h.due ((h'.due hu).resolve_left id)⟩

def SharesDescend (accepted : ShareEvent → Prop) (db db' : Database) : Prop :=
  Descends shareKey (SameEndpoint accepted) db.shareEvents.rows db'.shareEvents.rows

theorem giveUp_sameEndpoint {accepted : ShareEvent → Prop} (now : Instant) (reason : String)
    (s : ShareEvent) : shareKey (giveUp now reason s) = shareKey s ∧
      SameEndpoint accepted s (giveUp now reason s) :=
  ⟨rfl, rfl, fun hd => by cases hd.1⟩

theorem unknown_descends (now : Instant) (reason : String) (references : List ShareReference)
    (db : Database) :
    SharesDescend (fun _ => False) db (Shares.unknown db now references reason) := by
  induction references generalizing db with
  | nil => exact .refl .refl
  | cons r references ih =>
    refine Descends.trans SameEndpoint.trans ?_ (ih _)
    exact .of_update (giveUp now (slice 1000 reason)) .refl (giveUp_sameEndpoint now _) rfl

def Accepts (r : ShareCall) (s : ShareEvent) : Prop :=
  ∃ reference latencyMs reason, r = .resolve reference true latencyMs reason ∧
    matchesReference reference s = true

theorem verdict_descends {l : List ShareEvent} (now : Instant) (reference : ShareReference)
    (accepted : Bool) (latencyMs : ℤ) (reason : Option String) :
    Descends shareKey (SameEndpoint (Accepts (.resolve reference accepted latencyMs reason))) l
      (l.map (fun s => if matchesReference reference s then
        verdict now accepted latencyMs reason s else s)) := by
  refine .of_map (f := fun s => if matchesReference reference s then
    verdict now accepted latencyMs reason s else s) (fun s => ?_) (fun s => ?_) rfl
  · split <;> rfl
  · split
    · rename_i hm
      refine ⟨rfl, fun hd => ?_⟩
      cases accepted with
      | true => exact .inl ⟨reference, latencyMs, reason, rfl, hm⟩
      | false => cases hd.1
    · exact .refl s

theorem step_descends {db db' : Database} {call : ShareCall} {a : Answer} {o : Option ShareCall}
    (h : Shares.step db call a = .ok (db', o)) : SharesDescend (Accepts call) db db' := by
  cases call with
  | readPolicy input =>
    simp only [Shares.step, bind_eq_ok, pure_eq_ok] at h
    obtain ⟨_, _, he⟩ := h
    cases he
    exact .refl .refl
  | create input splitPolicyId =>
    simp only [Shares.step, bind_eq_ok, orThrow_eq_ok, pure_eq_ok] at h
    obtain ⟨shares, hi, he⟩ := h
    cases he
    obtain ⟨hrows, hnew⟩ := Table.insert_eq_some hi
    exact .of_append .refl (fun s hs he => hnew s hs (.inl he)) hrows
  | resolve r accepted latencyMs reason =>
    simp only [Shares.step, Shares.resolve, bind_eq_ok, orThrow_eq_ok, pure_eq_ok] at h
    obtain ⟨_, ⟨_, _, _, _, rfl⟩, he⟩ := h
    cases he
    exact verdict_descends a.now r accepted latencyMs reason
  | unknown references reason =>
    cases h
    exact (unknown_descends a.now reason references db).mono
      (fun _ _ hs => ⟨hs.upstreamId, fun hd => .inr ((hs.due hd).resolve_left id)⟩)
  | reconcilePending =>
    cases h
    exact .of_update (giveUp a.now "Gateway response was not recorded") .refl
      (giveUp_sameEndpoint a.now _) rfl

structure SameReceiver (d d' : Deposit) : Prop where
  asset : d'.asset = d.asset
  upstreamId : d'.upstreamId = d.upstreamId

theorem SameReceiver.refl (d : Deposit) : SameReceiver d d := ⟨rfl, rfl⟩

section Descent

variable {rt : Runtime} {w w' : World} {a : Answer} {r : Call}

def AcceptsShare (r : Call) (s : ShareEvent) : Prop := ∃ c, r = .share c ∧ Accepts c s

theorem effect_shares {o : Option Call} (h : System.effect rt w r a = .ok (w', o)) :
    SharesDescend (AcceptsShare r) w.db w'.db := by
  have hsame : ∀ {db : Database}, db.shareEvents = w.db.shareEvents →
      SharesDescend (AcceptsShare r) w.db db := by
    intro db he
    rw [SharesDescend, he]
    exact .refl .refl
  by_cases hr : ∃ c, r = .share c
  · obtain ⟨c, rfl⟩ := hr
    obtain ⟨⟨db, o'⟩, hs, he⟩ := map_eq_ok.mp h
    cases he
    exact (step_descends hs).mono
      (fun _ _ hs => ⟨hs.upstreamId, fun hd => (hs.due hd).imp_left (fun ha => ⟨c, rfl, ha⟩)⟩)
  · cases acted_flow (effect_acted h) with
    | pays hp => exact hsame hp.shareEvents
    | share => exact absurd ⟨_, rfl⟩ hr
    | reorg | upsert => exact hsame rfl
    | @allocates _ db _ endpointIds _ hc =>
      exact .of_update (ShareEvent.stamp (allocationIds a).batchId) .refl
        (fun s => ⟨rfl, rfl, fun hd => (by cases hd.2)⟩) hc.shares

theorem flow_deposits (h : Flow w a r w') :
    Descends Deposit.id SameReceiver w.db.deposits.rows w'.db.deposits.rows := by
  have hsame : ∀ {db : Database}, db.deposits = w.db.deposits →
      Descends Deposit.id SameReceiver w.db.deposits.rows db.deposits.rows := by
    intro db he
    rw [he]
    exact .refl .refl
  cases h with
  | pays hp => exact hsame hp.deposits
  | share hj => exact hsame (journals_deposits hj).1
  | @reorg scan receipt existing deposits hd =>
    subst hd
    exact .of_update (markReorged receipt) .refl (fun _ => ⟨rfl, rfl, rfl⟩) rfl
  | @upsert scan receipt upstream existing deposits hd =>
    unfold Table.upsert at hd
    split at hd
    · cases hd
      exact .of_update (refresh a.now receipt existing) .refl (fun _ => ⟨rfl, rfl, rfl⟩) rfl
    · obtain ⟨hrows, hnew⟩ := Table.insert_eq_some hd
      exact .of_append .refl (fun d hd he => hnew d hd (.inl he)) hrows
  | allocates hc => exact .of_update (Deposit.allocate a.now) .refl (fun _ => ⟨rfl, rfl, rfl⟩) hc.deposits

theorem flow_batches (h : Flow w a r w') {b : AllocationBatch}
    (hb : b ∈ w.db.allocationBatches.rows) : b ∈ w'.db.allocationBatches.rows := by
  obtain ⟨he, _⟩ | ⟨_, _, _, hc⟩ := h.ledger
  · exact he ▸ hb
  · rw [hc.batches]
    exact List.mem_append_left _ hb

end Descent

/-- What is known about the past agrees with the present for all that is still
to be allocated. -/
structure Tracked (p : Pools) : Prop where
  upstreams : p.world.db.upstreams = upstreams p.endpoints
  share : ∀ s ∈ p.world.db.shareEvents.rows, ∃ acc, p.shareAccounts (shareKey s) = some acc ∧
    (Due s → submittedFor p.endpoints s = some acc)
  shareKnown : ∀ k acc, p.shareAccounts k = some acc →
    ∃ s ∈ p.world.db.shareEvents.rows, shareKey s = k
  deposit : ∀ d ∈ p.world.db.deposits.rows, ∃ acc, p.depositAccounts d.id = some acc ∧
    ((∀ b ∈ p.world.db.allocationBatches.rows, b.depositId ≠ d.id) →
      receivedBy p.endpoints d = some acc)
  depositKnown : ∀ id acc, p.depositAccounts id = some acc →
    ∃ d ∈ p.world.db.deposits.rows, d.id = id

section Record

variable {p : Pools} {w : World}

theorem record_share_old {k : Id × Instant} {acc : Account} (h : p.shareAccounts k = some acc) :
    (p.record w).shareAccounts k = some acc := by
  simp [Pools.record, h]

theorem record_deposit_old {id : Id} {acc : Account} (h : p.depositAccounts id = some acc) :
    (p.record w).depositAccounts id = some acc := by
  simp [Pools.record, h]

theorem record_share_new {s : ShareEvent} (h : p.shareAccounts (shareKey s) = none)
    (hs : s ∈ w.db.shareEvents.rows) :
    (p.record w).shareAccounts (shareKey s) = submittedFor p.endpoints s := by
  have hfind : w.db.shareEvents.find? (fun s' => shareKey s' = shareKey s) = some s :=
    Table.find?_eq_of_mem hs (by simp)
      (fun s' _ hk => .inl (show shareKey s' = shareKey s from of_decide_eq_true hk))
  simp [Pools.record, h, hfind]

theorem record_deposit_new {d : Deposit} (h : p.depositAccounts d.id = none)
    (hd : d ∈ w.db.deposits.rows) :
    (p.record w).depositAccounts d.id = receivedBy p.endpoints d := by
  have hfind : w.db.deposits.find? (fun d' => d'.id = d.id) = some d :=
    Table.find?_eq_of_mem hd (by simp)
      (fun d' _ hk => .inl (show d'.id = d.id from of_decide_eq_true hk))
  simp [Pools.record, h, hfind]

theorem record_shareKnown {k : Id × Instant} {acc : Account}
    (h : (p.record w).shareAccounts k = some acc) :
    p.shareAccounts k = some acc ∨ ∃ s ∈ w.db.shareEvents.rows, shareKey s = k := by
  cases hk : p.shareAccounts k with
  | some acc' => exact .inl (by simpa [Pools.record, hk] using h)
  | none =>
    simp only [Pools.record, hk, Option.orElse_none, Option.bind_eq_some_iff] at h
    obtain ⟨s, hs, _⟩ := h
    obtain ⟨hm, hkey⟩ := Table.find?_mem hs
    exact .inr ⟨s, hm, of_decide_eq_true hkey⟩

theorem record_depositKnown {id : Id} {acc : Account}
    (h : (p.record w).depositAccounts id = some acc) :
    p.depositAccounts id = some acc ∨ ∃ d ∈ w.db.deposits.rows, d.id = id := by
  cases hk : p.depositAccounts id with
  | some acc' => exact .inl (by simpa [Pools.record, hk] using h)
  | none =>
    simp only [Pools.record, hk, Option.orElse_none, Option.bind_eq_some_iff] at h
    obtain ⟨d, hd, _⟩ := h
    obtain ⟨hm, hid⟩ := Table.find?_mem hd
    exact .inr ⟨d, hm, of_decide_eq_true hid⟩

end Record

section Effect

variable {rt : Runtime} {p p' : Pools} {a : Answer} {r : Call} {o : Option Call}

theorem effect_ok (h : effect rt p r a = .ok (p', o)) : ∃ w,
    System.effect rt p.world r a = .ok (w, o) ∧ referential p.endpoints w.db = true ∧
      p' = p.record w := by
  simp only [effect, bind_eq_ok] at h
  obtain ⟨⟨w, o'⟩, he, h⟩ := h
  dsimp only at h
  split at h
  · rename_i href
    cases h
    exact ⟨w, he, href, rfl⟩
  · cases h

/-- A share is accepted while its endpoint is in the account it was submitted for. -/
def AcceptedInPlace (p : Pools) (r : Call) (_ : Answer) : Prop :=
  ∀ s ∈ p.world.db.shareEvents.rows, AcceptsShare r s →
    submittedFor p.endpoints s = p.shareAccounts (shareKey s)

theorem effect_tracked (ht : Tracked p) (hplace : AcceptedInPlace p r a)
    (h : effect rt p r a = .ok (p', o)) : Tracked p' := by
  obtain ⟨w, he, href, rfl⟩ := effect_ok h
  have hshares := effect_shares he
  have hflow := acted_flow (effect_acted he)
  have hdeposits := flow_deposits hflow
  simp only [referential, Bool.and_eq_true, List.all_eq_true, Option.isSome_iff_exists] at href
  refine ⟨(acted_upstreams (effect_acted he)).trans ht.upstreams, ?_, ?_, ?_, ?_⟩
  · intro s' hs'
    obtain ⟨s, hs, hkey, hsame⟩ | hnew := hshares.origin s' hs'
    · obtain ⟨acc, hacc, hopen⟩ := ht.share s hs
      refine ⟨acc, record_share_old (hkey ▸ hacc), fun hd => ?_⟩
      have hsub : submittedFor p.endpoints s = some acc := by
        obtain haccepts | hdue := hsame.due hd
        · exact (hplace s hs haccepts).trans hacc
        · exact hopen hdue
      rwa [submittedFor, ← hsame.upstreamId] at hsub
    · have hnone : p.shareAccounts (shareKey s') = none := by
        by_contra hne
        obtain ⟨acc, hacc⟩ := Option.ne_none_iff_exists'.mp hne
        obtain ⟨s, hs, hk⟩ := ht.shareKnown _ _ hacc
        exact hnew s hs hk
      obtain ⟨u, hu⟩ := href.1 s' hs'
      refine ⟨⟨u.asset, u.accountKey⟩, ?_, fun _ => ?_⟩
      · rw [record_share_new (w := w) hnone hs', submittedFor, accountOf, hu, Option.map_some]
      · show submittedFor p.endpoints s' = _
        rw [submittedFor, accountOf, hu, Option.map_some]
  · intro k acc hk
    obtain hk | hk := record_shareKnown hk
    · obtain ⟨s, hs, hkey⟩ := ht.shareKnown k acc hk
      obtain ⟨s', hs', hkey'⟩ := hshares.kept s hs
      exact ⟨s', hs', hkey'.symm.trans hkey⟩
    · exact hk
  · intro d' hd'
    obtain ⟨d, hd, hid, hsame⟩ | hnew := hdeposits.origin d' hd'
    · obtain ⟨acc, hacc, hopen⟩ := ht.deposit d hd
      refine ⟨acc, record_deposit_old (hid ▸ hacc), fun hn => ?_⟩
      have hrec := hopen (fun b hb => hid ▸ hn b (flow_batches hflow hb))
      rwa [receivedBy, ← hsame.upstreamId, ← hsame.asset] at hrec
    · have hnone : p.depositAccounts d'.id = none := by
        by_contra hne
        obtain ⟨acc, hacc⟩ := Option.ne_none_iff_exists'.mp hne
        obtain ⟨d, hd, hk⟩ := ht.depositKnown _ _ hacc
        exact hnew d hd hk
      obtain ⟨u, hu⟩ := href.2 d' hd'
      refine ⟨⟨d'.asset, u.accountKey⟩, ?_, fun _ => ?_⟩
      · rw [record_deposit_new (w := w) hnone hd', receivedBy, hu, Option.map_some]
      · show receivedBy p.endpoints d' = _
        rw [receivedBy, hu, Option.map_some]
  · intro id acc hk
    obtain hk | hk := record_depositKnown hk
    · obtain ⟨d, hd, hkey⟩ := ht.depositKnown id acc hk
      obtain ⟨d', hd', hkey'⟩ := hdeposits.kept d hd
      exact ⟨d', hd', hkey'.symm.trans hkey⟩
    · exact hk

end Effect

section Events

variable {rt : Runtime} {prim : Security.Primitives} {t t' : Table Endpoint} {q : Request} {id : Id}

/-- A call that moves an endpoint to another account. -/
def Moves (t : Table Endpoint) (id : Id) : Request → Prop
  | .create _ _ => False
  | .update _ id' dto => id' = id ∧ ∀ u ∈ t.rows, u.id = id → joiningExistingAccount dto u = true

/-- An endpoint changes its account only when nothing of it is left to allocate:
none of its shares is due, and every deposit it received has a batch. -/
def SettledMove (p : Pools) : Event → Prop
  | .request q => ∀ id, Moves p.endpoints id q →
      (∀ s ∈ p.world.db.shareEvents.rows, s.upstreamId = id → ¬ Due s) ∧
      ∀ d ∈ p.world.db.deposits.rows, d.upstreamId = id →
        ∃ b ∈ p.world.db.allocationBatches.rows, b.depositId = d.id
  | .other _ => True

theorem create_rows {env : Draw} {dto : CreateUpstream} (h : create prim env t dto = .ok t') :
    ∃ u, t'.rows = t.rows ++ [u] := by
  simp only [create, bind_eq_ok, orThrow_eq_ok] at h
  obtain ⟨_, _, _, _, c, _, t₁, hi, hidx⟩ := h
  cases checkIndexes_ok hidx
  exact ⟨_, (Table.insert_eq_some hi).1⟩

theorem findEndpoint_rewrite {env : Draw} {dto : UpdateUpstream} {before : Endpoint}
    (h : t'.rows = t.rows.map (rewrite prim env dto before)) :
    findEndpoint t' id = (findEndpoint t id).map (rewrite prim env dto before) := by
  have hid : (fun u : Endpoint => decide (u.id = id)) ∘ rewrite prim env dto before =
      fun u => decide (u.id = id) := by
    funext u
    simp only [Function.comp_apply, (rewrite_columns prim env dto before u).1]
  rw [findEndpoint, Table.find?, h, List.find?_map, hid]
  rfl

/-- An endpoint that does not move stays where it is. -/
theorem perform_account {acc : Account} (hmove : ¬ Moves t id q) (h : accountOf t id = some acc) :
    accountOf (PoolAccounts.perform prim t q) id = some acc := by
  rw [PoolAccounts.perform]
  split
  · rename_i t' ht
    obtain ⟨u, hu, hacc⟩ := Option.map_eq_some_iff.mp h
    cases q with
    | create env dto =>
      obtain ⟨u', hrows⟩ := create_rows ht
      have hfind : findEndpoint t' id = some u := by
        rw [findEndpoint, Table.find?, hrows, List.find?_append]
        rw [findEndpoint, Table.find?] at hu
        rw [hu]
        rfl
      rw [accountOf, hfind]
      exact congrArg some hacc
    | update env id' dto =>
      obtain ⟨before, hup⟩ := update_ok ht
      obtain ⟨hm, hid⟩ := Table.find?_mem hu
      have hid : u.id = id := of_decide_eq_true hid
      have hkey : (rewrite prim env dto before u).accountKey = u.accountKey := by
        rw [rewrite]
        split
        · rename_i hown
          have hstay : joiningExistingAccount dto u = false := by
            refine Bool.eq_false_iff.mpr (fun hj => hmove ⟨?_, fun v hv hvid => ?_⟩)
            · rw [← hup.id, ← hown, hid]
            · rwa [t.eq_of_id hv hm (hvid.trans hid.symm)]
          exact not_joining hstay
        · split <;> rfl
      rw [accountOf, findEndpoint_rewrite hup.rows, hu, Option.map_some, Option.map_some, hkey,
        (rewrite_columns prim env dto before u).2.1]
      exact congrArg some hacc
  · exact h

theorem receivedBy_eq {d : Deposit} {acc : Account} : receivedBy t d = some acc ↔
    ∃ acc', accountOf t d.upstreamId = some acc' ∧ acc = ⟨d.asset, acc'.accountKey⟩ := by
  unfold receivedBy accountOf
  cases findEndpoint t d.upstreamId with
  | none => simp
  | some u => simp [eq_comm]

theorem event_tracked {p : Pools} {e : Event} (ht : Tracked p) (he : SettledMove p e) :
    Tracked (event rt p e) := by
  cases e with
  | request q =>
    refine ⟨rfl, fun s hs => ?_, ht.shareKnown, fun d hd => ?_, ht.depositKnown⟩
    · obtain ⟨acc, hacc, hopen⟩ := ht.share s hs
      refine ⟨acc, hacc, fun hd => perform_account (fun hmove => ?_) (hopen hd)⟩
      exact (he _ hmove).1 s hs rfl hd
    · obtain ⟨acc, hacc, hopen⟩ := ht.deposit d hd
      refine ⟨acc, hacc, fun hn => ?_⟩
      obtain ⟨acc', hacc', rfl⟩ := receivedBy_eq.mp (hopen hn)
      refine receivedBy_eq.mpr ⟨acc', perform_account (fun hmove => ?_) hacc', rfl⟩
      obtain ⟨b, hb, hid⟩ := (he _ hmove).2 d hd rfl
      exact hn b hb hid
  | other e =>
    obtain ⟨hup, hs, hsk, hd, hdk⟩ := ht
    cases e with
    | lockVanishes | configure c => exact ⟨hup, hs, hsk, hd, hdk⟩
    | addSplitPolicy policy =>
      simp only [event, change]
      split <;> exact ⟨hup, hs, hsk, hd, hdk⟩

theorem start_tracked {w : World} (hw : w.db.Fresh) (t : Table Endpoint) :
    Tracked (Pools.start w t) := by
  refine ⟨rfl, fun s hs => ?_, fun k acc h => (by cases h), fun d hd => ?_, fun k acc h => (by cases h)⟩
  · have hs' : s ∈ w.db.shareEvents.rows := hs
    rw [hw.shareEvents] at hs'
    cases hs'
  · have hd' : d ∈ w.db.deposits.rows := hd
    rw [hw.deposits] at hd'
    cases hd'

theorem outline (rt : Runtime) : Outline (pools rt) shared AcceptedInPlace SettledMove Tracked
    (fun _ _ => True) (fun _ _ _ => True) where
  entry _ _ _ _ := trivial
  effect _ _ _ _ _ ht _ hplace he :=
    ⟨effect_tracked ht hplace he, trivial, fun _ _ => trivial, fun _ _ _ => trivial⟩
  handler _ _ _ _ _ _ _ := trivial
  background _ _ _ _ _ := trivial
  event _ _ ht he := ⟨event_tracked ht he, fun _ _ => trivial⟩
  stable _ _ _ _ _ _ _ _ := trivial

end Events

/-- An accepted share that no batch has consumed, submitted for the account that
received the deposit. -/
def MinedFor (p : Pools) (d : Deposit) (s : ShareEvent) : Prop :=
  s.status = .accepted ∧ s.allocationBatchId = none ∧
    p.shareAccounts (shareKey s) = p.depositAccounts d.id

instance (p : Pools) (d : Deposit) (s : ShareEvent) : Decidable (MinedFor p d s) :=
  inferInstanceAs (Decidable (_ ∧ _))

/-- What a successful allocation does: nothing when the deposit has its batch,
else it consumes exactly the open work of the account that received the deposit. -/
def ConsumesOwnWork (p p' : Pools) (depositId : Id) : Prop :=
  ((∃ b ∈ p.world.db.allocationBatches.rows, b.depositId = depositId) ∧ p'.world = p.world) ∨
  ∃ d ∈ p.world.db.deposits.rows, d.id = depositId ∧
    ∃ b ∈ p'.world.db.allocationBatches.rows, b.depositId = depositId ∧
      p'.world.db.shareEvents.rows = p.world.db.shareEvents.rows.map (fun s =>
        if MinedFor p d s then s.stamp b.id else s)

section Allocation

variable {rt : Runtime} {p p' : Pools} {a : Answer} {r : Call} {o : Option Call} {depositId : Id}

theorem mem_accountEndpoints {db : Database} {t : Table Endpoint} (hup : db.upstreams = upstreams t)
    {asset : AssetCode} {accountKey : String} {id : Id} :
    id ∈ accountEndpoints db asset accountKey ↔ accountOf t id = some ⟨asset, accountKey⟩ := by
  simp only [accountEndpoints, hup, upstreams, List.mem_map, List.mem_filter, decide_eq_true_eq]
  constructor
  · rintro ⟨_, ⟨⟨u, hu, rfl⟩, hasset, hkey⟩, rfl⟩
    have hfind : findEndpoint t u.upstream.id = some u :=
      Table.find?_eq_of_mem hu (by simp [Endpoint.upstream]) 
        (fun v _ hv => .inl (show v.id = u.id from of_decide_eq_true hv))
    rw [accountOf, hfind, Option.map_some, ← hasset, ← hkey]
    rfl
  · intro h
    obtain ⟨u, hu, hacc⟩ := Option.map_eq_some_iff.mp h
    obtain ⟨hm, hid⟩ := Table.find?_mem hu
    cases hacc
    exact ⟨u.upstream, ⟨⟨u, hm, rfl⟩, rfl, rfl⟩, of_decide_eq_true hid⟩

theorem committed_consumes {db : Database} {d : Deposit} {u : Upstream} {items : List AllocationItem}
    (ht : Tracked p) (hu : u ∈ p.world.db.upstreams.rows) (hid : u.id = d.upstreamId)
    (hc : Committed a.groupOrder (allocationIds a) a.now p.world.db db d
      (accountEndpoints p.world.db d.asset u.accountKey) items) :
    db.shareEvents.rows = p.world.db.shareEvents.rows.map (fun s =>
      if MinedFor p d s then s.stamp (allocationIds a).batchId else s) := by
  -- the deposit has no batch yet, so its endpoint is where it was at the receipt
  obtain ⟨acc, hacc, hopen⟩ := ht.deposit d hc.found
  have hrec := hopen (fun b hb he => hc.newBatch b hb (.inr ⟨congrArg some he, rfl⟩))
  have hkey : acc = ⟨d.asset, u.accountKey⟩ := by
    obtain ⟨acc', hacc', rfl⟩ := receivedBy_eq.mp hrec
    have hmem : d.upstreamId ∈ accountEndpoints p.world.db u.asset u.accountKey :=
      List.mem_map.mpr ⟨u, List.mem_filter.mpr ⟨hu, by simp⟩, hid⟩
    rw [mem_accountEndpoints ht.upstreams, hacc'] at hmem
    cases hmem
    rfl
  rw [hc.shares]
  refine List.map_congr_left (fun s hs => ?_)
  have hiff : openShare (accountEndpoints p.world.db d.asset u.accountKey) s = true ↔
      MinedFor p d s := by
    simp only [openShare, decide_eq_true_eq, MinedFor, mem_accountEndpoints ht.upstreams, hacc]
    obtain ⟨acc', hacc', hopen'⟩ := ht.share s hs
    constructor
    · rintro ⟨hin, hst, hn⟩
      have hsub := hopen' ⟨hst, hn⟩
      rw [submittedFor, hin] at hsub
      exact ⟨hst, hn, by rw [hacc', ← hsub, hkey]⟩
    · rintro ⟨hst, hn, he⟩
      rw [hacc', hkey] at he
      exact ⟨he ▸ hopen' ⟨hst, hn⟩, hst, hn⟩
  simp only [hiff]

theorem effect_consumes (ht : Tracked p) (hr : SingleCredit.allocating r = some depositId)
    (h : effect rt p r a = .ok (p', o)) : ConsumesOwnWork p p' depositId := by
  obtain ⟨w, he, _, rfl⟩ := effect_ok h
  have halloc : ∀ {batch db}, w = p.world.store db → allocateDeposit a.groupOrder (allocationIds a)
      a.now p.world.db depositId = .ok (batch, db) → ConsumesOwnWork p (p.record w) depositId := by
    rintro batch db rfl hd
    obtain ⟨rfl, hb, hid⟩ | ⟨d, endpointIds, items, hid, rfl, ⟨u, hu, huid, rfl⟩, hc⟩ :=
      allocateDeposit_ok hd
    · exact .inl ⟨⟨batch, hb, hid⟩, rfl⟩
    · refine .inr ⟨d, hc.found, hid, allocationBatch (allocationIds a) d items, ?_, hid,
        committed_consumes ht hu huid hc⟩
      show _ ∈ db.allocationBatches.rows
      rw [hc.batches]
      exact List.mem_append_right _ List.mem_cons_self
  cases r with
  | allocate id =>
    cases hr
    cases effect_acted he with
    | allocate hd => exact halloc rfl hd
  | scan c =>
    cases c with
    | allocate scan id =>
      cases hr
      cases effect_acted he with
      | scan hs =>
        cases hs with
        | allocate hd => exact halloc rfl hd
    | readUpstreams | scanReceipts | readDeposit | reorg | upsert => cases hr
  | share | plan | planOperator | approve | execute | reconcile => cases hr

end Allocation

/-- In every run in which an endpoint changes its account only when none of its
shares is due and all its deposits are allocated, and no share is accepted after
its endpoint has left, an allocation consumes exactly the accepted and not yet
allocated shares that were submitted for the account that received the deposit. -/
theorem work_stays_with_account {rt : Runtime} {w : World} {t : Table Endpoint}
    {c : Config Pools Call} (hw : w.db.Fresh)
    (h : (pools rt).Run (Allowed shared AcceptedInPlace SettledMove) (.idle (.start w t)) c)
    {r : Call} {a : Answer} {depositId : Id} {p : Pools} {o : Option Call}
    (hr : SingleCredit.allocating r = some depositId)
    (he : (pools rt).effect c.shared r a = .ok (p, o)) : ConsumesOwnWork c.shared p depositId := by
  have hc := (outline rt).run (keyed_shared _) (Outline.idle (start_tracked hw t)) h
  exact effect_consumes hc.inv hr he

section Sample

def sampleEndpoints : Table Endpoint :=
  .single ⟨1, "pool-a", .btc, .bitcoinStratumV1, "one", "a.example", 3333, false, 100, true, "service",
    none, some "address"⟩

def sampleCall (r : Call) (answers : List Answer) : List (Action Call Answer Event) :=
  .call 0 r :: answers.map (.resolve 0)

def sampleMove : Action Call Answer Event :=
  .event (.request (.update (sampleDraw 0) 1 { accountKey := some poolB }))

def sampleShare : List (Action Call Answer Event) :=
  sampleCall (.share (.readPolicy ⟨.btc, 1, 1, 1, 1, "job", 5⟩))
    [{ now := 1 }, { newId := fun _ => 1, createdAt := 1 }] ++
  sampleCall (.share (.resolve ⟨1, 1⟩ true 20 none)) [{ now := 2 }]

def sampleDeposit : List (Action Call Answer Event) :=
  sampleCall (.scan (.readUpstreams .btc))
    [{}, { receipts := [⟨"txid", "0", "address", 1000, 6, false⟩] }, {},
      { now := 3, newId := fun _ => 1 }]

def sampleAllocation : Answer := { now := 4, newId := fun n => n + 1 }

structure Snapshot where
  submitted : List (Option Account)
  received : Option Account
  batches : List Id
  before : List (Option Id)
  after : Option (List (Option Id))
  deriving DecidableEq

def batchesOf (p : Pools) : List (Option Id) :=
  p.world.db.shareEvents.rows.map ShareEvent.allocationBatchId

def snapshot (c : Config Pools Call) : Snapshot where
  submitted := c.shared.world.db.shareEvents.rows.map (fun s => c.shared.shareAccounts (shareKey s))
  received := c.shared.depositAccounts 1
  batches := c.shared.world.db.allocationBatches.rows.map AllocationBatch.id
  before := batchesOf c.shared
  after := match c.calls 0 with
    | some r => if SingleCredit.allocating r = some 1 then
        (effect sampleRuntime c.shared r sampleAllocation).toOption.map (fun x => batchesOf x.1) else none
    | none => none

theorem snapshot_after {c : Config Pools Call} {l : List (Option Id)}
    (h : (snapshot c).after = some l) : ∃ r p o, c.calls 0 = some r ∧
      SingleCredit.allocating r = some 1 ∧
      (pools sampleRuntime).effect c.shared r sampleAllocation = .ok (p, o) ∧ batchesOf p = l := by
  simp only [snapshot] at h
  split at h
  · rename_i r hr
    split at h
    · rename_i hal
      obtain ⟨⟨p, o⟩, hx, hl⟩ := Option.map_eq_some_iff.mp h
      refine ⟨r, p, o, hr, hal, ?_, hl⟩
      show effect sampleRuntime c.shared r sampleAllocation = _
      cases hres : effect sampleRuntime c.shared r sampleAllocation with
      | ok x =>
        rw [hres] at hx
        cases hx
        rfl
      | error e =>
        rw [hres] at hx
        cases hx
    · cases h
  · cases h

def inPlace (p : Pools) : Bool :=
  p.world.db.shareEvents.rows.all (fun s => submittedFor p.endpoints s = p.shareAccounts (shareKey s))

def settled (c : Config Pools Call) : Action Call Answer Event → Bool
  | .event (.request _) => c.shared.world.db.shareEvents.rows.isEmpty &&
      c.shared.world.db.deposits.rows.isEmpty
  | _ => inPlace c.shared

theorem inPlace_sound {p : Pools} (h : inPlace p = true) (r : Call) (a : Answer) :
    AcceptedInPlace p r a := by
  intro s hs _
  exact of_decide_eq_true (List.all_eq_true.mp h s hs)

theorem settled_sound (c : Config Pools Call) (act : Action Call Answer Event)
    (h : settled c act = true) : Allowed shared AcceptedInPlace SettledMove c act := by
  cases act with
  | event e =>
    cases e with
    | request q =>
      simp only [settled, Bool.and_eq_true, List.isEmpty_iff] at h
      intro id _
      rw [h.1, h.2]
      exact ⟨by simp, by simp⟩
    | other e => trivial
  | call pid r => exact fun q r' _ => .inl rfl
  | resolve | rejectAfter => exact fun _ _ => inPlace_sound h _ _
  | reject | background | stop => trivial

theorem work_stays_with_account_sample : ∃ c r p o,
    (pools sampleRuntime).Run (Allowed shared AcceptedInPlace SettledMove)
      (.idle (.start sampleWorld sampleEndpoints)) c ∧
    SingleCredit.allocating r = some 1 ∧
    (pools sampleRuntime).effect c.shared r sampleAllocation = .ok (p, o) ∧
    batchesOf p = [some 1] ∧ ConsumesOwnWork c.shared p 1 := by
  have hexec : ((pools sampleRuntime).execChecked settled
      (.idle (.start sampleWorld sampleEndpoints))
      (sampleMove :: sampleShare ++ sampleDeposit)).map snapshot =
        some ⟨[some ⟨.btc, "pool-b"⟩], some ⟨.btc, "pool-b"⟩, [], [none], some [some 1]⟩ := by
    decide +kernel
  obtain ⟨c, hc, hsnap⟩ := Option.map_eq_some_iff.mp hexec
  have hrun := Machine.execChecked_run settled_sound hc
  obtain ⟨r, p, o, _, hr, he, hb⟩ := snapshot_after (congrArg Snapshot.after hsnap)
  exact ⟨c, r, p, o, hrun, hr, he, hb, work_stays_with_account sampleWorld_fresh hrun hr he⟩

/-- The endpoint moves after a share was mined on it; the deposit of its new
account then consumes the share. -/
theorem moved_work_is_consumed : ¬ ∀ (rt : Runtime) (w : World) (t : Table Endpoint)
    (c : Config Pools Call) (r : Call) (a : Answer) (depositId : Id) (p : Pools) (o : Option Call),
    w.db.Fresh → (pools rt).Reaches (.idle (.start w t)) c → c.calls 0 = some r →
    SingleCredit.allocating r = some depositId → (pools rt).effect c.shared r a = .ok (p, o) →
    ConsumesOwnWork c.shared p depositId := by
  intro h
  have hexec : ((pools sampleRuntime).exec (.idle (.start sampleWorld sampleEndpoints))
      (sampleShare ++ sampleMove :: sampleDeposit)).map snapshot =
        some ⟨[some ⟨.btc, "pool-a"⟩], some ⟨.btc, "pool-b"⟩, [], [none], some [some 1]⟩ := by
    decide +kernel
  obtain ⟨c, hc, hsnap⟩ := Option.map_eq_some_iff.mp hexec
  obtain ⟨r, p, o, hcall, hr, he, hb⟩ := snapshot_after (congrArg Snapshot.after hsnap)
  obtain ⟨⟨b, hbm, _⟩, _⟩ | ⟨d, _, hid, b, _, _, hrows⟩ :=
    h _ _ _ c r sampleAllocation 1 p o sampleWorld_fresh (Machine.exec_reaches hc) hcall hr he
  · have hbatches := congrArg Snapshot.batches hsnap
    have hmem := List.mem_map_of_mem (f := AllocationBatch.id) hbm
    rw [show c.shared.world.db.allocationBatches.rows.map AllocationBatch.id = [] from hbatches] at hmem
    cases hmem
  · have hnot : ∀ s ∈ c.shared.world.db.shareEvents.rows, ¬ MinedFor c.shared d s := by
      rintro s hs ⟨_, _, hacc⟩
      have hmem := List.mem_map_of_mem (f := fun s => c.shared.shareAccounts (shareKey s)) hs
      rw [show c.shared.world.db.shareEvents.rows.map (fun s => c.shared.shareAccounts (shareKey s)) =
        [some ⟨.btc, "pool-a"⟩] from congrArg Snapshot.submitted hsnap, List.mem_singleton, hacc, hid,
        show c.shared.depositAccounts 1 = some ⟨.btc, "pool-b"⟩ from
          congrArg Snapshot.received hsnap] at hmem
      exact absurd hmem (by decide)
    have hsame : p.world.db.shareEvents.rows = c.shared.world.db.shareEvents.rows := by
      rw [hrows]
      exact (List.map_congr_left (fun s hs => if_neg (hnot s hs))).trans (List.map_id' _)
    have hbefore : batchesOf c.shared = [none] := congrArg Snapshot.before hsnap
    rw [batchesOf, hsame] at hb
    rw [batchesOf, hb] at hbefore
    cases hbefore

end Sample

end Bitmine.WorkAccounts
