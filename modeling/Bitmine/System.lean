import Bitmine.Lib.Await
import Bitmine.Deposits
import Bitmine.Execute

namespace Bitmine.System

open Bitmine.Lib.UniqueTable Bitmine.Lib.Throwing Bitmine.Lib.Await
open Bitmine.Schema Bitmine.Deployment Bitmine.AllocateDeposit
open Bitmine.Deposits (ScanCall allocationIds)
open Bitmine.Shares (ShareCall)
open Bitmine.Payouts Bitmine.Execute

inductive Call where
  | allocate (depositId : Id)
  | scan (c : ScanCall)
  | share (c : ShareCall)
  | plan (c : PlanCall)
  | planOperator (c : OperatorCall)
  | approve (c : ApproveCall)
  | execute (c : ExecuteCall)
  | reconcile (c : ReconcileCall)

def Call.entry : Call → Bool
  | .allocate _ => true
  | .scan c => c.entry
  | .share c => c.entry
  | .plan c => c.entry
  | .planOperator c => c.entry
  | .approve c => c.entry
  | .execute c => c.entry
  | .reconcile c => c.entry

def effect (rt : Runtime) (w : World) (call : Call) (a : Answer) :
    Except String (World × Option Call) :=
  match call with
  | .allocate depositId =>
    (allocateDeposit a.groupOrder (allocationIds a) a.now w.db depositId).map
      (fun r => (w.store r.2, none))
  | .scan c => (Deposits.step w c a).map (fun r => (r.1, r.2.map .scan))
  | .share c => (Shares.step w.db c a).map (fun r => (w.store r.1, r.2.map .share))
  | .plan c => (stepPlan rt w.db c a).map (fun r => (w.store r.1, r.2.map .plan))
  | .planOperator c => (stepOperator rt w.db c a).map (fun r => (w.store r.1, r.2.map .planOperator))
  | .approve c => (stepApprove rt w c a).map (fun r => (r.1, r.2.map .approve))
  | .execute c => (Execute.step rt w c a).map (fun r => (r.1, r.2.map .execute))
  | .reconcile c => (stepReconcile rt w.db c a).map (fun r => (w.store r.1, r.2.map .reconcile))

def handler (call : Call) (message : String) : Option Call :=
  match call with
  | .scan c => (Deposits.handler c).map .scan
  | .execute c => (Execute.handler c message).map .execute
  | _ => none

def background (w : World) (call : Call) (commandFails : Bool) : Call :=
  match call with
  | .execute c => .execute (renew w c commandFails)
  | call => call

structure Configuration where
  admins : Table Admin
  customers : Table Customer
  upstreams : Table Upstream
  connections : Table ConnectionSession
  payoutDestinations : Table PayoutDestination
  payoutPolicy : PayoutPolicySetting
  operatorPayout : AssetCode → OperatorPayoutSetting

def Database.configure (db : Database) (c : Configuration) : Database :=
  { db with
    admins := c.admins
    customers := c.customers
    upstreams := c.upstreams
    connections := c.connections
    payoutDestinations := c.payoutDestinations
    payoutPolicy := c.payoutPolicy
    operatorPayout := c.operatorPayout }

/-- What happens without any of the calls: the lock key expires or is evicted,
the configuration changes, a version of a split policy is added. -/
inductive Change where
  | lockVanishes
  | configure (c : Configuration)
  | addSplitPolicy (p : SplitPolicyVersion)

def change (w : World) : Change → World
  | .lockVanishes => { w with lock := none }
  | .configure c => w.store (Database.configure w.db c)
  | .addSplitPolicy p =>
    match w.db.splitPolicies.insert p with
    | some policies => w.store { w.db with splitPolicies := policies }
    | none => w

theorem change_log (w : World) (e : Change) : (change w e).log = w.log := by
  cases e with
  | lockVanishes | configure c => rfl
  | addSplitPolicy p =>
    simp only [change]
    split <;> rfl

def system (rt : Runtime) : Machine World Call Answer Change :=
  ⟨Call.entry, effect rt, handler, background, change⟩

/-- Everything a resolved effect can do, service by service. -/
inductive Acted (rt : Runtime) (w : World) (a : Answer) : Call → World → Option Call → Prop where
  | allocate {depositId : Id} {batch : AllocationBatch} {db : Database}
      (h : allocateDeposit a.groupOrder (allocationIds a) a.now w.db depositId = .ok (batch, db)) :
      Acted rt w a (.allocate depositId) (w.store db) none
  | scan {c : ScanCall} {w' : World} {o : Option ScanCall} (h : Deposits.Scanned w a c w' o) :
      Acted rt w a (.scan c) w' (o.map .scan)
  | share {c : ShareCall} {db : Database} {o : Option ShareCall} (h : Shares.Journals a w.db db) :
      Acted rt w a (.share c) (w.store db) (o.map .share)
  | prepares {c : PlanCall} {t : Table PayoutDestination} {o : Option PlanCall}
      (h : ∀ asset policy, o = some (.transaction asset policy) → policy = w.db.payoutPolicy) :
      Acted rt w a (.plan c) (w.store (withDestinations w.db t)) (o.map .plan)
  | plans {asset : AssetCode} {policy : PayoutPolicySetting} {items : List NewItem} {db : Database}
      (h : Planned rt a w.db db asset policy .customer policy.feePayer items) :
      Acted rt w a (.plan (.transaction asset policy)) (w.store db) none
  | preparesOperator {c : OperatorCall} {o : Option OperatorCall}
      (h : ∀ asset setting policy, o = some (.transaction asset setting policy) →
        policy = w.db.payoutPolicy) :
      Acted rt w a (.planOperator c) w (o.map .planOperator)
  | plansOperator {asset : AssetCode} {setting : OperatorPayoutSetting}
      {policy : PayoutPolicySetting} {items : List NewItem} {db : Database}
      (h : Planned rt a w.db db asset policy .operator .customer items) :
      Acted rt w a (.planOperator (.transaction asset setting policy)) (w.store db) none
  | approve {c : ApproveCall} {w' : World} {o : Option ApproveCall} (h : Approved rt w a c w' o) :
      Acted rt w a (.approve c) w' (o.map .approve)
  | execute {c : ExecuteCall} {w' : World} {o : Option ExecuteCall} (h : Executed rt w c a w' o) :
      Acted rt w a (.execute c) w' (o.map .execute)
  | reconcile {c : ReconcileCall} {db : Database} {o : Option ReconcileCall}
      (h : Reconciled w.db a c db o) : Acted rt w a (.reconcile c) (w.store db) (o.map .reconcile)

theorem effect_acted {rt : Runtime} {w w' : World} {r : Call} {a : Answer} {o : Option Call}
    (h : effect rt w r a = .ok (w', o)) : Acted rt w a r w' o := by
  cases r with
  | allocate d =>
    obtain ⟨⟨b, db⟩, hd, he⟩ := map_eq_ok.mp h
    cases he
    exact .allocate hd
  | scan c =>
    obtain ⟨⟨w₁, o₁⟩, hs, he⟩ := map_eq_ok.mp h
    cases he
    exact .scan (Deposits.step_scanned hs)
  | share c =>
    obtain ⟨⟨db, o₁⟩, hs, he⟩ := map_eq_ok.mp h
    cases he
    exact .share (Shares.step_journals hs)
  | plan c =>
    obtain ⟨⟨db, o₁⟩, hs, he⟩ := map_eq_ok.mp h
    cases he
    obtain ⟨⟨t, rfl⟩, hn⟩ | ⟨asset, policy, items, rfl, rfl, hp⟩ := stepPlan_ok hs
    · exact .prepares hn
    · exact .plans hp
  | planOperator c =>
    obtain ⟨⟨db, o₁⟩, hs, he⟩ := map_eq_ok.mp h
    cases he
    obtain ⟨rfl, hn⟩ | ⟨asset, setting, policy, items, rfl, rfl, hp⟩ := stepOperator_ok hs
    · exact .preparesOperator hn
    · exact .plansOperator hp
  | approve c =>
    obtain ⟨⟨w₁, o₁⟩, hs, he⟩ := map_eq_ok.mp h
    cases he
    exact .approve (stepApprove_ok hs)
  | execute c =>
    obtain ⟨⟨w₁, o₁⟩, hs, he⟩ := map_eq_ok.mp h
    cases he
    exact .execute (step_executed hs)
  | reconcile c =>
    obtain ⟨⟨db, o₁⟩, hs, he⟩ := map_eq_ok.mp h
    cases he
    exact .reconcile (stepReconcile_ok hs)

def executing : Call → Option Id
  | .execute c => some c.id
  | _ => none

theorem Acted.executing_eq {rt : Runtime} {w w' : World} {a : Answer} {r r' : Call}
    (h : Acted rt w a r w' (some r')) : executing r' = executing r := by
  generalize ho : some r' = o at h
  cases h with
  | execute hx =>
    obtain ⟨c', hc, rfl⟩ := Option.map_eq_some_iff.mp ho.symm
    cases hx <;> cases hc <;> rfl
  | allocate | plans | plansOperator => cases ho
  | scan | share | prepares | preparesOperator | approve | reconcile =>
    obtain ⟨c', _, rfl⟩ := Option.map_eq_some_iff.mp ho.symm
    rfl

theorem entry_point {c : ExecuteCall} (h : (Call.execute c).entry = true) : c.point = .acquire := by
  simp only [Call.entry, ExecuteCall.entry] at h
  split at h
  · assumption
  · cases h

theorem handler_id {c c' : ExecuteCall} {e : String} (h : Execute.handler c e = some c') :
    c'.id = c.id := by
  rw [Execute.handler] at h
  split at h <;> cases h <;> rfl

theorem keyed_executing (rt : Runtime) : Keyed (system rt) executing := by
  refine ⟨?_, ?_, ?_⟩
  · exact fun s r a s' r' h => (effect_acted h).executing_eq
  · intro r e r' h
    cases r with
    | execute c =>
      obtain ⟨c', hc, rfl⟩ := Option.map_eq_some_iff.mp h
      exact congrArg some (handler_id hc)
    | scan c =>
      obtain ⟨c', hc, rfl⟩ := Option.map_eq_some_iff.mp h
      rfl
    | allocate d | share c | plan c | planOperator c | approve c | reconcile c => cases h
  · intro s r b
    cases r with
    | execute c =>
      apply congrArg some
      rw [renew]
      split
      · rfl
      · split <;> rfl
    | allocate d | scan c | share c | plan c | planOperator c | approve c | reconcile c => rfl

section Sample

def sampleRuntime : Runtime :=
  ⟨⟨fun _ _ plaintext => ("tag", plaintext), fun _ _ ciphertext _ => some ciphertext,
      fun _ _ => List.replicate 20 7⟩,
    fun _ t => t / 86400000 * 86400000, fun _ t => (t / 86400000 + 1) * 86400000, fun _ => 3⟩

def sampleWorld : World :=
  ⟨{ Database.empty ⟨"UTC", .customer, 1000, 100, fun _ => 1, fun _ => 900⟩
      (fun _ => ⟨.manual, "cold", 1⟩) with
    admins := .single ⟨1, true, some "v1.iv.tag.AAAA"⟩
    customers := .single ⟨1, .active⟩
    splitPolicies := .single ⟨1, 1, .btc, 8000, 0⟩
    upstreams := .single ⟨1, "pool", .btc, 100, true, some "address"⟩
    connections := .single ⟨1, 0, 0⟩
    payoutDestinations := .single ⟨1, 1, .btc, "payee", .active, 0, 1, 0, none⟩ }, none, []⟩

def perform (r : Call) (answers : List Answer) : List (Action Call Answer Change) :=
  .call 0 r :: answers.map (.resolve 0)

def sampleCredit : List (Action Call Answer Change) :=
  perform (.share (.readPolicy ⟨.btc, 1, 1, 1, 1, "job", 5⟩))
    [{ now := 1 }, { newId := fun _ => 1, createdAt := 1 }] ++
  perform (.share (.resolve ⟨1, 1⟩ true 20 none)) [{ now := 2 }] ++
  perform (.scan (.readUpstreams .btc))
    [{}, { receipts := [⟨"txid", "0", "address", 1000, 6, false⟩] }, {},
      { now := 3, newId := fun _ => 1 }, { now := 4, newId := fun n => n + 1 }]

def samplePayout : List (Action Call Answer Change) :=
  perform (.plan (.listDue .btc))
    [{ now := 5 }, {}, { now := 5, createdAt := 5, newId := fun n => n + 10 }] ++
  perform (.execute ⟨10, 1, false, .acquire⟩)
    [{}, {}, {}, {}, { prepared := ⟨"raw", ["tx"], 8, [⟨11, 8, 792⟩]⟩ }, { iv := "iv" }, {}, {},
      { relayed := ["tx"] }, { now := 6, newId := fun _ => 30 }, {}, {}] ++
  perform (.planOperator (.readSetting .btc))
    [{}, {}, { now := 7, createdAt := 7, newId := fun n => n + 20 }] ++
  perform (.approve (.assertTotp 20 1 "901063")) [{ now := 100000 }, {}, { now := 8 }]

theorem sampleWorld_fresh : sampleWorld.db.Fresh := ⟨rfl, rfl, rfl, rfl, rfl, rfl⟩

theorem exec_sample {β : Type} (acts : List (Action Call Answer Change))
    {f : Config World Call → β} {v : β}
    (h : ((system sampleRuntime).exec (.idle sampleWorld) acts).map f = some v) :
    ∃ c, (system sampleRuntime).Reaches (.idle sampleWorld) c ∧ f c = v := by
  obtain ⟨c, hc, hf⟩ := Option.map_eq_some_iff.mp h
  exact ⟨c, Machine.exec_reaches hc, hf⟩

theorem execAlone_sample {β κ : Type} {test : World → Call → Answer → Bool}
    (key : Call → Option κ) {P : World → Call → Answer → Prop} {Q : World → Change → Prop}
    (htest : ∀ w r a, test w r a = true → P w r a) (acts : List (Action Call Answer Change))
    {f : Config World Call → β} {v : β}
    (h : ((system sampleRuntime).execAlone test (.idle sampleWorld) acts).map f = some v) :
    ∃ c, (system sampleRuntime).Run (Allowed key P Q) (.idle sampleWorld) c ∧ f c = v := by
  obtain ⟨c, hc, hf⟩ := Option.map_eq_some_iff.mp h
  exact ⟨c, (Machine.execAlone_run key htest (fun _ _ => rfl) hc).1, hf⟩

end Sample

end Bitmine.System
