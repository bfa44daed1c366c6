import Bitmine.Deployment
import Bitmine.Allocation

namespace Bitmine.Shares

open Bitmine.Lib.UniqueTable Bitmine.Lib.Throwing Bitmine.Lib.Rounding
open Bitmine.Schema Bitmine.Deployment Bitmine.Allocation

def slice (n : ℕ) (s : String) : String := String.ofList (s.toList.take n)

structure ShareReference where
  id : Id
  submittedAt : Instant

structure PendingInput where
  asset : AssetCode
  customerId : Id
  workerId : Id
  upstreamId : Id
  connectionId : Id
  requestKey : String
  difficulty : ℚ

inductive ShareCall where
  | readPolicy (input : PendingInput)
  | create (input : PendingInput) (splitPolicyId : Id)
  | resolve (reference : ShareReference) (accepted : Bool) (latencyMs : ℤ) (reason : Option String)
  | unknown (references : List ShareReference) (reason : String)
  | reconcilePending

def ShareCall.entry : ShareCall → Bool
  | .create _ _ => false
  | _ => true

def activePolicy (a : Answer) (db : Database) (customerId : Id) (asset : AssetCode) :
    Except String SplitPolicyVersion :=
  orThrow recordNotFound (((a.policyOrder.arrange db.splitPolicies.rows).filter (fun p =>
    p.customerId = customerId ∧ p.asset = asset ∧ p.effectiveAt ≤ a.now)).insertionSort
      (fun p q => q.effectiveAt ≤ p.effectiveAt)).head?

def normalizedWork : AssetCode → ℚ → ℚ
  | .btc, difficulty => roundPlaces 18 (decimalRound (difficulty * 4294967296))
  | .xmr, difficulty => roundPlaces 18 difficulty

def pendingShare (a : Answer) (input : PendingInput) (splitPolicyId : Id) : ShareEvent :=
  ⟨a.newId 0, input.asset, input.customerId, input.workerId, input.upstreamId, input.connectionId,
    splitPolicyId, input.requestKey, .pending, roundPlaces 18 input.difficulty,
    normalizedWork input.asset input.difficulty, a.createdAt, none, none, none, none⟩

def withShares (db : Database) (shares : Table ShareEvent) : Database :=
  { db with shareEvents := shares }

def withConnections (db : Database) (connections : Table ConnectionSession) : Database :=
  { db with connections := connections }

def matchesReference (r : ShareReference) (s : ShareEvent) : Bool :=
  s.id = r.id ∧ s.submittedAt = r.submittedAt

def verdict (now : Instant) (accepted : Bool) (latencyMs : ℤ) (reason : Option String)
    (s : ShareEvent) : ShareEvent :=
  { s with
    status := if accepted then .accepted else .rejected
    resolvedAt := some now
    upstreamLatencyMs := some latencyMs
    rejectReason := (reason.map (slice 1000)).orElse (fun _ => s.rejectReason) }

def giveUp (now : Instant) (reason : String) (s : ShareEvent) : ShareEvent :=
  { s with status := .unknown, resolvedAt := some now, rejectReason := some reason }

def count (accepted : Bool) (c : ConnectionSession) : ConnectionSession :=
  if accepted then { c with acceptedCount := c.acceptedCount + 1 }
  else { c with rejectedCount := c.rejectedCount + 1 }

def resolve (db : Database) (now : Instant) (r : ShareReference) (accepted : Bool) (latencyMs : ℤ)
    (reason : Option String) : Except String Database := do
  let share ← orThrow recordNotFound (db.shareEvents.find? (matchesReference r))
  let shares := db.shareEvents.update (matchesReference r) (verdict now accepted latencyMs reason)
    (fun _ => ⟨rfl, rfl⟩)
  let _ ← orThrow recordNotFound (db.connections.find? (fun c => c.id = share.connectionId))
  let connections := db.connections.update (fun c => c.id = share.connectionId) (count accepted)
    (fun c => by cases accepted <;> exact ⟨rfl, rfl⟩)
  pure (withConnections (withShares db shares) connections)

def unknown (db : Database) (now : Instant) (references : List ShareReference) (reason : String) :
    Database :=
  references.foldl (fun db r => withShares db (db.shareEvents.update
    (fun s => matchesReference r s ∧ s.status = .pending) (giveUp now (slice 1000 reason))
      (fun _ => ⟨rfl, rfl⟩))) db

def reconcilePending (db : Database) (now : Instant) : Database :=
  withShares db (db.shareEvents.update (fun s => s.status = .pending ∧ s.submittedAt < now - 600000)
    (giveUp now "Gateway response was not recorded") (fun _ => ⟨rfl, rfl⟩))

def step (db : Database) (call : ShareCall) (a : Answer) :
    Except String (Database × Option ShareCall) :=
  match call with
  | .readPolicy input => do
    let policy ← activePolicy a db input.customerId input.asset
    pure (db, some (.create input policy.id))
  | .create input splitPolicyId => do
    let shares ← orThrow uniqueViolation (db.shareEvents.insert (pendingShare a input splitPolicyId))
    pure (withShares db shares, none)
  | .resolve r accepted latencyMs reason => do
    let db' ← resolve db a.now r accepted latencyMs reason
    pure (db', none)
  | .unknown references reason => .ok (unknown db a.now references reason, none)
  | .reconcilePending => .ok (reconcilePending db a.now, none)

structure SameWork (s s' : ShareEvent) : Prop where
  id : s'.id = s.id
  submittedAt : s'.submittedAt = s.submittedAt
  customerId : s'.customerId = s.customerId
  splitPolicyId : s'.splitPolicyId = s.splitPolicyId
  normalizedWork : s'.normalizedWork = s.normalizedWork
  allocationBatchId : s'.allocationBatchId = s.allocationBatchId

theorem SameWork.refl (s : ShareEvent) : SameWork s s := ⟨rfl, rfl, rfl, rfl, rfl, rfl⟩

theorem SameWork.trans {s t u : ShareEvent} (h : SameWork s t) (h' : SameWork t u) : SameWork s u :=
  ⟨h'.id.trans h.id, h'.submittedAt.trans h.submittedAt, h'.customerId.trans h.customerId,
    h'.splitPolicyId.trans h.splitPolicyId, h'.normalizedWork.trans h.normalizedWork,
    h'.allocationBatchId.trans h.allocationBatchId⟩

/-- The share journal inserts a pending share or passes verdicts. -/
inductive Journals (a : Answer) (db db' : Database) : Prop where
  | idle (h : db' = db)
  | inserts {input : PendingInput} {splitPolicyId : Id}
      (hr : db'.shareEvents.rows = db.shareEvents.rows ++ [pendingShare a input splitPolicyId])
      (hf : db' = withShares db db'.shareEvents)
  | judges {f : ShareEvent → ShareEvent} (hs : ∀ s, SameWork s (f s))
      (hr : db'.shareEvents.rows = db.shareEvents.rows.map f)
      (hf : db' = withConnections (withShares db db'.shareEvents) db'.connections)

theorem ite_sameWork (p : ShareEvent → Bool) {f : ShareEvent → ShareEvent}
    (hf : ∀ s, SameWork s (f s)) (s : ShareEvent) : SameWork s (if p s then f s else s) := by
  split
  · exact hf s
  · exact .refl s

theorem giveUp_sameWork (now : Instant) (reason : String) (s : ShareEvent) :
    SameWork s (giveUp now reason s) := ⟨rfl, rfl, rfl, rfl, rfl, rfl⟩

theorem verdict_sameWork (now : Instant) (accepted : Bool) (latencyMs : ℤ) (reason : Option String)
    (s : ShareEvent) : SameWork s (verdict now accepted latencyMs reason s) :=
  ⟨rfl, rfl, rfl, rfl, rfl, rfl⟩

theorem unknown_ok (now : Instant) (reason : String) (references : List ShareReference)
    (db : Database) : ∃ f, (∀ s, SameWork s (f s)) ∧
      (unknown db now references reason).shareEvents.rows = db.shareEvents.rows.map f ∧
      unknown db now references reason =
        withShares db (unknown db now references reason).shareEvents := by
  induction references generalizing db with
  | nil => exact ⟨id, .refl, by simp [unknown], rfl⟩
  | cons r references ih =>
    let p : ShareEvent → Bool := fun s => matchesReference r s ∧ s.status = .pending
    let g : ShareEvent → ShareEvent := giveUp now (slice 1000 reason)
    obtain ⟨f, hs, hr, hf⟩ := ih (withShares db (db.shareEvents.update p g (fun _ => ⟨rfl, rfl⟩)))
    refine ⟨fun s => f (if p s then g s else s), fun s => ?_, ?_, ?_⟩
    · exact (ite_sameWork p (giveUp_sameWork now _) s).trans (hs (if p s then g s else s))
    · apply hr.trans
      exact List.map_map
    · exact hf

theorem step_journals {db db' : Database} {call : ShareCall} {a : Answer} {o : Option ShareCall}
    (h : step db call a = .ok (db', o)) : Journals a db db' := by
  cases call with
  | readPolicy input =>
    simp only [step, bind_eq_ok, pure_eq_ok] at h
    obtain ⟨_, _, he⟩ := h
    cases he
    exact .idle rfl
  | create input splitPolicyId =>
    simp only [step, bind_eq_ok, orThrow_eq_ok, pure_eq_ok] at h
    obtain ⟨shares, hi, he⟩ := h
    cases he
    exact .inserts (Table.insert_eq_some hi).1 rfl
  | resolve r accepted latencyMs reason =>
    simp only [step, resolve, bind_eq_ok, orThrow_eq_ok, pure_eq_ok] at h
    obtain ⟨_, ⟨_, _, _, _, rfl⟩, he⟩ := h
    cases he
    exact .judges (ite_sameWork (matchesReference r)
      (verdict_sameWork a.now accepted latencyMs reason)) rfl rfl
  | unknown references reason =>
    cases h
    obtain ⟨f, hs, hr, hf⟩ := unknown_ok a.now reason references db
    refine .judges hs hr ?_
    rw [hf]
    rfl
  | reconcilePending =>
    cases h
    exact .judges (ite_sameWork (fun s => s.status = .pending ∧ s.submittedAt < a.now - 600000)
      (giveUp_sameWork a.now "Gateway response was not recorded")) rfl rfl

end Bitmine.Shares
