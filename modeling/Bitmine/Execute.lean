import Bitmine.Payouts
import Bitmine.Shares

namespace Bitmine.Execute

open Bitmine.Lib.UniqueTable Bitmine.Lib.Throwing Bitmine.Schema Bitmine.Deployment
open Bitmine.Security Bitmine.Ledger Bitmine.Payouts Bitmine.Shares

structure Held where
  batch : PayoutBatch
  items : List PayoutItem

/-- The awaited effects of `execute` and `executeUnderLock`. -/
inductive ExecutePoint where
  | acquire
  | checkReorg
  | readBatch
  | readPolicy (held : Held)
  | prepare (held : Held) (deductFeeFromOutputs : Bool) (maxFeeBps : ℕ)
  | persist (held : Held) (prepared : PreparedPayout)
  | refresh
  | queryKnown (held : Held) (payload : String)
  | broadcast (held : Held) (payload : String)
  | post (held : Held) (transactionIds : List String)
  | readResult
  | markFailed (message : String)
  | release

structure ExecuteCall where
  id : Id
  token : Id
  lockLost : Bool
  point : ExecutePoint

namespace ExecuteCall

def entry (c : ExecuteCall) : Bool :=
  match c.point with
  | .acquire => !c.lockLost
  | _ => false

def goto (c : ExecuteCall) (point : ExecutePoint) : ExecuteCall := { c with point := point }

@[simp] theorem goto_id (c : ExecuteCall) (p : ExecutePoint) : (c.goto p).id = c.id := rfl
@[simp] theorem goto_point (c : ExecuteCall) (p : ExecutePoint) : (c.goto p).point = p := rfl

def assertLock (c : ExecuteCall) : Except String Unit :=
  if c.lockLost then .error "Payout execution lock was lost" else .ok ()

/-- Inside the `try`: an error leads to the catch branch. -/
def guarded (c : ExecuteCall) : Except String ExecutePoint → ExecuteCall
  | .ok point => c.goto point
  | .error message => c.goto (.markFailed message)

end ExecuteCall

def payloadContext (id : Id) : String := "payout:" ++ toString id ++ ":signed-payload"

def openPayload (prim : Primitives) (id : Id) (stored : String) : Except String String :=
  if "v1.".toList.isPrefixOf stored.toList then decrypt prim stored (payloadContext id)
  else .ok stored

def itemsOf (a : Answer) (db : Database) (id : Id) : List PayoutItem :=
  (a.itemOrder.arrange db.payoutItems.rows).filter (fun i => i.batchId = id)

def toWallet (rt : Runtime) (c : ExecuteCall) (held : Held) : Except String ExecutePoint := do
  let signedPayload ← orThrow "Signed payout payload is missing" (truthy held.batch.signedPayload)
  let payload ← openPayload rt.primitives c.id signedPayload
  c.assertLock
  if held.batch.transactionIds.isEmpty then pure (.broadcast held payload)
  else pure (.queryKnown held payload)

def toPersist (c : ExecuteCall) (held : Held) (maxFeeBps : ℕ) (prepared : PreparedPayout) :
    Except String ExecutePoint :=
  if held.batch.kind = .customer ∧
      held.batch.totalGrossAtomic * maxFeeBps < prepared.feeAtomic * 10000 then
    .error ("Payout network fee exceeds configured limit of " ++ toString maxFeeBps ++
      " basis points")
  else do
    c.assertLock
    assertPayoutTransition held.batch.state .signed
    pure (.persist held prepared)

def toPost (c : ExecuteCall) (held : Held) (transactionIds : List String) :
    Except String ExecutePoint := do
  c.assertLock
  assertPayoutTransition held.batch.state .broadcast
  pure (.post held transactionIds)

def updateItem (db : Database) (id : Id) (f : PayoutItem → PayoutItem) (hf : KeepsKeys f) :
    Except String Database := do
  let _ ← orThrow recordNotFound (db.payoutItems.find? (fun i => i.id = id))
  pure (withPayouts db db.payoutBatches (db.payoutItems.update (fun i => i.id = id) f hf))

def chargeItem (p : PreparedItem) (i : PayoutItem) : PayoutItem :=
  { i with allocatedFeeAtomic := p.allocatedFeeAtomic, netAtomic := p.netAtomic }

def journalItem (journalId : Id) (i : PayoutItem) : PayoutItem :=
  { i with journalTransactionId := some journalId }

def signBatch (stored : String) (prepared : PreparedPayout) (b : PayoutBatch) : PayoutBatch :=
  { b with
    state := .signed
    signedPayload := some stored
    transactionIds := prepared.transactionIds
    totalFeeAtomic := prepared.feeAtomic
    totalNetAtomic := (prepared.items.map PreparedItem.netAtomic).sum
    errorCode := none
    errorMessage := none }

def broadcastBatch (now : Instant) (transactionIds : List String) (b : PayoutBatch) :
    PayoutBatch :=
  { b with
    state := .broadcast
    transactionIds := transactionIds
    broadcastAt := some now
    errorCode := none
    errorMessage := none }

def failBatch (message : String) (b : PayoutBatch) : PayoutBatch :=
  { b with
    state := .failed
    errorCode := some "EXECUTION_FAILED"
    errorMessage := some (slice 5000 message) }

def persistTransaction (db : Database) (id : Id) (stored : String) (prepared : PreparedPayout) :
    Except String Database := do
  let db ← prepared.items.foldlM (fun db p =>
    updateItem db p.id (chargeItem p) (fun _ => ⟨rfl, rfl⟩)) db
  updateBatch db id (signBatch stored prepared) (fun _ => ⟨rfl, rfl⟩)

def snapshotFeePayer (b : PayoutBatch) : Option NetworkFeePayer :=
  b.policySnapshot.bind PolicySnapshot.feePayer

def operatorPaysFee (b : PayoutBatch) (i : PayoutItem) : Bool :=
  b.kind = .customer ∧
    (snapshotFeePayer b).getD (if i.netAtomic < i.grossAtomic then .customer else .operator) = .operator

def customerPosting (b : PayoutBatch) (i : PayoutItem) (customerId : Id) : PayoutPosting :=
  ⟨b.id, b.asset, customerId, i.grossAtomic, i.allocatedFeeAtomic, operatorPaysFee b i⟩

def operatorPosting (b : PayoutBatch) (i : PayoutItem) : OperatorPosting :=
  ⟨b.id, b.asset, i.grossAtomic, i.allocatedFeeAtomic⟩

def postJournal (journalId : Id) (b : PayoutBatch) (db : Database) (i : PayoutItem) :
    Except String Database :=
  match i.customerId with
  | some customerId => postPayout db journalId (customerPosting b i customerId)
  | none => postOperatorPayout db journalId (operatorPosting b i)

def postItem (a : Answer) (b : PayoutBatch) (db : Database) (i : PayoutItem) :
    Except String Database :=
  if i.journalTransactionId.isSome then .ok db
  else do
    let db ← postJournal (a.newId i.id) b db i
    updateItem db i.id (journalItem (a.newId i.id)) (fun _ => ⟨rfl, rfl⟩)

def postTransaction (a : Answer) (db : Database) (id : Id) (held : Held)
    (transactionIds : List String) : Except String Database := do
  let db ← held.items.foldlM (postItem a held.batch) db
  updateBatch db id (broadcastBatch a.now transactionIds) (fun _ => ⟨rfl, rfl⟩)

def step (rt : Runtime) (w : World) (c : ExecuteCall) (a : Answer) :
    Except String (World × Option ExecuteCall) :=
  match c.point with
  | .acquire =>
    if w.lock.isSome then .error "Another wallet payout is already being executed"
    else .ok ({ w with lock := some c.token }, some (c.goto .checkReorg))
  | .checkReorg =>
    if w.db.deposits.rows.any (fun d => d.status = .reorged) then
      .error "Payouts are halted because an allocated deposit was reorged"
    else .ok (w, some (c.goto .readBatch))
  | .readBatch => do
    let batch ← orThrow "Payout batch not found" (w.db.payoutBatches.find? (fun b => b.id = c.id))
    if batch.state ≠ .autoApproved ∧ batch.state ≠ .signed ∧ batch.state ≠ .failed then
      .error ("Payout cannot execute from " ++ stateText batch.state)
    else
      let held : Held := ⟨batch, itemsOf a w.db c.id⟩
      if (truthy batch.signedPayload).isNone then
        pure (w, some (c.guarded (do c.assertLock; pure (.readPolicy held))))
      else pure (w, some (c.guarded (toWallet rt c held)))
  | .readPolicy held =>
    let feePayer := (snapshotFeePayer held.batch).getD w.db.payoutPolicy.feePayer
    let maxFeeBps := (held.batch.policySnapshot.bind PolicySnapshot.maxFeeBps).getD
      w.db.payoutPolicy.maxFeeBps
    let operatorPaysCustomerFee : Bool := held.batch.kind = .customer ∧ feePayer = .operator
    .ok (w, some (c.goto (.prepare held (!operatorPaysCustomerFee) maxFeeBps)))
  | .prepare held _ maxFeeBps => .ok (w, some (c.guarded (toPersist c held maxFeeBps a.prepared)))
  | .persist _ prepared => do
    let stored := encrypt rt.primitives a.iv prepared.signedPayload (payloadContext c.id)
    let db ← persistTransaction w.db c.id stored prepared
    pure ((w.store db).observe (.signed c.id stored prepared.transactionIds),
      some (c.goto .refresh))
  | .refresh => do
    let batch ← orThrow recordNotFound (w.db.payoutBatches.find? (fun b => b.id = c.id))
    pure (w, some (c.guarded (toWallet rt c ⟨batch, itemsOf a w.db c.id⟩)))
  | .queryKnown held payload =>
    if held.batch.transactionIds.all a.known then
      .ok (w, some (c.guarded (toPost c held held.batch.transactionIds)))
    else .ok (w, some (c.guarded (do c.assertLock; pure (.broadcast held payload))))
  | .broadcast held payload =>
    .ok (w.observe (.broadcast c.id payload), some (c.guarded (toPost c held a.relayed)))
  | .post held transactionIds => do
    let db ← postTransaction a w.db c.id held transactionIds
    pure (w.store db, some (c.goto .readResult))
  | .readResult => do
    let _ ← orThrow recordNotFound (w.db.payoutBatches.find? (fun b => b.id = c.id))
    pure (w, some (c.goto .release))
  | .markFailed message => do
    let db ← updateBatch w.db c.id (failBatch message) (fun _ => ⟨rfl, rfl⟩)
    pure (w.store db, some (c.goto .release))
  | .release => .ok ({ w with lock := if w.lock = some c.token then none else w.lock }, none)

/-- Before the lock is held nothing is left to do; the `try` block ends in the
catch branch, everything else in the release of the lock. -/
def handler (c : ExecuteCall) (message : String) : Option ExecuteCall :=
  match c.point with
  | .acquire => none
  | .release => none
  | .checkReorg => some (c.goto .release)
  | .readBatch => some (c.goto .release)
  | .markFailed _ => some (c.goto .release)
  | _ => some (c.goto (.markFailed message))

/-- The renewal timer notices a lost lock, or takes a failing command for one. -/
def renew (w : World) (c : ExecuteCall) (commandFails : Bool) : ExecuteCall :=
  match c.point with
  | .acquire => c
  | _ => if commandFails ∨ w.lock ≠ some c.token then { c with lockLost := true } else c

section Inversion

variable (rt : Runtime) (w : World) (c : ExecuteCall) (a : Answer)

def Executable (s : PayoutState) : Prop := s = .autoApproved ∨ s = .signed ∨ s = .failed

/-- The batch of an execution as it is stored now, read together with its items. -/
structure Reads (held : Held) : Prop where
  stored : held.batch ∈ w.db.payoutBatches.rows
  id : held.batch.id = c.id
  items : held.items = itemsOf a w.db c.id

/-- Everything a resolved effect of an execution can do. -/
inductive Executed : World → Option ExecuteCall → Prop where
  | acquire (hp : c.point = .acquire) (hl : w.lock = none) :
      Executed { w with lock := some c.token } (some (c.goto .checkReorg))
  | checkReorg (hp : c.point = .checkReorg) (hr : ∀ d ∈ w.db.deposits.rows, d.status ≠ .reorged) :
      Executed w (some (c.goto .readBatch))
  | unsigned {held : Held} (hp : c.point = .readBatch) (hr : Reads w c a held)
      (hs : Executable held.batch.state) (hu : truthy held.batch.signedPayload = none) :
      Executed w (some (c.goto (.readPolicy held)))
  | opened {held : Held} {stored payload : String} {point : ExecutePoint}
      (hp : (c.point = .readBatch ∧ Executable held.batch.state) ∨ c.point = .refresh)
      (hr : Reads w c a held) (hs : truthy held.batch.signedPayload = some stored)
      (ho : openPayload rt.primitives c.id stored = .ok payload)
      (ht : point = .queryKnown held payload ∨ point = .broadcast held payload) :
      Executed w (some (c.goto point))
  | readPolicy {held : Held} {deduct : Bool} {bps : ℕ} (hp : c.point = .readPolicy held)
      (hb : bps = (held.batch.policySnapshot.bind PolicySnapshot.maxFeeBps).getD
        w.db.payoutPolicy.maxFeeBps) :
      Executed w (some (c.goto (.prepare held deduct bps)))
  | prepare {held : Held} {deduct : Bool} {bps : ℕ} (hp : c.point = .prepare held deduct bps)
      (hf : held.batch.kind = .customer →
        a.prepared.feeAtomic * 10000 ≤ held.batch.totalGrossAtomic * bps) :
      Executed w (some (c.goto (.persist held a.prepared)))
  | persist {held : Held} {prepared : PreparedPayout} {stored : String} {db : Database}
      (hp : c.point = .persist held prepared)
      (hs : stored = encrypt rt.primitives a.iv prepared.signedPayload (payloadContext c.id))
      (hd : persistTransaction w.db c.id stored prepared = .ok db) :
      Executed ((w.store db).observe (.signed c.id stored prepared.transactionIds))
        (some (c.goto .refresh))
  | known {held : Held} {payload : String} (hp : c.point = .queryKnown held payload) :
      Executed w (some (c.goto (.post held held.batch.transactionIds)))
  | unknown {held : Held} {payload : String} (hp : c.point = .queryKnown held payload) :
      Executed w (some (c.goto (.broadcast held payload)))
  | broadcast {held : Held} {payload : String} {point : ExecutePoint}
      (hp : c.point = .broadcast held payload)
      (ht : point = .post held a.relayed ∨ ∃ e, point = .markFailed e) :
      Executed (w.observe (.broadcast c.id payload)) (some (c.goto point))
  | post {held : Held} {transactionIds : List String} {db : Database}
      (hp : c.point = .post held transactionIds)
      (hd : postTransaction a w.db c.id held transactionIds = .ok db) :
      Executed (w.store db) (some (c.goto .readResult))
  | readResult (hp : c.point = .readResult) : Executed w (some (c.goto .release))
  | fails {held : Held} {e : String} (hp : c.point = .readBatch) (hr : Reads w c a held)
      (hs : Executable held.batch.state) : Executed w (some (c.goto (.markFailed e)))
  | failsLater {e : String} (hp : c.point = .refresh ∨ (∃ held deduct bps,
      c.point = .prepare held deduct bps) ∨ ∃ held payload, c.point = .queryKnown held payload) :
      Executed w (some (c.goto (.markFailed e)))
  | markFailed {message : String} {db : Database} (hp : c.point = .markFailed message)
      (hd : updateBatch w.db c.id (failBatch message) (fun _ => ⟨rfl, rfl⟩) = .ok db) :
      Executed (w.store db) (some (c.goto .release))
  | release (hp : c.point = .release) :
      Executed { w with lock := if w.lock = some c.token then none else w.lock } none

variable {rt w c a}

theorem toWallet_ok {held : Held} {point : ExecutePoint} (h : toWallet rt c held = .ok point) :
    ∃ stored payload, truthy held.batch.signedPayload = some stored ∧
      openPayload rt.primitives c.id stored = .ok payload ∧
      (point = .queryKnown held payload ∨ point = .broadcast held payload) := by
  simp only [toWallet, bind_eq_ok, orThrow_eq_ok] at h
  obtain ⟨stored, hs, payload, ho, _, _, h⟩ := h
  refine ⟨stored, payload, hs, ho, ?_⟩
  split at h
  · exact .inr (pure_eq_ok.mp h).symm
  · exact .inl (pure_eq_ok.mp h).symm

theorem toPersist_ok {held : Held} {bps : ℕ} {prepared : PreparedPayout} {point : ExecutePoint}
    (h : toPersist c held bps prepared = .ok point) :
    point = .persist held prepared ∧ (held.batch.kind = .customer →
      prepared.feeAtomic * 10000 ≤ held.batch.totalGrossAtomic * bps) := by
  rw [toPersist] at h
  split at h
  · cases h
  · rename_i hc
    simp only [bind_eq_ok, pure_eq_ok] at h
    obtain ⟨_, _, _, _, rfl⟩ := h
    exact ⟨rfl, fun hk => not_lt.mp (fun hlt => hc ⟨hk, hlt⟩)⟩

theorem toPost_ok {held : Held} {ids : List String} {point : ExecutePoint}
    (h : toPost c held ids = .ok point) : point = .post held ids := by
  simp only [toPost, bind_eq_ok, pure_eq_ok] at h
  obtain ⟨_, _, _, _, rfl⟩ := h
  rfl

theorem reads_of_find {b : PayoutBatch}
    (h : w.db.payoutBatches.find? (fun b => b.id = c.id) = some b) :
    Reads w c a ⟨b, itemsOf a w.db c.id⟩ := by
  obtain ⟨hm, hi⟩ := Table.find?_mem h
  exact ⟨hm, by simpa using hi, rfl⟩

theorem guarded_toWallet {held : Held} {r : World × Option ExecuteCall}
    (hp : (c.point = .readBatch ∧ Executable held.batch.state) ∨ c.point = .refresh)
    (hr : Reads w c a held) (h : (w, some (c.guarded (toWallet rt c held))) = r) :
    Executed rt w c a r.1 r.2 := by
  subst h
  cases ht : toWallet rt c held with
  | ok point =>
    obtain ⟨stored, payload, hs, ho, hpoint⟩ := toWallet_ok ht
    exact .opened hp hr hs ho hpoint
  | error e =>
    obtain ⟨hb, hs⟩ | hf := hp
    · exact .fails hb hr hs
    · exact .failsLater (.inl hf)

theorem step_executed {w' : World} {o : Option ExecuteCall} (h : step rt w c a = .ok (w', o)) :
    Executed rt w c a w' o := by
  rw [step] at h
  split at h
  case h_1 hp =>
    split at h
    · cases h
    · rename_i hl
      cases h
      exact .acquire hp (by simpa using hl)
  case h_2 hp =>
    split at h
    · cases h
    · rename_i hr
      cases h
      refine .checkReorg hp (fun d hd hs => hr ?_)
      exact List.any_eq_true.mpr ⟨d, hd, by simpa using hs⟩
  case h_3 hp =>
    simp only [bind_eq_ok, orThrow_eq_ok] at h
    obtain ⟨b, hb, h⟩ := h
    split at h
    · cases h
    rename_i hstate
    have hs : Executable b.state := by
      rw [Executable]
      tauto
    have hr : Reads w c a ⟨b, itemsOf a w.db c.id⟩ := reads_of_find hb
    split at h
    · rename_i hnone
      obtain ⟨rfl, rfl⟩ := Prod.mk.inj (pure_eq_ok.mp h)
      rw [ExecuteCall.assertLock]
      split
      · exact .fails hp hr hs
      · exact .unsigned hp hr hs (Option.isNone_iff_eq_none.mp hnone)
    · exact guarded_toWallet (.inl ⟨hp, hs⟩) hr (pure_eq_ok.mp h)
  case h_4 held hp =>
    cases h
    exact .readPolicy hp rfl
  case h_5 held deduct bps hp =>
    cases h
    cases ht : toPersist c held bps a.prepared with
    | ok point =>
      obtain ⟨rfl, hf⟩ := toPersist_ok ht
      exact .prepare hp hf
    | error e => exact .failsLater (.inr (.inl ⟨held, deduct, bps, hp⟩))
  case h_6 held prepared hp =>
    simp only [bind_eq_ok, pure_eq_ok] at h
    obtain ⟨db, hd, h⟩ := h
    cases h
    exact .persist hp rfl hd
  case h_7 hp =>
    simp only [bind_eq_ok, orThrow_eq_ok] at h
    obtain ⟨b, hb, h⟩ := h
    exact guarded_toWallet (.inr hp) (reads_of_find hb) (pure_eq_ok.mp h)
  case h_8 held payload hp =>
    have hlater : ∀ e, Executed rt w c a w (some (c.goto (.markFailed e))) :=
      fun e => .failsLater (.inr (.inr ⟨held, payload, hp⟩))
    split at h
    · cases h
      cases ht : toPost c held held.batch.transactionIds with
      | ok point =>
        rw [toPost_ok ht]
        exact .known hp
      | error e => exact hlater e
    · cases h
      rw [ExecuteCall.assertLock]
      split
      · exact hlater _
      · exact .unknown hp
  case h_9 held payload hp =>
    cases h
    cases ht : toPost c held a.relayed with
    | ok point => exact .broadcast hp (.inl (toPost_ok ht))
    | error e => exact .broadcast hp (.inr ⟨e, rfl⟩)
  case h_10 held ids hp =>
    simp only [bind_eq_ok, pure_eq_ok] at h
    obtain ⟨db, hd, h⟩ := h
    cases h
    exact .post hp hd
  case h_11 hp =>
    simp only [bind_eq_ok, pure_eq_ok] at h
    obtain ⟨_, _, h⟩ := h
    cases h
    exact .readResult hp
  case h_12 message hp =>
    simp only [bind_eq_ok, pure_eq_ok] at h
    obtain ⟨db, hd, h⟩ := h
    cases h
    exact .markFailed hp hd
  case h_13 hp =>
    cases h
    exact .release hp

end Inversion

end Bitmine.Execute
