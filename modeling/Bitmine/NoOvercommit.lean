import Bitmine.Commitments

namespace Bitmine.NoOvercommit

open Bitmine.Lib.UniqueTable Bitmine.Lib.GroupSum Bitmine.Lib.Throwing Bitmine.Lib.Await
open Bitmine.Schema Bitmine.Deployment Bitmine.Ledger Bitmine.LedgerPosting
open Bitmine.AllocateDeposit Bitmine.AllocationSpec Bitmine.Deposits Bitmine.Shares
open Bitmine.Payouts Bitmine.Execute Bitmine.PayoutHistory Bitmine.System Bitmine.Commitments

structure SamePayouts (db db' : Database) : Prop where
  batches : db'.payoutBatches = db.payoutBatches
  items : db'.payoutItems = db.payoutItems
  journal : db'.journalTransactions = db.journalTransactions

theorem SamePayouts.refl (db : Database) : SamePayouts db db := ⟨rfl, rfl, rfl⟩

theorem SamePayouts.covered {db db' : Database} (hs : SamePayouts db db') (h : Covered db) :
    Covered db' := by
  refine h.of_map (f := fun b => b) (g := fun i => i) (fun b => .refl b) (fun i => ⟨.refl i, rfl⟩)
    ?_ ?_ hs.journal h.alive h.settled
  · rw [hs.batches, List.map_id']
  · rw [hs.items, List.map_id']

theorem SamePayouts.grows {db db' : Database} (hs : SamePayouts db db') : Grows db db' :=
  .of_eq hs.batches hs.items

theorem change_payouts (w : World) (e : Change) : SamePayouts w.db (change w e).db := by
  cases e with
  | lockVanishes => exact .refl _
  | configure c => exact ⟨rfl, rfl, rfl⟩
  | addSplitPolicy p =>
    simp only [change]
    split
    · exact ⟨rfl, rfl, rfl⟩
    · exact .refl _

theorem journals_payouts {a : Answer} {db db' : Database} (h : Journals a db db') :
    SamePayouts db db' := by
  cases h with
  | idle h => exact h ▸ .refl _
  | inserts _ hf => rw [hf]; exact ⟨rfl, rfl, rfl⟩
  | judges _ _ hf => rw [hf]; exact ⟨rfl, rfl, rfl⟩

theorem allocate_batches {a : Answer} {db db' : Database} {depositId : Id}
    {batch : AllocationBatch} (hd : allocateDeposit a.groupOrder (allocationIds a) a.now db
      depositId = .ok (batch, db')) : db'.payoutBatches = db.payoutBatches := by
  obtain ⟨rfl, _, _⟩ | ⟨_, _, _, _, _, _, hc⟩ := allocateDeposit_ok hd
  · rfl
  · rw [hc.frame]
    rfl

theorem scanned_batches {w w' : World} {a : Answer} {c : ScanCall} {o : Option ScanCall}
    (hs : Scanned w a c w' o) :
    w'.db.payoutBatches = w.db.payoutBatches ∧ ∀ x ∈ w.log, x ∈ w'.log := by
  cases hs with
  | readUpstreams | scanReceipts | locked | read | reorg => exact ⟨rfl, fun _ hx => hx⟩
  | upsert => exact ⟨rfl, fun _ hx => List.mem_append_left _ hx⟩
  | allocate hd => exact ⟨allocate_batches hd, fun _ hx => hx⟩

theorem allocate_covered {a : Answer} {db db' : Database} {depositId : Id}
    {batch : AllocationBatch} (hd : allocateDeposit a.groupOrder (allocationIds a) a.now db
      depositId = .ok (batch, db')) (h : Covered db) : Covered db' ∧ Grows db db' := by
  obtain ⟨rfl, _, _⟩ | ⟨deposit, endpointIds, items, _, _, _, hc⟩ := allocateDeposit_ok hd
  · exact ⟨h, .refl _⟩
  · exact ⟨h.allocated hc, .of_eq (by rw [hc.frame]; rfl) (by rw [hc.frame]; rfl)⟩

theorem scanned_covered {w w' : World} {a : Answer} {c : ScanCall} {o : Option ScanCall}
    (hs : Scanned w a c w' o) (h : Covered w.db) : Covered w'.db ∧ Grows w.db w'.db := by
  cases hs with
  | readUpstreams | scanReceipts | locked | read => exact ⟨h, .refl _⟩
  | @reorg _ _ _ deposits | @upsert _ _ _ _ deposits =>
    have hsame : SamePayouts w.db (withDeposits w.db deposits) := ⟨rfl, rfl, rfl⟩
    exact ⟨hsame.covered h, hsame.grows⟩
  | allocate hd => exact allocate_covered hd h

structure Posted (db : Database) (id : Id) : Prop where
  stored : ∃ b ∈ db.payoutBatches.rows, b.id = id
  settled : Settled db id

theorem Posted.grow {db db' : Database} {id : Id} (h : Posted db id) (hg : Grows db db') :
    Posted db' id := by
  obtain ⟨b, hb, hid⟩ := h.stored
  obtain ⟨b', hb', hs⟩ := hg.batches b hb
  exact ⟨⟨b', hb', hs.id.trans hid⟩, h.settled.grow hg h.stored⟩

def Holding (db : Database) (c : ExecuteCall) (held : Held) : Prop :=
  Copy db held ∧ held.batch.id = c.id

def executeLoc (db : Database) (c : ExecuteCall) : Prop :=
  match c.point with
  | .readPolicy held => Holding db c held
  | .prepare held _ _ => Holding db c held
  | .persist held _ => Holding db c held
  | .queryKnown held _ => Holding db c held
  | .broadcast held _ => Holding db c held
  | .post held _ => Holding db c held
  | _ => True

def reconcileLoc (db : Database) : ReconcileCall → Prop
  | .listBroadcast => True
  | .query b rest => ∀ b' ∈ b :: rest, Posted db b'.id
  | .write b rest => ∀ b' ∈ b :: rest, Posted db b'.id

def approveLoc : ApproveCall → Prop
  | .write _ _ next => next = .signed ∨ next = .autoApproved
  | _ => True

def loc (w : World) : Call → Prop
  | .approve c => approveLoc c
  | .execute c => executeLoc w.db c
  | .reconcile c => reconcileLoc w.db c
  | _ => True

theorem executeLoc.grow {db db' : Database} {c : ExecuteCall} (h : executeLoc db c)
    (hg : Grows db db') : executeLoc db' c := by
  unfold executeLoc at h ⊢
  split at h
  case h_7 => trivial
  all_goals exact ⟨h.1.grow hg, h.2⟩

theorem reconcileLoc.grow {db db' : Database} {c : ReconcileCall} (h : reconcileLoc db c)
    (hg : Grows db db') : reconcileLoc db' c := by
  cases c with
  | listBroadcast => trivial
  | query b rest | write b rest => exact fun b' hb' => (h b' hb').grow hg

theorem loc.grow {w w' : World} {r : Call} (h : loc w r) (hg : Grows w.db w'.db) : loc w' r := by
  cases r with
  | execute c => exact executeLoc.grow h hg
  | reconcile c => exact reconcileLoc.grow h hg
  | approve c => exact h
  | allocate d | scan c | share c | plan c | planOperator c => trivial

/-- One resolved effect of an execution. -/
theorem executed_covered {rt : Runtime} {w w' : World} {a : Answer} {c : ExecuteCall}
    {o : Option ExecuteCall} (hx : Executed rt w c a w' o) (h : Covered w.db)
    (hl : executeLoc w.db c) :
    Covered w'.db ∧ Grows w.db w'.db ∧ ∀ c' ∈ o, executeLoc w'.db c' := by
  cases hx with
  | acquire hp hlock => exact ⟨h, .refl _, by rintro _ ⟨⟩; trivial⟩
  | checkReorg hp hr => exact ⟨h, .refl _, by rintro _ ⟨⟩; trivial⟩
  | unsigned hp hr hs hu => exact ⟨h, .refl _, by rintro _ ⟨⟩; exact ⟨copy_of_reads hr, hr.id⟩⟩
  | opened hp hr hs ho ht =>
    refine ⟨h, .refl _, ?_⟩
    rintro _ ⟨⟩
    obtain rfl | rfl := ht <;> exact ⟨copy_of_reads hr, hr.id⟩
  | readPolicy hp hb | prepare hp hf | known hp | unknown hp =>
    refine ⟨h, .refl _, ?_⟩
    rintro _ ⟨⟩
    simp only [executeLoc, hp] at hl
    exact hl
  | persist hp hs hd => exact ⟨h.persist hd, .persist hd, by rintro _ ⟨⟩; trivial⟩
  | broadcast hp ht =>
    refine ⟨h, .refl _, ?_⟩
    rintro _ ⟨⟩
    simp only [executeLoc, hp] at hl
    obtain rfl | ⟨e, rfl⟩ := ht
    · exact hl
    · trivial
  | post hp hd =>
    simp only [executeLoc, hp] at hl
    obtain ⟨hc, hg⟩ := h.post hl.1 hl.2 hd
    exact ⟨hc, hg, by rintro _ ⟨⟩; trivial⟩
  | readResult hp => exact ⟨h, .refl _, by rintro _ ⟨⟩; trivial⟩
  | fails hp hr hs => exact ⟨h, .refl _, by rintro _ ⟨⟩; trivial⟩
  | failsLater hp => exact ⟨h, .refl _, by rintro _ ⟨⟩; trivial⟩
  | markFailed hp hd =>
    refine ⟨h.updateBatch (sameBatch_fail _) hd (fun b => by simp [failBatch]) (fun b hb => ?_),
      .updateBatch (sameBatch_fail _) hd, by rintro _ ⟨⟩; trivial⟩
    simp [failBatch] at hb
  | release hp => exact ⟨h, .refl _, by rintro _ ⟨⟩⟩

theorem approved_covered {rt : Runtime} {w w' : World} {a : Answer} {c : ApproveCall}
    {o : Option ApproveCall} (hx : Approved rt w a c w' o) (h : Covered w.db)
    (hl : approveLoc c) : Covered w'.db ∧ Grows w.db w'.db ∧ ∀ c' ∈ o, approveLoc c' := by
  cases hx with
  | assertTotp ht => exact ⟨h, .refl _, by rintro _ ⟨⟩; trivial⟩
  | readBatch hn => exact ⟨h, .refl _, by rintro _ ⟨⟩; exact hn⟩
  | write hd =>
    refine ⟨h.updateBatch (sameBatch_approve _ _ _) hd (fun b => ?_) (fun b hb => ?_),
      .updateBatch (sameBatch_approve _ _ _) hd, by rintro _ ⟨⟩⟩
    · obtain rfl | rfl := hl <;> simp [approveBatch]
    · obtain rfl | rfl := hl <;> simp [approveBatch] at hb

theorem reconciled_covered {db db' : Database} {a : Answer} {c : ReconcileCall}
    {o : Option ReconcileCall} (hx : Reconciled db a c db' o) (h : Covered db)
    (hl : reconcileLoc db c) :
    Covered db' ∧ Grows db db' ∧ ∀ c' ∈ o, reconcileLoc db' c' := by
  have hnext : ∀ {db : Database} {l : List PayoutBatch}, (∀ b ∈ l, Posted db b.id) →
      ∀ c' ∈ queryNext l, reconcileLoc db c' :=
    queryNext_all (fun _ _ hall => hall)
  cases hx with
  | list hm =>
    exact ⟨h, .refl _, hnext (fun b hb =>
      ⟨⟨b, (hm b hb).1, rfl⟩, h.settled b (hm b hb).1 (.inl (hm b hb).2)⟩)⟩
  | pass => exact ⟨h, .refl _, hnext (fun b hb => hl b (by simp [hb]))⟩
  | enough =>
    refine ⟨h, .refl _, ?_⟩
    rintro _ ⟨⟩
    exact hl
  | @write batch rest db' hd =>
    have hg : Grows db db' := .updateBatch (sameBatch_confirm _) hd
    refine ⟨h.updateBatch (sameBatch_confirm _) hd (fun b => by simp [confirmBatch])
      (fun _ _ => (hl batch (by simp)).settled), hg, ?_⟩
    exact hnext (fun b hb => (hl b (by simp [hb])).grow hg)

/-- Every effect keeps the invariant and the assertion of its own call. -/
theorem acted_covered {rt : Runtime} {w w' : World} {r : Call} {a : Answer} {o : Option Call}
    (h : Covered w.db) (hl : loc w r) (ha : Acted rt w a r w' o) :
    Covered w'.db ∧ Grows w.db w'.db ∧ ∀ r' ∈ o, loc w' r' := by
  cases ha with
  | allocate hd =>
    obtain ⟨hc, hg⟩ := allocate_covered hd h
    exact ⟨hc, hg, by rintro _ ⟨⟩⟩
  | scan hs =>
    obtain ⟨hc, hg⟩ := scanned_covered hs h
    refine ⟨hc, hg, fun r' hr' => ?_⟩
    obtain ⟨c', _, rfl⟩ := Option.map_eq_some_iff.mp hr'
    trivial
  | share hs =>
    refine ⟨(journals_payouts hs).covered h, (journals_payouts hs).grows, fun r' hr' => ?_⟩
    obtain ⟨c', _, rfl⟩ := Option.map_eq_some_iff.mp hr'
    trivial
  | @prepares _ t _ =>
    have hsame : SamePayouts w.db (withDestinations w.db t) := ⟨rfl, rfl, rfl⟩
    refine ⟨hsame.covered h, hsame.grows, fun r' hr' => ?_⟩
    obtain ⟨c', _, rfl⟩ := Option.map_eq_some_iff.mp hr'
    trivial
  | preparesOperator =>
    refine ⟨h, .refl _, fun r' hr' => ?_⟩
    obtain ⟨c', _, rfl⟩ := Option.map_eq_some_iff.mp hr'
    trivial
  | plans hp | plansOperator hp => exact ⟨h.planned hp, .created hp.created rfl, by rintro _ ⟨⟩⟩
  | approve hx =>
    obtain ⟨hc, hg, ho⟩ := approved_covered hx h hl
    refine ⟨hc, hg, fun r' hr' => ?_⟩
    obtain ⟨c', hc', rfl⟩ := Option.map_eq_some_iff.mp hr'
    exact ho c' hc'
  | execute hx =>
    obtain ⟨hc, hg, ho⟩ := executed_covered hx h hl
    refine ⟨hc, hg, fun r' hr' => ?_⟩
    obtain ⟨c', hc', rfl⟩ := Option.map_eq_some_iff.mp hr'
    exact ho c' hc'
  | reconcile hx =>
    obtain ⟨hc, hg, ho⟩ := reconciled_covered hx h hl
    refine ⟨hc, hg, fun r' hr' => ?_⟩
    obtain ⟨c', hc', rfl⟩ := Option.map_eq_some_iff.mp hr'
    exact ho c' hc'

theorem handler_loc {w : World} {r r' : Call} {e : String} (h : handler r e = some r') :
    loc w r' := by
  cases r with
  | execute c =>
    obtain ⟨c', hc, rfl⟩ := Option.map_eq_some_iff.mp h
    rw [Execute.handler] at hc
    split at hc <;> cases hc <;> trivial
  | scan c =>
    obtain ⟨c', _, rfl⟩ := Option.map_eq_some_iff.mp h
    trivial
  | allocate d | share c | plan c | planOperator c | approve c | reconcile c => cases h

theorem entry_loc {w : World} {r : Call} (h : r.entry = true) : loc w r := by
  cases r with
  | execute c => simp only [loc, executeLoc, entry_point h]
  | approve c => cases c <;> trivial
  | reconcile c => cases c <;> trivial
  | allocate d | scan c | share c | plan c | planOperator c => trivial

theorem renew_point (w : World) (c : ExecuteCall) (b : Bool) : (renew w c b).point = c.point := by
  rw [renew]
  split
  · rfl
  · split <;> rfl

theorem renew_id (w : World) (c : ExecuteCall) (b : Bool) : (renew w c b).id = c.id := by
  rw [renew]
  split
  · rfl
  · split <;> rfl

theorem background_loc {w : World} {r : Call} (h : loc w r) (b : Bool) : loc w (background w r b) := by
  cases r with
  | execute c =>
    simp only [background, loc, executeLoc, renew_point, Holding, renew_id] at h ⊢
    exact h
  | allocate d | scan c | share c | plan c | planOperator c | approve c | reconcile c => exact h

theorem outline (rt : Runtime) : Outline (system rt) (shared (ρ := Call)) (fun _ _ _ => True)
    (fun _ _ => True) (fun w => Covered w.db) loc (fun _ w w' => Grows w.db w'.db) where
  entry _ _ _ h := entry_loc h
  effect _ _ _ _ _ h hl _ he := by
    obtain ⟨hc, hg, ho⟩ := acted_covered h hl (effect_acted he)
    exact ⟨hc, hg, ho, fun e r' hr' => handler_loc hr'⟩
  handler _ _ _ _ _ _ h := handler_loc h
  background _ _ b _ h := background_loc h b
  event w e h _ := ⟨(change_payouts w e).covered h, fun _ hl => hl.grow (change_payouts w e).grows⟩
  stable _ _ _ _ _ hg _ hl := hl.grow hg

theorem fresh_covered {db : Database} (h : db.Fresh) : Covered db := by
  refine ⟨?_, ?_, ?_, ?_, ?_, ?_, ?_⟩
  · simp [h.payoutItems]
  · simp [h.payoutItems]
  · simp [h.payoutBatches]
  · simp [h.payoutItems]
  · simp [h.payoutBatches]
  · simp [h.journalTransactions]
  · intro c asset
    simp [owed, h.payoutItems, customerBalance_eq, journalEntries, h.journalTransactions]

theorem reaches_covered {rt : Runtime} {w : World} {c : Config World Call} (hw : w.db.Fresh)
    (h : (system rt).Reaches (.idle w) c) : Covered c.shared.db :=
  ((outline rt).run (keyed_shared _) (Outline.idle (fresh_covered hw)) h.allowed).inv

def credited (db : Database) (customerId : Id) (asset : AssetCode) : ℤ :=
  creditTotal ((journalEntries db).filter (fun e => e.account = liabilityRef asset customerId))

def debited (db : Database) (customerId : Id) (asset : AssetCode) : ℤ :=
  debitTotal ((journalEntries db).filter (fun e => e.account = liabilityRef asset customerId))

theorem customerBalance_totals (db : Database) (customerId : Id) (asset : AssetCode) :
    customerBalance db customerId asset =
      credited db customerId asset - debited db customerId asset := by
  rw [customerBalance_eq, net, sumAt, sum_signed, credited, debited]
  omega

/-- In every reachable state a customer's balance covers the items that still
have to be posted, so it never goes below zero. -/
theorem committed_le_balance {rt : Runtime} {w : World} {c : Config World Call} (hw : w.db.Fresh)
    (h : (system rt).Reaches (.idle w) c) (customerId : Id) (asset : AssetCode) :
    committed c.shared.db customerId asset ≤ customerBalance c.shared.db customerId asset ∧
      0 ≤ customerBalance c.shared.db customerId asset ∧
      debited c.shared.db customerId asset ≤ credited c.shared.db customerId asset := by
  have hc := reaches_covered hw h
  have h1 := committed_le_owed hc customerId asset
  have h2 := hc.covered customerId asset
  have h3 := owed_nonneg hc customerId asset
  have h4 := customerBalance_totals c.shared.db customerId asset
  exact ⟨by omega, by omega, by omega⟩

theorem committed_le_balance_sample : ∃ c, (system sampleRuntime).Reaches (.idle sampleWorld) c ∧
    committed c.shared.db 1 .btc = 800 ∧
      committed c.shared.db 1 .btc ≤ customerBalance c.shared.db 1 .btc := by
  obtain ⟨c, hr, hv⟩ := exec_sample (sampleCredit ++ samplePayout.take 4)
    (f := fun c => committed c.shared.db 1 .btc) (v := 800) (by decide +kernel)
  exact ⟨c, hr, hv, (committed_le_balance sampleWorld_fresh hr 1 .btc).1⟩

end Bitmine.NoOvercommit
