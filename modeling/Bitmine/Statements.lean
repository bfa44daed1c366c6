import Bitmine.Books
import Bitmine.Income
import Bitmine.LedgerOutflow
import Bitmine.OperatorCommitments

namespace Bitmine.Statements

open Bitmine.Lib.UniqueTable Bitmine.Lib.GroupSum Bitmine.Lib.Throwing Bitmine.Lib.Await
open Bitmine.Lib.Resources (HoldOutline Guarded)
open Bitmine.Schema Bitmine.Deployment Bitmine.Deposits Bitmine.Ledger Bitmine.LedgerPosting Bitmine.Books
open Bitmine.AllocateDeposit Bitmine.AllocationSpec Bitmine.Payouts Bitmine.Execute
open Bitmine.PayoutHistory Bitmine.System Bitmine.Commitments Bitmine.NoOvercommit
open Bitmine.OperatorCommitments Bitmine.BatchAccounts Bitmine.Income
open Bitmine.LedgerOutflow (inside locked FromAdapter assertion Advances)

section Terms

def accountOf (asset : AssetCode) : Option Id → AccountRef
  | some customerId => liabilityRef asset customerId
  | none => revenueRef asset

def share : Option Id → AllocationItem → ℤ
  | some customerId, i => if i.customerId = customerId then i.customerAtomic else 0
  | none, i => i.operatorAtomic

def allocationsOf (db : Database) (asset : AssetCode) : List AllocationBatch :=
  db.allocationBatches.rows.filter (fun b => b.asset = asset)

def earned (db : Database) (asset : AssetCode) (payee : Option Id) : ℤ :=
  ((allocationsOf db asset).map (fun b => (b.items.map (share payee)).sum)).sum

def allocated (db : Database) (asset : AssetCode) : ℤ :=
  ((allocationsOf db asset).map AllocationBatch.totalAtomic).sum

def takenBy (db : Database) (asset : AssetCode) (payee : Option Id) (i : PayoutItem) : ℤ :=
  if i.customerId = payee ∧ i.journalTransactionId.isSome ∧ hasAsset db asset i.batchId
  then i.grossAtomic else 0

def taken (db : Database) (asset : AssetCode) (payee : Option Id) : ℤ :=
  (db.payoutItems.rows.map (takenBy db asset payee)).sum

def creditsOf (db : Database) (asset : AssetCode) (b : PayoutBatch) : ℤ :=
  if b.asset = asset then batchCredits db b.id else 0

def credits (db : Database) (asset : AssetCode) : ℤ :=
  (db.payoutBatches.rows.map (creditsOf db asset)).sum

/-- The balances are what the records say, and only batches that have been broadcast,
and the one that is being posted, have items in the journal. -/
structure Stated (posting : Option Id) (db : Database) : Prop where
  payees : ∀ asset payee,
    creditBalance db (accountOf asset payee) = earned db asset payee - taken db asset payee
  treasury : ∀ asset, debitBalance db ⟨asset, .treasury⟩ = allocated db asset - credits db asset
  sent : ∀ i ∈ db.payoutItems.rows, i.journalTransactionId.isSome → posting ≠ some i.batchId →
    ∀ b ∈ db.payoutBatches.rows, b.id = i.batchId → b.broadcastAt.isSome

theorem creditBalance_congr {db db' : Database} (h : db'.journalTransactions = db.journalTransactions)
    (account : AccountRef) : creditBalance db' account = creditBalance db account := by
  rw [creditBalance_eq, creditBalance_eq, journalEntries, h, journalEntries]

theorem batchCredits_congr {db db' : Database} (h : db'.journalTransactions = db.journalTransactions)
    (id : Id) : batchCredits db' id = batchCredits db id := by
  rw [batchCredits, h, batchCredits]

theorem earned_congr {db db' : Database} (h : db'.allocationBatches = db.allocationBatches)
    (asset : AssetCode) (payee : Option Id) : earned db' asset payee = earned db asset payee := by
  rw [earned, allocationsOf, h, earned, allocationsOf]

theorem allocated_congr {db db' : Database} (h : db'.allocationBatches = db.allocationBatches)
    (asset : AssetCode) : allocated db' asset = allocated db asset := by
  rw [allocated, allocationsOf, h, allocated, allocationsOf]

end Terms

section Rewriting

variable {posting posting' : Option Id} {db db' : Database}

/-- Rewriting batches and items, the journal and the allocations left alone. -/
theorem Stated.of_map (h : Stated posting db) {f : PayoutBatch → PayoutBatch}
    {g : PayoutItem → PayoutItem} (hf : ∀ b, SameBatch b (f b))
    (hg : ∀ i, SameItem i (g i) ∧ (g i).journalTransactionId = i.journalTransactionId)
    (hb : db'.payoutBatches.rows = db.payoutBatches.rows.map f)
    (hi : db'.payoutItems.rows = db.payoutItems.rows.map g)
    (hj : db'.journalTransactions = db.journalTransactions)
    (ha : db'.allocationBatches = db.allocationBatches)
    (hsent : ∀ b, posting' ≠ some b.id → posting = some b.id ∨ b.broadcastAt.isSome →
      (f b).broadcastAt.isSome) : Stated posting' db' where
  payees asset payee := by
    have htaken : taken db' asset payee = taken db asset payee := by
      rw [taken, hi, List.map_map, taken]
      apply congrArg List.sum
      apply List.map_congr_left
      intro i _
      simp only [Function.comp, takenBy, (hg i).1.customerId, (hg i).2, (hg i).1.batchId,
        (hg i).1.grossAtomic, hasAsset_map hf hb]
    rw [creditBalance_congr hj, earned_congr ha, htaken]
    exact h.payees asset payee
  treasury asset := by
    have hcredits : credits db' asset = credits db asset := by
      rw [credits, hb, List.map_map, credits]
      apply congrArg List.sum
      apply List.map_congr_left
      intro b _
      simp only [Function.comp, creditsOf, (hf b).asset, (hf b).id, batchCredits_congr hj]
    rw [debitBalance, creditBalance_congr hj, allocated_congr ha, hcredits]
    exact h.treasury asset
  sent i' hi' hposted hne b' hb' hid := by
    rw [hi] at hi'
    rw [hb] at hb'
    obtain ⟨i, hmem, rfl⟩ := List.mem_map.mp hi'
    obtain ⟨b, hbmem, rfl⟩ := List.mem_map.mp hb'
    rw [(hg i).2] at hposted
    rw [(hf b).id, (hg i).1.batchId] at hid
    rw [(hg i).1.batchId, ← hid] at hne
    apply hsent b hne
    by_cases hown : posting = some b.id
    · exact .inl hown
    · exact .inr (h.sent i hmem hposted (hid ▸ hown) b hbmem hid)

theorem Stated.of_same (h : Stated posting db) (hs : SamePayouts db db')
    (ha : db'.allocationBatches = db.allocationBatches) : Stated posting db' := by
  apply h.of_map (f := fun b => b) (g := fun i => i) (fun b => .refl b) (fun i => ⟨.refl i, rfl⟩)
  · rw [hs.batches, List.map_id']
  · rw [hs.items, List.map_id']
  · exact hs.journal
  · exact ha
  · exact fun b hne hsent => hsent.resolve_left hne

theorem Stated.updateBatch (h : Stated posting db) {id : Id} {f : PayoutBatch → PayoutBatch}
    {hf : KeepsKeys f} (hs : ∀ b, SameBatch b (f b)) (hu : updateBatch db id f hf = .ok db')
    (hsent : ∀ b, posting' ≠ some b.id → posting = some b.id ∨ b.broadcastAt.isSome →
      (if b.id = id then f b else b).broadcastAt.isSome) : Stated posting' db' := by
  obtain ⟨_, hrows, hframe⟩ := updateBatch_ok hu
  apply h.of_map (g := fun i => i) _ (fun i => ⟨.refl i, rfl⟩) hrows
  · rw [hframe, List.map_id']
    rfl
  · rw [hframe]
    rfl
  · rw [hframe]
    rfl
  · exact hsent
  · intro b
    split
    · exact hs b
    · exact .refl b

theorem Stated.updateMarked (h : Stated posting db) {id : Id} {f : PayoutBatch → PayoutBatch}
    {hf : KeepsKeys f} (hs : ∀ b, SameBatch b (f b)) (hu : Payouts.updateBatch db id f hf = .ok db')
    (hmark : ∀ b, (f b).broadcastAt = b.broadcastAt) : Stated posting db' := by
  apply h.updateBatch hs hu
  intro b hne hsent
  have hb := hsent.resolve_left hne
  split
  · rw [hmark]
    exact hb
  · exact hb

theorem Stated.persist (h : Stated posting db) {id : Id} {stored : String} {prepared : PreparedPayout}
    (hp : persistTransaction db id stored prepared = .ok db') : Stated posting db' := by
  obtain ⟨_, hi, hb, hframe⟩ := persistTransaction_ok hp
  apply h.of_map _ (chargeItems_same prepared.items) hb hi
  · rw [hframe]
    rfl
  · rw [hframe]
    rfl
  · intro b hne hsent
    have hmark := hsent.resolve_left hne
    split <;> exact hmark
  · intro b
    split
    · exact sameBatch_sign _ _ b
    · exact .refl b

end Rewriting

section Planning

variable {posting : Option Id} {db db' : Database} {a : Answer} {batch : PayoutBatch} {items : List NewItem}

theorem batchCredits_fresh (hcov : Covered db) (hfresh : ∀ b ∈ db.payoutBatches.rows, b.id ≠ batch.id) :
    batchCredits db batch.id = 0 := by
  rw [batchCredits, List.filter_eq_nil_iff.mpr]
  · rfl
  · intro t ht hr
    rw [decide_eq_true_eq] at hr
    obtain ⟨_, b, hb, hid, _⟩ := hcov.referenced t ht batch.id hr
    exact hfresh b hb hid

theorem Stated.create (h : Stated posting db) (hcov : Covered db) (hc : Created a db db' batch items)
    (hid : batch.id = a.newId 0) : Stated posting db' := by
  have hj : db'.journalTransactions = db.journalTransactions := by
    rw [hc.frame]
    rfl
  have ha : db'.allocationBatches = db.allocationBatches := by
    rw [hc.frame]
    rfl
  have hfresh : ∀ b ∈ db.payoutBatches.rows, b.id ≠ batch.id :=
    fun b hb he => hc.fresh b hb (.inl he)
  have hold : ∀ i ∈ db.payoutItems.rows, i.batchId ≠ batch.id := by
    intro i hi he
    obtain ⟨b, hb, hbi⟩ := hcov.owned i hi
    exact hfresh b hb (hbi.trans he)
  have hnew : ∀ i ∈ items.mapIdx (newItem a), i.journalTransactionId = none := by
    intro i hi
    obtain ⟨k, hk, rfl⟩ := List.mem_mapIdx.mp hi
    rfl
  constructor
  · intro asset payee
    have hunposted : ((items.mapIdx (newItem a)).map (takenBy db' asset payee)).sum = 0 := by
      apply List.sum_eq_zero
      intro x hx
      obtain ⟨i, hi, rfl⟩ := List.mem_map.mp hx
      apply if_neg
      rintro ⟨_, hposted, _⟩
      rw [hnew i hi] at hposted
      cases hposted
    have hrest : (db.payoutItems.rows.map (takenBy db' asset payee)).sum = taken db asset payee := by
      apply congrArg List.sum
      apply List.map_congr_left
      intro i hi
      rw [takenBy, takenBy, hasAsset_created hc (hold i hi)]
    rw [creditBalance_congr hj, earned_congr ha, taken, hc.items, List.map_append, List.sum_append,
      hunposted, hrest, add_zero]
    exact h.payees asset payee
  · intro asset
    have hrest : (db.payoutBatches.rows.map (creditsOf db' asset)).sum = credits db asset := by
      apply congrArg List.sum
      apply List.map_congr_left
      intro b _
      rw [creditsOf, creditsOf, batchCredits_congr hj]
    have hzero : creditsOf db' asset batch = 0 := by
      rw [creditsOf, batchCredits_congr hj, batchCredits_fresh hcov hfresh, ite_self]
    rw [debitBalance, creditBalance_congr hj, allocated_congr ha, credits, hc.batches, List.map_append,
      List.sum_append, hrest, List.map_singleton, List.sum_singleton, hzero, add_zero]
    exact h.treasury asset
  · intro i hi hposted hne b hb hbi
    rw [hc.items, List.mem_append] at hi
    rw [hc.batches, List.mem_append, List.mem_singleton] at hb
    obtain hi | hi := hi
    · obtain hb | rfl := hb
      · exact h.sent i hi hposted hne b hb hbi
      · exact absurd hbi.symm (hold i hi)
    · rw [hnew i hi] at hposted
      cases hposted

end Planning

section Crediting

variable {posting : Option Id} {db db' : Database} {deposit : Deposit} {items : List AllocationItem}

theorem liabilityLines_payee (asset : AssetCode) (totals : List (Id × ℤ)) (asset' : AssetCode) (c : Id) :
    net (totals.map (fun t => ⟨liabilityRef asset t.1, .credit, t.2⟩)) (liabilityRef asset' c) =
      -(if asset = asset' then sumAt Prod.fst Prod.snd c totals else 0) := by
  induction totals with
  | nil => simp
  | cons t totals ih =>
    rw [List.map_cons, net_cons, ih, sumAt_cons]
    by_cases ha : asset = asset' <;> by_cases hc : t.1 = c <;>
      simp [liabilityRef, LedgerPosting.signed, ha, hc]
    omega

theorem operatorLine_payee (asset : AssetCode) {total : ℤ} (h : 0 ≤ total) (asset' : AssetCode) :
    net (if 0 < total then [⟨⟨asset, .operatorRevenue⟩, .credit, total⟩] else []) (revenueRef asset') =
      -(if asset = asset' then total else 0) := by
  by_cases hpos : 0 < total
  · by_cases ha : asset = asset' <;> simp [hpos, net_cons, revenueRef, LedgerPosting.signed, ha]
  · have hzero : total = 0 := by omega
    simp [hzero]

theorem sum_share_customer (items : List AllocationItem) (c : Id) : (items.map (share (some c))).sum =
    sumAt AllocationItem.customerId AllocationItem.customerAtomic c items := by
  rw [sumAt, sum_filter]
  simp only [decide_eq_true_eq]
  rfl

/-- The journal of an allocation gives every payee what the items say. -/
theorem allocationEntries_payee (hf : ∀ i ∈ items, FairItem db i) (asset : AssetCode)
    (payee : Option Id) : net (allocationEntries deposit items) (accountOf asset payee) =
      -(if deposit.asset = asset then (items.map (share payee)).sum else 0) := by
  have hclearing : net [⟨⟨deposit.asset, .allocationClearing⟩, .debit, deposit.amountAtomic⟩]
      (accountOf asset payee) = 0 := by
    apply net_eq_zero
    intro e he
    rw [List.mem_singleton.mp he]
    cases payee <;> simp [accountOf, liabilityRef, revenueRef]
  rw [allocationEntries, net_append, net_append, hclearing, zero_add]
  cases payee with
  | some c =>
    have hoperator : net (if 0 < operatorTotal items then
        [⟨⟨deposit.asset, .operatorRevenue⟩, .credit, operatorTotal items⟩] else [])
        (accountOf asset (some c)) = 0 := by
      apply net_eq_zero
      intro e he
      split at he
      · rw [List.mem_singleton.mp he]
        simp [accountOf, liabilityRef]
      · cases he
    rw [hoperator, add_zero, accountOf, liabilityLines_payee,
      sumAt_liabilityTotals (fun i hi => (hf i hi).customer_nonneg), sum_share_customer]
  | none =>
    have hlines := liabilityLines_net deposit.asset (liabilityTotals items)
      (show isLiability (revenueRef asset).code = false from rfl)
    rw [accountOf, hlines, zero_add]
    exact operatorLine_payee _ (operatorTotal_nonneg hf) asset

theorem depositEntries_payee (asset : AssetCode) (payee : Option Id) :
    net (depositEntries deposit) (accountOf asset payee) = 0 := by
  apply net_eq_zero
  intro e he
  simp only [depositEntries] at he
  fin_cases he <;> cases payee <;> simp [accountOf, liabilityRef, revenueRef]

theorem allocation_treasury (asset : AssetCode) :
    net (depositEntries deposit) ⟨asset, .treasury⟩ + net (allocationEntries deposit items) ⟨asset, .treasury⟩ =
      if deposit.asset = asset then deposit.amountAtomic else 0 := by
  have hnone : net (allocationEntries deposit items) ⟨asset, .treasury⟩ = 0 := by
    apply net_eq_zero
    intro e he hacc
    simp only [allocationEntries, List.mem_append, List.mem_singleton, List.mem_map] at he
    obtain (rfl | ⟨total, _, rfl⟩) | he := he
    · cases hacc
    · cases hacc
    · split at he
      · rw [List.mem_singleton.mp he] at hacc
        cases hacc
      · cases he
  rw [hnone, add_zero]
  by_cases ha : deposit.asset = asset <;> simp [depositEntries, net_cons, LedgerPosting.signed, ha]

theorem allocationsOf_append {b : AllocationBatch}
    (h : db'.allocationBatches.rows = db.allocationBatches.rows ++ [b]) (asset : AssetCode)
    (f : AllocationBatch → ℤ) : ((allocationsOf db' asset).map f).sum =
      ((allocationsOf db asset).map f).sum + if b.asset = asset then f b else 0 := by
  rw [allocationsOf, h, List.filter_append, List.map_append, List.sum_append, List.filter_singleton,
    allocationsOf]
  by_cases ha : b.asset = asset <;> simp [ha]

theorem Stated.allocated (h : Stated posting db) {order : Order ((Id × Id) × ℚ)} {ids : AllocationIds}
    {now : Instant} {endpointIds : List Id}
    (hc : Committed order ids now db db' deposit endpointIds items) : Stated posting db' := by
  obtain ⟨hfair, _⟩ := allocationItems_ok hc.computed
  have hb : db'.payoutBatches = db.payoutBatches := by
    rw [hc.frame]
    rfl
  have hi : db'.payoutItems = db.payoutItems := by
    rw [hc.frame]
    rfl
  have hnet : ∀ account, creditBalance db' account = creditBalance db account -
      (net (depositEntries deposit) account + net (allocationEntries deposit items) account) := by
    intro account
    rw [creditBalance_eq, hc.ledger.net, creditBalance_eq, List.flatMap_cons, net_append,
      List.flatMap_singleton]
    simp only [depositJournal, allocationJournal]
    omega
  constructor
  · intro asset payee
    have htaken : taken db' asset payee = taken db asset payee := by
      rw [taken, hi, taken]
      apply congrArg List.sum
      apply List.map_congr_left
      intro i _
      rw [takenBy, takenBy, hasAsset, hb, hasAsset]
    have hsum := h.payees asset payee
    rw [hnet, depositEntries_payee, allocationEntries_payee hfair, htaken, earned,
      allocationsOf_append hc.batches]
    rw [earned] at hsum
    by_cases hasset : deposit.asset = asset <;> simp only [allocationBatch, hasset, ↓reduceIte] <;> omega
  · intro asset
    have hcredits : credits db' asset = credits db asset := by
      rw [credits, hb, credits]
      apply congrArg List.sum
      apply List.map_congr_left
      intro b _
      rw [creditsOf, batchCredits_append hc.ledger.journal, creditsOf]
      apply congrArg (fun x => if b.asset = asset then x else 0)
      exact add_zero _
    have hsum := h.treasury asset
    rw [debitBalance, hnet, allocation_treasury, hcredits, Statements.allocated,
      allocationsOf_append hc.batches]
    rw [debitBalance, Statements.allocated] at hsum
    by_cases hasset : deposit.asset = asset <;> simp only [allocationBatch, hasset, ↓reduceIte] <;> omega
  · rw [hi, hb]
    exact h.sent

end Crediting

section Posting

variable {posting : Option Id} {db db' : Database} {a : Answer} {b : PayoutBatch} {i i₀ : PayoutItem}
  {journalId : Id}

theorem itemTransaction_payee (journalId : Id) (asset : AssetCode) (payee : Option Id) :
    net (itemTransaction journalId b i).entries (accountOf asset payee) =
      if i.customerId = payee ∧ b.asset = asset then i.grossAtomic else 0 := by
  cases payee with
  | some c => exact itemTransaction_net journalId c asset
  | none => exact itemTransaction_revenue journalId asset

theorem payoutEntries_treasury (input : PayoutPosting) (asset : AssetCode) :
    net (payoutEntries input) ⟨asset, .treasury⟩ = -(if input.asset = asset then
      input.grossAtomic + if input.operatorPaysFee ∧ 0 < input.feeAtomic then input.feeAtomic else 0 else 0) := by
  by_cases ha : input.asset = asset <;> by_cases hfee : 0 < input.feeAtomic <;>
    cases ho : input.operatorPaysFee <;>
    simp [payoutEntries, recoveredFee, net_cons, LedgerPosting.signed, liabilityRef, ha, hfee, ho]
  omega

theorem operatorPayoutEntries_treasury (input : OperatorPosting) (asset : AssetCode) :
    net (operatorPayoutEntries input) ⟨asset, .treasury⟩ =
      -(if input.asset = asset then input.grossAtomic else 0) := by
  by_cases ha : input.asset = asset <;> by_cases hfee : 0 < input.feeAtomic <;>
    simp [operatorPayoutEntries, recoveredFee, net_cons, LedgerPosting.signed, ha, hfee]

theorem itemTransaction_treasury (journalId : Id) (asset : AssetCode) :
    net (itemTransaction journalId b i).entries ⟨asset, .treasury⟩ =
      -(if b.asset = asset then itemCredit b i else 0) := by
  rw [itemTransaction, itemCredit]
  cases hc : i.customerId with
  | some c =>
    simp only [Option.isSome_some, true_and]
    exact payoutEntries_treasury _ asset
  | none =>
    simp only [Option.isSome_none, Bool.false_eq_true, false_and, ↓reduceIte, add_zero]
    exact operatorPayoutEntries_treasury _ asset

theorem posts_balance (hp : Posts journalId b i db db') (account : AccountRef) :
    creditBalance db' account = creditBalance db account -
      net (itemTransaction journalId b i).entries account := by
  rw [creditBalance_eq, journalEntries, hp.journal, List.flatMap_append, net_append,
    List.flatMap_singleton, creditBalance_eq, journalEntries]
  omega

theorem posts_taken (hp : Posts journalId b i db db') (ht : Tracks db b i)
    (hi₀ : i₀ ∈ db.payoutItems.rows) (hs : SameItem i i₀) (hnone : i₀.journalTransactionId = none)
    (asset : AssetCode) (payee : Option Id) : taken db' asset payee = taken db asset payee +
      if i.customerId = payee ∧ b.asset = asset then i.grossAtomic else 0 := by
  have hrow : ∀ j ∈ db.payoutItems.rows, decide (j.id = i.id) = true ↔ j = i₀ := by
    intro j hj
    rw [decide_eq_true_eq]
    constructor
    · exact fun hid => db.payoutItems.eq_of_id hj hi₀ (hid.trans hs.id.symm)
    · rintro rfl
      exact hs.id
  have hsum := sum_map_rewrite (takenBy db asset payee) (journalItem journalId)
    (fun j => j.id = i.id) db.payoutItems.rows_nodup hi₀ hrow
  have hbefore : takenBy db asset payee i₀ = 0 := by
    apply if_neg
    rintro ⟨_, hposted, _⟩
    rw [hnone] at hposted
    cases hposted
  have hafter : takenBy db asset payee (journalItem journalId i₀) =
      if i.customerId = payee ∧ b.asset = asset then i.grossAtomic else 0 := by
    simp only [takenBy, journalItem, Option.isSome_some, true_and, hs.customerId, hs.grossAtomic,
      hasAsset_of_tracks ht hs asset]
  have hf : takenBy db' asset payee = takenBy db asset payee := by
    funext j
    rw [takenBy, takenBy, hasAsset, hp.batches, hasAsset]
  simp only [decide_eq_true_eq] at hsum
  rw [taken, hf, hp.items, hsum, hbefore, hafter, sub_zero, taken]

theorem posts_creditsOf (hp : Posts journalId b i db db') (ht : Tracks db b i) {b₀ : PayoutBatch}
    (hs : SameBatch b b₀) (asset : AssetCode) :
    creditsOf db' asset b₀ = creditsOf db asset b₀ + if b.asset = asset then itemCredit b i else 0 := by
  rw [creditsOf, posts_credits hp ht.own, if_pos (ht.own.trans hs.id.symm), creditsOf, hs.asset]
  by_cases ha : b.asset = asset <;> simp [ha]

theorem posts_credits_total (hp : Posts journalId b i db db') (ht : Tracks db b i) (asset : AssetCode) :
    credits db' asset = credits db asset + if b.asset = asset then itemCredit b i else 0 := by
  obtain ⟨b₀, hb₀, hs⟩ := ht.batch
  have hgain : (db.payoutBatches.rows.map (fun c => creditsOf db' asset c - creditsOf db asset c)).sum =
      if b.asset = asset then itemCredit b i else 0 := by
    classical
    rw [List.sum_map_eq_nsmul_single b₀, List.count_eq_one_of_mem db.payoutBatches.rows_nodup hb₀,
      one_nsmul, posts_creditsOf hp ht hs]
    · omega
    · intro c hne hc
      have hid : i.batchId ≠ c.id := fun he =>
        hne (db.payoutBatches.eq_of_id hc hb₀ (he.symm.trans (ht.own.trans hs.id.symm)))
      rw [creditsOf, posts_credits hp ht.own, if_neg hid, add_zero, creditsOf, sub_self]
  have hsplit : ∀ c ∈ db.payoutBatches.rows, creditsOf db' asset c =
      creditsOf db asset c + (creditsOf db' asset c - creditsOf db asset c) := fun c _ => by omega
  rw [credits, hp.batches, List.map_congr_left hsplit, List.sum_map_add, hgain, credits]

theorem Stated.posts (h : Stated (some b.id) db) (hp : Posts journalId b i db db') (ht : Tracks db b i)
    (hi₀ : i₀ ∈ db.payoutItems.rows) (hs : SameItem i i₀) (hnone : i₀.journalTransactionId = none)
    (ha : db'.allocationBatches = db.allocationBatches) : Stated (some b.id) db' where
  payees asset payee := by
    have hsum := h.payees asset payee
    rw [posts_balance hp, itemTransaction_payee, earned_congr ha, posts_taken hp ht hi₀ hs hnone]
    omega
  treasury asset := by
    have hsum := h.treasury asset
    rw [debitBalance] at hsum
    rw [debitBalance, posts_balance hp, itemTransaction_treasury, allocated_congr ha,
      posts_credits_total hp ht]
    omega
  sent j hj hposted hne c hc hid := by
    rw [hp.items] at hj
    rw [hp.batches] at hc
    obtain ⟨j₀, hj₀, rfl⟩ := List.mem_map.mp hj
    by_cases hown : j₀.id = i.id
    · have heq : j₀ = i₀ := db.payoutItems.eq_of_id hj₀ hi₀ (hown.trans hs.id.symm)
      apply absurd _ hne
      rw [if_pos hown, journalItem, heq, hs.batchId, ht.own]
    · rw [if_neg hown] at hposted hne hid
      exact h.sent j₀ hj₀ hposted hne c hc hid

theorem Stated.postItems (items : List PayoutItem) (h : Stated (some b.id) db) (hcov : Covered db)
    (ht : ∀ i ∈ items, Tracks db b i) (hp : items.foldlM (postItem a b) db = .ok db') :
    Stated (some b.id) db' := by
  induction items generalizing db with
  | nil =>
    rw [List.foldlM_nil, pure_eq_ok] at hp
    subst hp
    exact h
  | cons i items ih =>
    rw [List.foldlM_cons, bind_eq_ok] at hp
    obtain ⟨mid, hone, hp⟩ := hp
    have hfirst := ht i List.mem_cons_self
    obtain ⟨hmid, hgrows, _⟩ := hcov.postItem_step hfirst hone
    have hrest : ∀ j ∈ items, Tracks mid b j := by
      intro j hj
      exact (ht j (List.mem_cons_of_mem i hj)).grow hgrows
    have hallocations := (postItem_postsOnly hone).allocationBatches
    obtain ⟨i₀, hi₀, hlater⟩ := hfirst.item
    obtain ⟨_, rfl⟩ | hposts := postItem_ok hone
    · exact ih h hcov hrest hp
    · have hnone := hposts.unposted hcov hfirst hi₀ hlater.same
      exact ih (h.posts hposts hfirst hi₀ hlater.same hnone hallocations) hmid hrest hp

theorem Stated.post (h : Stated none db) (hcov : Covered db) {id : Id} {held : Held}
    {ids : List String} (hcopy : Copy db held) (hid : held.batch.id = id)
    (hp : postTransaction a db id held ids = .ok db') : Stated none db' := by
  simp only [postTransaction, bind_eq_ok] at hp
  obtain ⟨mid, hl, hu⟩ := hp
  have hstart : Stated (some held.batch.id) db :=
    ⟨h.payees, h.treasury, fun i hi hposted _ => h.sent i hi hposted (by rintro ⟨⟩)⟩
  apply (hstart.postItems held.items hcov hcopy.items hl).updateBatch (sameBatch_broadcast _ _) hu
  intro b _ hsent
  by_cases hb : b.id = id
  · rw [if_pos hb]
    rfl
  · rw [if_neg hb]
    apply hsent.resolve_left
    intro he
    exact hb ((Option.some.inj he).symm.trans hid)

end Posting

section Steps

variable {rt : Runtime} {w w' : World} {a : Answer}

theorem executed_stated {c : ExecuteCall} {o : Option ExecuteCall} (hx : Executed rt w c a w' o)
    (hcov : Covered w.db) (h : Stated none w.db) (hl : executeLoc w.db c) : Stated none w'.db := by
  cases hx with
  | acquire | checkReorg | unsigned | opened | readPolicy | prepare | known | unknown | broadcast |
    readResult | fails | failsLater | release => exact h
  | persist hp hs hd => exact h.persist hd
  | post hp hd =>
    simp only [executeLoc, hp] at hl
    exact h.post hcov hl.1 hl.2 hd
  | markFailed hp hd => exact h.updateMarked (sameBatch_fail _) hd (fun _ => rfl)

theorem scanned_stated {c : Deposits.ScanCall} {o : Option Deposits.ScanCall}
    (hs : Deposits.Scanned w a c w' o) (h : Stated none w.db) : Stated none w'.db := by
  cases hs with
  | readUpstreams | scanReceipts | locked | read => exact h
  | @reorg _ _ _ deposits | @upsert _ _ _ _ deposits =>
    have hsame : SamePayouts w.db (withDeposits w.db deposits) := ⟨rfl, rfl, rfl⟩
    exact h.of_same hsame rfl
  | allocate hd =>
    obtain ⟨rfl, _, _⟩ | ⟨_, _, _, _, _, _, hc⟩ := allocateDeposit_ok hd
    · exact h
    · exact h.allocated hc

/-- Every effect of every service keeps the balances equal to the records. -/
theorem acted_stated {r : System.Call} {o : Option System.Call} (hcov : Covered w.db)
    (h : Stated none w.db) (hl : loc w r) (ha : Acted rt w a r w' o) : Stated none w'.db := by
  cases ha with
  | allocate hd =>
    obtain ⟨rfl, _, _⟩ | ⟨_, _, _, _, _, _, hc⟩ := allocateDeposit_ok hd
    · exact h
    · exact h.allocated hc
  | scan hs => exact scanned_stated hs h
  | share hs => exact h.of_same (journals_payouts hs) (journals_deposits hs).2.1
  | @prepares _ destinations =>
    have hsame : SamePayouts w.db (withDestinations w.db destinations) := ⟨rfl, rfl, rfl⟩
    exact h.of_same hsame rfl
  | preparesOperator => exact h
  | plans hp => exact h.create hcov hp.created rfl
  | plansOperator hp => exact h.create hcov hp.created rfl
  | approve hx =>
    cases hx with
    | assertTotp | readBatch => exact h
    | write hd => exact h.updateMarked (sameBatch_approve _ _ _) hd (fun _ => rfl)
  | execute hx => exact executed_stated hx hcov h hl
  | reconcile hx =>
    cases hx with
    | list | pass | enough => exact h
    | write hd => exact h.updateMarked (sameBatch_confirm _) hd (fun _ => rfl)

theorem change_allocations (w : World) (e : Change) :
    (change w e).db.allocationBatches = w.db.allocationBatches := by
  cases e with
  | addSplitPolicy p =>
    rw [change]
    split <;> rfl
  | configure | lockVanishes => rfl

theorem change_stated (h : Stated none w.db) (e : Change) : Stated none (change w e).db :=
  h.of_same (change_payouts w e) (change_allocations w e)

theorem fresh_stated {db : Database} (h : db.Fresh) : Stated none db := by
  constructor
  · intro asset payee
    simp [creditBalance_eq, journalEntries, h.journalTransactions, earned, allocationsOf,
      h.allocationBatches, taken, h.payoutItems]
  · intro asset
    simp [debitBalance, creditBalance_eq, journalEntries, h.journalTransactions, allocated, allocationsOf,
      h.allocationBatches, credits, h.payoutBatches]
  · simp [h.payoutItems]

theorem stated_outline (rt : Runtime) : Outline (system rt) (shared (ρ := System.Call))
    (fun _ _ _ => True) (fun _ _ => True) (fun w => Covered w.db ∧ Stated none w.db) loc
    (fun _ w w' => Grows w.db w'.db) :=
  covered_outline rt (fun hcov h hl he => acted_stated hcov h hl (effect_acted he))
    (fun _ e h => change_stated h e)

end Steps

section Balances

variable {rt : Runtime} {w : World} {c : Config World System.Call}

theorem reaches_stated (hw : w.db.Fresh) (h : (system rt).Reaches (.idle w) c) : Stated none c.shared.db :=
  ((stated_outline rt).run (keyed_shared _) (Outline.idle ⟨fresh_covered hw, fresh_stated hw⟩)
    h.allowed).inv.2

/-- The ledger never drifts from the records: however scans, allocations, plans, approvals,
executions and their retries interleave, the balance of a customer, and of the operator, is
what the allocations gave less the gross amounts of the posted payout items, and the
treasury holds what the deposits brought less what was posted for payout batches. Nothing
is posted for a batch before it is marked as broadcast. -/
theorem balances_tell_records (hw : w.db.Fresh) (h : (system rt).Reaches (.idle w) c) (asset : AssetCode) :
    (∀ customerId, customerBalance c.shared.db customerId asset =
      earned c.shared.db asset (some customerId) - taken c.shared.db asset (some customerId)) ∧
    operatorBalance c.shared.db asset = earned c.shared.db asset none - taken c.shared.db asset none ∧
    debitBalance c.shared.db ⟨asset, .treasury⟩ = allocated c.shared.db asset - credits c.shared.db asset ∧
    ∀ i ∈ c.shared.db.payoutItems.rows, i.journalTransactionId.isSome →
      ∀ b ∈ c.shared.db.payoutBatches.rows, b.id = i.batchId → b.broadcastAt.isSome := by
  have hs := reaches_stated hw h
  refine ⟨fun customerId => hs.payees asset (some customerId), hs.payees asset none, hs.treasury asset, ?_⟩
  intro i hi hposted
  exact hs.sent i hi hposted (by rintro ⟨⟩)

theorem balances_tell_records_sample : ∃ c, (system sampleRuntime).Reaches (.idle sampleWorld) c ∧
    (earned c.shared.db .btc (some 1), taken c.shared.db .btc (some 1)) = (800, 800) ∧
    customerBalance c.shared.db 1 .btc = 800 - 800 := by
  obtain ⟨c, hr, hv⟩ := exec_sample (sampleCredit ++ samplePayout)
    (f := fun c => (earned c.shared.db .btc (some 1), taken c.shared.db .btc (some 1))) (v := (800, 800))
    (by decide +kernel)
  obtain ⟨hearned, htaken⟩ := Prod.mk.injEq .. ▸ hv
  refine ⟨c, hr, hv, ?_⟩
  rw [(balances_tell_records sampleWorld_fresh hr .btc).1 1, hearned, htaken]

end Balances

section Treasury

instance (b : PayoutBatch) : Decidable (WentOut b) :=
  inferInstanceAs (Decidable (b.state = .broadcast ∨ b.state = .confirmed ∨ b.broadcastAt ≠ none))

def paidOut (db : Database) (b : PayoutBatch) : ℤ :=
  ((itemsIn db b.id).map PayoutItem.netAtomic).sum + b.totalFeeAtomic

def sentOut (db : Database) (asset : AssetCode) : ℤ :=
  ((db.payoutBatches.rows.filter (fun b => b.asset = asset ∧ WentOut b)).map (paidOut db)).sum

theorem batchCredits_unsent {db : Database} (hs : Stated none db) (h : Accounts db) {b : PayoutBatch}
    (hb : b ∈ db.payoutBatches.rows) (hout : ¬ WentOut b) : batchCredits db b.id = 0 := by
  rw [(h b hb).recorded]
  apply List.sum_eq_zero
  intro x hx
  obtain ⟨i, hi, rfl⟩ := List.mem_map.mp hx
  obtain ⟨hmem, hid⟩ := mem_itemsIn.mp hi
  apply if_neg
  intro hposted
  have hmark := hs.sent i hmem hposted (by rintro ⟨⟩) b hb hid.symm
  exact hout (.inr (.inr (Option.isSome_iff_ne_none.mp hmark)))

variable {rt : Runtime} {w : World} {c : Config World System.Call}

/-- As long as the lock is kept while an execution runs and fees are apportioned without rest,
the treasury account holds what the allocated deposits brought less the net amounts and the
fees of the batches that are marked as broadcast. -/
theorem treasury_tells_wallet (hw : w.db.Fresh)
    (h : (system rt).Run (Guarded (system rt) inside locked FromAdapter) (.idle w) c) (asset : AssetCode) :
    debitBalance c.shared.db ⟨asset, .treasury⟩ =
      allocated c.shared.db asset - sentOut c.shared.db asset := by
  have hs := reaches_stated hw h.reaches
  have hunsent := LedgerOutflow.fresh_unsent hw
  have hend := (LedgerOutflow.outline rt).run (LedgerOutflow.resources rt)
    ⟨hunsent.covered, hunsent.accounts⟩ h
  have haccounts := hend.inv.2
  rw [hs.treasury, credits, sentOut, sum_filter]
  congr 2
  apply List.map_congr_left
  intro b hb
  rw [creditsOf]
  by_cases hasset : b.asset = asset
  · by_cases hout : WentOut b
    · rw [if_pos hasset, if_pos (by simp [hasset, hout]), (haccounts b hb).total hout, paidOut]
    · rw [if_pos hasset, if_neg (by simp [hout]), batchCredits_unsent hs haccounts hb hout]
  · rw [if_neg hasset, if_neg (by simp [hasset])]

theorem treasury_tells_wallet_sample : ∃ c, (system sampleRuntime).Run
      (Guarded (system sampleRuntime) inside locked FromAdapter) (.idle sampleWorld) c ∧
    (allocated c.shared.db .btc, sentOut c.shared.db .btc) = (1000, 800) ∧
    debitBalance c.shared.db ⟨.btc, .treasury⟩ = 1000 - 800 := by
  have h : ((system sampleRuntime).execChecked LedgerOutflow.testStep (.idle sampleWorld)
      (sampleCredit ++ samplePayout)).map (fun c => (allocated c.shared.db .btc, sentOut c.shared.db .btc)) =
      some (1000, 800) := by decide +kernel
  obtain ⟨c, hc, hv⟩ := Option.map_eq_some_iff.mp h
  have hrun := Machine.execChecked_run LedgerOutflow.testStep_sound hc
  obtain ⟨hallocated, hsent⟩ := Prod.mk.injEq .. ▸ hv
  refine ⟨c, hrun, hv, ?_⟩
  rw [treasury_tells_wallet sampleWorld_fresh hrun, hallocated, hsent]

end Treasury

end Bitmine.Statements
