import Bitmine.AllocateDeposit

namespace Bitmine.AllocationSpec

open Bitmine.Lib.UniqueTable Bitmine.Lib.GroupSum Bitmine.Lib.Throwing Bitmine.Lib.Rounding
open Bitmine.Schema Bitmine.Ledger Bitmine.LedgerPosting Bitmine.Allocation Bitmine.AllocateDeposit

/-- An item splits its gross amount by the policy captured on its shares. -/
structure FairItem (db : Database) (i : AllocationItem) : Prop where
  gross_nonneg : 0 ≤ i.grossAtomic
  customer_nonneg : 0 ≤ i.customerAtomic
  operator_nonneg : 0 ≤ i.operatorAtomic
  split : i.customerAtomic + i.operatorAtomic = i.grossAtomic
  policy : ∃ p ∈ db.splitPolicies.rows, p.id = i.splitPolicyId ∧
    i.customerAtomic = i.grossAtomic * p.customerBps / 10000

theorem allocationItem_ok {db : Database} {a : AllocatedItem WorkGroup} {i : AllocationItem}
    (ha : 0 ≤ a.amount) (h : allocationItem db a = .ok i) :
    FairItem db i ∧ (i.customerId, i.splitPolicyId, i.work) =
      (a.key.customerId, a.key.splitPolicyId, roundPlaces 18 a.key.work) := by
  simp only [allocationItem, bind_eq_ok, orThrow_eq_ok, pure_eq_ok] at h
  obtain ⟨p, hp, s, hs, rfl⟩ := h
  obtain ⟨hc, ho, hd⟩ := splitBasisPoints_nonneg ha hs
  obtain ⟨_, _, _, hsum⟩ := splitBasisPoints_ok hs
  obtain ⟨hmem, hid⟩ := Table.find?_mem hp
  exact ⟨⟨ha, hc, ho, hsum, p, hmem, by simpa using hid, hd⟩, rfl⟩

theorem forall₂_items {db : Database} {gross : List (AllocatedItem WorkGroup)}
    {items : List AllocationItem} (hg : ∀ a ∈ gross, 0 ≤ a.amount)
    (h : List.Forall₂ (fun a i => allocationItem db a = .ok i) gross items) :
    (∀ i ∈ items, FairItem db i) ∧
      items.map (fun i => (i.customerId, i.splitPolicyId, i.work)) =
        (gross.map AllocatedItem.key).map
          (fun g => (g.customerId, g.splitPolicyId, roundPlaces 18 g.work)) := by
  induction h with
  | nil => simp
  | cons ha _ ih =>
    obtain ⟨hi, hk⟩ := allocationItem_ok (hg _ (by simp)) ha
    obtain ⟨hf, hm⟩ := ih (fun a hm => hg a (by simp [hm]))
    refine ⟨?_, by simp only [List.map_cons, hm, hk]⟩
    intro i hmem
    rcases List.mem_cons.mp hmem with rfl | hmem
    · exact hi
    · exact hf i hmem

theorem sum_gross {db : Database} {items : List AllocationItem} (h : ∀ i ∈ items, FairItem db i) :
    (items.map AllocationItem.grossAtomic).sum = customerTotal items + operatorTotal items := by
  induction items with
  | nil => rfl
  | cons i items ih =>
    have hi := (h i (by simp)).split
    have ht := ih (fun x hx => h x (by simp [hx]))
    simp only [customerTotal, operatorTotal, List.map_cons, List.sum_cons] at ht ⊢
    omega

/-- Items are the groups with work, each split fairly, and add up to the deposit. -/
theorem allocationItems_ok {order : Order ((Id × Id) × ℚ)} {db : Database} {deposit : Deposit}
    {endpointIds : List Id} {items : List AllocationItem}
    (h : allocationItems order db deposit endpointIds = .ok items) :
    (∀ i ∈ items, FairItem db i) ∧
      (items.map (fun i => (i.customerId, i.splitPolicyId, i.work))).Perm
        ((workGroups order db endpointIds).map
          (fun g => (g.customerId, g.splitPolicyId, roundPlaces 18 g.work))) ∧
      (items.map AllocationItem.grossAtomic).sum = deposit.amountAtomic ∧
      customerTotal items + operatorTotal items = deposit.amountAtomic := by
  unfold allocationItems at h
  dsimp only at h
  split at h
  · cases h
  simp only [bind_eq_ok] at h
  obtain ⟨gross, hgross, items', hitems, h⟩ := h
  split at h
  · cases h
  rename_i hsum
  rw [pure_eq_ok] at h
  subst h
  have hw : ∀ x ∈ (workGroups order db endpointIds).map
      (fun g => (⟨g, g.work⟩ : WeightedItem WorkGroup)), 0 ≤ x.weight := by
    intro x hx
    obtain ⟨g, hg, rfl⟩ := List.mem_map.mp hx
    have hpos := (List.mem_filter.mp hg).2
    exact le_of_lt (by simpa using hpos)
  obtain ⟨hkeys, hnn⟩ := largestRemainder_ok decimalRound_nonneg hw hgross
  obtain ⟨hfair, hmap⟩ := forall₂_items hnn (forall₂_of_mapM hitems)
  refine ⟨hfair, ?_, ?_, by simpa using hsum⟩
  · rw [hmap]
    apply (hkeys.map _).trans
    rw [List.map_map, List.map_map]
    exact List.Perm.refl _
  · rw [sum_gross hfair]
    simpa using hsum

theorem customerAt_nonneg {items : List AllocationItem} (h : ∀ i ∈ items, 0 ≤ i.customerAtomic)
    (c : Id) : 0 ≤ sumAt AllocationItem.customerId AllocationItem.customerAtomic c items := by
  refine List.sum_nonneg (fun x hx => ?_)
  obtain ⟨i, hi, rfl⟩ := List.mem_map.mp hx
  exact h i (List.mem_of_mem_filter hi)

theorem sum_filter_pos {κ : Type} (l : List (κ × ℤ)) (h : ∀ t ∈ l, 0 ≤ t.2) :
    ((l.filter (fun t => 0 < t.2)).map Prod.snd).sum = (l.map Prod.snd).sum := by
  induction l with
  | nil => rfl
  | cons t l ih =>
    have ht := h t (by simp)
    have hl := ih (fun x hx => h x (by simp [hx]))
    by_cases hp : 0 < t.2
    · simp [hp, hl]
    · have hz : t.2 = 0 := by omega
      simp [hz, hl]

theorem groupSum_nonneg {items : List AllocationItem} (h : ∀ i ∈ items, 0 ≤ i.customerAtomic) :
    ∀ t ∈ groupSum AllocationItem.customerId AllocationItem.customerAtomic items, 0 ≤ t.2 := by
  intro t ht
  rw [groupSum_total _ _ _ ht]
  exact customerAt_nonneg h t.1

theorem sum_liabilityTotals {items : List AllocationItem} (h : ∀ i ∈ items, 0 ≤ i.customerAtomic) :
    ((liabilityTotals items).map Prod.snd).sum = customerTotal items := by
  rw [liabilityTotals, sum_filter_pos _ (groupSum_nonneg h)]
  exact sum_groupSum AllocationItem.customerId AllocationItem.customerAtomic items
    (fun _ => AddMonoidHom.id ℤ)

theorem sumAt_liabilityTotals {items : List AllocationItem} (h : ∀ i ∈ items, 0 ≤ i.customerAtomic)
    (c : Id) : sumAt Prod.fst Prod.snd c (liabilityTotals items) =
      sumAt AllocationItem.customerId AllocationItem.customerAtomic c items := by
  rw [← sumAt_groupSum AllocationItem.customerId, sumAt, liabilityTotals, List.filter_comm]
  exact sum_filter_pos _ (fun t ht => groupSum_nonneg h t (List.mem_of_mem_filter ht))

variable {deposit : Deposit} {items : List AllocationItem}

theorem operatorTotal_nonneg {db : Database} (h : ∀ i ∈ items, FairItem db i) :
    0 ≤ operatorTotal items := by
  refine List.sum_nonneg (fun x hx => ?_)
  obtain ⟨i, hi, rfl⟩ := List.mem_map.mp hx
  exact (h i hi).operator_nonneg

theorem operatorLine_total (asset : AssetCode) {total : ℤ} (h : 0 ≤ total) :
    creditTotal (if 0 < total then [⟨⟨asset, .operatorRevenue⟩, .credit, total⟩] else []) = total ∧
    debitTotal (if 0 < total then [⟨⟨asset, .operatorRevenue⟩, .credit, total⟩] else []) = 0 := by
  by_cases hp : 0 < total
  · simp [hp, creditTotal, debitTotal]
  · have hz : total = 0 := by omega
    simp [hz, creditTotal, debitTotal]

theorem creditTotal_append (xs ys : List JournalEntry) :
    creditTotal (xs ++ ys) = creditTotal xs + creditTotal ys := by
  simp [creditTotal]

theorem debitTotal_append (xs ys : List JournalEntry) :
    debitTotal (xs ++ ys) = debitTotal xs + debitTotal ys := by
  simp [debitTotal]

theorem liabilityLines_total (asset : AssetCode) (totals : List (Id × ℤ)) :
    creditTotal (totals.map (fun t => ⟨liabilityRef asset t.1, .credit, t.2⟩)) =
      (totals.map Prod.snd).sum ∧
    debitTotal (totals.map (fun t => ⟨liabilityRef asset t.1, .credit, t.2⟩)) = 0 := by
  induction totals with
  | nil => exact ⟨rfl, rfl⟩
  | cons t totals ih =>
    simp only [creditTotal, debitTotal] at ih ⊢
    simpa using ih

theorem depositEntries_total (deposit : Deposit) :
    debitTotal (depositEntries deposit) = deposit.amountAtomic ∧
      creditTotal (depositEntries deposit) = deposit.amountAtomic := by
  simp [depositEntries, debitTotal, creditTotal]

theorem allocationEntries_total {db : Database} (hf : ∀ i ∈ items, FairItem db i)
    (hs : customerTotal items + operatorTotal items = deposit.amountAtomic) :
    debitTotal (allocationEntries deposit items) = deposit.amountAtomic ∧
      creditTotal (allocationEntries deposit items) = deposit.amountAtomic := by
  obtain ⟨hoc, hod⟩ := operatorLine_total deposit.asset (operatorTotal_nonneg hf)
  obtain ⟨hlc, hld⟩ := liabilityLines_total deposit.asset (liabilityTotals items)
  have hc := sum_liabilityTotals (fun i hi => (hf i hi).customer_nonneg)
  have h1 : debitTotal [⟨⟨deposit.asset, .allocationClearing⟩, .debit, deposit.amountAtomic⟩] =
      deposit.amountAtomic := by simp [debitTotal]
  have h2 : creditTotal [⟨⟨deposit.asset, .allocationClearing⟩, .debit, deposit.amountAtomic⟩] =
      0 := by simp [creditTotal]
  constructor
  · rw [allocationEntries, debitTotal_append, debitTotal_append, h1, hld, hod]
    omega
  · rw [allocationEntries, creditTotal_append, creditTotal_append, h2, hlc, hoc, hc]
    omega

theorem allocationEntries_account {e : JournalEntry} (he : e ∈ allocationEntries deposit items) :
    e.account.asset = deposit.asset ∧
      ((∃ t ∈ liabilityTotals items, e.account = liabilityRef deposit.asset t.1) ∨
        ∀ c, e.account.code ≠ .customerLiability c) := by
  simp only [allocationEntries, List.mem_append, List.mem_singleton, List.mem_map] at he
  rcases he with (rfl | ⟨t, ht, rfl⟩) | he
  · exact ⟨rfl, .inr (by simp)⟩
  · exact ⟨rfl, .inl ⟨t, ht, rfl⟩⟩
  · split at he
    · rw [List.mem_singleton.mp he]
      exact ⟨rfl, .inr (by simp)⟩
    · cases he

theorem ensureLiabilities_ok (asset : AssetCode) (totals : List (Id × ℤ)) {db db' : Database}
    (h : totals.foldlM (fun db t => ensureLiability db asset t.1) db = .ok db') :
    db' = db.withLedger db'.ledgerAccounts db.journalTransactions ∧
      (∀ r ∈ accountRefs db, r ∈ accountRefs db') ∧
      ∀ t ∈ totals, liabilityRef asset t.1 ∈ accountRefs db' := by
  induction totals generalizing db with
  | nil =>
    rw [List.foldlM_nil, pure_eq_ok] at h
    subst h
    exact ⟨rfl, fun r hr => hr, by simp⟩
  | cons t totals ih =>
    rw [List.foldlM_cons, bind_eq_ok] at h
    obtain ⟨mid, hu, h⟩ := h
    obtain ⟨hm, hr, hc⟩ := upsertAccount_ok hu
    obtain ⟨hm', hr', hc'⟩ := ih h
    refine ⟨by rw [hm', hm]; rfl, fun r hx => hr' r (hr r hx), ?_⟩
    intro u hu
    rcases List.mem_cons.mp hu with rfl | hu
    · exact hr' _ hc
    · exact hc' u hu

/-- Everything a committed allocation has read and written. -/
structure Committed (order : Order ((Id × Id) × ℚ)) (ids : AllocationIds) (now : Instant)
    (db db' : Database) (deposit : Deposit) (endpointIds : List Id)
    (items : List AllocationItem) : Prop where
  found : deposit ∈ db.deposits.rows
  confirmed : deposit.status = .confirmed
  computed : allocationItems order db deposit endpointIds = .ok items
  positive : 0 < deposit.amountAtomic
  batches : db'.allocationBatches.rows =
    db.allocationBatches.rows ++ [allocationBatch ids deposit items]
  newBatch : ∀ b ∈ db.allocationBatches.rows, ¬ Clash b (allocationBatch ids deposit items)
  shares : db'.shareEvents.rows = db.shareEvents.rows.map (fun s =>
    if openShare endpointIds s then s.stamp ids.batchId else s)
  deposits : db'.deposits.rows = db.deposits.rows.map (fun d =>
    if d.id = deposit.id then d.allocate now else d)
  ledger : Appends db db' [depositJournal ids deposit, allocationJournal ids deposit items]
  newDepositJournal : ∀ t ∈ db.journalTransactions.rows, ¬ Clash t (depositJournal ids deposit)
  newAllocationJournal : ∀ t ∈ db.journalTransactions.rows,
    ¬ Clash t (allocationJournal ids deposit items)
  frame : db' = (db.withAllocation db'.allocationBatches db'.shareEvents db'.deposits).withLedger
    db'.ledgerAccounts db'.journalTransactions

theorem commitAllocation_ok {order : Order ((Id × Id) × ℚ)} {ids : AllocationIds} {now : Instant}
    {db db' : Database} {endpointIds : List Id} (hfound : deposit ∈ db.deposits.rows)
    (hconf : deposit.status = .confirmed)
    (hitems : allocationItems order db deposit endpointIds = .ok items)
    (h : commitAllocation db ids now deposit endpointIds items = .ok db') :
    Committed order ids now db db' deposit endpointIds items := by
  simp only [commitAllocation, bind_eq_ok, orThrow_eq_ok, pure_eq_ok] at h
  obtain ⟨batches, hb, db₁, hsys, db₂, hp₁, db₃, hl, db₄, hp₂, rfl⟩ := h
  obtain ⟨hrows, hnew⟩ := Table.insert_eq_some hb
  obtain ⟨hf₁, hr₁, hs₁⟩ := ensureSystemAccounts_ok hsys
  obtain ⟨hb₂, hpos, hj₂, hn₂, hf₂⟩ := post_ok hp₁
  obtain ⟨hf₃, hr₃, hc₃⟩ := ensureLiabilities_ok _ _ hl
  obtain ⟨hb₄, _, hj₄, hn₄, hf₄⟩ := post_ok hp₂
  have hj₁ : db₁.journalTransactions = db.journalTransactions := by rw [hf₁]; rfl
  have hj₃ : db₃.journalTransactions = db₂.journalTransactions := by rw [hf₃]; rfl
  have ha₂ : accountRefs db₂ = accountRefs db₁ := by rw [hf₂]; rfl
  have ha₄ : accountRefs db₄ = accountRefs db₃ := by rw [hf₄]; rfl
  have href : ∀ r ∈ accountRefs db₁, r ∈ accountRefs db₄ := by
    intro r hr
    rw [ha₄]
    exact hr₃ r (ha₂ ▸ hr)
  have hframe : db₄ = (db.withAllocation batches (db.shareEvents.update (openShare endpointIds)
      (ShareEvent.stamp ids.batchId) (fun _ => ⟨rfl, rfl⟩)) db.deposits).withLedger
        db₄.ledgerAccounts db₄.journalTransactions := by
    rw [hf₄, hf₃, hf₂, hf₁]
    rfl
  have hshares : db₄.shareEvents = db.shareEvents.update (openShare endpointIds)
      (ShareEvent.stamp ids.batchId) (fun _ => ⟨rfl, rfl⟩) := by
    rw [hframe]; rfl
  have hdeps : db₄.deposits = db.deposits := by rw [hframe]; rfl
  have hbatches : db₄.allocationBatches = batches := by rw [hframe]; rfl
  refine ⟨hfound, hconf, hitems, ?_, ?_, hnew, ?_, ?_, ⟨?_, ?_, ?_, ?_⟩, ?_, ?_, ?_⟩
  · exact lt_of_lt_of_eq hpos (depositEntries_total deposit).1
  · show db₄.allocationBatches.rows = _
    rw [hbatches, hrows]
  · show db₄.shareEvents.rows = _
    rw [hshares]
    rfl
  · show db₄.deposits.rows.map _ = _
    rw [hdeps]
    simp only [decide_eq_true_eq]
  · show db₄.journalTransactions.rows = _
    rw [hj₄, hj₃, hj₂, hj₁, List.append_assoc]
    rfl
  · intro t ht
    rcases List.mem_cons.mp ht with rfl | ht
    · exact hb₂
    · rw [List.mem_singleton.mp ht]
      exact hb₄
  · exact fun r hr => href r (hr₁ r hr)
  · intro t ht e he
    rcases List.mem_cons.mp ht with rfl | ht
    · have hacc : e.account.asset = deposit.asset ∧ ∀ c, e.account.code ≠ .customerLiability c := by
        simp only [depositJournal, depositEntries] at he
        fin_cases he <;> simp
      have hmem := href _ (hs₁ e.account.code hacc.2)
      rw [← hacc.1] at hmem
      exact ⟨hmem, hacc.1⟩
    · rw [List.mem_singleton.mp ht] at he ⊢
      obtain ⟨hasset, hacc⟩ := allocationEntries_account he
      refine ⟨?_, hasset⟩
      rcases hacc with ⟨u, hu, he'⟩ | hacc
      · rw [he']
        show _ ∈ accountRefs db₄
        rw [ha₄]
        exact hc₃ u hu
      · have hmem := href _ (hs₁ e.account.code hacc)
        rwa [← hasset] at hmem
  · rw [← hj₁]
    exact hn₂
  · intro t ht
    exact hn₄ t (by rw [hj₃, hj₂, hj₁]; simp [ht])
  · show db₄.withAllocation db₄.allocationBatches db₄.shareEvents _ =
      (db.withAllocation db₄.allocationBatches db₄.shareEvents _).withLedger
        db₄.ledgerAccounts db₄.journalTransactions
    rw [hframe]
    rfl

/-- The two ways in which an allocation succeeds. -/
theorem allocateDeposit_ok {order : Order ((Id × Id) × ℚ)} {ids : AllocationIds} {now : Instant}
    {db db' : Database} {depositId : Id} {batch : AllocationBatch}
    (h : allocateDeposit order ids now db depositId = .ok (batch, db')) :
    (db' = db ∧ batch ∈ db.allocationBatches.rows ∧ batch.depositId = depositId) ∨
    ∃ deposit endpointIds items, deposit.id = depositId ∧
      batch = allocationBatch ids deposit items ∧
      (∃ u ∈ db.upstreams.rows, u.id = deposit.upstreamId ∧
        endpointIds = accountEndpoints db deposit.asset u.accountKey) ∧
      Committed order ids now db db' deposit endpointIds items := by
  simp only [allocateDeposit, bind_eq_ok, orThrow_eq_ok] at h
  obtain ⟨deposit, hd, h⟩ := h
  obtain ⟨hmem, hid⟩ := Table.find?_mem hd
  split at h
  · simp only [bind_eq_ok, orThrow_eq_ok, pure_eq_ok, Prod.mk.injEq] at h
    obtain ⟨b, hb, rfl, rfl⟩ := h
    obtain ⟨hbm, hbd⟩ := Table.find?_mem hb
    exact .inl ⟨rfl, hbm, by simpa using hbd⟩
  · split at h
    · cases h
    rename_i hconf
    rw [not_not] at hconf
    simp only [bind_eq_ok, orThrow_eq_ok, pure_eq_ok, Prod.mk.injEq] at h
    obtain ⟨u, hu, items, hitems, db'', hc, rfl, rfl⟩ := h
    obtain ⟨hum, huid⟩ := Table.find?_mem hu
    exact .inr ⟨deposit, _, items, by simpa using hid, rfl,
      ⟨u, hum, by simpa using huid, rfl⟩, commitAllocation_ok hmem hconf hitems hc⟩

end Bitmine.AllocationSpec
