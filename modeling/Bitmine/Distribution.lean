import Bitmine.Income

namespace Bitmine.Distribution

open Bitmine.Lib.UniqueTable Bitmine.Lib.GroupSum Bitmine.Lib.Throwing Bitmine.Lib.Await
open Bitmine.Lib.Rounding Bitmine.Schema Bitmine.Deployment Bitmine.Ledger
open Bitmine.LedgerPosting Bitmine.AllocateDeposit Bitmine.AllocationSpec Bitmine.Deposits
open Bitmine.Shares Bitmine.System Bitmine.Income

def stampedShares (db : Database) (batchId : Id) : List ShareEvent :=
  db.shareEvents.rows.filter (fun s => s.allocationBatchId = some batchId)

def creditOn (entries : List JournalEntry) (account : AccountRef) : ℤ :=
  creditTotal (entries.filter (fun e => e.account = account))

/-- Each customer is credited with that customer's part of the items, the
operator with the rest. -/
structure Credits (t : JournalTransaction) (b : AllocationBatch) : Prop where
  customers : ∀ c, creditOn t.entries (liabilityRef b.asset c) =
    sumAt AllocationItem.customerId AllocationItem.customerAtomic c b.items
  operator : creditOn t.entries ⟨b.asset, .operatorRevenue⟩ =
    b.totalAtomic - customerTotal b.items

/-- A batch distributes its deposit over the shares stamped with it. -/
structure Distributed (db : Database) (b : AllocationBatch) : Prop where
  groups : (b.items.map (fun i => (i.customerId, i.splitPolicyId, i.work))).Perm
    (((shareGroups (stampedShares db b.id)).filter (fun g => 0 < g.2)).map
      (fun g => (g.1.1, g.1.2, roundPlaces 18 g.2)))
  deposit : ∃ d ∈ db.deposits.rows, d.id = b.depositId ∧ d.amountAtomic = b.totalAtomic
  gross : (b.items.map AllocationItem.grossAtomic).sum = b.totalAtomic
  fair : ∀ i ∈ b.items, FairItem db i
  journal : ∃ t ∈ db.journalTransactions.rows, t.type = .allocation ∧
    t.reference = .allocationBatch b.id ∧ Credits t b

section Journal

variable {items : List AllocationItem}

theorem creditOn_append (xs ys : List JournalEntry) (account : AccountRef) :
    creditOn (xs ++ ys) account = creditOn xs account + creditOn ys account := by
  rw [creditOn, List.filter_append, creditTotal_append, creditOn, creditOn]

theorem creditOn_eq_zero {entries : List JournalEntry} {account : AccountRef}
    (h : ∀ e ∈ entries, e.direction = .credit → e.account ≠ account) :
    creditOn entries account = 0 := by
  have hnil : (entries.filter (fun e => e.account = account)).filter
      (fun e => e.direction = .credit) = [] := by
    refine List.filter_eq_nil_iff.mpr (fun e he hd => ?_)
    obtain ⟨hm, ha⟩ := List.mem_filter.mp he
    exact h e hm (of_decide_eq_true hd) (of_decide_eq_true ha)
  rw [creditOn, creditTotal, hnil]
  rfl

theorem liabilityLines_creditOn (asset : AssetCode) (totals : List (Id × ℤ)) (c : Id) :
    creditOn (totals.map (fun t => ⟨liabilityRef asset t.1, .credit, t.2⟩)) (liabilityRef asset c) =
      sumAt Prod.fst Prod.snd c totals := by
  induction totals with
  | nil => rfl
  | cons t totals ih =>
    rw [sumAt_cons, ← ih]
    by_cases hc : t.1 = c <;> simp [creditOn, creditTotal, liabilityRef, hc]

/-- The lines of the allocation journal, account by account. -/
theorem allocationEntries_creditOn (deposit : Deposit) {db : Database} (hf : ∀ i ∈ items, FairItem db i) :
    (∀ c, creditOn (allocationEntries deposit items) (liabilityRef deposit.asset c) =
      sumAt AllocationItem.customerId AllocationItem.customerAtomic c items) ∧
    creditOn (allocationEntries deposit items) ⟨deposit.asset, .operatorRevenue⟩ =
      operatorTotal items := by
  have hclear : ∀ account, creditOn
      [⟨⟨deposit.asset, .allocationClearing⟩, .debit, deposit.amountAtomic⟩] account = 0 := by
    intro account
    refine creditOn_eq_zero (fun e he hd => ?_)
    rw [List.mem_singleton.mp he] at hd
    cases hd
  constructor
  · intro c
    have hop : creditOn (if 0 < operatorTotal items then
        [⟨⟨deposit.asset, .operatorRevenue⟩, .credit, operatorTotal items⟩] else [])
        (liabilityRef deposit.asset c) = 0 := by
      refine creditOn_eq_zero (fun e he _ hacc => ?_)
      split at he
      · rw [List.mem_singleton.mp he] at hacc
        cases hacc
      · cases he
    rw [allocationEntries, creditOn_append, creditOn_append, hclear, hop,
      liabilityLines_creditOn, sumAt_liabilityTotals (fun i hi => (hf i hi).customer_nonneg)]
    omega
  · have hlines : creditOn ((liabilityTotals items).map
        (fun t => ⟨liabilityRef deposit.asset t.1, .credit, t.2⟩))
        ⟨deposit.asset, .operatorRevenue⟩ = 0 := by
      refine creditOn_eq_zero (fun e he _ hacc => ?_)
      obtain ⟨t, _, rfl⟩ := List.mem_map.mp he
      cases hacc
    have hop : creditOn (if 0 < operatorTotal items then
        [⟨⟨deposit.asset, .operatorRevenue⟩, .credit, operatorTotal items⟩] else [])
        ⟨deposit.asset, .operatorRevenue⟩ = operatorTotal items := by
      have hnn := operatorTotal_nonneg hf
      by_cases hp : 0 < operatorTotal items
      · simp [hp, creditOn, creditTotal]
      · have hz : operatorTotal items = 0 := by omega
        simp [hz, creditOn, creditTotal]
    rw [allocationEntries, creditOn_append, creditOn_append, hclear, hlines, hop]
    omega

end Journal

section Stamps

theorem shareGroups_map {f : ShareEvent → ShareEvent} {l : List ShareEvent}
    (h : ∀ s ∈ l, (f s).customerId = s.customerId ∧ (f s).splitPolicyId = s.splitPolicyId ∧
      (f s).normalizedWork = s.normalizedWork) : shareGroups (l.map f) = shareGroups l := by
  refine groupSum_map (fun s hs => ?_) (fun s hs => (h s hs).2.2)
  rw [(h s hs).1, (h s hs).2.1]

theorem stampedShares_judged {db db' : Database} {f : ShareEvent → ShareEvent}
    (hs : ∀ s, SameWork s (f s)) (hr : db'.shareEvents.rows = db.shareEvents.rows.map f) (id : Id) :
    stampedShares db' id = (stampedShares db id).map f := by
  rw [stampedShares, hr, List.filter_map, stampedShares]
  refine congrArg (List.map f) (List.filter_congr (fun s _ => ?_))
  simp only [Function.comp, (hs s).allocationBatchId]

variable {order : Order ((Id × Id) × ℚ)} {ids : AllocationIds} {now : Instant} {db db' : Database}
  {deposit : Deposit} {endpointIds : List Id} {items : List AllocationItem}

theorem openShare_unstamped {s : ShareEvent} (h : openShare endpointIds s = true) :
    s.allocationBatchId = none := by
  simp only [openShare, decide_eq_true_eq] at h
  exact h.2.2

theorem stampedShares_other (hc : Committed order ids now db db' deposit endpointIds items) (id : Id)
    (hid : id ≠ ids.batchId) : stampedShares db' id = stampedShares db id := by
  rw [stampedShares, hc.shares, List.filter_map, stampedShares]
  have hp : ∀ s ∈ db.shareEvents.rows, ((fun s : ShareEvent => decide (s.allocationBatchId = some id)) ∘
      fun s => if openShare endpointIds s then s.stamp ids.batchId else s) s =
        decide (s.allocationBatchId = some id) := by
    intro s _
    simp only [Function.comp]
    split
    · rename_i ho
      simp [ShareEvent.stamp, openShare_unstamped ho, Ne.symm hid]
    · rfl
  rw [List.filter_congr hp]
  refine (List.map_congr_left (fun s hs => ?_)).trans (List.map_id _)
  have hst := of_decide_eq_true (List.mem_filter.mp hs).2
  refine if_neg (fun ho => ?_)
  rw [openShare_unstamped ho] at hst
  cases hst

theorem stampedShares_new (hc : Committed order ids now db db' deposit endpointIds items)
    (hnew : ∀ s ∈ db.shareEvents.rows, s.allocationBatchId ≠ some ids.batchId) :
    stampedShares db' ids.batchId =
      (db.shareEvents.rows.filter (openShare endpointIds)).map (ShareEvent.stamp ids.batchId) := by
  rw [stampedShares, hc.shares, List.filter_map]
  have hp : ∀ s ∈ db.shareEvents.rows,
      ((fun s : ShareEvent => decide (s.allocationBatchId = some ids.batchId)) ∘
        fun s => if openShare endpointIds s then s.stamp ids.batchId else s) s =
          openShare endpointIds s := by
    intro s hs
    simp only [Function.comp]
    split
    · rename_i ho
      simp [ShareEvent.stamp, ho]
    · rename_i ho
      simp [hnew s hs, ho]
  rw [List.filter_congr hp]
  exact List.map_congr_left (fun s hs => if_pos (List.mem_filter.mp hs).2)

end Stamps

structure Exclusive (db : Database) : Prop where
  stamped : ∀ s ∈ db.shareEvents.rows, ∀ id, s.allocationBatchId = some id →
    ∃ b ∈ db.allocationBatches.rows, b.id = id
  distributed : ∀ b ∈ db.allocationBatches.rows, Distributed db b

structure Preserves (db db' : Database) : Prop where
  groups : ∀ b ∈ db.allocationBatches.rows,
    shareGroups (stampedShares db' b.id) = shareGroups (stampedShares db b.id)
  deposits : ∀ d ∈ db.deposits.rows, ∃ d' ∈ db'.deposits.rows, SameDeposit d d'
  policies : ∀ p ∈ db.splitPolicies.rows, p ∈ db'.splitPolicies.rows
  journal : ∀ t ∈ db.journalTransactions.rows, t ∈ db'.journalTransactions.rows

theorem FairItem.mono {db db' : Database} {i : AllocationItem} (h : FairItem db i)
    (hp : ∀ p ∈ db.splitPolicies.rows, p ∈ db'.splitPolicies.rows) : FairItem db' i := by
  obtain ⟨p, hm, hid, hs⟩ := h.policy
  exact ⟨h.gross_nonneg, h.customer_nonneg, h.operator_nonneg, h.split, p, hp p hm, hid, hs⟩

theorem Preserves.distributed {db db' : Database} (h : Preserves db db') {b : AllocationBatch}
    (hb : b ∈ db.allocationBatches.rows) (hd : Distributed db b) : Distributed db' b := by
  obtain ⟨d, hm, hid, ham⟩ := hd.deposit
  obtain ⟨d', hm', hs⟩ := h.deposits d hm
  obtain ⟨t, ht, hj⟩ := hd.journal
  exact ⟨by rw [h.groups b hb]; exact hd.groups,
    ⟨d', hm', hs.id.trans hid, hs.amountAtomic.trans ham⟩, hd.gross,
    fun i hi => FairItem.mono (hd.fair i hi) h.policies, ⟨t, h.journal t ht, hj⟩⟩

theorem Preserves.of_rows {db db' : Database} (hs : db'.shareEvents = db.shareEvents)
    (hd : db'.deposits = db.deposits) (hp : ∀ p ∈ db.splitPolicies.rows, p ∈ db'.splitPolicies.rows)
    (hj : ∀ t ∈ db.journalTransactions.rows, t ∈ db'.journalTransactions.rows) :
    Preserves db db' := by
  refine ⟨fun b _ => by rw [stampedShares, hs, stampedShares], fun d hm => ⟨d, ?_, .refl d⟩, hp, hj⟩
  rwa [hd]

/-- A share keeps its stamp. -/
def StampsKept (db db' : Database) : Prop :=
  ∀ s ∈ db.shareEvents.rows, ∀ id, s.allocationBatchId = some id →
    ∃ s' ∈ db'.shareEvents.rows, s'.id = s.id ∧ s'.submittedAt = s.submittedAt ∧
      s'.allocationBatchId = some id

theorem StampsKept.of_eq {db db' : Database} (h : db'.shareEvents = db.shareEvents) :
    StampsKept db db' :=
  fun s hs _ hid => ⟨s, h ▸ hs, rfl, rfl, hid⟩

theorem StampsKept.trans {db db₁ db₂ : Database} (h : StampsKept db db₁)
    (h' : StampsKept db₁ db₂) : StampsKept db db₂ := by
  intro s hs id hid
  obtain ⟨s₁, hs₁, hi₁, ht₁, hid₁⟩ := h s hs id hid
  obtain ⟨s₂, hs₂, hi₂, ht₂, hid₂⟩ := h' s₁ hs₁ id hid₁
  exact ⟨s₂, hs₂, hi₂.trans hi₁, ht₂.trans ht₁, hid₂⟩

/-- Share events of one step: nothing that was stamped before moves. -/
theorem journals_stamps {a : Answer} {db db' : Database} (h : Journals a db db') :
    StampsKept db db' ∧ (∀ id, shareGroups (stampedShares db' id) = shareGroups (stampedShares db id)) ∧
      ∀ s' ∈ db'.shareEvents.rows, ∀ id, s'.allocationBatchId = some id →
        ∃ s ∈ db.shareEvents.rows, s.allocationBatchId = some id := by
  cases h with
  | idle h =>
    subst h
    exact ⟨.of_eq rfl, fun _ => rfl, fun s hs _ hid => ⟨s, hs, hid⟩⟩
  | inserts hr _ =>
    refine ⟨fun s hs id hid => ⟨s, by simp [hr, hs], rfl, rfl, hid⟩, fun id => ?_, ?_⟩
    · rw [stampedShares, hr, List.filter_append, stampedShares]
      simp [pendingShare]
    · intro s' hs' id hid
      rw [hr, List.mem_append, List.mem_singleton] at hs'
      obtain hs' | rfl := hs'
      · exact ⟨s', hs', hid⟩
      · cases hid
  | @judges f hs hr _ =>
    refine ⟨fun s hm id hid => ⟨f s, ?_, (hs s).id, (hs s).submittedAt, ?_⟩, fun id => ?_, ?_⟩
    · rw [hr]
      exact List.mem_map_of_mem hm
    · rw [(hs s).allocationBatchId, hid]
    · rw [stampedShares_judged hs hr]
      exact shareGroups_map (fun s _ =>
        ⟨(hs s).customerId, (hs s).splitPolicyId, (hs s).normalizedWork⟩)
    · intro s' hs' id hid
      rw [hr] at hs'
      obtain ⟨s, hm, rfl⟩ := List.mem_map.mp hs'
      exact ⟨s, hm, by rw [← hid, (hs s).allocationBatchId]⟩

section Allocation

variable {order : Order ((Id × Id) × ℚ)} {ids : AllocationIds} {now : Instant} {db db' : Database}
  {deposit : Deposit} {endpointIds : List Id} {items : List AllocationItem}

theorem committed_stamps (hc : Committed order ids now db db' deposit endpointIds items) :
    StampsKept db db' := by
  intro s hs id hid
  refine ⟨s, ?_, rfl, rfl, hid⟩
  rw [hc.shares]
  refine List.mem_map.mpr ⟨s, hs, if_neg (fun ho => ?_)⟩
  rw [openShare_unstamped ho] at hid
  cases hid

theorem committed_fresh (h : Exclusive db)
    (hc : Committed order ids now db db' deposit endpointIds items) :
    ∀ s ∈ db.shareEvents.rows, s.allocationBatchId ≠ some ids.batchId := by
  intro s hs hid
  obtain ⟨b, hb, hbid⟩ := h.stamped s hs _ hid
  exact hc.newBatch b hb (.inl hbid)

theorem committed_preserves (hc : Committed order ids now db db' deposit endpointIds items) :
    Preserves db db' := by
  refine ⟨fun b hb => ?_, fun d hd => ⟨if d.id = deposit.id then d.allocate now else d, ?_, ?_⟩,
    fun p hp => by rw [hc.frame]; exact hp, fun t ht => by simp [hc.ledger.journal, ht]⟩
  · rw [stampedShares_other hc b.id (fun hid => hc.newBatch b hb (.inl hid))]
  · rw [hc.deposits]
    exact List.mem_map.mpr ⟨d, hd, rfl⟩
  · split <;> exact ⟨rfl, rfl, rfl, rfl, rfl⟩

theorem committed_groups (h : Exclusive db)
    (hc : Committed order ids now db db' deposit endpointIds items) :
    (items.map (fun i => (i.customerId, i.splitPolicyId, i.work))).Perm
      (((shareGroups (stampedShares db' ids.batchId)).filter (fun g => 0 < g.2)).map
        (fun g => (g.1.1, g.1.2, roundPlaces 18 g.2))) := by
  obtain ⟨_, hperm, _, _⟩ := allocationItems_ok hc.computed
  have hstamp : shareGroups (stampedShares db' ids.batchId) =
      shareGroups (db.shareEvents.rows.filter (openShare endpointIds)) := by
    rw [stampedShares_new hc (committed_fresh h hc)]
    exact shareGroups_map (fun _ _ => ⟨rfl, rfl, rfl⟩)
  apply hperm.trans
  rw [workGroups, hstamp, List.filter_map, List.map_map]
  exact ((order.perm _).filter _).map _

theorem committed_distributed (h : Exclusive db)
    (hc : Committed order ids now db db' deposit endpointIds items) :
    Distributed db' (allocationBatch ids deposit items) := by
  obtain ⟨hfair, _, hgross, hsum⟩ := allocationItems_ok hc.computed
  obtain ⟨hcust, hop⟩ := allocationEntries_creditOn deposit hfair
  have hp := committed_preserves hc
  obtain ⟨d', hd', hs⟩ := hp.deposits deposit hc.found
  refine ⟨committed_groups h hc, ⟨d', hd', hs.id, hs.amountAtomic⟩, hgross,
    fun i hi => FairItem.mono (hfair i hi) hp.policies,
    allocationJournal ids deposit items, by simp [hc.ledger.journal], rfl, rfl, hcust, ?_⟩
  apply hop.trans
  show operatorTotal items = deposit.amountAtomic - customerTotal items
  omega

theorem Exclusive.committed (h : Exclusive db)
    (hc : Committed order ids now db db' deposit endpointIds items) : Exclusive db' := by
  refine ⟨fun s' hs' id hid => ?_, fun b hb => ?_⟩
  · rw [hc.batches]
    rw [hc.shares] at hs'
    obtain ⟨s, hs, rfl⟩ := List.mem_map.mp hs'
    split at hid
    · cases hid
      exact ⟨allocationBatch ids deposit items, by simp, rfl⟩
    · obtain ⟨b, hb, hbid⟩ := h.stamped s hs id hid
      exact ⟨b, List.mem_append_left _ hb, hbid⟩
  · rw [hc.batches, List.mem_append, List.mem_singleton] at hb
    obtain hb | rfl := hb
    · exact (committed_preserves hc).distributed hb (h.distributed b hb)
    · exact committed_distributed h hc

end Allocation

theorem Preserves.exclusive {db db' : Database} (h : Preserves db db') (he : Exclusive db)
    (hb : db'.allocationBatches = db.allocationBatches)
    (hs : ∀ s' ∈ db'.shareEvents.rows, ∀ id, s'.allocationBatchId = some id →
      ∃ s ∈ db.shareEvents.rows, s.allocationBatchId = some id) : Exclusive db' := by
  refine ⟨fun s' hs' id hid => ?_, fun b hbm => ?_⟩
  · obtain ⟨s, hm, hsid⟩ := hs s' hs' id hid
    rw [hb]
    exact he.stamped s hm id hsid
  · rw [hb] at hbm
    exact h.distributed hbm (he.distributed b hbm)

theorem Exclusive.withDeposits {db : Database} (h : Exclusive db) {t : Table Deposit}
    (hd : ∀ d ∈ db.deposits.rows, ∃ d' ∈ t.rows, SameDeposit d d') :
    Exclusive (withDeposits db t) := by
  have hpres : Preserves db (Deposits.withDeposits db t) :=
    ⟨fun _ _ => rfl, hd, fun _ hm => hm, fun _ ht => ht⟩
  exact hpres.exclusive h rfl (fun s hs _ hid => ⟨s, hs, hid⟩)

theorem flow_exclusive {w w' : World} {a : Answer} {r : Call} (h : Exclusive w.db)
    (hf : Flow w a r w') : Exclusive w'.db ∧ StampsKept w.db w'.db := by
  have hdep := hf.deposits.kept
  cases hf with
  | pays hp =>
    obtain ⟨ts, hts, _⟩ := hp.journal
    refine ⟨(Preserves.of_rows hp.shareEvents hp.deposits (fun p hm => hp.splitPolicies ▸ hm)
      (fun t ht => by simp [hts, ht])).exclusive h hp.allocationBatches ?_, .of_eq hp.shareEvents⟩
    intro s hs id hid
    exact ⟨s, hp.shareEvents ▸ hs, hid⟩
  | share hj =>
    obtain ⟨hkept, hgroups, hback⟩ := journals_stamps hj
    obtain ⟨_, hb, hp, hjr⟩ := journals_deposits hj
    have hpres : Preserves w.db (w.store _).db :=
      ⟨fun b _ => hgroups b.id, hdep, fun p hm => hp ▸ hm, fun t ht => hjr ▸ ht⟩
    exact ⟨hpres.exclusive h hb hback, hkept⟩
  | reorg | upsert => exact ⟨h.withDeposits hdep, .of_eq rfl⟩
  | allocates hc => exact ⟨h.committed hc, committed_stamps hc⟩

theorem change_exclusive {w : World} (h : Exclusive w.db) (e : Change) :
    Exclusive (change w e).db ∧ StampsKept w.db (change w e).db := by
  have hkeep : ∀ {db : Database}, db.shareEvents = w.db.shareEvents → db.deposits = w.db.deposits →
      db.allocationBatches = w.db.allocationBatches →
      (∀ p ∈ w.db.splitPolicies.rows, p ∈ db.splitPolicies.rows) →
      db.journalTransactions = w.db.journalTransactions →
      Exclusive db ∧ StampsKept w.db db := by
    intro db hs hd hb hp hj
    refine ⟨(Preserves.of_rows hs hd hp (fun t ht => hj ▸ ht)).exclusive h hb ?_, .of_eq hs⟩
    exact fun s hm _ hid => ⟨s, hs ▸ hm, hid⟩
  cases e with
  | lockVanishes | configure c => exact hkeep rfl rfl rfl (fun _ hm => hm) rfl
  | addSplitPolicy p =>
    simp only [change]
    split
    · rename_i policies hi
      refine hkeep rfl rfl rfl (fun q hq => ?_) rfl
      show q ∈ policies.rows
      rw [(Table.insert_eq_some hi).1]
      exact List.mem_append_left _ hq
    · exact hkeep rfl rfl rfl (fun _ hm => hm) rfl

theorem outline (rt : Runtime) : Outline (system rt) shared (fun _ _ _ => True) (fun _ _ => True)
    (fun w => Exclusive w.db) (fun _ _ => True) (fun _ _ _ => True) :=
  .of_invariant (fun _ _ _ _ _ h he => (flow_exclusive h (acted_flow (effect_acted he))).1)
    (fun _ e h => (change_exclusive h e).1)

theorem fresh_exclusive {db : Database} (h : db.Fresh) : Exclusive db := by
  constructor <;> simp [h.shareEvents, h.allocationBatches]

/-- In every run a stamp stays for ever, every stamp names a batch, and every
batch distributes exactly its deposit over exactly its shares. -/
theorem deposits_distributed {rt : Runtime} {w : World} {c : Config World Call} (hw : w.db.Fresh)
    (h : (system rt).Reaches (.idle w) c) :
    (∀ c', (system rt).Reaches c c' → StampsKept c.shared.db c'.shared.db) ∧
    (∀ s ∈ c.shared.db.shareEvents.rows, ∀ id, s.allocationBatchId = some id →
      ∃ b ∈ c.shared.db.allocationBatches.rows, b.id = id) ∧
    ∀ b ∈ c.shared.db.allocationBatches.rows, Distributed c.shared.db b := by
  have hc := (outline rt).run (keyed_shared _) (Outline.idle (fresh_exclusive hw)) h.allowed
  refine ⟨fun c' h' => ?_, hc.inv.stamped, hc.inv.distributed⟩
  refine (outline rt).run_rel (keyed_shared _) (G := fun w w' => StampsKept w.db w'.db)
    ?_ ?_ ?_ ?_ hc h'.allowed
  · exact fun _ => .of_eq rfl
  · exact fun _ _ _ => StampsKept.trans
  · exact fun _ _ _ _ _ hi _ _ he => (flow_exclusive hi (acted_flow (effect_acted he))).2
  · exact fun _ e hi _ => (change_exclusive hi e).2

theorem deposits_distributed_sample : ∃ c, (system sampleRuntime).Reaches (.idle sampleWorld) c ∧
    c.shared.db.allocationBatches.rows.length = 1 ∧
    ∀ b ∈ c.shared.db.allocationBatches.rows, Distributed c.shared.db b := by
  obtain ⟨c, hr, hv⟩ := exec_sample sampleCredit
    (f := fun c => c.shared.db.allocationBatches.rows.length) (v := 1) (by decide +kernel)
  exact ⟨c, hr, hv, (deposits_distributed sampleWorld_fresh hr).2.2⟩

end Bitmine.Distribution
