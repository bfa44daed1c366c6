import Bitmine.Distribution

namespace Bitmine.ShareRetention

open Bitmine.Lib.UniqueTable Bitmine.Lib.GroupSum Bitmine.Lib.Throwing Bitmine.Lib.Await
open Bitmine.Lib.Rounding Bitmine.Schema Bitmine.Deployment Bitmine.Ledger
open Bitmine.LedgerPosting Bitmine.AllocateDeposit Bitmine.AllocationSpec Bitmine.Deposits
open Bitmine.Shares Bitmine.System Bitmine.Income Bitmine.Distribution

/-- What the retention job deletes: old shares that a batch has consumed, or that never
counted. -/
def prunable (cutoff : Instant) (s : ShareEvent) : Bool :=
  s.submittedAt < cutoff ∧ ((s.status = .accepted ∧ s.allocationBatchId ≠ none) ∨
    s.status = .rejected ∨ s.status = .unknown)

def retentionCutoff (now : Instant) (days : ℕ) : Instant := now - days * (24 * 60 * 60000)

def pruneRawShares (db : Database) (now : Instant) (days : ℕ) : Database :=
  withShares db (db.shareEvents.delete (prunable (retentionCutoff now days)))

inductive Upkeep where
  | change (e : Change)
  | pruneRawShares (now : Instant) (days : ℕ)

/-- The world, and beside it the shares that the retention job has deleted so far. No
effect reads them. -/
abbrev Kept : Type := World × List ShareEvent

def upkeep (k : Kept) : Upkeep → Kept
  | .change e => (change k.1 e, k.2)
  | .pruneRawShares now days =>
    (k.1.store (pruneRawShares k.1.db now days),
      k.2 ++ k.1.db.shareEvents.rows.filter (prunable (retentionCutoff now days)))

def maintained (rt : Runtime) : Machine Kept Call Answer Upkeep where
  entry := Call.entry
  effect k r a := (effect rt k.1 r a).map (fun p => ((p.1, k.2), p.2))
  handler := handler
  background k := background k.1
  event := upkeep

def journaled (k : Kept) : List ShareEvent := k.2 ++ k.1.db.shareEvents.rows

def stampedAmong (shares : List ShareEvent) (batchId : Id) : List ShareEvent :=
  shares.filter (fun s => s.allocationBatchId = some batchId)

structure DistributedOver (shares : List ShareEvent) (db : Database) (b : AllocationBatch) :
    Prop where
  groups : (b.items.map (fun i => (i.customerId, i.splitPolicyId, i.work))).Perm
    (((shareGroups (stampedAmong shares b.id)).filter (fun g => 0 < g.2)).map
      (fun g => (g.1.1, g.1.2, roundPlaces 18 g.2)))
  deposit : ∃ d ∈ db.deposits.rows, d.id = b.depositId ∧ d.amountAtomic = b.totalAtomic
  gross : (b.items.map AllocationItem.grossAtomic).sum = b.totalAtomic
  fair : ∀ i ∈ b.items, FairItem db i
  journal : ∃ t ∈ db.journalTransactions.rows, t.type = .allocation ∧
    t.reference = .allocationBatch b.id ∧ Credits t b

/-- A share that was paid, or that nothing is owed for. -/
def Spent (s : ShareEvent) : Prop :=
  (s.status = .accepted ∧ s.allocationBatchId ≠ none) ∨ s.status = .rejected ∨ s.status = .unknown

/-- Nothing deleted was owed, and what was deleted still accounts for its batch. -/
structure Accounted (k : Kept) : Prop where
  spent : ∀ s ∈ k.2, Spent s
  stamped : ∀ s ∈ journaled k, ∀ id, s.allocationBatchId = some id →
    ∃ b ∈ k.1.db.allocationBatches.rows, b.id = id
  distributed : ∀ b ∈ k.1.db.allocationBatches.rows, DistributedOver (journaled k) k.1.db b

structure Outlives (s s' : ShareEvent) : Prop where
  id : s'.id = s.id
  submittedAt : s'.submittedAt = s.submittedAt
  customerId : s'.customerId = s.customerId
  splitPolicyId : s'.splitPolicyId = s.splitPolicyId
  normalizedWork : s'.normalizedWork = s.normalizedWork
  stamp : ∀ id, s.allocationBatchId = some id → s'.allocationBatchId = some id

theorem Outlives.refl (s : ShareEvent) : Outlives s s := ⟨rfl, rfl, rfl, rfl, rfl, fun _ h => h⟩

theorem Outlives.trans {s t u : ShareEvent} (h : Outlives s t) (h' : Outlives t u) : Outlives s u :=
  ⟨h'.id.trans h.id, h'.submittedAt.trans h.submittedAt, h'.customerId.trans h.customerId,
    h'.splitPolicyId.trans h.splitPolicyId, h'.normalizedWork.trans h.normalizedWork,
    fun id hid => h'.stamp id (h.stamp id hid)⟩

def AllOutlive (shares shares' : List ShareEvent) : Prop :=
  ∀ s ∈ shares, ∃ s' ∈ shares', Outlives s s'

section Groups

variable {κ V α : Type} [DecidableEq κ] [AddCommMonoid V] {key : α → κ} {val : α → V}
  {rows rows' : List α}

theorem mem_groupSum {e : κ × V} :
    e ∈ groupSum key val rows ↔ (∃ r ∈ rows, key r = e.1) ∧ e.2 = sumAt key val e.1 rows := by
  have hkeys := (foldl_bump key val rows [] (by simp)).2.1
  constructor
  · intro he
    refine ⟨?_, groupSum_total key val rows he⟩
    have hmem : e.1 ∈ (groupSum key val rows).map Prod.fst := List.mem_map_of_mem he
    simpa using (hkeys e.1).mp hmem
  · rintro ⟨hr, hsum⟩
    obtain ⟨e', he', hfst⟩ := List.mem_map.mp ((hkeys e.1).mpr (.inr hr))
    have htotal : e'.2 = e.2 := by
      rw [groupSum_total key val rows he', hfst, hsum]
    rwa [show e = e' from Prod.ext hfst.symm htotal.symm]

theorem groupSum_perm (h : rows.Perm rows') :
    (groupSum key val rows).Perm (groupSum key val rows') := by
  have hnodup : ∀ l, (groupSum key val l).Nodup := fun l => (groupSum_nodup key val l).of_map
  apply (List.perm_ext_iff_of_nodup (hnodup _) (hnodup _)).mpr
  intro e
  have hsum : sumAt key val e.1 rows = sumAt key val e.1 rows' :=
    ((h.filter _).map val).sum_eq
  rw [mem_groupSum, mem_groupSum, hsum]
  simp only [h.mem_iff]

end Groups

section Steps

variable {k : Kept} {db db' : Database} {shares shares' : List ShareEvent} {b : AllocationBatch}

theorem DistributedOver.mono (h : DistributedOver shares db b)
    (hg : (shareGroups (stampedAmong shares b.id)).Perm (shareGroups (stampedAmong shares' b.id)))
    (hd : ∀ d ∈ db.deposits.rows, ∃ d' ∈ db'.deposits.rows, SameDeposit d d')
    (hp : ∀ p ∈ db.splitPolicies.rows, p ∈ db'.splitPolicies.rows)
    (hj : ∀ t ∈ db.journalTransactions.rows, t ∈ db'.journalTransactions.rows) :
    DistributedOver shares' db' b := by
  obtain ⟨d, hm, hid, ham⟩ := h.deposit
  obtain ⟨d', hm', hs⟩ := hd d hm
  obtain ⟨t, ht, hrest⟩ := h.journal
  refine ⟨h.groups.trans ((hg.filter _).map _), ⟨d', hm', hs.id.trans hid, hs.amountAtomic.trans ham⟩,
    h.gross, ?_, t, hj t ht, hrest⟩
  intro i hi
  exact FairItem.mono (h.fair i hi) hp

theorem stampedAmong_append (xs ys : List ShareEvent) (id : Id) :
    stampedAmong (xs ++ ys) id = stampedAmong xs id ++ stampedAmong ys id :=
  List.filter_append ..

theorem Accounted.keep (h : Accounted k) {w : World}
    (hb : w.db.allocationBatches = k.1.db.allocationBatches)
    (hg : ∀ id, (shareGroups (stampedAmong (journaled k) id)).Perm
      (shareGroups (stampedAmong (journaled (w, k.2)) id)))
    (hs : ∀ s' ∈ w.db.shareEvents.rows, ∀ id, s'.allocationBatchId = some id →
      ∃ s ∈ k.1.db.shareEvents.rows, s.allocationBatchId = some id)
    (hd : ∀ d ∈ k.1.db.deposits.rows, ∃ d' ∈ w.db.deposits.rows, SameDeposit d d')
    (hp : ∀ p ∈ k.1.db.splitPolicies.rows, p ∈ w.db.splitPolicies.rows)
    (hj : ∀ t ∈ k.1.db.journalTransactions.rows, t ∈ w.db.journalTransactions.rows) :
    Accounted (w, k.2) := by
  refine ⟨h.spent, ?_, ?_⟩
  · intro s' hs' id hid
    rw [hb]
    obtain hold | hrow := List.mem_append.mp hs'
    · exact h.stamped s' (List.mem_append_left _ hold) id hid
    · obtain ⟨s, hm, hst⟩ := hs s' hrow id hid
      exact h.stamped s (List.mem_append_right _ hm) id hst
  · intro b hbm
    rw [hb] at hbm
    exact (h.distributed b hbm).mono (hg b.id) hd hp hj

theorem Accounted.keep_of_eq (h : Accounted k) {w : World}
    (hs : w.db.shareEvents = k.1.db.shareEvents)
    (hb : w.db.allocationBatches = k.1.db.allocationBatches)
    (hd : ∀ d ∈ k.1.db.deposits.rows, ∃ d' ∈ w.db.deposits.rows, SameDeposit d d')
    (hp : ∀ p ∈ k.1.db.splitPolicies.rows, p ∈ w.db.splitPolicies.rows)
    (hj : ∀ t ∈ k.1.db.journalTransactions.rows, t ∈ w.db.journalTransactions.rows) :
    Accounted (w, k.2) := by
  refine h.keep hb ?_ ?_ hd hp hj
  · intro id
    rw [show journaled (w, k.2) = journaled k by simp only [journaled, hs]]
  · intro s' hs' id hid
    exact ⟨s', hs ▸ hs', hid⟩

theorem outlive_of_eq (k : Kept) {w : World} (hs : w.db.shareEvents = k.1.db.shareEvents) :
    AllOutlive (journaled k) (journaled (w, k.2)) := by
  intro s hm
  exact ⟨s, by simpa only [journaled, hs] using hm, .refl s⟩

/-- Verdicts and new shares, as the share journal makes them. -/
theorem Accounted.journals (h : Accounted k) {a : Answer} (hj : Journals a k.1.db db) :
    Accounted (k.1.store db, k.2) ∧ AllOutlive (journaled k) (journaled (k.1.store db, k.2)) := by
  obtain ⟨_, hgroups, hback⟩ := journals_stamps hj
  obtain ⟨hd, hb, hp, hjr⟩ := journals_deposits hj
  constructor
  · refine h.keep hb ?_ hback ?_ ?_ ?_
    · intro id
      have hrows : shareGroups (stampedAmong (journaled k) id) =
          shareGroups (stampedAmong (journaled (k.1.store db, k.2)) id) := by
        cases hj with
        | idle he => rw [he]; rfl
        | inserts hr _ =>
          simp only [journaled, World.store_db, hr, stampedAmong_append]
          simp [stampedAmong, pendingShare]
        | @judges f hs hr _ =>
          have hmap : stampedAmong (k.1.db.shareEvents.rows.map f) id =
              (stampedAmong k.1.db.shareEvents.rows id).map f := by
            rw [stampedAmong, List.filter_map, stampedAmong]
            refine congrArg (List.map f) (List.filter_congr (fun s _ => ?_))
            simp only [Function.comp, (hs s).allocationBatchId]
          simp only [journaled, World.store_db, hr, stampedAmong_append, hmap]
          simp only [shareGroups, groupSum, List.foldl_append, List.foldl_map,
            (hs _).customerId, (hs _).splitPolicyId, (hs _).normalizedWork]
      rw [hrows]
    · intro d hm
      exact ⟨d, by simpa only [World.store_db, hd] using hm, .refl d⟩
    · intro p hm
      simpa only [World.store_db, hp] using hm
    · intro t hm
      simpa only [World.store_db, hjr] using hm
  · intro s hm
    obtain hold | hrow := List.mem_append.mp hm
    · exact ⟨s, List.mem_append_left _ hold, .refl s⟩
    · cases hj with
      | idle he => exact ⟨s, List.mem_append_right _ (by rw [World.store_db, he]; exact hrow), .refl s⟩
      | inserts hr _ =>
        exact ⟨s, List.mem_append_right _ (by rw [World.store_db, hr]; simp [hrow]), .refl s⟩
      | @judges f hs hr _ =>
        refine ⟨f s, List.mem_append_right _ ?_, (hs s).id, (hs s).submittedAt, (hs s).customerId,
          (hs s).splitPolicyId, (hs s).normalizedWork, ?_⟩
        · rw [World.store_db, hr]
          exact List.mem_map_of_mem hrow
        · intro id hid
          rw [(hs s).allocationBatchId, hid]

section Allocation

variable {order : Order ((Id × Id) × ℚ)} {ids : AllocationIds} {now : Instant} {deposit : Deposit}
  {endpointIds : List Id} {items : List AllocationItem}

theorem stamp_rows (hc : Committed order ids now k.1.db db deposit endpointIds items) (id : Id)
    (hid : id ≠ ids.batchId) :
    stampedAmong (journaled (k.1.store db, k.2)) id = stampedAmong (journaled k) id := by
  simp only [journaled, stampedAmong_append, World.store_db]
  congr 1
  exact stampedShares_other hc id hid

theorem Accounted.unstamped (h : Accounted k)
    (hc : Committed order ids now k.1.db db deposit endpointIds items) :
    ∀ s ∈ journaled k, s.allocationBatchId ≠ some ids.batchId := by
  intro s hs hid
  obtain ⟨b, hb, hbid⟩ := h.stamped s hs _ hid
  exact hc.newBatch b hb (.inl hbid)

/-- The groups that an allocation reads are those of the shares it stamps; the deleted
ones belong to other batches. -/
theorem new_groups (h : Accounted k)
    (hc : Committed order ids now k.1.db db deposit endpointIds items) :
    shareGroups (stampedAmong (journaled (k.1.store db, k.2)) ids.batchId) =
      shareGroups (k.1.db.shareEvents.rows.filter (openShare endpointIds)) := by
  have hold : stampedAmong k.2 ids.batchId = [] := by
    apply List.filter_eq_nil_iff.mpr
    intro s hs
    simpa using h.unstamped hc s (List.mem_append_left _ hs)
  have hnew := stampedShares_new hc
    (fun s hs => h.unstamped hc s (List.mem_append_right _ hs))
  simp only [journaled, stampedAmong_append, World.store_db, hold, List.nil_append]
  change shareGroups (stampedShares db ids.batchId) = _
  rw [hnew]
  exact shareGroups_map (fun _ _ => ⟨rfl, rfl, rfl⟩)

theorem Accounted.allocates (h : Accounted k)
    (hc : Committed order ids now k.1.db db deposit endpointIds items) :
    Accounted (k.1.store db, k.2) ∧ AllOutlive (journaled k) (journaled (k.1.store db, k.2)) := by
  obtain ⟨hfair, hperm, hgross, hsum⟩ := allocationItems_ok hc.computed
  obtain ⟨hcust, hop⟩ := allocationEntries_creditOn deposit hfair
  have hp := committed_preserves hc
  refine ⟨⟨h.spent, ?_, ?_⟩, ?_⟩
  · intro s' hs' id hid
    rw [World.store_db, hc.batches]
    obtain hold | hrow := List.mem_append.mp hs'
    · obtain ⟨b, hb, hbid⟩ := h.stamped s' (List.mem_append_left _ hold) id hid
      exact ⟨b, List.mem_append_left _ hb, hbid⟩
    · rw [World.store_db, hc.shares] at hrow
      obtain ⟨s, hs, rfl⟩ := List.mem_map.mp hrow
      split at hid
      · cases hid
        exact ⟨allocationBatch ids deposit items, by simp, rfl⟩
      · obtain ⟨b, hb, hbid⟩ := h.stamped s (List.mem_append_right _ hs) id hid
        exact ⟨b, List.mem_append_left _ hb, hbid⟩
  · intro b hb
    rw [World.store_db, hc.batches, List.mem_append, List.mem_singleton] at hb
    obtain hb | rfl := hb
    · refine (h.distributed b hb).mono ?_ hp.deposits hp.policies hp.journal
      rw [stamp_rows hc b.id (fun hid => hc.newBatch b hb (.inl hid))]
    · obtain ⟨d', hd', hs⟩ := hp.deposits deposit hc.found
      refine ⟨?_, ⟨d', hd', hs.id, hs.amountAtomic⟩, hgross,
        fun i hi => FairItem.mono (hfair i hi) hp.policies,
        allocationJournal ids deposit items, by simp [hc.ledger.journal], rfl, rfl, hcust, ?_⟩
      · change (items.map (fun i => (i.customerId, i.splitPolicyId, i.work))).Perm
          (((shareGroups (stampedAmong (journaled (k.1.store db, k.2)) ids.batchId)).filter
            (fun g => 0 < g.2)).map (fun g => (g.1.1, g.1.2, roundPlaces 18 g.2)))
        rw [new_groups h hc]
        apply hperm.trans
        rw [workGroups, List.filter_map, List.map_map]
        exact ((order.perm _).filter _).map _
      · apply hop.trans
        show operatorTotal items = deposit.amountAtomic - customerTotal items
        omega
  · intro s hm
    obtain hold | hrow := List.mem_append.mp hm
    · exact ⟨s, List.mem_append_left _ hold, .refl s⟩
    · refine ⟨if openShare endpointIds s then s.stamp ids.batchId else s,
        List.mem_append_right _ ?_, ?_⟩
      · rw [World.store_db, hc.shares]
        exact List.mem_map_of_mem hrow
      · split
        · rename_i ho
          refine ⟨rfl, rfl, rfl, rfl, rfl, ?_⟩
          intro id hid
          rw [openShare_unstamped ho] at hid
          cases hid
        · exact .refl s

end Allocation

theorem flow_accounted {w : World} {a : Answer} {r : Call} (h : Accounted k)
    (hf : Flow k.1 a r w) :
    Accounted (w, k.2) ∧ AllOutlive (journaled k) (journaled (w, k.2)) := by
  have hdep := hf.deposits.kept
  cases hf with
  | pays hp =>
    obtain ⟨ts, hts, _⟩ := hp.journal
    refine ⟨h.keep_of_eq hp.shareEvents hp.allocationBatches hdep ?_ ?_, outlive_of_eq k hp.shareEvents⟩
    · intro p hm
      rw [hp.splitPolicies]
      exact hm
    · intro t ht
      rw [hts]
      exact List.mem_append_left _ ht
  | share hj => exact h.journals hj
  | reorg | upsert =>
    exact ⟨h.keep_of_eq rfl rfl hdep (fun _ hm => hm) (fun _ hm => hm), outlive_of_eq k rfl⟩
  | allocates hc => exact h.allocates hc

theorem change_accounted (h : Accounted k) (e : Change) :
    Accounted (change k.1 e, k.2) ∧ AllOutlive (journaled k) (journaled (change k.1 e, k.2)) := by
  have hsame : ∀ w : World, w.db.shareEvents = k.1.db.shareEvents →
      w.db.deposits = k.1.db.deposits → w.db.allocationBatches = k.1.db.allocationBatches →
      (∀ p ∈ k.1.db.splitPolicies.rows, p ∈ w.db.splitPolicies.rows) →
      w.db.journalTransactions = k.1.db.journalTransactions →
      Accounted (w, k.2) ∧ AllOutlive (journaled k) (journaled (w, k.2)) := by
    intro w hs hd hb hp hj
    refine ⟨h.keep_of_eq hs hb ?_ hp ?_, outlive_of_eq k hs⟩
    · intro d hm
      exact ⟨d, hd ▸ hm, .refl d⟩
    · intro t ht
      exact hj ▸ ht
  cases e with
  | lockVanishes | configure c => exact hsame _ rfl rfl rfl (fun _ hm => hm) rfl
  | addSplitPolicy p =>
    simp only [change]
    split
    · rename_i policies hi
      refine hsame _ rfl rfl rfl ?_ rfl
      intro q hq
      change q ∈ policies.rows
      rw [(Table.insert_eq_some hi).1]
      exact List.mem_append_left _ hq
    · exact hsame _ rfl rfl rfl (fun _ hm => hm) rfl

theorem pruned_perm (k : Kept) (now : Instant) (days : ℕ) :
    (journaled (upkeep k (.pruneRawShares now days))).Perm (journaled k) := by
  simp only [journaled, upkeep, World.store_db, pruneRawShares, withShares, Table.delete]
  rw [List.append_assoc]
  exact (List.filter_append_perm _ _).append_left _

theorem prune_accounted (h : Accounted k) (now : Instant) (days : ℕ) :
    Accounted (upkeep k (.pruneRawShares now days)) ∧
      AllOutlive (journaled k) (journaled (upkeep k (.pruneRawShares now days))) := by
  have hperm := pruned_perm k now days
  refine ⟨⟨?_, ?_, ?_⟩, ?_⟩
  · intro s hs
    obtain hold | hnew := List.mem_append.mp hs
    · exact h.spent s hold
    · have hp := (List.mem_filter.mp hnew).2
      simp only [prunable, decide_eq_true_eq] at hp
      exact hp.2
  · intro s hs id hid
    exact h.stamped s (hperm.mem_iff.mp hs) id hid
  · intro b hb
    refine (h.distributed b hb).mono (groupSum_perm (hperm.symm.filter _)) ?_ (fun _ hm => hm)
      (fun _ hm => hm)
    exact fun d hd => ⟨d, hd, .refl d⟩
  · intro s hs
    exact ⟨s, hperm.mem_iff.mpr hs, .refl s⟩

end Steps

theorem upkeep_accounted {k : Kept} (h : Accounted k) (e : Upkeep) :
    Accounted (upkeep k e) ∧ AllOutlive (journaled k) (journaled (upkeep k e)) := by
  cases e with
  | change e => exact change_accounted h e
  | pruneRawShares now days => exact prune_accounted h now days

theorem effect_accounted {rt : Runtime} {k k' : Kept} {r : Call} {a : Answer} {o : Option Call}
    (h : Accounted k) (he : (maintained rt).effect k r a = .ok (k', o)) :
    Accounted k' ∧ AllOutlive (journaled k) (journaled k') := by
  obtain ⟨⟨w, o'⟩, hw, hk⟩ := map_eq_ok.mp he
  cases hk
  exact flow_accounted h (acted_flow (effect_acted hw))

theorem maintained_outline (rt : Runtime) : Outline (maintained rt) shared (fun _ _ _ => True)
    (fun _ _ => True) Accounted (fun _ _ => True) (fun _ _ _ => True) :=
  .of_invariant (fun _ _ _ _ _ h he => (effect_accounted h he).1)
    (fun _ e h => (upkeep_accounted h e).1)

theorem fresh_accounted {w : World} (h : w.db.Fresh) : Accounted (w, []) := by
  constructor <;> simp [journaled, h.shareEvents, h.allocationBatches]

/-- Deleting old shares loses no work: whenever and however often the retention job
runs, no share that is still to be paid is deleted, no share is lost from one state to a
later one, and every batch distributes exactly its deposit over exactly the shares
stamped with it, the deleted ones counted. -/
theorem pruning_loses_no_work {rt : Runtime} {w : World} {c : Config Kept Call} (hw : w.db.Fresh)
    (h : (maintained rt).Reaches (.idle (w, [])) c) :
    (∀ s ∈ c.shared.2, Spent s) ∧
    (∀ s ∈ journaled c.shared, ∀ id, s.allocationBatchId = some id →
      ∃ b ∈ c.shared.1.db.allocationBatches.rows, b.id = id) ∧
    (∀ b ∈ c.shared.1.db.allocationBatches.rows,
      DistributedOver (journaled c.shared) c.shared.1.db b) ∧
    ∀ c', (maintained rt).Reaches c c' → AllOutlive (journaled c.shared) (journaled c'.shared) := by
  have hc := (maintained_outline rt).run (keyed_shared _) (Outline.idle (fresh_accounted hw)) h.allowed
  refine ⟨hc.inv.spent, hc.inv.stamped, hc.inv.distributed, ?_⟩
  intro c' h'
  refine (maintained_outline rt).run_rel (keyed_shared _)
    (G := fun k k' => AllOutlive (journaled k) (journaled k')) ?_ ?_ ?_ ?_ hc h'.allowed
  · exact fun k s hs => ⟨s, hs, .refl s⟩
  · intro k₁ k₂ k₃ h₁ h₂ s hs
    obtain ⟨s', hs', ho⟩ := h₁ s hs
    obtain ⟨s'', hs'', ho'⟩ := h₂ s' hs'
    exact ⟨s'', hs'', ho.trans ho'⟩
  · exact fun _ _ _ _ _ hi _ _ he => (effect_accounted hi he).2
  · exact fun _ e hi _ => (upkeep_accounted hi e).2

section Sample

def withUpkeep : Action Call Answer Change → Action Call Answer Upkeep
  | .event e => .event (.change e)
  | .call pid r => .call pid r
  | .resolve pid a => .resolve pid a
  | .reject pid message => .reject pid message
  | .rejectAfter pid a message => .rejectAfter pid a message
  | .background pid b => .background pid b
  | .stop pid => .stop pid

def samplePruned : List (Action Call Answer Upkeep) :=
  sampleCredit.map withUpkeep ++ [.event (.pruneRawShares 1296000000 14)]

theorem pruning_loses_no_work_sample : ∃ c, (maintained sampleRuntime).Reaches
    (.idle (sampleWorld, [])) c ∧ c.shared.1.db.shareEvents.rows.length = 0 ∧
    c.shared.2.length = 1 ∧ c.shared.1.db.allocationBatches.rows.length = 1 ∧
    ∀ b ∈ c.shared.1.db.allocationBatches.rows,
      DistributedOver (journaled c.shared) c.shared.1.db b := by
  obtain ⟨c, hc, hv⟩ := Option.map_eq_some_iff.mp
    (show ((maintained sampleRuntime).exec (.idle (sampleWorld, [])) samplePruned).map
      (fun c => (c.shared.1.db.shareEvents.rows.length, c.shared.2.length,
        c.shared.1.db.allocationBatches.rows.length)) = some (0, 1, 1) by decide +kernel)
  simp only [Prod.mk.injEq] at hv
  obtain ⟨hrows, harchive, hbatches⟩ := hv
  have hr := Machine.exec_reaches hc
  exact ⟨c, hr, hrows, harchive, hbatches, (pruning_loses_no_work sampleWorld_fresh hr).2.2.1⟩

end Sample

end Bitmine.ShareRetention
