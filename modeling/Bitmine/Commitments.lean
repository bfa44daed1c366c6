import Bitmine.PayoutHistory
import Bitmine.System

namespace Bitmine.Commitments

open Bitmine.Lib.UniqueTable Bitmine.Lib.GroupSum Bitmine.Lib.Throwing Bitmine.Lib.Await
open Bitmine.Schema Bitmine.Deployment Bitmine.Ledger Bitmine.LedgerPosting
open Bitmine.AllocateDeposit Bitmine.AllocationSpec Bitmine.Payouts Bitmine.Execute
open Bitmine.PayoutHistory Bitmine.System

def itemReference (i : PayoutItem) : Reference :=
  match i.customerId with
  | some customerId => .payoutItem i.batchId customerId
  | none => .operatorPayout i.batchId

def payoutBatchId : Reference → Option Id
  | .payoutItem batchId _ => some batchId
  | .operatorPayout batchId => some batchId
  | _ => none

def hasAsset (db : Database) (asset : AssetCode) (batchId : Id) : Bool :=
  db.payoutBatches.rows.any (fun b => b.id = batchId ∧ b.asset = asset)

def owedBy (db : Database) (customerId : Id) (asset : AssetCode) (i : PayoutItem) : ℤ :=
  if i.customerId = some customerId ∧ i.journalTransactionId = none ∧ hasAsset db asset i.batchId
  then i.grossAtomic else 0

def owed (db : Database) (customerId : Id) (asset : AssetCode) : ℤ :=
  (db.payoutItems.rows.map (owedBy db customerId asset)).sum

def committed (db : Database) (customerId : Id) (asset : AssetCode) : ℤ :=
  ((db.payoutItems.rows.filter (fun i => i.customerId = some customerId ∧
    i.journalTransactionId = none ∧ inOpenBatch db asset i.batchId)).map
      PayoutItem.grossAtomic).sum

def Settled (db : Database) (batchId : Id) : Prop :=
  ∀ i ∈ db.payoutItems.rows, i.batchId = batchId → i.journalTransactionId.isSome

/-- The invariant that ties the journal, the items and the states of the batches. -/
structure Covered (db : Database) : Prop where
  gross : ∀ i ∈ db.payoutItems.rows, 0 ≤ i.grossAtomic
  owned : ∀ i ∈ db.payoutItems.rows, ∃ b ∈ db.payoutBatches.rows, b.id = i.batchId
  alive : ∀ b ∈ db.payoutBatches.rows, b.state ≠ .cancelled
  posted : ∀ i ∈ db.payoutItems.rows, i.journalTransactionId.isSome →
    ∃ t ∈ db.journalTransactions.rows, t.reference = itemReference i
  settled : ∀ b ∈ db.payoutBatches.rows, b.state = .broadcast ∨ b.state = .confirmed →
    Settled db b.id
  referenced : ∀ t ∈ db.journalTransactions.rows, ∀ id, payoutBatchId t.reference = some id →
    t.type = .payout ∧ ∃ b ∈ db.payoutBatches.rows, b.id = id ∧ b.asset = t.asset
  covered : ∀ customerId asset, owed db customerId asset ≤ customerBalance db customerId asset

theorem customerBalance_eq (db : Database) (customerId : Id) (asset : AssetCode) :
    customerBalance db customerId asset =
      -net (journalEntries db) (liabilityRef asset customerId) := creditBalance_eq db _

theorem customerBalance_congr {db db' : Database}
    (h : db'.journalTransactions = db.journalTransactions) (customerId : Id) (asset : AssetCode) :
    customerBalance db' customerId asset = customerBalance db customerId asset := by
  rw [customerBalance_eq, customerBalance_eq, journalEntries, h, journalEntries]

section Bounds

variable {db : Database}

theorem owedBy_nonneg (h : Covered db) (c : Id) (asset : AssetCode) {i : PayoutItem}
    (hi : i ∈ db.payoutItems.rows) : 0 ≤ owedBy db c asset i := by
  rw [owedBy]
  split
  · exact h.gross i hi
  · exact le_rfl

theorem owed_nonneg (h : Covered db) (c : Id) (asset : AssetCode) : 0 ≤ owed db c asset := by
  refine List.sum_nonneg (fun x hx => ?_)
  obtain ⟨i, hi, rfl⟩ := List.mem_map.mp hx
  exact owedBy_nonneg h c asset hi

theorem hasAsset_iff {asset : AssetCode} {id : Id} :
    hasAsset db asset id = true ↔ ∃ b ∈ db.payoutBatches.rows, b.id = id ∧ b.asset = asset := by
  simp [hasAsset]

theorem inOpenBatch_iff {asset : AssetCode} {id : Id} : inOpenBatch db asset id = true ↔
    ∃ b ∈ db.payoutBatches.rows, b.id = id ∧ b.asset = asset ∧ b.state ∈ openPayoutStates := by
  simp [inOpenBatch]

theorem committed_le_owed (h : Covered db) (c : Id) (asset : AssetCode) :
    committed db c asset ≤ owed db c asset := by
  rw [committed, sum_filter, owed]
  refine List.sum_le_sum (fun i hi => ?_)
  rw [owedBy]
  by_cases hc : i.customerId = some c ∧ i.journalTransactionId = none ∧
      inOpenBatch db asset i.batchId
  · obtain ⟨b, hb, hid, ha, _⟩ := inOpenBatch_iff.mp hc.2.2
    have hh : hasAsset db asset i.batchId = true := hasAsset_iff.mpr ⟨b, hb, hid, ha⟩
    simp [hc.1, hc.2.1, hc.2.2, hh]
  · have hn := owedBy_nonneg h c asset hi
    rw [owedBy] at hn
    simpa [hc] using hn

theorem owed_open (h : Covered db) {i : PayoutItem} (hi : i ∈ db.payoutItems.rows)
    (hj : i.journalTransactionId = none) {asset : AssetCode}
    (ha : hasAsset db asset i.batchId = true) : inOpenBatch db asset i.batchId = true := by
  obtain ⟨b, hb, hid, hasset⟩ := hasAsset_iff.mp ha
  refine inOpenBatch_iff.mpr ⟨b, hb, hid, hasset, ?_⟩
  have hnot : b.state ≠ .confirmed := by
    intro hs
    have := h.settled b hb (.inr hs) i hi hid.symm
    rw [hj] at this
    cases this
  have hcancel := h.alive b hb
  cases hs : b.state <;> simp_all [openPayoutStates]

theorem owed_le_reserved (h : Covered db) (c : Id) (asset : AssetCode) :
    owed db c asset ≤ reserved db c asset := by
  rw [reserved, sum_filter, owed]
  refine List.sum_le_sum (fun i hi => ?_)
  rw [owedBy]
  by_cases hc : i.customerId = some c ∧ i.journalTransactionId = none ∧ hasAsset db asset i.batchId
  · have ho := owed_open h hi hc.2.1 hc.2.2
    simp [hc.1, hc.2.1, hc.2.2, ho]
  · rw [if_neg hc]
    split
    · exact h.gross i hi
    · exact le_rfl

end Bounds

theorem Settled.grow {db db' : Database} {id : Id} (h : Settled db id) (hg : Grows db db')
    (hb : ∃ b ∈ db.payoutBatches.rows, b.id = id) : Settled db' id := by
  intro i' hi' hid
  obtain ⟨b, hb, hbi⟩ := hb
  obtain ⟨i, hi, hl⟩ := hg.complete i' hi' ⟨b, hb, hbi.trans hid.symm⟩
  exact hl.posted (h i hi (hl.same.batchId.symm.trans hid))

section Rewriting

variable {db db' : Database}

theorem hasAsset_map {f : PayoutBatch → PayoutBatch} (hf : ∀ b, SameBatch b (f b))
    (hb : db'.payoutBatches.rows = db.payoutBatches.rows.map f) (asset : AssetCode) (id : Id) :
    hasAsset db' asset id = hasAsset db asset id := by
  rw [hasAsset, hb, List.any_map, hasAsset]
  refine congrArg (fun p => db.payoutBatches.rows.any p) (funext fun b => ?_)
  simp [(hf b).id, (hf b).asset]

/-- Rewriting batches and items, the journal left alone. -/
theorem Covered.of_map (h : Covered db) {f : PayoutBatch → PayoutBatch}
    {g : PayoutItem → PayoutItem} (hf : ∀ b, SameBatch b (f b))
    (hg : ∀ i, SameItem i (g i) ∧ (g i).journalTransactionId = i.journalTransactionId)
    (hb : db'.payoutBatches.rows = db.payoutBatches.rows.map f)
    (hi : db'.payoutItems.rows = db.payoutItems.rows.map g)
    (hj : db'.journalTransactions = db.journalTransactions)
    (halive : ∀ b ∈ db.payoutBatches.rows, (f b).state ≠ .cancelled)
    (hset : ∀ b ∈ db.payoutBatches.rows, (f b).state = .broadcast ∨ (f b).state = .confirmed →
      Settled db b.id) : Covered db' := by
  have hitem : ∀ i' ∈ db'.payoutItems.rows, ∃ i ∈ db.payoutItems.rows, i' = g i := by
    intro i' h'
    rw [hi] at h'
    obtain ⟨i, hm, rfl⟩ := List.mem_map.mp h'
    exact ⟨i, hm, rfl⟩
  have hbatch : ∀ b ∈ db.payoutBatches.rows, f b ∈ db'.payoutBatches.rows := by
    intro b hm
    rw [hb]
    exact List.mem_map_of_mem hm
  have href : ∀ i, itemReference (g i) = itemReference i := by
    intro i
    simp only [itemReference, (hg i).1.customerId, (hg i).1.batchId]
  refine ⟨?_, ?_, ?_, ?_, ?_, ?_, ?_⟩
  · intro i' h'
    obtain ⟨i, hm, rfl⟩ := hitem i' h'
    rw [(hg i).1.grossAtomic]
    exact h.gross i hm
  · intro i' h'
    obtain ⟨i, hm, rfl⟩ := hitem i' h'
    obtain ⟨b, hbm, hid⟩ := h.owned i hm
    exact ⟨f b, hbatch b hbm, (hf b).id.trans (hid.trans (hg i).1.batchId.symm)⟩
  · intro b' h'
    rw [hb] at h'
    obtain ⟨b, hm, rfl⟩ := List.mem_map.mp h'
    exact halive b hm
  · intro i' h' hp
    obtain ⟨i, hm, rfl⟩ := hitem i' h'
    rw [(hg i).2] at hp
    rw [hj, href i]
    exact h.posted i hm hp
  · intro b' h' hs i' hi' hid
    rw [hb] at h'
    obtain ⟨b, hm, rfl⟩ := List.mem_map.mp h'
    obtain ⟨i, him, rfl⟩ := hitem i' hi'
    rw [(hg i).2]
    exact hset b hm hs i him ((hg i).1.batchId.symm.trans (hid.trans (hf b).id))
  · intro t ht id hr
    rw [hj] at ht
    obtain ⟨htype, b, hm, hid, ha⟩ := h.referenced t ht id hr
    exact ⟨htype, f b, hbatch b hm, (hf b).id.trans hid, (hf b).asset.trans ha⟩
  · intro c asset
    rw [customerBalance_congr hj]
    refine le_of_eq_of_le ?_ (h.covered c asset)
    rw [owed, hi, List.map_map, owed]
    refine congrArg List.sum (List.map_congr_left (fun i _ => ?_))
    simp only [Function.comp, owedBy, (hg i).1.customerId, (hg i).2, (hg i).1.batchId,
      (hg i).1.grossAtomic, hasAsset_map hf hb]

theorem Covered.updateBatch (h : Covered db) {id : Id} {f : PayoutBatch → PayoutBatch}
    {hf : KeepsKeys f} (hs : ∀ b, SameBatch b (f b)) (hu : updateBatch db id f hf = .ok db')
    (halive : ∀ b, (f b).state ≠ .cancelled)
    (hset : ∀ b, (f b).state = .broadcast ∨ (f b).state = .confirmed → Settled db id) :
    Covered db' := by
  obtain ⟨_, hrows, hframe⟩ := updateBatch_ok hu
  refine h.of_map (g := fun i => i) (fun b => ?_) (fun i => ⟨.refl i, rfl⟩) hrows ?_ ?_ ?_ ?_
  · split
    · exact hs b
    · exact .refl b
  · rw [hframe, List.map_id']
    rfl
  · rw [hframe]
    rfl
  · intro b hb
    split
    · exact halive b
    · exact h.alive b hb
  · intro b hb hst
    split at hst
    · rename_i hid
      rw [hid]
      exact hset b hst
    · exact h.settled b hb hst

theorem Covered.persist (h : Covered db) {id : Id} {stored : String} {prepared : PreparedPayout}
    (hp : persistTransaction db id stored prepared = .ok db') : Covered db' := by
  obtain ⟨_, hi, hb, hframe⟩ := persistTransaction_ok hp
  refine h.of_map (fun b => ?_) (chargeItems_same prepared.items) hb hi (by rw [hframe]; rfl) ?_ ?_
  · split
    · exact sameBatch_sign _ _ b
    · exact .refl b
  · intro b hb
    split
    · simp [signBatch]
    · exact h.alive b hb
  · intro b hb hst
    split at hst
    · simp [signBatch] at hst
    · exact h.settled b hb hst

end Rewriting

section Planning

variable {db db' : Database} {a : Answer} {batch : PayoutBatch} {items : List NewItem}

/-- Items of one new batch name a customer at most once. -/
theorem sum_unique_customer {l : List PayoutItem} (hu : l.Pairwise (fun i j => ¬ Clash i j))
    {id : Id} (hid : ∀ i ∈ l, i.batchId = id) (p : PayoutItem → Bool) (c : Id) (bound : ℤ)
    (h0 : 0 ≤ bound) (hb : ∀ i ∈ l, i.customerId = some c → i.grossAtomic ≤ bound) :
    (l.map (fun i => if i.customerId = some c ∧ p i then i.grossAtomic else 0)).sum ≤ bound := by
  induction l with
  | nil => simpa using h0
  | cons i l ih =>
    obtain ⟨hhead, htail⟩ := List.pairwise_cons.mp hu
    have hrest := ih htail (fun j hj => hid j (by simp [hj])) (fun j hj => hb j (by simp [hj]))
    rw [List.map_cons, List.sum_cons]
    by_cases hc : i.customerId = some c
    · have hzero : (l.map (fun j => if j.customerId = some c ∧ p j then j.grossAtomic else 0)).sum
          = 0 := by
        refine List.sum_eq_zero (fun x hx => ?_)
        obtain ⟨j, hj, rfl⟩ := List.mem_map.mp hx
        refine if_neg (fun hjc => hhead j hj (.inr ⟨?_, ?_⟩))
        · show i.customerId.map _ = j.customerId.map _
          rw [hc, hjc.1, hid i (by simp), hid j (by simp [hj])]
        · show (i.customerId.map _).isSome = true
          rw [hc]
          rfl
      rw [hzero, add_zero]
      split
      · exact hb i (by simp) hc
      · exact h0
    · rw [if_neg (fun h => hc h.1), zero_add]
      exact hrest

/-- A new batch may take what is left after everything owed. -/
theorem Covered.create (h : Covered db) (hc : Created a db db' batch items)
    (hid : batch.id = a.newId 0) (hstate : batch.state = .autoApproved ∨ batch.state = .approvalRequired)
    (hgross : ∀ i ∈ items, 0 ≤ i.grossAtomic)
    (havail : ∀ i ∈ items, ∀ c, i.customerId = some c →
      i.grossAtomic = available db c batch.asset) : Covered db' := by
  have hj : db'.journalTransactions = db.journalTransactions := by rw [hc.frame]; rfl
  have hnew : ∀ i ∈ items.mapIdx (newItem a), i.batchId = batch.id ∧
      i.journalTransactionId = none ∧ ∃ n ∈ items, i.grossAtomic = n.grossAtomic ∧
        i.customerId = n.customerId := by
    intro i hi
    obtain ⟨k, hk, rfl⟩ := List.mem_mapIdx.mp hi
    exact ⟨hid.symm, rfl, items[k], List.getElem_mem hk, rfl, rfl⟩
  have hold : ∀ i ∈ db.payoutItems.rows, i.batchId ≠ batch.id := by
    intro i hi he
    obtain ⟨b, hb, hbi⟩ := h.owned i hi
    exact hc.fresh b hb (.inl (hbi.trans he))
  have hasold : ∀ asset id, id ≠ batch.id → hasAsset db' asset id = hasAsset db asset id := by
    intro asset id hne
    simp [hasAsset, hc.batches, Ne.symm hne]
  refine ⟨?_, ?_, ?_, ?_, ?_, ?_, ?_⟩
  · intro i hi
    rw [hc.items, List.mem_append] at hi
    obtain hi | hi := hi
    · exact h.gross i hi
    · obtain ⟨_, _, n, hn, hg, _⟩ := hnew i hi
      rw [hg]
      exact hgross n hn
  · intro i hi
    rw [hc.items, List.mem_append] at hi
    obtain hi | hi := hi
    · obtain ⟨b, hb, hbi⟩ := h.owned i hi
      exact ⟨b, by simp [hc.batches, hb], hbi⟩
    · exact ⟨batch, by simp [hc.batches], (hnew i hi).1.symm⟩
  · intro b hb
    rw [hc.batches, List.mem_append, List.mem_singleton] at hb
    obtain hb | rfl := hb
    · exact h.alive b hb
    · obtain hs | hs := hstate <;> simp [hs]
  · intro i hi hp
    rw [hc.items, List.mem_append] at hi
    obtain hi | hi := hi
    · rw [hj]
      exact h.posted i hi hp
    · rw [(hnew i hi).2.1] at hp
      cases hp
  · intro b hb hs i hi hbi
    rw [hc.batches, List.mem_append, List.mem_singleton] at hb
    obtain hb | rfl := hb
    · rw [hc.items, List.mem_append] at hi
      obtain hi | hi := hi
      · exact h.settled b hb hs i hi hbi
      · exact absurd (.inl (hbi.symm.trans (hnew i hi).1)) (hc.fresh b hb)
    · obtain hs' | hs' := hstate <;> simp [hs'] at hs
  · intro t ht id hr
    rw [hj] at ht
    obtain ⟨htype, b, hb, hbi⟩ := h.referenced t ht id hr
    exact ⟨htype, b, by simp [hc.batches, hb], hbi⟩
  · intro c asset
    rw [customerBalance_congr hj, owed, hc.items, List.map_append, List.sum_append]
    have holdsum : (db.payoutItems.rows.map (owedBy db' c asset)).sum = owed db c asset := by
      refine congrArg List.sum (List.map_congr_left (fun i hi => ?_))
      rw [owedBy, owedBy, hasold asset i.batchId (hold i hi)]
    have hroom : 0 ≤ customerBalance db c asset - owed db c asset := by
      have := h.covered c asset
      omega
    have hpair : (items.mapIdx (newItem a)).Pairwise (fun i j => ¬ Clash i j) := by
      have hu := db'.payoutItems.unique
      rw [hc.items] at hu
      exact (List.pairwise_append.mp hu).2.1
    have hnewsum := sum_unique_customer hpair (fun i hi => (hnew i hi).1)
      (fun i => i.journalTransactionId = none ∧ hasAsset db' asset i.batchId) c
      (customerBalance db c asset - owed db c asset) hroom
    have hbound : ((items.mapIdx (newItem a)).map (owedBy db' c asset)).sum ≤
        customerBalance db c asset - owed db c asset := by
      by_cases ha : asset = batch.asset
      · subst ha
        refine le_trans (le_of_eq ?_) (hnewsum (fun i hi hic => ?_))
        · refine congrArg List.sum (List.map_congr_left (fun i _ => ?_))
          simp only [owedBy, decide_eq_true_eq]
        · obtain ⟨_, _, n, hn, hg, hcn⟩ := hnew i hi
          rw [hg, havail n hn c (hcn.symm.trans hic), available]
          have := owed_le_reserved h c batch.asset
          omega
      · refine le_trans (le_of_eq (List.sum_eq_zero (fun x hx => ?_))) hroom
        obtain ⟨i, hi, rfl⟩ := List.mem_map.mp hx
        refine if_neg (fun hcond => ?_)
        obtain ⟨b, hb, hbi, hba⟩ := hasAsset_iff.mp hcond.2.2
        rw [hc.batches, List.mem_append, List.mem_singleton] at hb
        obtain hb | rfl := hb
        · exact hc.fresh b hb (.inl (hbi.trans (hnew i hi).1))
        · exact ha hba.symm
    omega

theorem Covered.planned (h : Covered db) {rt : Runtime} {asset : AssetCode}
    {policy : PayoutPolicySetting} {kind : PayoutKind} {payer : NetworkFeePayer}
    (hp : Planned rt a db db' asset policy kind payer items) : Covered db' := by
  refine h.create hp.created rfl ?_ hp.gross hp.available
  simp only [newBatch]
  split
  · exact .inl rfl
  · exact .inr rfl

end Planning

section Crediting

variable {db db' : Database}

theorem net_nonpos {entries : List JournalEntry} {account : AccountRef}
    (h : ∀ e ∈ entries, e.account = account → signed e ≤ 0) : net entries account ≤ 0 := by
  refine le_trans (List.sum_le_sum (g := fun _ => 0) (fun e he => ?_)) (by simp)
  obtain ⟨hm, ha⟩ := List.mem_filter.mp he
  exact h e hm (by simpa using ha)

/-- New journals that only credit customers and name no payout. -/
theorem Covered.credit (h : Covered db) {ts : List JournalTransaction} (ha : Appends db db' ts)
    (hb : db'.payoutBatches = db.payoutBatches) (hi : db'.payoutItems = db.payoutItems)
    (href : ∀ t ∈ ts, payoutBatchId t.reference = none)
    (hnet : ∀ t ∈ ts, ∀ e ∈ t.entries, ∀ asset c, e.account = liabilityRef asset c → signed e ≤ 0) :
    Covered db' := by
  refine ⟨by rw [hi]; exact h.gross, by rw [hi, hb]; exact h.owned, by rw [hb]; exact h.alive,
    ?_, ?_, ?_, ?_⟩
  · intro i him hp
    rw [hi] at him
    obtain ⟨t, ht, hr⟩ := h.posted i him hp
    exact ⟨t, by simp [ha.journal, ht], hr⟩
  · intro b hbm hs
    rw [hb] at hbm
    rw [Settled, hi]
    exact h.settled b hbm hs
  · intro t ht id hr
    rw [ha.journal, List.mem_append] at ht
    rw [hb]
    obtain ht | ht := ht
    · exact h.referenced t ht id hr
    · rw [href t ht] at hr
      cases hr
  · intro c asset
    have hle := h.covered c asset
    have hn : net (ts.flatMap JournalTransaction.entries) (liabilityRef asset c) ≤ 0 := by
      refine net_nonpos (fun e he hacc => ?_)
      obtain ⟨t, ht, het⟩ := List.mem_flatMap.mp he
      exact hnet t ht e het asset c hacc
    have howed : owed db' c asset = owed db c asset := by
      have hh : hasAsset db' asset = hasAsset db asset := by
        funext id
        rw [hasAsset, hb, hasAsset]
      rw [owed, hi, owed]
      refine congrArg List.sum (List.map_congr_left (fun i _ => ?_))
      rw [owedBy, owedBy, hh]
    rw [howed, customerBalance_eq, ha.net]
    rw [customerBalance_eq] at hle
    omega

theorem Covered.allocated (h : Covered db) {order : Order ((Id × Id) × ℚ)} {ids : AllocationIds}
    {now : Instant} {deposit : Deposit} {endpointIds : List Id} {items : List AllocationItem}
    (hc : Committed order ids now db db' deposit endpointIds items) : Covered db' := by
  refine h.credit hc.ledger (by rw [hc.frame]; rfl) (by rw [hc.frame]; rfl) ?_ ?_
  · intro t ht
    fin_cases ht <;> rfl
  · intro t ht e he asset c hacc
    obtain rfl | ht := List.mem_cons.mp ht
    · simp only [depositJournal, depositEntries] at he
      fin_cases he <;> cases hacc
    · rw [List.mem_singleton.mp ht] at he
      simp only [allocationJournal, allocationEntries, List.mem_append, List.mem_singleton,
        List.mem_map] at he
      obtain (rfl | ⟨t, ht, rfl⟩) | he := he
      · cases hacc
      · have hpos := (List.mem_filter.mp ht).2
        simp only [decide_eq_true_eq] at hpos
        simp only [signed, reduceCtorEq, ↓reduceIte]
        omega
      · split at he
        · rw [List.mem_singleton.mp he] at hacc
          cases hacc
        · cases he

end Crediting

section Posting

variable {db db' : Database} {a : Answer} {b : PayoutBatch} {i : PayoutItem}

def itemTransaction (journalId : Id) (b : PayoutBatch) (i : PayoutItem) : JournalTransaction :=
  match i.customerId with
  | some customerId => payoutTransaction journalId (customerPosting b i customerId)
  | none => operatorTransaction journalId (operatorPosting b i)

theorem postJournal_ok {journalId : Id} (h : postJournal journalId b db i = .ok db') :
    Appends db db' [itemTransaction journalId b i] ∧
      (∀ u ∈ db.journalTransactions.rows, ¬ Clash u (itemTransaction journalId b i)) ∧
      db' = db.withLedger db'.ledgerAccounts db'.journalTransactions := by
  rw [postJournal] at h
  rw [itemTransaction]
  cases hc : i.customerId with
  | some customerId =>
    rw [hc] at h
    obtain ⟨ha, _, hn, hf⟩ := postPayout_ok h
    exact ⟨ha, hn, hf⟩
  | none =>
    rw [hc] at h
    obtain ⟨ha, _, hn, hf⟩ := postOperatorPayout_ok h
    exact ⟨ha, hn, hf⟩

theorem itemTransaction_key (journalId : Id) (hown : i.batchId = b.id) :
    (itemTransaction journalId b i).type = .payout ∧
      (itemTransaction journalId b i).asset = b.asset ∧
      (itemTransaction journalId b i).reference = itemReference i := by
  unfold itemTransaction itemReference
  rw [hown]
  split <;> exact ⟨rfl, rfl, rfl⟩

theorem payoutBatchId_itemReference (i : PayoutItem) :
    payoutBatchId (itemReference i) = some i.batchId := by
  rw [itemReference]
  split <;> rfl

theorem payoutEntries_net (input : PayoutPosting) (c : Id) (asset : AssetCode) :
    net (payoutEntries input) (liabilityRef asset c) =
      if input.customerId = c ∧ input.asset = asset then input.grossAtomic else 0 := by
  have hmain : net [⟨liabilityRef input.asset input.customerId, .debit, input.grossAtomic⟩,
      ⟨⟨input.asset, .treasury⟩, .credit, input.grossAtomic⟩] (liabilityRef asset c) =
      if input.customerId = c ∧ input.asset = asset then input.grossAtomic else 0 := by
    by_cases hcc : input.customerId = c <;> by_cases ha : input.asset = asset <;>
      simp [net_cons, liabilityRef, signed, hcc, ha]
  rw [payoutEntries, net_append, hmain]
  refine add_eq_left.mpr (net_eq_zero (fun e he heq => ?_))
  split at he
  · fin_cases he <;> cases heq
  · split at he
    · simp only [recoveredFee] at he
      fin_cases he <;> cases heq
    · cases he

theorem itemTransaction_net (journalId : Id) (c : Id) (asset : AssetCode) :
    net (itemTransaction journalId b i).entries (liabilityRef asset c) =
      if i.customerId = some c ∧ b.asset = asset then i.grossAtomic else 0 := by
  rw [itemTransaction]
  cases hc : i.customerId with
  | none =>
    simp only [reduceCtorEq, false_and, ↓reduceIte]
    refine net_eq_zero (fun e he heq => ?_)
    obtain ⟨_, hcode⟩ := operatorPayoutEntries_account he
    exact hcode c (by rw [heq]; rfl)
  | some customerId =>
    simp only [Option.some.injEq]
    exact payoutEntries_net _ c asset

/-- One item posted: the journal gets its transaction, the row its mark. -/
structure Posts (journalId : Id) (b : PayoutBatch) (i : PayoutItem) (db db' : Database) : Prop where
  journal : db'.journalTransactions.rows =
    db.journalTransactions.rows ++ [itemTransaction journalId b i]
  fresh : ∀ u ∈ db.journalTransactions.rows, ¬ Clash u (itemTransaction journalId b i)
  items : db'.payoutItems.rows =
    db.payoutItems.rows.map (fun j => if j.id = i.id then journalItem journalId j else j)
  batches : db'.payoutBatches = db.payoutBatches
  balance : ∀ c asset, customerBalance db' c asset = customerBalance db c asset -
    if i.customerId = some c ∧ b.asset = asset then i.grossAtomic else 0

theorem postItem_ok (hp : postItem a b db i = .ok db') :
    (i.journalTransactionId.isSome ∧ db' = db) ∨ Posts (a.newId i.id) b i db db' := by
  rw [postItem] at hp
  split at hp
  · rename_i hsome
    cases hp
    exact .inl ⟨hsome, rfl⟩
  · simp only [bind_eq_ok] at hp
    obtain ⟨mid, hj, hu⟩ := hp
    obtain ⟨happ, hnew, hframe⟩ := postJournal_ok hj
    obtain ⟨hrows, hframe'⟩ := updateItem_ok hu
    have hitems : mid.payoutItems = db.payoutItems := by rw [hframe]; rfl
    have hjournal : db'.journalTransactions = mid.journalTransactions := by rw [hframe']; rfl
    refine .inr ⟨?_, hnew, by rw [← hitems]; exact hrows, by rw [hframe', hframe]; rfl, ?_⟩
    · rw [hjournal, happ.journal]
    · intro c asset
      rw [customerBalance_congr hjournal, customerBalance_eq, happ.net, customerBalance_eq]
      simp only [List.flatMap_cons, List.flatMap_nil, List.append_nil, itemTransaction_net]
      omega

theorem journalItem_later (journalId id : Id) (j : PayoutItem) :
    Later j (if j.id = id then journalItem journalId j else j) := by
  split
  · exact ⟨⟨rfl, rfl, rfl, rfl⟩, fun _ => rfl⟩
  · exact .refl j

section

variable {journalId : Id} {i₀ : PayoutItem}

theorem Posts.grows (hp : Posts journalId b i db db') : Grows db db' :=
  .of_map (f := fun b => b) (by rw [hp.batches, List.map_id']) hp.items (fun b => .refl b)
    (journalItem_later journalId i.id)

/-- A second posting would repeat the reference of the first, which the journal
does not accept. -/
theorem Posts.unposted (hp : Posts journalId b i db db') (h : Covered db) (ht : Tracks db b i)
    (hi₀ : i₀ ∈ db.payoutItems.rows) (hs : SameItem i i₀) : i₀.journalTransactionId = none := by
  by_contra hne
  obtain ⟨t, htm, htr⟩ := h.posted i₀ hi₀ (Option.isSome_iff_ne_none.mpr hne)
  obtain ⟨htype, hasset, href⟩ := itemTransaction_key journalId ht.own
  have href₀ : itemReference i₀ = itemReference i := by
    simp only [itemReference, hs.customerId, hs.batchId]
  have hid : payoutBatchId t.reference = some b.id := by
    rw [htr, href₀, payoutBatchId_itemReference, ht.own]
  obtain ⟨htt, b', hb', hbi, hba⟩ := h.referenced t htm b.id hid
  obtain ⟨b₀, hb₀, hsame⟩ := ht.batch
  have heq := db.payoutBatches.eq_of_id hb' hb₀ (hbi.trans hsame.id.symm)
  refine hp.fresh t htm (.inr ⟨?_, rfl⟩)
  show some (t.asset, t.type, t.reference) = some (_, _, _)
  rw [htt, ← hba, heq, hsame.asset, htr, href₀, htype, hasset, href]

theorem hasAsset_of_tracks (ht : Tracks db b i) (hs : SameItem i i₀) (asset : AssetCode) :
    hasAsset db asset i₀.batchId = true ↔ b.asset = asset := by
  obtain ⟨b₀, hb₀, hsame⟩ := ht.batch
  rw [hasAsset_iff, hs.batchId, ht.own]
  constructor
  · rintro ⟨b', hb', hid, ha⟩
    rw [← ha, db.payoutBatches.eq_of_id hb' hb₀ (hid.trans hsame.id.symm), hsame.asset]
  · intro ha
    exact ⟨b₀, hb₀, hsame.id, hsame.asset.trans ha⟩

theorem Posts.owed (hp : Posts journalId b i db db') (h : Covered db) (ht : Tracks db b i)
    (hi₀ : i₀ ∈ db.payoutItems.rows) (hs : SameItem i i₀) (c : Id) (asset : AssetCode) :
    Commitments.owed db' c asset = Commitments.owed db c asset -
      if i.customerId = some c ∧ b.asset = asset then i.grossAtomic else 0 := by
  have hrow : ∀ j ∈ db.payoutItems.rows, decide (j.id = i.id) = true ↔ j = i₀ := by
    intro j hj
    rw [decide_eq_true_eq]
    constructor
    · exact fun hid => db.payoutItems.eq_of_id hj hi₀ (hid.trans hs.id.symm)
    · rintro rfl
      exact hs.id
  have hsum := sum_map_rewrite (owedBy db c asset) (journalItem journalId)
    (fun j => j.id = i.id) db.payoutItems.rows_nodup hi₀ hrow
  have hz : owedBy db c asset (journalItem journalId i₀) = 0 :=
    if_neg (fun hc => by cases hc.2.1)
  have hone : owedBy db c asset i₀ =
      if i.customerId = some c ∧ b.asset = asset then i.grossAtomic else 0 := by
    simp only [owedBy, hp.unposted h ht hi₀ hs, hs.customerId, hs.grossAtomic,
      hasAsset_of_tracks ht hs asset, true_and]
  have hf : owedBy db' c asset = owedBy db c asset := by
    funext j
    rw [owedBy, owedBy, hasAsset, hp.batches, hasAsset]
  simp only [decide_eq_true_eq] at hsum
  rw [Commitments.owed, hf, hp.items, hsum, hz, hone, add_zero, Commitments.owed]

theorem Posts.covered (hp : Posts journalId b i db db') (h : Covered db) (ht : Tracks db b i)
    (hi₀ : i₀ ∈ db.payoutItems.rows) (hs : SameItem i i₀) : Covered db' := by
  obtain ⟨htype, hasset, href⟩ := itemTransaction_key journalId ht.own
  have hitem : ∀ j ∈ db'.payoutItems.rows, ∃ j₀ ∈ db.payoutItems.rows, SameItem j₀ j ∧
      (j.journalTransactionId = j₀.journalTransactionId ∨ j₀ = i₀) := by
    intro j hj
    rw [hp.items] at hj
    obtain ⟨j₀, hj₀, rfl⟩ := List.mem_map.mp hj
    refine ⟨j₀, hj₀, (journalItem_later journalId i.id j₀).same, ?_⟩
    split
    · rename_i hid
      exact .inr (db.payoutItems.eq_of_id hj₀ hi₀ (hid.trans hs.id.symm))
    · exact .inl rfl
  have hsame : ∀ {j j₀ : PayoutItem}, SameItem j₀ j → itemReference j = itemReference j₀ := by
    intro j j₀ hj
    simp only [itemReference, hj.customerId, hj.batchId]
  refine ⟨?_, ?_, by rw [hp.batches]; exact h.alive, ?_, ?_, ?_, ?_⟩
  · intro j hj
    obtain ⟨j₀, hj₀, hsj, _⟩ := hitem j hj
    rw [hsj.grossAtomic]
    exact h.gross j₀ hj₀
  · intro j hj
    obtain ⟨j₀, hj₀, hsj, _⟩ := hitem j hj
    rw [hsj.batchId, hp.batches]
    exact h.owned j₀ hj₀
  · intro j hj hsome
    obtain ⟨j₀, hj₀, hsj, hmark⟩ := hitem j hj
    rw [hsame hsj, hp.journal]
    obtain hmark | rfl := hmark
    · rw [hmark] at hsome
      obtain ⟨t, htm, htr⟩ := h.posted j₀ hj₀ hsome
      exact ⟨t, by simp [htm], htr⟩
    · exact ⟨itemTransaction journalId b i, by simp, by rw [href, hsame hs]⟩
  · intro b' hb' hst
    rw [hp.batches] at hb'
    exact (h.settled b' hb' hst).grow hp.grows ⟨b', hb', rfl⟩
  · intro t htm id hr
    rw [hp.journal, List.mem_append, List.mem_singleton] at htm
    rw [hp.batches]
    obtain htm | rfl := htm
    · exact h.referenced t htm id hr
    · obtain ⟨b₀, hb₀, hsb⟩ := ht.batch
      rw [href, payoutBatchId_itemReference, ht.own, Option.some.injEq] at hr
      exact ⟨htype, b₀, hb₀, hsb.id.trans hr, hsb.asset.trans hasset.symm⟩
  · intro c asset
    have hle := h.covered c asset
    rw [hp.owed h ht hi₀ hs, hp.balance]
    omega

end

theorem Covered.postItem_step (h : Covered db) (ht : Tracks db b i)
    (hp : postItem a b db i = .ok db') :
    Covered db' ∧ Grows db db' ∧
      ∃ i' ∈ db'.payoutItems.rows, SameItem i i' ∧ i'.journalTransactionId.isSome := by
  obtain ⟨i₀, hi₀, hlater⟩ := ht.item
  obtain ⟨hsome, rfl⟩ | hposts := postItem_ok hp
  · exact ⟨h, .refl _, i₀, hi₀, hlater.same, hlater.posted hsome⟩
  · refine ⟨hposts.covered h ht hi₀ hlater.same, hposts.grows, journalItem (a.newId i.id) i₀, ?_,
      hlater.same.trans ⟨rfl, rfl, rfl, rfl⟩, rfl⟩
    rw [hposts.items]
    exact List.mem_map.mpr ⟨i₀, hi₀, if_pos hlater.same.id⟩

theorem Covered.postItems (items : List PayoutItem) (h : Covered db)
    (ht : ∀ i ∈ items, Tracks db b i) (hp : items.foldlM (postItem a b) db = .ok db') :
    Covered db' ∧ Grows db db' ∧ ∀ i ∈ items, ∃ i' ∈ db'.payoutItems.rows,
      SameItem i i' ∧ i'.journalTransactionId.isSome := by
  induction items generalizing db with
  | nil =>
    rw [List.foldlM_nil, pure_eq_ok] at hp
    subst hp
    exact ⟨h, .refl db, by simp⟩
  | cons i items ih =>
    rw [List.foldlM_cons, bind_eq_ok] at hp
    obtain ⟨mid, hi, hp⟩ := hp
    obtain ⟨hmid, hg, i', hi', hs, hj⟩ := h.postItem_step (ht i (by simp)) hi
    obtain ⟨hc, hg', hall⟩ := ih hmid (fun j hj => (ht j (by simp [hj])).grow hg) hp
    refine ⟨hc, hg.trans hg', fun j hj' => ?_⟩
    obtain rfl | hj' := List.mem_cons.mp hj'
    · obtain ⟨i₂, hi₂, hl⟩ := hg'.items i' hi'
      exact ⟨i₂, hi₂, hs.trans hl.same, hl.posted hj⟩
    · exact hall j hj'

theorem Covered.post (h : Covered db) {id : Id} {held : Held} {ids : List String}
    (hcopy : Copy db held) (hid : held.batch.id = id)
    (hp : postTransaction a db id held ids = .ok db') : Covered db' ∧ Grows db db' := by
  simp only [postTransaction, bind_eq_ok] at hp
  obtain ⟨mid, hl, hu⟩ := hp
  obtain ⟨hmid, hg, hall⟩ := h.postItems held.items hcopy.items hl
  have hset : Settled mid id := by
    intro i' hi' hb
    obtain ⟨i, hi, hs⟩ := (hcopy.grow hg).complete i' hi' (hb.trans hid.symm)
    obtain ⟨i₂, hi₂, hs₂, hj⟩ := hall i hi
    rwa [mid.payoutItems.eq_of_id hi' hi₂ (hs.id.trans hs₂.id.symm)]
  exact ⟨hmid.updateBatch (sameBatch_broadcast _ _) hu (fun b => by simp [broadcastBatch])
    (fun _ _ => hset), hg.trans (.updateBatch (sameBatch_broadcast _ _) hu)⟩

end Posting

end Bitmine.Commitments
