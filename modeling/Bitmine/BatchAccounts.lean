import Bitmine.Payloads

namespace Bitmine.BatchAccounts

open Bitmine.Lib.UniqueTable Bitmine.Lib.GroupSum Bitmine.Lib.Throwing
open Bitmine.Schema Bitmine.Deployment Bitmine.Security Bitmine.Ledger Bitmine.LedgerPosting
open Bitmine.Payouts Bitmine.Execute Bitmine.PayoutHistory Bitmine.Commitments Bitmine.Payloads

section Credits

def treasuryCredit (t : JournalTransaction) : ℤ :=
  creditTotal (t.entries.filter (fun e => e.account = ⟨t.asset, .treasury⟩))

def batchCredits (db : Database) (id : Id) : ℤ :=
  ((db.journalTransactions.rows.filter (fun t => payoutBatchId t.reference = some id)).map
    treasuryCredit).sum

def itemsIn (db : Database) (id : Id) : List PayoutItem :=
  db.payoutItems.rows.filter (fun i => i.batchId = id)

theorem mem_itemsIn {db : Database} {id : Id} {i : PayoutItem} :
    i ∈ itemsIn db id ↔ i ∈ db.payoutItems.rows ∧ i.batchId = id := by
  simp [itemsIn]

def itemCredit (b : PayoutBatch) (i : PayoutItem) : ℤ :=
  i.grossAtomic + if i.customerId.isSome ∧ operatorPaysFee b i ∧ 0 < i.allocatedFeeAtomic then
    i.allocatedFeeAtomic else 0

theorem treasuryCredit_payout (journalId : Id) (input : PayoutPosting) :
    treasuryCredit (payoutTransaction journalId input) = input.grossAtomic +
      if input.operatorPaysFee ∧ 0 < input.feeAtomic then input.feeAtomic else 0 := by
  by_cases hfee : 0 < input.feeAtomic <;> cases ho : input.operatorPaysFee <;>
    simp [treasuryCredit, payoutTransaction, payoutEntries, recoveredFee, creditTotal, liabilityRef,
      hfee, ho]

theorem treasuryCredit_operator (journalId : Id) (input : OperatorPosting) :
    treasuryCredit (operatorTransaction journalId input) = input.grossAtomic := by
  by_cases hfee : 0 < input.feeAtomic <;>
    simp [treasuryCredit, operatorTransaction, operatorPayoutEntries, recoveredFee, creditTotal,
      hfee]

theorem treasuryCredit_item (journalId : Id) (b : PayoutBatch) (i : PayoutItem) :
    treasuryCredit (itemTransaction journalId b i) = itemCredit b i := by
  unfold itemTransaction itemCredit
  cases hc : i.customerId with
  | some customerId => simp [treasuryCredit_payout, customerPosting]
  | none => simp [treasuryCredit_operator, operatorPosting]

end Credits

section Columns

/-- The columns of a batch that its accounts depend on. -/
structure Kept (b b' : PayoutBatch) : Prop where
  id : b'.id = b.id
  kind : b'.kind = b.kind
  policySnapshot : b'.policySnapshot = b.policySnapshot
  signedPayload : b'.signedPayload = b.signedPayload
  totalFeeAtomic : b'.totalFeeAtomic = b.totalFeeAtomic

theorem Kept.refl (b : PayoutBatch) : Kept b b := ⟨rfl, rfl, rfl, rfl, rfl⟩

theorem Kept.trans {b c d : PayoutBatch} (h : Kept b c) (h' : Kept c d) : Kept b d :=
  ⟨h'.id.trans h.id, h'.kind.trans h.kind, h'.policySnapshot.trans h.policySnapshot,
    h'.signedPayload.trans h.signedPayload, h'.totalFeeAtomic.trans h.totalFeeAtomic⟩

structure SameAmounts (i i' : PayoutItem) : Prop extends SameItem i i' where
  allocatedFeeAtomic : i'.allocatedFeeAtomic = i.allocatedFeeAtomic
  netAtomic : i'.netAtomic = i.netAtomic

theorem SameAmounts.refl (i : PayoutItem) : SameAmounts i i := ⟨.refl i, rfl, rfl⟩

theorem SameAmounts.trans {i j k : PayoutItem} (h : SameAmounts i j) (h' : SameAmounts j k) :
    SameAmounts i k :=
  ⟨h.toSameItem.trans h'.toSameItem, h'.allocatedFeeAtomic.trans h.allocatedFeeAtomic,
    h'.netAtomic.trans h.netAtomic⟩

theorem itemCredit_congr {b b' : PayoutBatch} {i i' : PayoutItem} (hkind : b'.kind = b.kind)
    (hpolicy : b'.policySnapshot = b.policySnapshot) (h : SameAmounts i i') :
    itemCredit b' i' = itemCredit b i := by
  simp only [itemCredit, operatorPaysFee, snapshotFeePayer, hkind, hpolicy, h.grossAtomic,
    h.customerId, h.allocatedFeeAtomic, h.netAtomic]
  rfl

def Signed (b : PayoutBatch) : Prop := truthy b.signedPayload ≠ none

theorem Kept.signed {b b' : PayoutBatch} (h : Kept b b') : Signed b' ↔ Signed b := by
  rw [Signed, Signed, h.signedPayload]

theorem signed_signBatch {stored : String} (hne : stored ≠ "") (prepared : PreparedPayout)
    (b : PayoutBatch) : Signed (signBatch stored prepared b) := by
  simp [Signed, signBatch, truthy, hne]

/-- The batch is, or at least has been, in the state `BROADCAST`. -/
def WentOut (b : PayoutBatch) : Prop :=
  b.state = .broadcast ∨ b.state = .confirmed ∨ b.broadcastAt ≠ none

end Columns

section Batch

def postedCredit (b : PayoutBatch) (i : PayoutItem) : ℤ :=
  if i.journalTransactionId.isSome then itemCredit b i else 0

/-- The accounts of a batch: nothing is posted before it is signed, then every
posting takes out what the wallet pays to the item and for it. -/
structure Accounted (b : PayoutBatch) (items : List PayoutItem) (credits : ℤ) : Prop where
  customers : b.kind = .customer → ∀ i ∈ items, i.customerId.isSome
  charged : Signed b → ∀ i ∈ items, itemCredit b i = i.netAtomic + i.allocatedFeeAtomic
  fees : Signed b → (items.map PayoutItem.allocatedFeeAtomic).sum = b.totalFeeAtomic
  recorded : credits = (items.map (postedCredit b)).sum
  unposted : ¬ Signed b → ∀ i ∈ items, i.journalTransactionId = none
  out : WentOut b → Signed b ∧ ∀ i ∈ items, i.journalTransactionId.isSome

variable {b b' : PayoutBatch} {items : List PayoutItem} {credits : ℤ}

theorem Accounted.total (h : Accounted b items credits) (hout : WentOut b) :
    credits = (items.map PayoutItem.netAtomic).sum + b.totalFeeAtomic := by
  obtain ⟨hsigned, hposted⟩ := h.out hout
  have hitem : ∀ i ∈ items, postedCredit b i = i.netAtomic + i.allocatedFeeAtomic := fun i hi =>
    (if_pos (hposted i hi)).trans (h.charged hsigned i hi)
  rw [h.recorded, List.map_congr_left hitem, List.sum_map_add, h.fees hsigned]

theorem Accounted.keep (h : Accounted b items credits) (hk : Kept b b')
    (hout : WentOut b' → WentOut b ∨ (Signed b ∧ ∀ i ∈ items, i.journalTransactionId.isSome)) :
    Accounted b' items credits := by
  have hcredit : ∀ i, itemCredit b' i = itemCredit b i :=
    fun i => itemCredit_congr hk.kind hk.policySnapshot (.refl i)
  refine ⟨fun hkind => h.customers (hk.kind ▸ hkind), fun hs i hi => ?_, fun hs => ?_, ?_,
    fun hs => h.unposted (fun hb => hs (hk.signed.mpr hb)), fun hw => ?_⟩
  · rw [hcredit]
    exact h.charged (hk.signed.mp hs) i hi
  · rw [hk.totalFeeAtomic]
    exact h.fees (hk.signed.mp hs)
  · rw [h.recorded]
    refine congrArg List.sum (List.map_congr_left (fun i _ => ?_))
    rw [postedCredit, postedCredit, hcredit]
  · rw [hk.signed]
    exact (hout hw).elim h.out id

theorem chargeItems_eq_self {prepared : List PreparedItem} {i : PayoutItem}
    (h : ∀ p ∈ prepared, i.id ≠ p.id) : chargeItems prepared i = i := by
  induction prepared with
  | nil => rfl
  | cons p prepared ih =>
    rw [chargeItems, List.foldl_cons, if_neg (h p (by simp))]
    exact ih (fun q hq => h q (by simp [hq]))

theorem chargeItems_eq {prepared : List PreparedItem} (hids : (prepared.map PreparedItem.id).Nodup)
    {p : PreparedItem} (hp : p ∈ prepared) {i : PayoutItem} (hid : i.id = p.id) :
    chargeItems prepared i = chargeItem p i := by
  induction prepared with
  | nil => cases hp
  | cons q prepared ih =>
    obtain ⟨hq, hrest⟩ := List.nodup_cons.mp hids
    rw [chargeItems, List.foldl_cons]
    obtain rfl | hp := List.mem_cons.mp hp
    · rw [if_pos hid]
      refine chargeItems_eq_self (fun r hr he => hq ?_)
      exact List.mem_map.mpr ⟨r, hr, he.symm.trans hid⟩
    · have hne : i.id ≠ q.id := fun he => hq (List.mem_map.mpr ⟨p, hp, hid.symm.trans he⟩)
      rw [if_neg hne]
      exact ih hrest hp

/-- A batch is signed: its items get the amounts of the wallet. -/
theorem Accounted.sign (h : Accounted b items credits) (hu : ¬ Signed b) {stored : String}
    (hne : stored ≠ "") {prepared : PreparedPayout}
    (hcredit : ∀ i ∈ items, itemCredit b (chargeItems prepared.items i) =
      (chargeItems prepared.items i).netAtomic + (chargeItems prepared.items i).allocatedFeeAtomic)
    (hfees : (items.map (fun i => (chargeItems prepared.items i).allocatedFeeAtomic)).sum =
      prepared.feeAtomic) :
    Accounted (signBatch stored prepared b) (items.map (chargeItems prepared.items)) credits := by
  have hs := signed_signBatch hne prepared b
  have hnone : ∀ i ∈ items, (chargeItems prepared.items i).journalTransactionId = none := fun i hi =>
    (chargeItems_same prepared.items i).2.trans (h.unposted hu i hi)
  have hzero : ∀ {b : PayoutBatch} {i : PayoutItem}, i.journalTransactionId = none →
      postedCredit b i = 0 := fun hj => if_neg (by rw [hj]; exact Bool.false_ne_true)
  refine ⟨?_, ?_, ?_, ?_, fun hns => absurd hs hns, ?_⟩
  · intro hkind i' hi'
    obtain ⟨i, hi, rfl⟩ := List.mem_map.mp hi'
    rw [(chargeItems_same prepared.items i).1.customerId]
    exact h.customers hkind i hi
  · intro _ i' hi'
    obtain ⟨i, hi, rfl⟩ := List.mem_map.mp hi'
    exact hcredit i hi
  · intro _
    rw [List.map_map]
    exact hfees
  · rw [h.recorded, List.sum_eq_zero, List.sum_eq_zero]
    · intro x hx
      obtain ⟨i', hi', rfl⟩ := List.mem_map.mp hx
      obtain ⟨i, hi, rfl⟩ := List.mem_map.mp hi'
      exact hzero (hnone i hi)
    · intro x hx
      obtain ⟨i, hi, rfl⟩ := List.mem_map.mp hx
      exact hzero (h.unposted hu i hi)
  · rintro (hw | hw | hw)
    · cases hw
    · cases hw
    · exact absurd (h.out (.inr (.inr hw))).1 hu

/-- One item of a signed batch is posted. -/
theorem Accounted.post (h : Accounted b items credits) (hs : Signed b) {i₀ : PayoutItem}
    (hi₀ : i₀ ∈ items) (hnodup : (items.map PayoutItem.id).Nodup)
    (hnone : i₀.journalTransactionId = none) (journalId : Id) :
    Accounted b (items.map (fun i => if i.id = i₀.id then journalItem journalId i else i))
      (credits + itemCredit b i₀) := by
  have hsame : ∀ i, SameAmounts i (if i.id = i₀.id then journalItem journalId i else i) := by
    intro i
    split
    · exact ⟨⟨rfl, rfl, rfl, rfl⟩, rfl, rfl⟩
    · exact .refl i
  refine ⟨?_, ?_, ?_, ?_, fun hns => absurd hs hns, ?_⟩
  · intro hkind i' hi'
    obtain ⟨i, hi, rfl⟩ := List.mem_map.mp hi'
    rw [(hsame i).customerId]
    exact h.customers hkind i hi
  · intro _ i' hi'
    obtain ⟨i, hi, rfl⟩ := List.mem_map.mp hi'
    rw [itemCredit_congr rfl rfl (hsame i), (hsame i).netAtomic, (hsame i).allocatedFeeAtomic]
    exact h.charged hs i hi
  · intro _
    rw [← h.fees hs, List.map_map]
    exact congrArg List.sum (List.map_congr_left (fun i _ => (hsame i).allocatedFeeAtomic))
  · have hrow : ∀ i ∈ items, decide (i.id = i₀.id) = true ↔ i = i₀ := by
      intro i hi
      rw [decide_eq_true_eq]
      exact ⟨fun he => List.inj_on_of_nodup_map hnodup hi hi₀ he, fun he => congrArg _ he⟩
    have hsum := sum_map_rewrite (postedCredit b) (journalItem journalId)
      (fun i => i.id = i₀.id) (List.Nodup.of_map _ hnodup) hi₀ hrow
    have hold : postedCredit b i₀ = 0 := if_neg (by rw [hnone]; exact Bool.false_ne_true)
    have hnew : postedCredit b (journalItem journalId i₀) = itemCredit b i₀ :=
      (if_pos rfl).trans (itemCredit_congr rfl rfl ⟨⟨rfl, rfl, rfl, rfl⟩, rfl, rfl⟩)
    simp only [decide_eq_true_eq] at hsum
    rw [hsum, hold, hnew, h.recorded, sub_zero]
  · intro hw
    refine ⟨hs, fun i' hi' => ?_⟩
    obtain ⟨i, hi, rfl⟩ := List.mem_map.mp hi'
    split
    · rfl
    · exact (h.out hw).2 i hi

theorem Accounted.fresh (hu : ¬ Signed b) (hw : ¬ WentOut b)
    (hcustomers : b.kind = .customer → ∀ i ∈ items, i.customerId.isSome)
    (hnone : ∀ i ∈ items, i.journalTransactionId = none) : Accounted b items 0 := by
  refine ⟨hcustomers, fun hs => absurd hs hu, fun hs => absurd hs hu, ?_, fun _ => hnone,
    fun hout => absurd hout hw⟩
  rw [List.sum_eq_zero]
  intro x hx
  obtain ⟨i, hi, rfl⟩ := List.mem_map.mp hx
  exact if_neg (by rw [hnone i hi]; exact Bool.false_ne_true)

end Batch

section Database

variable {db db' : Database}

def Accounts (db : Database) : Prop :=
  ∀ b ∈ db.payoutBatches.rows, Accounted b (itemsIn db b.id) (batchCredits db b.id)

theorem itemsIn_map {g : PayoutItem → PayoutItem} (hg : ∀ i, (g i).batchId = i.batchId)
    (hi : db'.payoutItems.rows = db.payoutItems.rows.map g) (id : Id) :
    itemsIn db' id = (itemsIn db id).map g := by
  rw [itemsIn, hi, List.filter_map, itemsIn]
  congr 2
  funext i
  exact congrArg (fun x => decide (x = id)) (hg i)

theorem itemsIn_nodup (db : Database) (id : Id) : ((itemsIn db id).map PayoutItem.id).Nodup := by
  have hall : (db.payoutItems.rows.map PayoutItem.id).Nodup :=
    List.pairwise_map.mpr (db.payoutItems.unique.imp (fun hc he => hc (.inl he)))
  exact hall.sublist (List.filter_sublist.map _)

theorem batchCredits_append {ts : List JournalTransaction}
    (h : db'.journalTransactions.rows = db.journalTransactions.rows ++ ts) (id : Id) :
    batchCredits db' id = batchCredits db id +
      ((ts.filter (fun t => payoutBatchId t.reference = some id)).map treasuryCredit).sum := by
  rw [batchCredits, h, List.filter_append, List.map_append, List.sum_append, batchCredits]

theorem Accounts.keep (h : Accounts db) {f : PayoutBatch → PayoutBatch}
    (hb : db'.payoutBatches.rows = db.payoutBatches.rows.map f) (hf : ∀ b, Kept b (f b))
    (hi : db'.payoutItems = db.payoutItems)
    (hj : ∀ id, batchCredits db' id = batchCredits db id)
    (hout : ∀ b ∈ db.payoutBatches.rows, WentOut (f b) →
      WentOut b ∨ (Signed b ∧ ∀ i ∈ itemsIn db b.id, i.journalTransactionId.isSome)) :
    Accounts db' := by
  intro b' hb'
  rw [hb] at hb'
  obtain ⟨b, hm, rfl⟩ := List.mem_map.mp hb'
  have hitems : itemsIn db' (f b).id = itemsIn db b.id := by
    rw [itemsIn, hi, (hf b).id, itemsIn]
  rw [hitems, hj, (hf b).id]
  exact (h b hm).keep (hf b) (hout b hm)

theorem Accounts.same (h : Accounts db) (hb : db'.payoutBatches = db.payoutBatches)
    (hi : db'.payoutItems = db.payoutItems)
    (hj : ∀ id, batchCredits db' id = batchCredits db id) : Accounts db' :=
  h.keep (f := fun b => b) (by rw [hb, List.map_id']) .refl hi hj (fun _ _ hw => .inl hw)

theorem Accounts.updateBatch (h : Accounts db) {id : Id} {f : PayoutBatch → PayoutBatch}
    {hf : KeepsKeys f} (hu : updateBatch db id f hf = .ok db') (hk : ∀ b, Kept b (f b))
    (hout : ∀ b ∈ db.payoutBatches.rows, b.id = id → WentOut (f b) →
      WentOut b ∨ (Signed b ∧ ∀ i ∈ itemsIn db b.id, i.journalTransactionId.isSome)) :
    Accounts db' := by
  obtain ⟨_, hrows, hframe⟩ := updateBatch_ok hu
  refine h.keep hrows (fun b => ?_) (by rw [hframe]; rfl) (fun id => ?_) (fun b hb hw => ?_)
  · split
    · exact hk b
    · exact .refl b
  · rw [batchCredits, hframe]
    rfl
  · split at hw
    · rename_i hid
      exact hout b hb hid hw
    · exact .inl hw

/-- A new batch has neither items nor postings before. -/
theorem Accounts.create (h : Accounts db) (hcov : Covered db) {a : Answer} {batch : PayoutBatch}
    {items : List NewItem} (hc : Created a db db' batch items) (hid : batch.id = a.newId 0)
    (hu : ¬ Signed batch) (hw : ¬ WentOut batch)
    (hcustomers : batch.kind = .customer → ∀ i ∈ items, i.customerId.isSome) : Accounts db' := by
  have hjournal : db'.journalTransactions = db.journalTransactions := by rw [hc.frame]; rfl
  have hcredits : ∀ id, batchCredits db' id = batchCredits db id := by
    intro id
    rw [batchCredits, hjournal, batchCredits]
  have hnew : ∀ i ∈ items.mapIdx (newItem a), i.batchId = batch.id ∧
      i.journalTransactionId = none ∧ ∃ n ∈ items, i.customerId = n.customerId := by
    intro i hi
    obtain ⟨k, hk, rfl⟩ := List.mem_mapIdx.mp hi
    exact ⟨hid.symm, rfl, items[k], List.getElem_mem hk, rfl⟩
  have hfresh : ∀ b ∈ db.payoutBatches.rows, b.id ≠ batch.id :=
    fun b hb he => hc.fresh b hb (.inl he)
  intro b hb
  rw [hcredits]
  rw [hc.batches, List.mem_append, List.mem_singleton] at hb
  obtain hb | rfl := hb
  · have hitems : itemsIn db' b.id = itemsIn db b.id := by
      rw [itemsIn, hc.items, List.filter_append, itemsIn]
      refine (congrArg _ (List.filter_eq_nil_iff.mpr (fun i hi => ?_))).trans (List.append_nil _)
      rw [(hnew i hi).1, decide_eq_true_eq]
      exact (hfresh b hb).symm
    rw [hitems]
    exact h b hb
  · have hzero : batchCredits db b.id = 0 := by
      rw [batchCredits, List.filter_eq_nil_iff.mpr]
      · rfl
      · intro t ht hr
        rw [decide_eq_true_eq] at hr
        obtain ⟨_, b', hb', hid', _⟩ := hcov.referenced t ht b.id hr
        exact hfresh b' hb' hid'
    have hitem : ∀ i ∈ itemsIn db' b.id, i ∈ items.mapIdx (newItem a) := by
      intro i hi
      obtain ⟨hm, hbatch⟩ := mem_itemsIn.mp hi
      rw [hc.items, List.mem_append] at hm
      refine hm.resolve_left (fun hold => ?_)
      obtain ⟨b', hb', hid'⟩ := hcov.owned i hold
      exact hfresh b' hb' (hid'.trans hbatch)
    rw [hzero]
    refine .fresh hu hw (fun hkind i hi => ?_) (fun i hi => (hnew i (hitem i hi)).2.1)
    obtain ⟨_, _, n, hn, hc⟩ := hnew i (hitem i hi)
    rw [hc]
    exact hcustomers hkind n hn

end Database

section Signing

variable {db db' : Database} {held : Held} {id : Id}

/-- What the wallet has prepared fits the items it was asked to pay. -/
structure Charges (held : Held) (prepared : PreparedPayout) : Prop where
  ids : prepared.items.map PreparedItem.id = held.items.map PayoutItem.id
  credit : ∀ p ∈ prepared.items, ∀ i ∈ held.items, p.id = i.id →
    (held.batch.kind = .customer → i.customerId.isSome) →
      itemCredit held.batch (chargeItem p i) = p.netAtomic + p.allocatedFeeAtomic
  fees : (prepared.items.map PreparedItem.allocatedFeeAtomic).sum = prepared.feeAtomic

theorem copy_same (hc : Copy db held) (hid : held.batch.id = id) {b : PayoutBatch}
    (hb : b ∈ db.payoutBatches.rows) (hbid : b.id = id) : SameBatch held.batch b := by
  obtain ⟨b₀, hb₀, hs⟩ := hc.batch
  rwa [db.payoutBatches.eq_of_id hb hb₀ (hbid.trans (hid.symm.trans hs.id.symm))]

theorem copy_ids_perm (hc : Copy db held) (hid : held.batch.id = id)
    (hnodup : (held.items.map PayoutItem.id).Nodup) :
    ((itemsIn db id).map PayoutItem.id).Perm (held.items.map PayoutItem.id) := by
  refine (List.perm_ext_iff_of_nodup (itemsIn_nodup db id) hnodup).mpr (fun key => ?_)
  constructor
  · intro hk
    obtain ⟨i, hi, rfl⟩ := List.mem_map.mp hk
    obtain ⟨hm, hb⟩ := mem_itemsIn.mp hi
    obtain ⟨j, hj, hs⟩ := hc.complete i hm (hb.trans hid.symm)
    exact List.mem_map.mpr ⟨j, hj, hs.id.symm⟩
  · intro hk
    obtain ⟨j, hj, rfl⟩ := List.mem_map.mp hk
    have ht := hc.items j hj
    obtain ⟨i, hi, hl⟩ := ht.item
    have hb : i.batchId = id := hl.same.batchId.trans (ht.own.trans hid)
    exact List.mem_map.mpr ⟨i, mem_itemsIn.mpr ⟨hi, hb⟩, hl.same.id⟩

/-- The signing transaction: the items of the batch are charged as prepared. -/
theorem Accounts.persist (h : Accounts db) {stored : String} {prepared : PreparedPayout}
    (hcopy : Copy db held) (hid : held.batch.id = id)
    (hnodup : (held.items.map PayoutItem.id).Nodup)
    (hu : ∀ b ∈ db.payoutBatches.rows, b.id = id → ¬ Signed b) (hne : stored ≠ "")
    (hc : Charges held prepared) (hd : persistTransaction db id stored prepared = .ok db') :
    Accounts db' := by
  obtain ⟨_, hitems, hbatches, hframe⟩ := persistTransaction_ok hd
  have hin := itemsIn_map (fun i => (chargeItems_same prepared.items i).1.batchId) hitems
  have hcredits : ∀ id, batchCredits db' id = batchCredits db id := by
    intro id
    rw [batchCredits, hframe]
    rfl
  have hperm : ((itemsIn db id).map PayoutItem.id).Perm (prepared.items.map PreparedItem.id) :=
    hc.ids ▸ copy_ids_perm hcopy hid hnodup
  have hids : (prepared.items.map PreparedItem.id).Nodup := hc.ids ▸ hnodup
  have hcharged : ∀ i ∈ itemsIn db id, ∃ p ∈ prepared.items, p.id = i.id ∧
      chargeItems prepared.items i = chargeItem p i := by
    intro i hi
    obtain ⟨p, hp, hpid⟩ := List.mem_map.mp (hperm.mem_iff.mp (List.mem_map_of_mem hi))
    exact ⟨p, hp, hpid, chargeItems_eq hids hp hpid.symm⟩
  intro b' hb'
  rw [hbatches] at hb'
  obtain ⟨b, hb, rfl⟩ := List.mem_map.mp hb'
  by_cases hbid : b.id = id
  · rw [if_pos hbid]
    show Accounted (signBatch stored prepared b) (itemsIn db' b.id) (batchCredits db' b.id)
    rw [hin, hcredits]
    have hsame := copy_same hcopy hid hb hbid
    refine (h b hb).sign (hu b hb hbid) hne (fun i hi => ?_) ?_
    · rw [hbid] at hi
      obtain ⟨p, hp, hpid, heq⟩ := hcharged i hi
      obtain ⟨hm, hib⟩ := mem_itemsIn.mp hi
      obtain ⟨j, hj, hs⟩ := hcopy.complete i hm (hib.trans hid.symm)
      have hcustomer : held.batch.kind = .customer → j.customerId.isSome := by
        intro hk
        rw [← hs.customerId]
        exact (h b hb).customers (hsame.kind.trans hk) i (hbid ▸ hi)
      have hamounts : SameAmounts (chargeItem p j) (chargeItem p i) :=
        ⟨⟨hs.id, hs.batchId, hs.customerId, hs.grossAtomic⟩, rfl, rfl⟩
      rw [heq, itemCredit_congr hsame.kind hsame.policySnapshot hamounts]
      exact hc.credit p hp j hj (hpid.trans hs.id) hcustomer
    · rw [← hc.fees, hbid]
      refine sum_eq_of_keys hperm hids (fun i hi p hp he => ?_)
      rw [chargeItems_eq hids hp he]
      rfl
  · rw [if_neg hbid, hin, hcredits]
    have hself : ∀ i ∈ itemsIn db b.id, chargeItems prepared.items i = i := by
      intro i hi
      obtain ⟨hm, hib⟩ := mem_itemsIn.mp hi
      refine chargeItems_eq_self (fun p hp he => hbid ?_)
      obtain ⟨i₀, hi₀, hid₀⟩ := List.mem_map.mp (hperm.mem_iff.mpr (List.mem_map_of_mem hp))
      obtain ⟨hm₀, hib₀⟩ := mem_itemsIn.mp hi₀
      rw [← hib, db.payoutItems.eq_of_id hm hm₀ (he.trans hid₀.symm), hib₀]
    rw [List.map_congr_left hself, List.map_id']
    exact h b hb

end Signing

section Posting

variable {db db' : Database} {held : Held} {id : Id} {a : Answer} {b₀ : PayoutBatch} {i : PayoutItem}

/-- The copy of a signed batch shows the amounts that are stored. -/
structure Current (db : Database) (held : Held) : Prop where
  batch : ∃ b ∈ db.payoutBatches.rows, Kept held.batch b ∧ Signed b
  items : ∀ i ∈ held.items, ∃ i' ∈ db.payoutItems.rows, SameAmounts i i'

theorem posts_credits {journalId : Id} (hp : Posts journalId b₀ i db db') (hown : i.batchId = b₀.id)
    (id : Id) : batchCredits db' id =
      batchCredits db id + if i.batchId = id then itemCredit b₀ i else 0 := by
  rw [batchCredits_append hp.journal, List.filter_singleton, (itemTransaction_key journalId hown).2.2,
    payoutBatchId_itemReference]
  by_cases hid : i.batchId = id
  · simp [hid, treasuryCredit_item]
  · simp [hid]

/-- One posting of the loop. The item was not posted before, so its batch gains
one credit and one mark. -/
theorem Accounts.posts (h : Accounts db) (hcov : Covered db) (ht : Tracks db b₀ i)
    (hbatch : ∃ b ∈ db.payoutBatches.rows, Kept b₀ b ∧ Signed b)
    (hitem : ∃ i' ∈ db.payoutItems.rows, SameAmounts i i') {journalId : Id}
    (hp : Posts journalId b₀ i db db') : Accounts db' := by
  obtain ⟨i₀, hi₀, hs⟩ := hitem
  have hnone := hp.unposted hcov ht hi₀ hs.toSameItem
  have hin := itemsIn_map (fun j => (journalItem_later journalId i.id j).same.batchId) hp.items
  intro b hb
  rw [hp.batches] at hb
  rw [hin, posts_credits hp ht.own]
  by_cases hbid : i.batchId = b.id
  · obtain ⟨b₁, hb₁, hk, hsigned⟩ := hbatch
    have heq : b = b₁ :=
      db.payoutBatches.eq_of_id hb hb₁ (hbid.symm.trans (ht.own.trans hk.id.symm))
    have hmem : i₀ ∈ itemsIn db b.id := mem_itemsIn.mpr ⟨hi₀, hs.batchId.trans hbid⟩
    have hpost := (h b hb).post (heq ▸ hsigned) hmem (itemsIn_nodup db b.id) hnone journalId
    rw [hs.id, itemCredit_congr (heq ▸ hk.kind) (heq ▸ hk.policySnapshot) hs] at hpost
    rw [if_pos hbid]
    exact hpost
  · have hself : ∀ j ∈ itemsIn db b.id,
        (if j.id = i.id then journalItem journalId j else j) = j := by
      intro j hj
      obtain ⟨hm, hjb⟩ := mem_itemsIn.mp hj
      refine if_neg (fun he => hbid ?_)
      rw [← hjb, db.payoutItems.eq_of_id hm hi₀ (he.trans hs.id.symm), hs.batchId]
    rw [if_neg hbid, add_zero, List.map_congr_left hself, List.map_id']
    exact h b hb

theorem posts_amounts {journalId : Id} (hp : Posts journalId b₀ i db db') {j : PayoutItem}
    (h : ∃ j' ∈ db.payoutItems.rows, SameAmounts j j') :
    ∃ j' ∈ db'.payoutItems.rows, SameAmounts j j' := by
  obtain ⟨j', hj', hs⟩ := h
  refine ⟨if j'.id = i.id then journalItem journalId j' else j', ?_, hs.trans ?_⟩
  · rw [hp.items]
    exact List.mem_map.mpr ⟨j', hj', rfl⟩
  · split
    · exact ⟨⟨rfl, rfl, rfl, rfl⟩, rfl, rfl⟩
    · exact .refl j'

theorem Accounts.postItems (items : List PayoutItem) (h : Accounts db) (hcov : Covered db)
    (ht : ∀ i ∈ items, Tracks db b₀ i)
    (hbatch : ∃ b ∈ db.payoutBatches.rows, Kept b₀ b ∧ Signed b)
    (hitems : ∀ i ∈ items, ∃ i' ∈ db.payoutItems.rows, SameAmounts i i')
    (hp : items.foldlM (postItem a b₀) db = .ok db') : Accounts db' := by
  induction items generalizing db with
  | nil =>
    rw [List.foldlM_nil, pure_eq_ok] at hp
    exact hp ▸ h
  | cons i items ih =>
    rw [List.foldlM_cons, bind_eq_ok] at hp
    obtain ⟨mid, hi, hp⟩ := hp
    obtain ⟨hmid, hg, _⟩ := hcov.postItem_step (ht i (by simp)) hi
    have htail : ∀ j ∈ items, Tracks mid b₀ j := fun j hj => (ht j (by simp [hj])).grow hg
    obtain ⟨_, rfl⟩ | hposts := postItem_ok hi
    · exact ih h hcov htail hbatch (fun j hj => hitems j (by simp [hj])) hp
    · refine ih (h.posts hcov (ht i (by simp)) hbatch (hitems i (by simp)) hposts) hmid htail ?_ ?_ hp
      · rw [hposts.batches]
        exact hbatch
      · exact fun j hj => posts_amounts hposts (hitems j (by simp [hj]))

theorem Accounts.post (h : Accounts db) (hcov : Covered db) {ids : List String}
    (hcopy : Copy db held) (hcur : Current db held) (hid : held.batch.id = id)
    (hp : postTransaction a db id held ids = .ok db') : Accounts db' := by
  have hcov' := (hcov.post hcopy hid hp).1
  have hbatches := postTransaction_batches hp
  simp only [postTransaction, bind_eq_ok] at hp
  obtain ⟨mid, hl, hu⟩ := hp
  have hmid := h.postItems held.items hcov hcopy.items hcur.batch hcur.items hl
  have hmb := postItems_batches held.items hl
  have hmi : db'.payoutItems = mid.payoutItems := by
    rw [(updateBatch_ok hu).2.2]
    rfl
  refine hmid.updateBatch hu (fun b => ⟨rfl, rfl, rfl, rfl, rfl⟩) (fun b hb hbid _ => .inr ⟨?_, ?_⟩)
  · obtain ⟨b₁, hb₁, hk, hsigned⟩ := hcur.batch
    rw [hmb] at hb
    rwa [db.payoutBatches.eq_of_id hb hb₁ (hbid.trans (hid.symm.trans hk.id.symm))]
  · intro i hi
    obtain ⟨hm, hib⟩ := mem_itemsIn.mp hi
    have hrow : broadcastBatch a.now ids b ∈ db'.payoutBatches.rows := by
      rw [hbatches]
      exact List.mem_map.mpr ⟨b, hmb ▸ hb, if_pos hbid⟩
    exact hcov'.settled _ hrow (.inl rfl) i (hmi ▸ hm) hib

end Posting

end Bitmine.BatchAccounts
