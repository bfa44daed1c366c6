import Bitmine.Execute

namespace Bitmine.PayoutHistory

open Bitmine.Lib.UniqueTable Bitmine.Lib.Throwing Bitmine.Schema Bitmine.Deployment
open Bitmine.Ledger Bitmine.LedgerPosting Bitmine.Payouts Bitmine.Execute

structure SameBatch (b b' : PayoutBatch) : Prop where
  id : b'.id = b.id
  asset : b'.asset = b.asset
  kind : b'.kind = b.kind
  totalGrossAtomic : b'.totalGrossAtomic = b.totalGrossAtomic
  approvalThresholdHit : b'.approvalThresholdHit = b.approvalThresholdHit
  policySnapshot : b'.policySnapshot = b.policySnapshot
  createdAt : b'.createdAt = b.createdAt

structure SameItem (i i' : PayoutItem) : Prop where
  id : i'.id = i.id
  batchId : i'.batchId = i.batchId
  customerId : i'.customerId = i.customerId
  grossAtomic : i'.grossAtomic = i.grossAtomic

theorem SameBatch.refl (b : PayoutBatch) : SameBatch b b := ⟨rfl, rfl, rfl, rfl, rfl, rfl, rfl⟩

theorem SameBatch.trans {b c d : PayoutBatch} (h : SameBatch b c) (h' : SameBatch c d) :
    SameBatch b d :=
  ⟨h'.id.trans h.id, h'.asset.trans h.asset, h'.kind.trans h.kind,
    h'.totalGrossAtomic.trans h.totalGrossAtomic,
    h'.approvalThresholdHit.trans h.approvalThresholdHit,
    h'.policySnapshot.trans h.policySnapshot, h'.createdAt.trans h.createdAt⟩

theorem sameBatch_sign (stored : String) (prepared : PreparedPayout) (b : PayoutBatch) :
    SameBatch b (signBatch stored prepared b) := ⟨rfl, rfl, rfl, rfl, rfl, rfl, rfl⟩

theorem sameBatch_broadcast (now : Instant) (ids : List String) (b : PayoutBatch) :
    SameBatch b (broadcastBatch now ids b) := ⟨rfl, rfl, rfl, rfl, rfl, rfl, rfl⟩

theorem sameBatch_fail (message : String) (b : PayoutBatch) : SameBatch b (failBatch message b) :=
  ⟨rfl, rfl, rfl, rfl, rfl, rfl, rfl⟩

theorem sameBatch_approve (now : Instant) (adminId : Id) (next : PayoutState) (b : PayoutBatch) :
    SameBatch b (approveBatch now adminId next b) := ⟨rfl, rfl, rfl, rfl, rfl, rfl, rfl⟩

theorem sameBatch_confirm (now : Instant) (b : PayoutBatch) : SameBatch b (confirmBatch now b) :=
  ⟨rfl, rfl, rfl, rfl, rfl, rfl, rfl⟩

theorem SameItem.refl (i : PayoutItem) : SameItem i i := ⟨rfl, rfl, rfl, rfl⟩

theorem SameItem.trans {i j k : PayoutItem} (h : SameItem i j) (h' : SameItem j k) : SameItem i k :=
  ⟨h'.id.trans h.id, h'.batchId.trans h.batchId, h'.customerId.trans h.customerId,
    h'.grossAtomic.trans h.grossAtomic⟩

structure Later (i i' : PayoutItem) : Prop where
  same : SameItem i i'
  posted : i.journalTransactionId.isSome → i'.journalTransactionId.isSome

theorem Later.refl (i : PayoutItem) : Later i i := ⟨.refl i, id⟩

theorem Later.trans {i j k : PayoutItem} (h : Later i j) (h' : Later j k) : Later i k :=
  ⟨h.same.trans h'.same, fun hp => h'.posted (h.posted hp)⟩

/-- Batches and items are never removed, and a batch gets its items when it is created. -/
structure Grows (db db' : Database) : Prop where
  batches : ∀ b ∈ db.payoutBatches.rows, ∃ b' ∈ db'.payoutBatches.rows, SameBatch b b'
  items : ∀ i ∈ db.payoutItems.rows, ∃ i' ∈ db'.payoutItems.rows, Later i i'
  complete : ∀ i' ∈ db'.payoutItems.rows, (∃ b ∈ db.payoutBatches.rows, b.id = i'.batchId) →
    ∃ i ∈ db.payoutItems.rows, Later i i'

theorem Grows.of_eq {db db' : Database} (hb : db'.payoutBatches = db.payoutBatches)
    (hi : db'.payoutItems = db.payoutItems) : Grows db db' := by
  refine ⟨fun b h => ⟨b, ?_, .refl b⟩, fun i h => ⟨i, ?_, .refl i⟩, fun i h _ => ⟨i, ?_, .refl i⟩⟩
  · rwa [hb]
  · rwa [hi]
  · rwa [← hi]

theorem Grows.refl (db : Database) : Grows db db := .of_eq rfl rfl

theorem Grows.trans {db db₁ db₂ : Database} (h : Grows db db₁) (h' : Grows db₁ db₂) :
    Grows db db₂ := by
  refine ⟨fun b hb => ?_, fun i hi => ?_, fun i₂ hi₂ hex => ?_⟩
  · obtain ⟨b₁, hb₁, hs₁⟩ := h.batches b hb
    obtain ⟨b₂, hb₂, hs₂⟩ := h'.batches b₁ hb₁
    exact ⟨b₂, hb₂, hs₁.trans hs₂⟩
  · obtain ⟨i₁, hi₁, hs₁⟩ := h.items i hi
    obtain ⟨i₂, hi₂, hs₂⟩ := h'.items i₁ hi₁
    exact ⟨i₂, hi₂, hs₁.trans hs₂⟩
  · obtain ⟨b, hb, hid⟩ := hex
    obtain ⟨b₁, hb₁, hs⟩ := h.batches b hb
    obtain ⟨i₁, hi₁, hl₁⟩ := h'.complete i₂ hi₂ ⟨b₁, hb₁, hs.id.trans hid⟩
    obtain ⟨i, hi, hl⟩ := h.complete i₁ hi₁ ⟨b, hb, hid.trans hl₁.same.batchId⟩
    exact ⟨i, hi, hl.trans hl₁⟩

section Updates

variable {db db' : Database}

theorem Grows.of_map {f : PayoutBatch → PayoutBatch} {g : PayoutItem → PayoutItem}
    (hb : db'.payoutBatches.rows = db.payoutBatches.rows.map f)
    (hi : db'.payoutItems.rows = db.payoutItems.rows.map g)
    (hf : ∀ b, SameBatch b (f b)) (hg : ∀ i, Later i (g i)) : Grows db db' := by
  refine ⟨fun b h => ⟨f b, ?_, hf b⟩, fun i h => ⟨g i, ?_, hg i⟩, fun i' h _ => ?_⟩
  · rw [hb]
    exact List.mem_map_of_mem h
  · rw [hi]
    exact List.mem_map_of_mem h
  · rw [hi] at h
    obtain ⟨i, hm, rfl⟩ := List.mem_map.mp h
    exact ⟨i, hm, hg i⟩

theorem Grows.updateBatch {id : Id} {f : PayoutBatch → PayoutBatch} {hf : KeepsKeys f}
    (hs : ∀ b, SameBatch b (f b)) (h : updateBatch db id f hf = .ok db') : Grows db db' := by
  obtain ⟨_, hrows, hframe⟩ := updateBatch_ok h
  refine .of_map hrows (g := fun i => i) ?_ (fun b => ?_) (fun i => .refl i)
  · rw [hframe, List.map_id']
    rfl
  · split
    · exact hs b
    · exact .refl b

theorem updateItem_ok {id : Id} {f : PayoutItem → PayoutItem} {hf : KeepsKeys f}
    (h : updateItem db id f hf = .ok db') :
    db'.payoutItems.rows = db.payoutItems.rows.map (fun i => if i.id = id then f i else i) ∧
      db' = withPayouts db db.payoutBatches db'.payoutItems := by
  simp only [updateItem, bind_eq_ok, orThrow_eq_ok, pure_eq_ok] at h
  obtain ⟨i, _, rfl⟩ := h
  refine ⟨?_, rfl⟩
  simp only [withPayouts, Table.update_rows, decide_eq_true_eq]

def chargeItems (prepared : List PreparedItem) (i : PayoutItem) : PayoutItem :=
  prepared.foldl (fun i p => if i.id = p.id then chargeItem p i else i) i

theorem chargeItems_same (prepared : List PreparedItem) (i : PayoutItem) :
    SameItem i (chargeItems prepared i) ∧
      (chargeItems prepared i).journalTransactionId = i.journalTransactionId := by
  induction prepared generalizing i with
  | nil => exact ⟨.refl i, rfl⟩
  | cons p prepared ih =>
    obtain ⟨hsame, hj⟩ := ih (if i.id = p.id then chargeItem p i else i)
    have hone : SameItem i (if i.id = p.id then chargeItem p i else i) := by
      split
      · exact ⟨rfl, rfl, rfl, rfl⟩
      · exact .refl i
    refine ⟨hone.trans hsame, hj.trans ?_⟩
    split <;> rfl

theorem charge_ok (items : List PreparedItem)
    (h : items.foldlM (fun db p =>
      updateItem db p.id (chargeItem p) (fun _ => ⟨rfl, rfl⟩)) db = .ok db') :
    db'.payoutItems.rows = db.payoutItems.rows.map (chargeItems items) ∧
      db' = withPayouts db db.payoutBatches db'.payoutItems := by
  induction items generalizing db with
  | nil =>
    rw [List.foldlM_nil, pure_eq_ok] at h
    subst h
    exact ⟨(List.map_id _).symm, rfl⟩
  | cons p items ih =>
    rw [List.foldlM_cons, bind_eq_ok] at h
    obtain ⟨mid, hu, h⟩ := h
    obtain ⟨hrows, hframe⟩ := updateItem_ok hu
    obtain ⟨hrest, hframe'⟩ := ih h
    constructor
    · rw [hrest, hrows, List.map_map]
      rfl
    · rw [hframe', hframe]
      rfl

theorem persistTransaction_ok {id : Id} {stored : String} {prepared : PreparedPayout}
    (h : persistTransaction db id stored prepared = .ok db') :
    (∃ b ∈ db.payoutBatches.rows, b.id = id) ∧
    db'.payoutItems.rows = db.payoutItems.rows.map (chargeItems prepared.items) ∧
      db'.payoutBatches.rows = db.payoutBatches.rows.map
        (fun b => if b.id = id then signBatch stored prepared b else b) ∧
      db' = withPayouts db db'.payoutBatches db'.payoutItems := by
  simp only [persistTransaction, bind_eq_ok] at h
  obtain ⟨mid, hc, hu⟩ := h
  obtain ⟨hitems, hframe⟩ := charge_ok _ hc
  obtain ⟨hex, hrows, hframe'⟩ := updateBatch_ok hu
  have hb : mid.payoutBatches = db.payoutBatches := by rw [hframe]; rfl
  have hi : db'.payoutItems = mid.payoutItems := by rw [hframe']; rfl
  refine ⟨by rw [← hb]; exact hex, by rw [hi]; exact hitems, by rw [← hb]; exact hrows, ?_⟩
  rw [hframe', hframe]
  rfl

theorem Grows.persist {id : Id} {stored : String} {prepared : PreparedPayout}
    (h : persistTransaction db id stored prepared = .ok db') : Grows db db' := by
  obtain ⟨_, hi, hb, _⟩ := persistTransaction_ok h
  have hs := chargeItems_same prepared.items
  refine .of_map hb hi (fun b => ?_) (fun i => ⟨(hs i).1, fun hp => by rwa [(hs i).2]⟩)
  split
  · exact sameBatch_sign _ _ b
  · exact .refl b

theorem Grows.created {a : Answer} {batch : PayoutBatch} {items : List NewItem}
    (h : Created a db db' batch items) (hid : batch.id = a.newId 0) : Grows db db' := by
  refine ⟨fun b hb => ⟨b, by simp [h.batches, hb], .refl b⟩,
    fun i hi => ⟨i, by simp [h.items, hi], .refl i⟩, fun i hi hex => ?_⟩
  rw [h.items, List.mem_append] at hi
  obtain hi | hi := hi
  · exact ⟨i, hi, .refl i⟩
  · obtain ⟨b, hb, he⟩ := hex
    obtain ⟨k, hk, rfl⟩ := List.mem_mapIdx.mp hi
    exact absurd (.inl (he.trans hid.symm)) (h.fresh b hb)

end Updates

/-- A held copy that is still good: its batch exists, and its items are those
of the batch, posted at least as far as the copy says. -/
structure Tracks (db : Database) (b : PayoutBatch) (i : PayoutItem) : Prop where
  batch : ∃ b' ∈ db.payoutBatches.rows, SameBatch b b'
  item : ∃ i' ∈ db.payoutItems.rows, Later i i'
  own : i.batchId = b.id

structure Copy (db : Database) (held : Held) : Prop where
  batch : ∃ b ∈ db.payoutBatches.rows, SameBatch held.batch b
  items : ∀ i ∈ held.items, Tracks db held.batch i
  complete : ∀ i' ∈ db.payoutItems.rows, i'.batchId = held.batch.id →
    ∃ i ∈ held.items, SameItem i i'

theorem Tracks.grow {db db' : Database} {b : PayoutBatch} {i : PayoutItem} (h : Tracks db b i)
    (hg : Grows db db') : Tracks db' b i := by
  obtain ⟨b₁, hb₁, hs₁⟩ := h.batch
  obtain ⟨b₂, hb₂, hs₂⟩ := hg.batches b₁ hb₁
  obtain ⟨i₁, hi₁, hl₁⟩ := h.item
  obtain ⟨i₂, hi₂, hl₂⟩ := hg.items i₁ hi₁
  exact ⟨⟨b₂, hb₂, hs₁.trans hs₂⟩, ⟨i₂, hi₂, hl₁.trans hl₂⟩, h.own⟩

theorem Copy.grow {db db' : Database} {held : Held} (h : Copy db held) (hg : Grows db db') :
    Copy db' held := by
  obtain ⟨b, hb, hs⟩ := h.batch
  refine ⟨?_, fun i hi => (h.items i hi).grow hg, fun i' hi' hid => ?_⟩
  · obtain ⟨b', hb', hs'⟩ := hg.batches b hb
    exact ⟨b', hb', hs.trans hs'⟩
  · obtain ⟨i₁, hi₁, hl⟩ := hg.complete i' hi' ⟨b, hb, hs.id.trans hid.symm⟩
    obtain ⟨i, hi, hsame⟩ := h.complete i₁ hi₁ (hl.same.batchId.symm.trans hid)
    exact ⟨i, hi, hsame.trans hl.same⟩

theorem copy_of_reads {w : World} {c : ExecuteCall} {a : Answer} {held : Held}
    (h : Reads w c a held) : Copy w.db held := by
  have hmem : ∀ i, i ∈ held.items ↔ i ∈ w.db.payoutItems.rows ∧ i.batchId = c.id := by
    intro i
    rw [h.items, itemsOf, List.mem_filter, (a.itemOrder.perm _).mem_iff, decide_eq_true_eq]
  refine ⟨⟨_, h.stored, .refl _⟩, fun i hi => ⟨⟨_, h.stored, .refl _⟩, ⟨i, ?_, .refl i⟩, ?_⟩,
    fun i hi hid => ⟨i, ?_, .refl i⟩⟩
  · exact ((hmem i).mp hi).1
  · exact ((hmem i).mp hi).2.trans h.id.symm
  · exact (hmem i).mpr ⟨hi, hid.trans h.id⟩

end Bitmine.PayoutHistory
