import Bitmine.NoOvercommit

namespace Bitmine.OperatorCommitments

open Bitmine.Lib.UniqueTable Bitmine.Lib.GroupSum Bitmine.Lib.Throwing Bitmine.Lib.Await
open Bitmine.Schema Bitmine.Deployment Bitmine.Ledger Bitmine.LedgerPosting
open Bitmine.AllocateDeposit Bitmine.AllocationSpec Bitmine.Deposits Bitmine.Payouts Bitmine.Execute
open Bitmine.PayoutHistory Bitmine.System Bitmine.Commitments Bitmine.NoOvercommit

def revenueRef (asset : AssetCode) : AccountRef := ⟨asset, .operatorRevenue⟩

def operatorOwedBy (db : Database) (asset : AssetCode) (i : PayoutItem) : ℤ :=
  if i.customerId = none ∧ i.journalTransactionId = none ∧ hasAsset db asset i.batchId
  then i.grossAtomic else 0

def operatorOwed (db : Database) (asset : AssetCode) : ℤ :=
  (db.payoutItems.rows.map (operatorOwedBy db asset)).sum

/-- The operator's items are covered by its revenue, and stand in batches of its own. -/
structure OperatorCovered (db : Database) : Prop where
  kinds : ∀ i ∈ db.payoutItems.rows, i.customerId = none →
    ∀ b ∈ db.payoutBatches.rows, b.id = i.batchId → b.kind = .operator
  covered : ∀ asset, operatorOwed db asset ≤ operatorBalance db asset

theorem operatorBalance_eq (db : Database) (asset : AssetCode) :
    operatorBalance db asset = -net (journalEntries db) (revenueRef asset) := creditBalance_eq db _

theorem operatorBalance_congr {db db' : Database} (h : db'.journalTransactions = db.journalTransactions)
    (asset : AssetCode) : operatorBalance db' asset = operatorBalance db asset := by
  rw [operatorBalance_eq, operatorBalance_eq, journalEntries, h, journalEntries]

section Bounds

variable {db : Database}

theorem operatorOwedBy_nonneg (h : Covered db) (asset : AssetCode) {i : PayoutItem}
    (hi : i ∈ db.payoutItems.rows) : 0 ≤ operatorOwedBy db asset i := by
  rw [operatorOwedBy]
  split
  · exact h.gross i hi
  · exact le_rfl

theorem operatorOwed_nonneg (h : Covered db) (asset : AssetCode) : 0 ≤ operatorOwed db asset := by
  apply List.sum_nonneg
  intro x hx
  obtain ⟨i, hi, rfl⟩ := List.mem_map.mp hx
  exact operatorOwedBy_nonneg h asset hi

theorem operatorOwed_le_reserved (h : Covered db) (ho : OperatorCovered db) (asset : AssetCode) :
    operatorOwed db asset ≤ operatorReserved db asset := by
  rw [operatorReserved, sum_filter, operatorOwed]
  apply List.sum_le_sum
  intro i hi
  rw [operatorOwedBy]
  by_cases hc : i.customerId = none ∧ i.journalTransactionId = none ∧ hasAsset db asset i.batchId
  · have hopen := owed_open h hi hc.2.1 hc.2.2
    obtain ⟨b, hb, hid, hasset, hstate⟩ := inOpenBatch_iff.mp hopen
    have hkind := ho.kinds i hi hc.1 b hb hid
    have hreserved : db.payoutBatches.rows.any (fun b => b.id = i.batchId ∧ b.asset = asset ∧
        b.kind = .operator ∧ b.state ∈ openPayoutStates) = true := by
      apply List.any_eq_true.mpr
      refine ⟨b, hb, ?_⟩
      rw [decide_eq_true_eq]
      exact ⟨hid, hasset, hkind, hstate⟩
    rw [if_pos hc, if_pos (by rw [decide_eq_true_eq]; exact ⟨hc.1, hreserved⟩)]
  · rw [if_neg hc]
    split
    · exact h.gross i hi
    · exact le_rfl

end Bounds

section Rewriting

variable {db db' : Database}

/-- Rewriting batches and items, the journal left alone. -/
theorem OperatorCovered.of_map (h : OperatorCovered db) {f : PayoutBatch → PayoutBatch}
    {g : PayoutItem → PayoutItem} (hf : ∀ b, SameBatch b (f b))
    (hg : ∀ i, SameItem i (g i) ∧ (g i).journalTransactionId = i.journalTransactionId)
    (hb : db'.payoutBatches.rows = db.payoutBatches.rows.map f)
    (hi : db'.payoutItems.rows = db.payoutItems.rows.map g)
    (hj : db'.journalTransactions = db.journalTransactions) : OperatorCovered db' where
  kinds i' hi' hnone b' hb' hid := by
    rw [hi] at hi'
    rw [hb] at hb'
    obtain ⟨i, hmem, rfl⟩ := List.mem_map.mp hi'
    obtain ⟨b, hbmem, rfl⟩ := List.mem_map.mp hb'
    rw [(hg i).1.customerId] at hnone
    rw [(hf b).id, (hg i).1.batchId] at hid
    rw [(hf b).kind]
    exact h.kinds i hmem hnone b hbmem hid
  covered asset := by
    have howed : operatorOwed db' asset = operatorOwed db asset := by
      rw [operatorOwed, hi, List.map_map, operatorOwed]
      apply congrArg List.sum
      apply List.map_congr_left
      intro i _
      simp only [Function.comp, operatorOwedBy, (hg i).1.customerId, (hg i).2, (hg i).1.batchId,
        (hg i).1.grossAtomic, hasAsset_map hf hb]
    rw [howed, operatorBalance_congr hj]
    exact h.covered asset

theorem OperatorCovered.of_same (h : OperatorCovered db) (hs : SamePayouts db db') :
    OperatorCovered db' := by
  apply h.of_map (f := fun b => b) (g := fun i => i) (fun b => .refl b) (fun i => ⟨.refl i, rfl⟩)
  · rw [hs.batches, List.map_id']
  · rw [hs.items, List.map_id']
  · exact hs.journal

theorem OperatorCovered.updateBatch (h : OperatorCovered db) {id : Id} {f : PayoutBatch → PayoutBatch}
    {hf : KeepsKeys f} (hs : ∀ b, SameBatch b (f b)) (hu : updateBatch db id f hf = .ok db') :
    OperatorCovered db' := by
  obtain ⟨_, hrows, hframe⟩ := updateBatch_ok hu
  apply h.of_map (g := fun i => i) _ (fun i => ⟨.refl i, rfl⟩) hrows
  · rw [hframe, List.map_id']
    rfl
  · rw [hframe]
    rfl
  · intro b
    split
    · exact hs b
    · exact .refl b

theorem OperatorCovered.persist (h : OperatorCovered db) {id : Id} {stored : String}
    {prepared : PreparedPayout} (hp : persistTransaction db id stored prepared = .ok db') :
    OperatorCovered db' := by
  obtain ⟨_, hi, hb, hframe⟩ := persistTransaction_ok hp
  apply h.of_map _ (chargeItems_same prepared.items) hb hi
  · rw [hframe]
    rfl
  · intro b
    split
    · exact sameBatch_sign _ _ b
    · exact .refl b

end Rewriting

section Planning

variable {rt : Runtime} {db db' : Database} {a : Answer} {batch : PayoutBatch} {items : List NewItem}

/-- What a new batch is about: customers, or all of the operator's revenue that is not
set aside. -/
def Purpose (db : Database) (batch : PayoutBatch) (items : List NewItem) : Prop :=
  (∀ i ∈ items, i.customerId ≠ none) ∨ batch.kind = .operator ∧
    ∃ address, items = [⟨none, address, operatorBalance db batch.asset - operatorReserved db batch.asset⟩]

theorem hasAsset_created (hc : Created a db db' batch items) {id : Id} (hne : id ≠ batch.id)
    (asset : AssetCode) : hasAsset db' asset id = hasAsset db asset id := by
  simp [hasAsset, hc.batches, Ne.symm hne]

theorem hasAsset_new (hc : Created a db db' batch items) {asset : AssetCode}
    (h : hasAsset db' asset batch.id = true) : asset = batch.asset := by
  obtain ⟨b, hb, hid, hasset⟩ := hasAsset_iff.mp h
  rw [hc.batches, List.mem_append, List.mem_singleton] at hb
  obtain hb | rfl := hb
  · exact absurd (.inl hid) (hc.fresh b hb)
  · exact hasset.symm

theorem created_owed (h : Covered db) (ho : OperatorCovered db) (hc : Created a db db' batch items)
    (hid : batch.id = a.newId 0) (hp : Purpose db batch items) (asset : AssetCode) :
    ((items.mapIdx (newItem a)).map (operatorOwedBy db' asset)).sum ≤
      operatorBalance db asset - operatorOwed db asset := by
  have hroom : 0 ≤ operatorBalance db asset - operatorOwed db asset := sub_nonneg.mpr (ho.covered asset)
  obtain hcustomers | ⟨_, address, rfl⟩ := hp
  · apply le_trans (le_of_eq _) hroom
    apply List.sum_eq_zero
    intro x hx
    obtain ⟨i, hi, rfl⟩ := List.mem_map.mp hx
    obtain ⟨k, hk, rfl⟩ := List.mem_mapIdx.mp hi
    exact if_neg (fun hcond => hcustomers _ (List.getElem_mem hk) hcond.1)
  · simp only [List.mapIdx_cons, List.mapIdx_nil, List.map_cons, List.map_nil, List.sum_cons, List.sum_nil,
      add_zero, operatorOwedBy]
    split
    · rename_i hcond
      have hasset : asset = batch.asset := hasAsset_new hc (by rw [hid]; exact hcond.2.2)
      have hle := operatorOwed_le_reserved h ho batch.asset
      rw [hasset]
      simp only [newItem]
      omega
    · exact hroom

theorem OperatorCovered.create (h : Covered db) (ho : OperatorCovered db)
    (hc : Created a db db' batch items) (hid : batch.id = a.newId 0) (hp : Purpose db batch items) :
    OperatorCovered db' := by
  have hj : db'.journalTransactions = db.journalTransactions := by
    rw [hc.frame]
    rfl
  have hold : ∀ i ∈ db.payoutItems.rows, i.batchId ≠ batch.id := by
    intro i hi he
    obtain ⟨b, hb, hbi⟩ := h.owned i hi
    exact hc.fresh b hb (.inl (hbi.trans he))
  have hnew : ∀ i ∈ items.mapIdx (newItem a), i.batchId = batch.id ∧
      ∃ n ∈ items, i.customerId = n.customerId := by
    intro i hi
    obtain ⟨k, hk, rfl⟩ := List.mem_mapIdx.mp hi
    exact ⟨hid.symm, items[k], List.getElem_mem hk, rfl⟩
  constructor
  · intro i hi hnone b hb hbi
    rw [hc.items, List.mem_append] at hi
    rw [hc.batches, List.mem_append, List.mem_singleton] at hb
    obtain hi | hi := hi
    · obtain hb | rfl := hb
      · exact ho.kinds i hi hnone b hb hbi
      · exact absurd hbi.symm (hold i hi)
    · obtain ⟨hown, n, hn, hcustomer⟩ := hnew i hi
      obtain hb | rfl := hb
      · exact absurd (.inl (hbi.trans hown)) (hc.fresh b hb)
      · obtain hcustomers | ⟨hkind, _⟩ := hp
        · exact absurd (hcustomer.symm.trans hnone) (hcustomers n hn)
        · exact hkind
  · intro asset
    have hbound := created_owed h ho hc hid hp asset
    have hrest : (db.payoutItems.rows.map (operatorOwedBy db' asset)).sum = operatorOwed db asset := by
      apply congrArg List.sum
      apply List.map_congr_left
      intro i hi
      rw [operatorOwedBy, operatorOwedBy, hasAsset_created hc (hold i hi)]
    rw [operatorBalance_congr hj, operatorOwed, hc.items, List.map_append, List.sum_append, hrest]
    omega

theorem planTransaction_purpose {asset : AssetCode} {policy : PayoutPolicySetting}
    (h : planTransaction rt a db asset policy = .ok db') :
    db' = db ∨ ∃ batch items, Created a db db' batch items ∧ batch.id = a.newId 0 ∧
      Purpose db batch items := by
  rw [planTransaction] at h
  dsimp only at h
  split at h
  · cases h
    exact .inl rfl
  · refine .inr ⟨_, _, createBatch_ok h, rfl, .inl ?_⟩
    intro i hi
    obtain ⟨d, _, hd⟩ := List.mem_filterMap.mp hi
    unfold planItem at hd
    dsimp only at hd
    split at hd
    · cases hd
      exact Option.some_ne_none _
    · cases hd

theorem planOperatorTransaction_purpose {asset : AssetCode} {setting : OperatorPayoutSetting}
    {policy : PayoutPolicySetting}
    (h : planOperatorTransaction rt a db asset setting policy = .ok db') :
    db' = db ∨ ∃ batch items, Created a db db' batch items ∧ batch.id = a.newId 0 ∧
      Purpose db batch items := by
  rw [planOperatorTransaction] at h
  dsimp only at h
  split at h
  · cases h
    exact .inl rfl
  · exact .inr ⟨_, _, createBatch_ok h, rfl, .inr ⟨rfl, setting.address, rfl⟩⟩

end Planning

section Crediting

variable {db db' : Database}

/-- New journals that only add to the revenue. -/
theorem OperatorCovered.credit (h : OperatorCovered db) {ts : List JournalTransaction}
    (ha : Appends db db' ts) (hb : db'.payoutBatches = db.payoutBatches)
    (hi : db'.payoutItems = db.payoutItems)
    (hnet : ∀ t ∈ ts, ∀ e ∈ t.entries, ∀ asset, e.account = revenueRef asset → signed e ≤ 0) :
    OperatorCovered db' where
  kinds := by
    rw [hi, hb]
    exact h.kinds
  covered asset := by
    have hle := h.covered asset
    have hnew : net (ts.flatMap JournalTransaction.entries) (revenueRef asset) ≤ 0 := by
      apply net_nonpos
      intro e he hacc
      obtain ⟨t, ht, het⟩ := List.mem_flatMap.mp he
      exact hnet t ht e het asset hacc
    have howed : operatorOwed db' asset = operatorOwed db asset := by
      have hh : hasAsset db' asset = hasAsset db asset := by
        funext id
        rw [hasAsset, hb, hasAsset]
      rw [operatorOwed, hi, operatorOwed]
      apply congrArg List.sum
      apply List.map_congr_left
      intro i _
      rw [operatorOwedBy, operatorOwedBy, hh]
    rw [howed, operatorBalance_eq, ha.net]
    rw [operatorBalance_eq] at hle
    omega

theorem OperatorCovered.allocated (h : OperatorCovered db) {order : Order ((Id × Id) × ℚ)}
    {ids : AllocationIds} {now : Instant} {deposit : Deposit} {endpointIds : List Id}
    {items : List AllocationItem} (hc : Committed order ids now db db' deposit endpointIds items) :
    OperatorCovered db' := by
  apply h.credit hc.ledger (by rw [hc.frame]; rfl) (by rw [hc.frame]; rfl)
  intro t ht e he asset hacc
  obtain rfl | ht := List.mem_cons.mp ht
  · simp only [depositJournal, depositEntries] at he
    fin_cases he <;> cases hacc
  · rw [List.mem_singleton.mp ht] at he
    simp only [allocationJournal, allocationEntries, List.mem_append, List.mem_singleton, List.mem_map] at he
    obtain (rfl | ⟨total, _, rfl⟩) | he := he
    · cases hacc
    · cases hacc
    · split at he
      · rename_i hpos
        rw [List.mem_singleton.mp he]
        simp only [signed, reduceCtorEq, ↓reduceIte]
        omega
      · cases he

end Crediting

section Posting

variable {db db' : Database} {a : Answer} {b : PayoutBatch} {i i₀ : PayoutItem} {journalId : Id}

theorem payoutEntries_revenue (input : PayoutPosting) (asset : AssetCode) :
    net (payoutEntries input) (revenueRef asset) = 0 := by
  apply net_eq_zero
  intro e he heq
  simp only [payoutEntries, recoveredFee] at he
  split at he
  · fin_cases he <;> cases heq
  · split at he <;> fin_cases he <;> cases heq

theorem operatorPayoutEntries_revenue (input : OperatorPosting) (asset : AssetCode) :
    net (operatorPayoutEntries input) (revenueRef asset) =
      if input.asset = asset then input.grossAtomic else 0 := by
  have hmain : net [⟨revenueRef input.asset, .debit, input.grossAtomic⟩,
      ⟨⟨input.asset, .treasury⟩, .credit, input.grossAtomic⟩] (revenueRef asset) =
      if input.asset = asset then input.grossAtomic else 0 := by
    by_cases ha : input.asset = asset <;> simp [net_cons, revenueRef, signed, ha]
  rw [operatorPayoutEntries, net_append]
  apply (congrArg₂ (· + ·) hmain _).trans (add_zero _)
  apply net_eq_zero
  intro e he heq
  split at he
  · simp only [recoveredFee] at he
    fin_cases he <;> cases heq
  · cases he

theorem itemTransaction_revenue (journalId : Id) (asset : AssetCode) :
    net (itemTransaction journalId b i).entries (revenueRef asset) =
      if i.customerId = none ∧ b.asset = asset then i.grossAtomic else 0 := by
  rw [itemTransaction]
  cases hc : i.customerId with
  | some customerId =>
    simp only [reduceCtorEq, false_and, ↓reduceIte]
    exact payoutEntries_revenue _ asset
  | none =>
    simp only [true_and]
    exact operatorPayoutEntries_revenue _ asset

theorem posts_operatorOwed (hp : Posts journalId b i db db') (h : Covered db) (ht : Tracks db b i)
    (hi₀ : i₀ ∈ db.payoutItems.rows) (hs : SameItem i i₀) (asset : AssetCode) :
    operatorOwed db' asset = operatorOwed db asset -
      if i.customerId = none ∧ b.asset = asset then i.grossAtomic else 0 := by
  have hrow : ∀ j ∈ db.payoutItems.rows, decide (j.id = i.id) = true ↔ j = i₀ := by
    intro j hj
    rw [decide_eq_true_eq]
    constructor
    · exact fun hid => db.payoutItems.eq_of_id hj hi₀ (hid.trans hs.id.symm)
    · rintro rfl
      exact hs.id
  have hsum := sum_map_rewrite (operatorOwedBy db asset) (journalItem journalId)
    (fun j => j.id = i.id) db.payoutItems.rows_nodup hi₀ hrow
  have hposted : operatorOwedBy db asset (journalItem journalId i₀) = 0 :=
    if_neg (fun hc => by cases hc.2.1)
  have hone : operatorOwedBy db asset i₀ =
      if i.customerId = none ∧ b.asset = asset then i.grossAtomic else 0 := by
    simp only [operatorOwedBy, hp.unposted h ht hi₀ hs, hs.customerId, hs.grossAtomic,
      hasAsset_of_tracks ht hs asset, true_and]
  have hf : operatorOwedBy db' asset = operatorOwedBy db asset := by
    funext j
    rw [operatorOwedBy, operatorOwedBy, hasAsset, hp.batches, hasAsset]
  simp only [decide_eq_true_eq] at hsum
  rw [operatorOwed, hf, hp.items, hsum, hposted, hone, add_zero, operatorOwed]

theorem posts_operatorBalance (hp : Posts journalId b i db db') (asset : AssetCode) :
    operatorBalance db' asset = operatorBalance db asset -
      if i.customerId = none ∧ b.asset = asset then i.grossAtomic else 0 := by
  rw [operatorBalance_eq, journalEntries, hp.journal, List.flatMap_append, net_append,
    List.flatMap_singleton, itemTransaction_revenue, operatorBalance_eq, journalEntries]
  omega

theorem OperatorCovered.posts (ho : OperatorCovered db) (hp : Posts journalId b i db db')
    (h : Covered db) (ht : Tracks db b i) (hi₀ : i₀ ∈ db.payoutItems.rows) (hs : SameItem i i₀) :
    OperatorCovered db' where
  kinds j hj hnone b' hb' hid := by
    rw [hp.items] at hj
    rw [hp.batches] at hb'
    obtain ⟨j₀, hj₀, rfl⟩ := List.mem_map.mp hj
    have hsame := (journalItem_later journalId i.id j₀).same
    rw [hsame.customerId] at hnone
    rw [hsame.batchId] at hid
    exact ho.kinds j₀ hj₀ hnone b' hb' hid
  covered asset := by
    have hle := ho.covered asset
    rw [posts_operatorOwed hp h ht hi₀ hs, posts_operatorBalance hp]
    omega

theorem OperatorCovered.postItem (ho : OperatorCovered db) (h : Covered db) (ht : Tracks db b i)
    (hp : postItem a b db i = .ok db') : OperatorCovered db' := by
  obtain ⟨i₀, hi₀, hlater⟩ := ht.item
  obtain ⟨_, rfl⟩ | hposts := postItem_ok hp
  · exact ho
  · exact ho.posts hposts h ht hi₀ hlater.same

theorem OperatorCovered.postItems (items : List PayoutItem) (ho : OperatorCovered db) (h : Covered db)
    (ht : ∀ i ∈ items, Tracks db b i) (hp : items.foldlM (Execute.postItem a b) db = .ok db') :
    OperatorCovered db' := by
  induction items generalizing db with
  | nil =>
    rw [List.foldlM_nil, pure_eq_ok] at hp
    subst hp
    exact ho
  | cons i items ih =>
    rw [List.foldlM_cons, bind_eq_ok] at hp
    obtain ⟨mid, hone, hp⟩ := hp
    have hfirst := ht i List.mem_cons_self
    obtain ⟨hmid, hgrows, _⟩ := h.postItem_step hfirst hone
    apply ih (ho.postItem h hfirst hone) hmid _ hp
    intro j hj
    exact (ht j (List.mem_cons_of_mem i hj)).grow hgrows

theorem OperatorCovered.post (ho : OperatorCovered db) (h : Covered db) {id : Id} {held : Held}
    {ids : List String} (hcopy : Copy db held) (hp : postTransaction a db id held ids = .ok db') :
    OperatorCovered db' := by
  simp only [postTransaction, bind_eq_ok] at hp
  obtain ⟨mid, hl, hu⟩ := hp
  exact (ho.postItems held.items h hcopy.items hl).updateBatch (sameBatch_broadcast _ _) hu

end Posting

section Steps

variable {rt : Runtime} {w w' : World} {a : Answer}

theorem executed_operator {c : ExecuteCall} {o : Option ExecuteCall} (hx : Executed rt w c a w' o)
    (h : Covered w.db) (ho : OperatorCovered w.db) (hl : executeLoc w.db c) : OperatorCovered w'.db := by
  cases hx with
  | acquire | checkReorg | unsigned | opened | readPolicy | prepare | known | unknown | broadcast |
    readResult | fails | failsLater | release => exact ho
  | persist hp hs hd => exact ho.persist hd
  | post hp hd =>
    simp only [executeLoc, hp] at hl
    exact ho.post h hl.1 hd
  | markFailed hp hd => exact ho.updateBatch (sameBatch_fail _) hd

theorem scanned_operator {c : ScanCall} {o : Option ScanCall} (hs : Scanned w a c w' o)
    (ho : OperatorCovered w.db) : OperatorCovered w'.db := by
  cases hs with
  | readUpstreams | scanReceipts | locked | read => exact ho
  | @reorg _ _ _ deposits | @upsert _ _ _ _ deposits =>
    have hsame : SamePayouts w.db (withDeposits w.db deposits) := ⟨rfl, rfl, rfl⟩
    exact ho.of_same hsame
  | allocate hd =>
    obtain ⟨rfl, _, _⟩ | ⟨_, _, _, _, _, _, hc⟩ := allocateDeposit_ok hd
    · exact ho
    · exact ho.allocated hc

theorem OperatorCovered.planned {db db' : Database} (h : Covered db) (ho : OperatorCovered db)
    (hp : db' = db ∨ ∃ batch items, Created a db db' batch items ∧ batch.id = a.newId 0 ∧
      Purpose db batch items) : OperatorCovered db' := by
  obtain rfl | ⟨batch, items, hc, hid, hpurpose⟩ := hp
  · exact ho
  · exact ho.create h hc hid hpurpose

theorem planned_operator {c : PlanCall} {o : Option PlanCall} {db' : Database} (h : Covered w.db)
    (ho : OperatorCovered w.db) (hs : stepPlan rt w.db c a = .ok (db', o)) : OperatorCovered db' := by
  cases c with
  | transaction asset policy =>
    simp only [stepPlan, bind_eq_ok, pure_eq_ok] at hs
    obtain ⟨_, ht, he⟩ := hs
    cases he
    exact ho.planned h (planTransaction_purpose ht)
  | listDue | activate | readPolicy =>
    obtain ⟨⟨t, rfl⟩, _⟩ | ⟨_, _, _, hc, _⟩ := stepPlan_ok hs
    · have hsame : SamePayouts w.db (withDestinations w.db t) := ⟨rfl, rfl, rfl⟩
      exact ho.of_same hsame
    · cases hc

theorem plannedOperator_operator {c : OperatorCall} {o : Option OperatorCall} {db' : Database}
    (h : Covered w.db) (ho : OperatorCovered w.db) (hs : stepOperator rt w.db c a = .ok (db', o)) :
    OperatorCovered db' := by
  cases c with
  | transaction asset setting policy =>
    simp only [stepOperator, bind_eq_ok, pure_eq_ok] at hs
    obtain ⟨_, ht, he⟩ := hs
    cases he
    exact ho.planned h (planOperatorTransaction_purpose ht)
  | readSetting | readPolicy =>
    obtain ⟨rfl, _⟩ | ⟨_, _, _, _, hc, _⟩ := stepOperator_ok hs
    · exact ho
    · cases hc

/-- Every effect of every service keeps the operator's items covered. -/
theorem effect_operator {r : System.Call} {o : Option System.Call} (h : Covered w.db)
    (ho : OperatorCovered w.db) (hl : loc w r) (he : effect rt w r a = .ok (w', o)) :
    OperatorCovered w'.db := by
  cases r with
  | plan c =>
    obtain ⟨⟨db, o₁⟩, hs, he⟩ := map_eq_ok.mp he
    cases he
    exact planned_operator h ho hs
  | planOperator c =>
    obtain ⟨⟨db, o₁⟩, hs, he⟩ := map_eq_ok.mp he
    cases he
    exact plannedOperator_operator h ho hs
  | allocate d =>
    cases effect_acted he with
    | allocate hd =>
      obtain ⟨rfl, _, _⟩ | ⟨_, _, _, _, _, _, hc⟩ := allocateDeposit_ok hd
      · exact ho
      · exact ho.allocated hc
  | scan c =>
    cases effect_acted he with
    | scan hs => exact scanned_operator hs ho
  | share c =>
    cases effect_acted he with
    | share hs => exact ho.of_same (journals_payouts hs)
  | approve c =>
    cases effect_acted he with
    | approve hx =>
      cases hx with
      | assertTotp | readBatch => exact ho
      | write hd => exact ho.updateBatch (sameBatch_approve _ _ _) hd
  | execute c =>
    cases effect_acted he with
    | execute hx => exact executed_operator hx h ho hl
  | reconcile c =>
    cases effect_acted he with
    | reconcile hx =>
      cases hx with
      | list | pass | enough => exact ho
      | write hd => exact ho.updateBatch (sameBatch_confirm _) hd

/-- An invariant of the database that holds beside `Covered`. -/
theorem covered_outline (rt : Runtime) {I : Database → Prop}
    (heffect : ∀ {w w' : World} {r : System.Call} {a : Answer} {o : Option System.Call}, Covered w.db →
      I w.db → loc w r → effect rt w r a = .ok (w', o) → I w'.db)
    (hchange : ∀ (w : World) (e : Change), I w.db → I (change w e).db) :
    Outline (system rt) (shared (ρ := System.Call)) (fun _ _ _ => True) (fun _ _ => True)
      (fun w => Covered w.db ∧ I w.db) loc (fun _ w w' => Grows w.db w'.db) where
  entry _ _ _ h := entry_loc h
  effect _ _ _ _ _ h hl _ he := by
    obtain ⟨hc, hg, hnext⟩ := acted_covered h.1 hl (effect_acted he)
    exact ⟨⟨hc, heffect h.1 h.2 hl he⟩, hg, hnext, fun e r' hr' => handler_loc hr'⟩
  handler _ _ _ _ _ _ h := handler_loc h
  background _ _ b _ h := background_loc h b
  event w e h _ :=
    ⟨⟨(change_payouts w e).covered h.1, hchange w e h.2⟩,
      fun _ hl => hl.grow (change_payouts w e).grows⟩
  stable _ _ _ _ _ hg _ hl := hl.grow hg

theorem outline_operator (rt : Runtime) : Outline (system rt) (shared (ρ := System.Call))
    (fun _ _ _ => True) (fun _ _ => True) (fun w => Covered w.db ∧ OperatorCovered w.db) loc
    (fun _ w w' => Grows w.db w'.db) :=
  covered_outline rt effect_operator (fun w e h => h.of_same (change_payouts w e))

theorem fresh_operator {db : Database} (h : db.Fresh) : OperatorCovered db := by
  constructor
  · simp [h.payoutItems]
  · intro asset
    simp [operatorOwed, h.payoutItems, operatorBalance_eq, journalEntries, h.journalTransactions]

/-- In every reachable state the operator's revenue covers the operator's payouts that
still have to be posted, so they are never made with what belongs to customers. -/
theorem operator_owed_le_revenue (hw : w.db.Fresh) {c : Config World System.Call}
    (h : (system rt).Reaches (.idle w) c) (asset : AssetCode) :
    operatorOwed c.shared.db asset ≤ operatorBalance c.shared.db asset ∧
      0 ≤ operatorBalance c.shared.db asset ∧
      operatorOwed c.shared.db asset ≤ operatorReserved c.shared.db asset := by
  have hend := (outline_operator rt).run (keyed_shared _)
    (Outline.idle ⟨fresh_covered hw, fresh_operator hw⟩) h.allowed
  obtain ⟨hcovered, hoperator⟩ := hend.inv
  have hle := hoperator.covered asset
  have hnonneg := operatorOwed_nonneg hcovered asset
  exact ⟨hle, by omega, operatorOwed_le_reserved hcovered hoperator asset⟩

theorem operator_owed_le_revenue_sample :
    ∃ c, (system sampleRuntime).Reaches (.idle sampleWorld) c ∧ operatorOwed c.shared.db .btc = 200 ∧
      operatorOwed c.shared.db .btc ≤ operatorBalance c.shared.db .btc := by
  obtain ⟨c, hr, hv⟩ := exec_sample (sampleCredit ++ samplePayout)
    (f := fun c => operatorOwed c.shared.db .btc) (v := 200) (by decide +kernel)
  exact ⟨c, hr, hv, (operator_owed_le_revenue sampleWorld_fresh hr .btc).1⟩

end Steps

end Bitmine.OperatorCommitments
