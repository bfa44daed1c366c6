import Bitmine.Distribution
import Bitmine.NoOvercommit

namespace Bitmine.Payable

open Bitmine.Lib.UniqueTable Bitmine.Lib.GroupSum Bitmine.Lib.Throwing Bitmine.Lib.Await
open Bitmine.Schema Bitmine.Deployment Bitmine.Ledger Bitmine.LedgerPosting
open Bitmine.AllocateDeposit Bitmine.AllocationSpec Bitmine.Deposits Bitmine.Payouts Bitmine.Execute
open Bitmine.PayoutHistory Bitmine.System Bitmine.Commitments Bitmine.NoOvercommit
open Bitmine.Distribution (creditOn creditOn_eq_zero)

section Report

structure BalanceLine where
  customer : Customer
  asset : AssetCode
  confirmedAtomic : ℤ
  reservedAtomic : ℤ
  payableAtomic : ℤ
  pendingAcceptedShares : ℕ
  pendingAcceptedWork : ℚ

def reservedTotals (db : Database) (asset : AssetCode) : List (Option Id × ℤ) :=
  groupSum PayoutItem.customerId PayoutItem.grossAtomic (db.payoutItems.rows.filter (fun i =>
    i.customerId ≠ none ∧ inOpenBatch db asset i.batchId))

def pendingShares (db : Database) (asset : AssetCode) : List ShareEvent :=
  db.shareEvents.rows.filter (fun s =>
    s.asset = asset ∧ s.status = .accepted ∧ s.allocationBatchId = none)

def balanceLine (db : Database) (asset : AssetCode) (customer : Customer) : BalanceLine :=
  let confirmed := customerBalance db customer.id asset
  let reservedAtomic :=
    (((reservedTotals db asset).find? (fun t => t.1 = some customer.id)).map Prod.snd).getD 0
  let shares := groupSum ShareEvent.customerId (fun _ => 1) (pendingShares db asset)
  let work := groupSum ShareEvent.customerId ShareEvent.normalizedWork (pendingShares db asset)
  ⟨customer, asset, confirmed, reservedAtomic, confirmed - reservedAtomic,
    ((shares.find? (fun t => t.1 = customer.id)).map Prod.snd).getD 0,
    ((work.find? (fun t => t.1 = customer.id)).map Prod.snd).getD 0⟩

def customerBalances (order : Order Customer) (db : Database) (asset : Option AssetCode) :
    List BalanceLine :=
  let assets := match asset with
    | some asset => [asset]
    | none => [.btc, .xmr]
  let customers := order.arrange (db.customers.rows.filter (fun c => c.status = .active))
  assets.flatMap (fun asset => customers.map (balanceLine db asset))

end Report

/-- Everything ever put into a payout of the customer, cancelled batches apart. -/
def issued (db : Database) (customerId : Id) (asset : AssetCode) : ℤ :=
  ((db.payoutItems.rows.filter (fun i => i.customerId = some customerId ∧
    db.payoutBatches.rows.any (fun b => b.id = i.batchId ∧ b.asset = asset ∧
      b.state ≠ .cancelled))).map PayoutItem.grossAtomic).sum

/-- What the planner and the report may offer. -/
structure ExactPayable (db : Database) (customerId : Id) (asset : AssetCode) : Prop where
  available : available db customerId asset =
    credited db customerId asset - issued db customerId asset
  reported : ∀ order selected, ∀ line ∈ customerBalances order db selected,
    line.customer.id = customerId → line.asset = asset →
      line.payableAtomic = credited db customerId asset - issued db customerId asset
  nonneg : 0 ≤ Payouts.available db customerId asset

/-- No amount of the customer has been posted while its batch is still open. -/
def PostedClosed (db : Database) (customerId : Id) (asset : AssetCode) : Prop :=
  ∀ i ∈ db.payoutItems.rows, i.customerId = some customerId → i.journalTransactionId.isSome →
    inOpenBatch db asset i.batchId → i.grossAtomic = 0

section Report

variable {db : Database}

theorem reservedTotals_reserved (asset : AssetCode) (c : Id) :
    (((reservedTotals db asset).find? (fun t => t.1 = some c)).map Prod.snd).getD 0 =
      reserved db c asset := by
  rw [reservedTotals, find?_groupSum, sumAt, List.filter_filter, reserved]
  refine congrArg (fun l => (List.map PayoutItem.grossAtomic l).sum) (List.filter_congr ?_)
  intro i _
  by_cases hc : i.customerId = some c <;> simp [hc]

theorem payableAtomic_eq {order : Order Customer} {selected : Option AssetCode} {line : BalanceLine}
    (h : line ∈ customerBalances order db selected) :
    line.payableAtomic = available db line.customer.id line.asset := by
  obtain ⟨asset, _, hl⟩ := List.mem_flatMap.mp h
  obtain ⟨customer, _, rfl⟩ := List.mem_map.mp hl
  simp only [balanceLine, reservedTotals_reserved, available]

end Report

section Accounting

variable {db db' : Database}

def debitOn (entries : List JournalEntry) (account : AccountRef) : ℤ :=
  debitTotal (entries.filter (fun e => e.account = account))

theorem debitOn_append (xs ys : List JournalEntry) (account : AccountRef) :
    debitOn (xs ++ ys) account = debitOn xs account + debitOn ys account := by
  rw [debitOn, List.filter_append, debitTotal_append, debitOn, debitOn]

theorem debitOn_eq_net {entries : List JournalEntry} {account : AccountRef}
    (h : ∀ e ∈ entries, e.direction = .credit → e.account ≠ account) :
    debitOn entries account = net entries account := by
  have hc := creditOn_eq_zero h
  rw [creditOn] at hc
  rw [net, sumAt, sum_signed, debitOn]
  omega

theorem debitOn_eq_zero {entries : List JournalEntry} {account : AccountRef}
    (h : ∀ e ∈ entries, e.account = account → e.direction = .credit) :
    debitOn entries account = 0 := by
  have hnil : (entries.filter (fun e => e.account = account)).filter
      (fun e => e.direction = .debit) = [] := by
    refine List.filter_eq_nil_iff.mpr (fun e he hd => ?_)
    obtain ⟨hm, ha⟩ := List.mem_filter.mp he
    have hdir := h e hm (of_decide_eq_true ha)
    rw [of_decide_eq_true hd] at hdir
    cases hdir
  rw [debitOn, debitTotal, hnil]
  rfl

def issuedBy (db : Database) (customerId : Id) (asset : AssetCode) (i : PayoutItem) : ℤ :=
  if i.customerId = some customerId ∧ hasAsset db asset i.batchId then i.grossAtomic else 0

/-- Every item has either been debited or is still owed. -/
def Accounted (db : Database) : Prop :=
  ∀ customerId asset, debited db customerId asset + owed db customerId asset =
    (db.payoutItems.rows.map (issuedBy db customerId asset)).sum

theorem debited_congr (h : db'.journalTransactions = db.journalTransactions) (c : Id)
    (asset : AssetCode) : debited db' c asset = debited db c asset := by
  rw [debited, debited, journalEntries, h, journalEntries]

/-- Batches and items rewritten in columns that no amount depends on. -/
structure Rewritten (db db' : Database) : Prop where
  batches : ∃ f, (∀ b, SameBatch b (f b)) ∧
    db'.payoutBatches.rows = db.payoutBatches.rows.map f
  items : ∃ g, (∀ i, SameItem i (g i) ∧ (g i).journalTransactionId = i.journalTransactionId) ∧
    db'.payoutItems.rows = db.payoutItems.rows.map g
  journal : db'.journalTransactions = db.journalTransactions

theorem Rewritten.of_same (h : SamePayouts db db') : Rewritten db db' :=
  ⟨⟨id, .refl, by rw [h.batches, List.map_id]⟩, ⟨id, fun i => ⟨.refl i, rfl⟩,
    by rw [h.items, List.map_id]⟩, h.journal⟩

theorem Rewritten.updateBatch {id : Id} {f : PayoutBatch → PayoutBatch} {hf : KeepsKeys f}
    (hs : ∀ b, SameBatch b (f b)) (h : updateBatch db id f hf = .ok db') : Rewritten db db' := by
  obtain ⟨_, hrows, hframe⟩ := updateBatch_ok h
  refine ⟨⟨_, fun b => ?_, hrows⟩, ⟨fun i => i, fun i => ⟨.refl i, rfl⟩, ?_⟩, by rw [hframe]; rfl⟩
  · split
    · exact hs b
    · exact .refl b
  · rw [hframe, List.map_id']
    rfl

theorem Rewritten.persist {id : Id} {stored : String} {prepared : PreparedPayout}
    (h : persistTransaction db id stored prepared = .ok db') : Rewritten db db' := by
  obtain ⟨_, hi, hb, hframe⟩ := persistTransaction_ok h
  refine ⟨⟨_, fun b => ?_, hb⟩, ⟨_, chargeItems_same prepared.items, hi⟩, by rw [hframe]; rfl⟩
  split
  · exact sameBatch_sign _ _ b
  · exact .refl b

theorem Accounted.rewritten (h : Accounted db) (hr : Rewritten db db') : Accounted db' := by
  intro c asset
  obtain ⟨f, hf, hb⟩ := hr.batches
  obtain ⟨g, hg, hi⟩ := hr.items
  have howed : owed db' c asset = owed db c asset := by
    rw [owed, hi, List.map_map, owed]
    refine congrArg List.sum (List.map_congr_left (fun i _ => ?_))
    simp only [Function.comp, owedBy, (hg i).1.customerId, (hg i).2, (hg i).1.batchId,
      (hg i).1.grossAtomic, hasAsset_map hf hb]
  rw [debited_congr hr.journal, howed, h c asset, hi, List.map_map]
  refine congrArg List.sum (List.map_congr_left (fun i _ => ?_))
  simp only [Function.comp, issuedBy, (hg i).1.customerId, (hg i).1.batchId, (hg i).1.grossAtomic,
    hasAsset_map hf hb]

theorem Accounted.create (h : Accounted db) (hcov : Covered db) {a : Answer} {batch : PayoutBatch}
    {items : List NewItem} (hc : Created a db db' batch items) : Accounted db' := by
  intro c asset
  have hj : db'.journalTransactions = db.journalTransactions := by rw [hc.frame]; rfl
  have hold : ∀ i ∈ db.payoutItems.rows, hasAsset db' asset i.batchId = hasAsset db asset i.batchId := by
    intro i hi
    have hne : batch.id ≠ i.batchId := by
      intro he
      obtain ⟨b, hb, hbi⟩ := hcov.owned i hi
      exact hc.fresh b hb (.inl (hbi.trans he.symm))
    simp [hasAsset, hc.batches, hne]
  have hnew : ∀ i ∈ items.mapIdx (newItem a), owedBy db' c asset i = issuedBy db' c asset i := by
    intro i hi
    obtain ⟨k, hk, rfl⟩ := List.mem_mapIdx.mp hi
    exact if_congr (by simp only [newItem, true_and]) rfl rfl
  have hoOld : db.payoutItems.rows.map (owedBy db' c asset) =
      db.payoutItems.rows.map (owedBy db c asset) :=
    List.map_congr_left (fun i hi => by rw [owedBy, owedBy, hold i hi])
  have hiOld : db.payoutItems.rows.map (issuedBy db' c asset) =
      db.payoutItems.rows.map (issuedBy db c asset) :=
    List.map_congr_left (fun i hi => by rw [issuedBy, issuedBy, hold i hi])
  have hbefore := h c asset
  rw [owed] at hbefore
  rw [debited_congr hj, owed, hc.items, List.map_append, List.sum_append, List.map_append,
    List.sum_append, List.map_congr_left hnew, hoOld, hiOld]
  omega

theorem Accounted.credit (h : Accounted db) {ts : List JournalTransaction} (ha : Appends db db' ts)
    (hb : db'.payoutBatches = db.payoutBatches) (hi : db'.payoutItems = db.payoutItems)
    (hcredit : ∀ t ∈ ts, ∀ e ∈ t.entries, ∀ asset c, e.account = liabilityRef asset c →
      e.direction = .credit) : Accounted db' := by
  intro c asset
  have hd : debited db' c asset = debited db c asset := by
    have hz : debitOn (ts.flatMap JournalTransaction.entries) (liabilityRef asset c) = 0 := by
      refine debitOn_eq_zero (fun e he hacc => ?_)
      obtain ⟨t, ht, het⟩ := List.mem_flatMap.mp he
      exact hcredit t ht e het asset c hacc
    have hsum := debitOn_append (journalEntries db) (ts.flatMap JournalTransaction.entries)
      (liabilityRef asset c)
    rw [hz, add_zero, ← ha.entries] at hsum
    exact hsum
  have hh : hasAsset db' asset = hasAsset db asset := by
    funext id
    rw [hasAsset, hb, hasAsset]
  have ho : owedBy db' c asset = owedBy db c asset := by
    funext i
    rw [owedBy, owedBy, hh]
  have hiss : issuedBy db' c asset = issuedBy db c asset := by
    funext i
    rw [issuedBy, issuedBy, hh]
  rw [hd, owed, hi, ho, hiss]
  exact h c asset

theorem Accounted.allocated (h : Accounted db) {order : Order ((Id × Id) × ℚ)}
    {ids : AllocationIds} {now : Instant} {deposit : Deposit} {endpointIds : List Id}
    {items : List AllocationItem} (hc : Committed order ids now db db' deposit endpointIds items) :
    Accounted db' := by
  apply h.credit hc.ledger (by rw [hc.frame]; rfl) (by rw [hc.frame]; rfl)
  intro t ht e he asset c hacc
  obtain rfl | ht := List.mem_cons.mp ht
  · simp only [depositJournal, depositEntries] at he
    fin_cases he <;> cases hacc
  · rw [List.mem_singleton.mp ht] at he
    simp only [allocationJournal, allocationEntries, List.mem_append, List.mem_singleton,
      List.mem_map] at he
    obtain (rfl | ⟨t, _, rfl⟩) | he := he
    · cases hacc
    · rfl
    · split at he
      · rw [List.mem_singleton.mp he] at hacc
        cases hacc
      · cases he

theorem itemTransaction_debit (journalId : Id) (b : PayoutBatch) (i : PayoutItem) (c : Id)
    (asset : AssetCode) :
    debitOn (itemTransaction journalId b i).entries (liabilityRef asset c) =
      if i.customerId = some c ∧ b.asset = asset then i.grossAtomic else 0 := by
  rw [← itemTransaction_net journalId c asset]
  refine debitOn_eq_net (fun e he hd heq => ?_)
  rw [itemTransaction] at he
  split at he
  · simp only [payoutTransaction, payoutEntries, recoveredFee] at he
    split at he
    · fin_cases he <;> cases hd <;> cases heq
    · split at he <;> fin_cases he <;> cases hd <;> cases heq
  · obtain ⟨_, hcode⟩ := operatorPayoutEntries_account he
    exact hcode c (by rw [heq]; rfl)

/-- A posting moves an amount from what is owed to what has been debited. -/
theorem Accounted.posts (h : Accounted db) {journalId : Id} {b : PayoutBatch} {i i₀ : PayoutItem}
    (hcov : Covered db) (hp : Posts journalId b i db db') (ht : Tracks db b i)
    (hi₀ : i₀ ∈ db.payoutItems.rows) (hs : SameItem i i₀) : Accounted db' := by
  intro c asset
  have hd : debited db' c asset = debited db c asset +
      if i.customerId = some c ∧ b.asset = asset then i.grossAtomic else 0 := by
    rw [← itemTransaction_debit journalId b i c asset]
    have hentries : journalEntries db' =
        journalEntries db ++ (itemTransaction journalId b i).entries := by
      simp [journalEntries, hp.journal]
    show debitOn (journalEntries db') _ = _
    rw [hentries, debitOn_append]
    rfl
  have hiss : issuedBy db' c asset = issuedBy db c asset := by
    funext j
    rw [issuedBy, issuedBy, hasAsset, hp.batches, hasAsset]
  have hitems : (db'.payoutItems.rows.map (issuedBy db c asset)).sum =
      (db.payoutItems.rows.map (issuedBy db c asset)).sum := by
    rw [hp.items, List.map_map]
    refine congrArg List.sum (List.map_congr_left (fun j _ => ?_))
    simp only [Function.comp]
    split <;> rfl
  rw [hd, hp.owed hcov ht hi₀ hs, hiss, hitems, ← h c asset]
  omega

theorem Accounted.postItems {a : Answer} {b : PayoutBatch} (items : List PayoutItem)
    (h : Accounted db) (hcov : Covered db) (ht : ∀ i ∈ items, Tracks db b i)
    (hp : items.foldlM (postItem a b) db = .ok db') : Accounted db' := by
  induction items generalizing db with
  | nil =>
    rw [List.foldlM_nil, pure_eq_ok] at hp
    exact hp ▸ h
  | cons i items ih =>
    rw [List.foldlM_cons, bind_eq_ok] at hp
    obtain ⟨mid, hi, hp⟩ := hp
    obtain ⟨hcov', hg, _⟩ := hcov.postItem_step (ht i (by simp)) hi
    obtain ⟨i₀, hi₀, hlater⟩ := (ht i (by simp)).item
    refine ih ?_ hcov' (fun j hj => (ht j (by simp [hj])).grow hg) hp
    obtain ⟨_, rfl⟩ | hposts := postItem_ok hi
    · exact h
    · exact h.posts hcov hposts (ht i (by simp)) hi₀ hlater.same

theorem Accounted.post (h : Accounted db) (hcov : Covered db) {a : Answer} {id : Id} {held : Held}
    {ids : List String} (hcopy : Copy db held) (hp : postTransaction a db id held ids = .ok db') :
    Accounted db' := by
  simp only [postTransaction, bind_eq_ok] at hp
  obtain ⟨mid, hl, hu⟩ := hp
  exact (h.postItems held.items hcov hcopy.items hl).rewritten (.updateBatch (sameBatch_broadcast _ _) hu)

end Accounting

section Steps

variable {rt : Runtime} {w w' : World} {a : Answer}

theorem executed_accounted {c : ExecuteCall} {o : Option ExecuteCall}
    (hx : Executed rt w c a w' o) (hcov : Covered w.db) (hl : executeLoc w.db c)
    (h : Accounted w.db) : Accounted w'.db := by
  cases hx with
  | persist hp hs hd => exact h.rewritten (.persist hd)
  | post hp hd =>
    simp only [executeLoc, hp] at hl
    exact h.post hcov hl.1 hd
  | markFailed hp hd => exact h.rewritten (.updateBatch (sameBatch_fail _) hd)
  | acquire | checkReorg | unsigned | opened | readPolicy | prepare | known | unknown | broadcast
  | readResult | fails | failsLater | release => exact h

theorem allocate_accounted {db db' : Database} {depositId : Id} {batch : AllocationBatch}
    (hd : allocateDeposit a.groupOrder (allocationIds a) a.now db depositId = .ok (batch, db'))
    (h : Accounted db) : Accounted db' := by
  obtain ⟨rfl, _, _⟩ | ⟨_, _, _, _, _, _, hc⟩ := allocateDeposit_ok hd
  · exact h
  · exact h.allocated hc

theorem acted_accounted {r : Call} {o : Option Call} (hcov : Covered w.db) (hl : loc w r)
    (ha : Acted rt w a r w' o) (h : Accounted w.db) : Accounted w'.db := by
  cases ha with
  | allocate hd => exact allocate_accounted hd h
  | scan hs =>
    cases hs with
    | readUpstreams | scanReceipts | locked | read => exact h
    | reorg | upsert => exact h.rewritten (.of_same ⟨rfl, rfl, rfl⟩)
    | allocate hd => exact allocate_accounted hd h
  | share hs => exact h.rewritten (.of_same (journals_payouts hs))
  | prepares => exact h.rewritten (.of_same ⟨rfl, rfl, rfl⟩)
  | preparesOperator => exact h
  | plans hp | plansOperator hp => exact h.create hcov hp.created
  | approve hx =>
    cases hx with
    | assertTotp | readBatch => exact h
    | write hd => exact h.rewritten (.updateBatch (sameBatch_approve _ _ _) hd)
  | execute hx => exact executed_accounted hx hcov hl h
  | reconcile hx =>
    cases hx with
    | list | pass | enough => exact h
    | write hd => exact h.rewritten (.updateBatch (sameBatch_confirm _) hd)

theorem fresh_accounted {db : Database} (h : db.Fresh) : Accounted db := by
  intro c asset
  simp [owed, h.payoutItems, debited, journalEntries, h.journalTransactions, debitTotal]

/-- Nothing is lost between the reservation of an item and its debit. -/
theorem reaches_accounted {c : Config World Call} (hw : w.db.Fresh)
    (h : (system rt).Reaches (.idle w) c) : Accounted c.shared.db := by
  have hout : Outline (system rt) (shared (ρ := Call)) (fun _ _ _ => True) (fun _ _ => True)
      (fun w => Covered w.db ∧ Accounted w.db) loc (fun _ w w' => Grows w.db w'.db) :=
    { entry := fun _ _ _ he => entry_loc he
      effect := fun w r a w' o hi hl _ he => by
        have hact := effect_acted he
        obtain ⟨hc, hg, ho⟩ := acted_covered hi.1 hl hact
        exact ⟨⟨hc, acted_accounted hi.1 hl hact hi.2⟩, hg, ho, fun e r' hr' => handler_loc hr'⟩
      handler := fun _ _ _ _ _ _ he => handler_loc he
      background := fun _ _ b _ hl => background_loc hl b
      event := fun w e hi _ => ⟨⟨(change_payouts w e).covered hi.1,
        hi.2.rewritten (.of_same (change_payouts w e))⟩,
        fun _ hl => hl.grow (change_payouts w e).grows⟩
      stable := fun _ _ _ _ _ hg _ hl => hl.grow hg }
  exact (hout.run (keyed_shared _) (Outline.idle ⟨fresh_covered hw, fresh_accounted hw⟩)
    h.allowed).inv.2

end Steps

section Exactness

variable {db : Database}

theorem issued_eq (h : Covered db) (c : Id) (asset : AssetCode) :
    issued db c asset = (db.payoutItems.rows.map (issuedBy db c asset)).sum := by
  rw [issued, sum_filter]
  refine congrArg List.sum (List.map_congr_left (fun i _ => ?_))
  refine if_congr ?_ rfl rfl
  rw [decide_eq_true_eq, hasAsset_iff, List.any_eq_true]
  refine and_congr_right (fun _ => exists_congr (fun b => and_congr_right (fun hb => ?_)))
  simp [h.alive b hb]

theorem reserved_eq (h : Covered db) (c : Id) (asset : AssetCode) :
    reserved db c asset = owed db c asset +
      (db.payoutItems.rows.map (fun i => if i.customerId = some c ∧
        i.journalTransactionId.isSome ∧ inOpenBatch db asset i.batchId then i.grossAtomic
          else 0)).sum := by
  rw [reserved, sum_filter, owed, ← List.sum_map_add]
  refine congrArg List.sum (List.map_congr_left (fun i hi => ?_))
  rw [owedBy]
  cases hj : i.journalTransactionId with
  | some j => simp
  | none =>
    have hopen : inOpenBatch db asset i.batchId = hasAsset db asset i.batchId := by
      refine Bool.eq_iff_iff.mpr ⟨fun ho => ?_, fun ha => owed_open h hi hj ha⟩
      obtain ⟨b, hb, hid, ha, _⟩ := inOpenBatch_iff.mp ho
      exact hasAsset_iff.mpr ⟨b, hb, hid, ha⟩
    simp [hopen]

theorem sum_eq_zero_iff {α : Type} (p : α → Prop) [DecidablePred p] (g : α → ℤ) (l : List α)
    (hg : ∀ x ∈ l, 0 ≤ g x) :
    (l.map (fun x => if p x then g x else 0)).sum = 0 ↔ ∀ x ∈ l, p x → g x = 0 := by
  induction l with
  | nil => simp
  | cons x l ih =>
    have hrest : 0 ≤ (l.map (fun x => if p x then g x else 0)).sum := by
      refine List.sum_nonneg (fun y hy => ?_)
      obtain ⟨z, hz, rfl⟩ := List.mem_map.mp hy
      split
      · exact hg z (by simp [hz])
      · exact le_rfl
    have hx := hg x (by simp)
    have hi := ih (fun y hy => hg y (by simp [hy]))
    rw [List.map_cons, List.sum_cons, List.forall_mem_cons, ← hi]
    by_cases hp : p x
    · simp only [hp, ↓reduceIte, forall_const]
      omega
    · simp [hp]

/-- In every reachable state the amount on offer is what was credited less what
was ever issued, exactly when no posted item is still counted as open. -/
theorem payable_exact_iff {rt : Runtime} {w : World} {c : Config World Call} (hw : w.db.Fresh)
    (h : (system rt).Reaches (.idle w) c) (customerId : Id) (asset : AssetCode) :
    ExactPayable c.shared.db customerId asset ↔ PostedClosed c.shared.db customerId asset := by
  have hcov := reaches_covered hw h
  have hacc := reaches_accounted hw h customerId asset
  have htotals := customerBalance_totals c.shared.db customerId asset
  have hres := reserved_eq hcov customerId asset
  have hroom := hcov.covered customerId asset
  have hzero := sum_eq_zero_iff (fun i : PayoutItem => i.customerId = some customerId ∧
    i.journalTransactionId.isSome ∧ inOpenBatch c.shared.db asset i.batchId)
    PayoutItem.grossAtomic c.shared.db.payoutItems.rows hcov.gross
  have hav : available c.shared.db customerId asset =
      customerBalance c.shared.db customerId asset - reserved c.shared.db customerId asset := rfl
  rw [← issued_eq hcov] at hacc
  constructor
  · intro hexact i hi hc hj ho
    have hex := hexact.available
    exact hzero.mp (by omega) i hi ⟨hc, hj, ho⟩
  · intro hclosed
    have hsum := hzero.mpr (fun i hi hc => hclosed i hi hc.1 hc.2.1 hc.2.2)
    have hmain : available c.shared.db customerId asset =
        credited c.shared.db customerId asset - issued c.shared.db customerId asset := by omega
    refine ⟨hmain, ?_, by omega⟩
    rintro order selected line hline rfl rfl
    rw [payableAtomic_eq hline, hmain]

theorem payable_exact_iff_sample : ∃ c, (system sampleRuntime).Reaches (.idle sampleWorld) c ∧
    available c.shared.db 1 .btc = 0 ∧ ExactPayable c.shared.db 1 .btc := by
  obtain ⟨c, hr, hv⟩ := exec_sample (sampleCredit ++ samplePayout.take 4)
    (f := fun c => (available c.shared.db 1 .btc,
      (c.shared.db.payoutItems.rows.map PayoutItem.journalTransactionId)))
    (v := (0, [none])) (by decide +kernel)
  refine ⟨c, hr, (Prod.mk.inj hv).1, (payable_exact_iff sampleWorld_fresh hr 1 .btc).mpr ?_⟩
  intro i hi _ hj
  have hm : i.journalTransactionId ∈ [none] := (Prod.mk.inj hv).2 ▸ List.mem_map_of_mem hi
  rw [List.mem_singleton.mp hm] at hj
  cases hj

/-- After the broadcast the item is debited and reserved at once. -/
theorem broadcast_item_counted_twice : ∃ c, (system sampleRuntime).Reaches (.idle sampleWorld) c ∧
    credited c.shared.db 1 .btc = 800 ∧ issued c.shared.db 1 .btc = 800 ∧
      available c.shared.db 1 .btc = -800 ∧
      (customerBalances .asStored c.shared.db (some .btc)).map BalanceLine.payableAtomic = [-800] ∧
      ¬ ExactPayable c.shared.db 1 .btc := by
  obtain ⟨c, hr, hv⟩ := exec_sample (sampleCredit ++ samplePayout.take 17)
    (f := fun c => (credited c.shared.db 1 .btc, issued c.shared.db 1 .btc,
      available c.shared.db 1 .btc,
      (customerBalances .asStored c.shared.db (some .btc)).map BalanceLine.payableAtomic))
    (v := (800, 800, -800, [-800])) (by decide +kernel)
  simp only [Prod.mk.injEq] at hv
  refine ⟨c, hr, hv.1, hv.2.1, hv.2.2.1, hv.2.2.2, fun hex => ?_⟩
  have := hex.nonneg
  omega

end Exactness

end Bitmine.Payable
