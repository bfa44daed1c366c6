import Bitmine.LatestDue

namespace Bitmine.BatchPlanning

open Bitmine.Lib.UniqueTable Bitmine.Lib.Throwing Bitmine.Lib.Await
open Bitmine.Schema Bitmine.Deployment Bitmine.Payouts
open Bitmine.DestinationCycle Bitmine.LatestDue

section Alone

variable {rt : Runtime} {db db' : Database} {a : Answer} {asset : AssetCode}
  {l : List PayoutDestination} {answers : List Answer} {policy : PayoutPolicySetting}

theorem activateDestination_frame {now : Instant} {due : PayoutDestination}
    (h : activateDestination db now due = .ok db') :
    db' = withDestinations db db'.payoutDestinations := by
  simp only [activateDestination, bind_eq_ok, pure_eq_ok] at h
  obtain ⟨_, _, rfl⟩ := h
  rfl

theorem planTransaction_destinations (h : planTransaction rt a db asset policy = .ok db') :
    db'.payoutDestinations = db.payoutDestinations := by
  obtain rfl | ⟨items, hp⟩ := planTransaction_ok h
  · rfl
  · rw [hp.created.frame]
    rfl

/-- What is left of `plan` once the due destinations are listed: each is activated,
the policy is read, and the batch is made. -/
theorem alone_activateNext
    (h : alone (stepPlan rt) db (some (activateNext asset l)) answers = some db') :
    ∃ as b c, answers = as ++ [b, c] ∧ as.length = l.length ∧
      db'.payoutDestinations.rows =
        db.payoutDestinations.rows.map (activatedBy (l.zip (as.map Answer.now))) ∧
      planTransaction rt c (withDestinations db db'.payoutDestinations) asset db.payoutPolicy =
        .ok db' := by
  induction l generalizing db answers with
  | nil =>
    obtain ⟨b, _, db₁, o, rfl, he, h⟩ := alone_some h
    cases he
    obtain ⟨c, _, db₂, o, rfl, he, h⟩ := alone_some h
    simp only [stepPlan, bind_eq_ok, pure_eq_ok] at he
    obtain ⟨_, ht, he⟩ := he
    cases he
    obtain ⟨rfl, rfl⟩ := alone_none h
    have hkept := planTransaction_destinations ht
    refine ⟨[], b, c, rfl, rfl, ?_, ?_⟩
    · rw [hkept]
      exact (List.map_id _).symm
    · rw [hkept]
      exact ht
  | cons due rest ih =>
    obtain ⟨x, _, db₁, o, rfl, he, h⟩ := alone_some h
    simp only [activateNext, stepPlan, bind_eq_ok, pure_eq_ok] at he
    obtain ⟨_, hd, he⟩ := he
    cases he
    obtain ⟨as, b, c, rfl, hlen, hrows, ht⟩ := ih h
    refine ⟨x :: as, b, c, rfl, congrArg (· + 1) hlen, ?_, ?_⟩
    · rw [hrows, (activateDestination_ok hd).2, List.map_map]
      rfl
    · rw [activateDestination_frame hd] at ht
      exact ht

/-- `plan` alone: the due destinations are activated, and on what comes of it the
batch is made. -/
theorem alone_plan (h : alone (stepPlan rt) db (some (.listDue asset)) answers = some db') :
    ∃ x as b c, answers = x :: (as ++ [b, c]) ∧
      Completed x db.payoutDestinations db'.payoutDestinations ∧
      planTransaction rt c (withDestinations db db'.payoutDestinations) asset db.payoutPolicy =
        .ok db' := by
  obtain ⟨x, _, db₁, o, rfl, he, h⟩ := alone_some h
  cases he
  obtain ⟨as, b, c, rfl, hlen, hrows, ht⟩ := alone_activateNext h
  exact ⟨x, as, b, c, rfl, ⟨as.map Answer.now, (List.length_map _).trans hlen, hrows⟩, ht⟩

end Alone

section Selection

/-- What the query of `plan` would return without a limit, in its order. -/
def candidates (a : Answer) (db : Database) (asset : AssetCode) : List PayoutDestination :=
  ((a.destinationOrder.arrange db.payoutDestinations.rows).filter (fun d =>
    d.asset = asset ∧ d.status = .active ∧ d.effectiveAt ≤ a.now ∧
      customerActive db d.customerId)).insertionSort (fun d e => d.createdAt ≤ e.createdAt)

/-- What is available for the customer of a destination reaches both minimums. -/
def ReachesMinimum (db : Database) (asset : AssetCode) (d : PayoutDestination) : Prop :=
  ((max d.minPayoutAtomic (db.payoutPolicy.minimumAtomic asset) : ℕ) : ℤ) ≤
    available db d.customerId asset

instance (db : Database) (asset : AssetCode) : DecidablePred (ReachesMinimum db asset) :=
  fun _ => inferInstanceAs (Decidable (_ ≤ _))

/-- An active customer with an active destination in effect whose minimum, and that of
the policy, is available. -/
def Eligible (now : Instant) (db : Database) (asset : AssetCode) (c : Customer) : Prop :=
  c.status = .active ∧ ∃ d ∈ db.payoutDestinations.rows, d.customerId = c.id ∧ d.asset = asset ∧
    d.status = .active ∧ d.effectiveAt ≤ now ∧ ReachesMinimum db asset d

instance (now : Instant) (db : Database) (asset : AssetCode) :
    DecidablePred (Eligible now db asset) :=
  fun _ => inferInstanceAs (Decidable (_ ∧ ∃ d ∈ _, _))

def eligibleCustomers (now : Instant) (db : Database) (asset : AssetCode) : List Customer :=
  db.customers.rows.filter (Eligible now db asset)

/-- From a database whose due destinations are activated: a batch with an item for as many
eligible customers as it may hold, or none because nobody is eligible. -/
structure IncludesAll (now : Instant) (db db' : Database) (asset : AssetCode) : Prop where
  planned : eligibleCustomers now db asset ≠ [] → ∃ batch items,
    db'.payoutBatches.rows = db.payoutBatches.rows ++ [batch] ∧ batch.asset = asset ∧
    db'.payoutItems.rows = db.payoutItems.rows ++ items ∧
    items.length = min (eligibleCustomers now db asset).length db.payoutPolicy.maxBatchItems ∧
    ∀ i ∈ items, i.batchId = batch.id ∧
      ∃ c ∈ eligibleCustomers now db asset, i.customerId = some c.id
  unplanned : eligibleCustomers now db asset = [] → db' = db

/-- All destinations within the limit reach their minimums, or none beyond it does. -/
def CutsNoneOff (a : Answer) (db : Database) (asset : AssetCode) : Prop :=
  (∀ d ∈ (candidates a db asset).take db.payoutPolicy.maxBatchItems, ReachesMinimum db asset d) ∨
    ∀ d ∈ (candidates a db asset).drop db.payoutPolicy.maxBatchItems, ¬ ReachesMinimum db asset d

variable {rt : Runtime} {a : Answer} {db db' : Database} {asset : AssetCode}

theorem eligibleDestinations_eq : eligibleDestinations a db asset db.payoutPolicy =
    (candidates a db asset).take db.payoutPolicy.maxBatchItems := rfl

theorem mem_candidates {d : PayoutDestination} : d ∈ candidates a db asset ↔
    d ∈ db.payoutDestinations.rows ∧ d.asset = asset ∧ d.status = .active ∧
      d.effectiveAt ≤ a.now ∧ customerActive db d.customerId = true := by
  rw [candidates, List.mem_insertionSort, List.mem_filter,
    (a.destinationOrder.perm _).mem_iff, decide_eq_true_eq]

theorem candidates_length_le : (candidates a db asset).length ≤ db.payoutDestinations.rows.length := by
  rw [candidates, List.length_insertionSort]
  exact List.length_filter_le _ _ |>.trans_eq (a.destinationOrder.perm _).length_eq

theorem customerActive_iff {id : Id} : customerActive db id = true ↔
    ∃ c ∈ db.customers.rows, c.id = id ∧ c.status = .active := by
  simp [customerActive]

theorem isSome_planItem (d : PayoutDestination) :
    (planItem db asset db.payoutPolicy d).isSome = decide (ReachesMinimum db asset d) := by
  unfold planItem ReachesMinimum
  dsimp only
  split <;> simp_all

theorem nodup_candidates : (candidates a db asset).Nodup := by
  rw [candidates, (List.perm_insertionSort _ _).nodup_iff]
  exact ((a.destinationOrder.perm _).nodup_iff.mpr db.payoutDestinations.rows_nodup).filter _

theorem candidates_nodup (hsingle : SingleActive db.payoutDestinations.rows) :
    ((candidates a db asset).map PayoutDestination.customerId).Nodup := by
  refine nodup_candidates.map_on (fun d hd e he hde => ?_)
  obtain ⟨hd, hda, hds, _⟩ := mem_candidates.mp hd
  obtain ⟨he, hea, hes, _⟩ := mem_candidates.mp he
  exact db.payoutDestinations.eq_of_id hd he (hsingle d hd e he hds hes hde (hda.trans hea.symm))

/-- With one active destination each, there are as many eligible customers as destinations
that reach their minimums. -/
theorem eligibleCustomers_length (hsingle : SingleActive db.payoutDestinations.rows) :
    (eligibleCustomers a.now db asset).length =
      (candidates a db asset).countP (ReachesMinimum db asset) := by
  have hperm : ((eligibleCustomers a.now db asset).map Customer.id).Perm
      (((candidates a db asset).filter (ReachesMinimum db asset)).map
        PayoutDestination.customerId) := by
    refine (List.perm_ext_iff_of_nodup ?_ ?_).mpr (fun id => ?_)
    · refine (db.customers.rows_nodup.filter _).map_on (fun c hc e he hid => ?_)
      exact db.customers.eq_of_id (List.mem_filter.mp hc).1 (List.mem_filter.mp he).1 hid
    · exact (candidates_nodup hsingle).sublist (List.filter_sublist.map _)
    · simp only [eligibleCustomers, List.mem_map, List.mem_filter, decide_eq_true_eq, mem_candidates]
      constructor
      · rintro ⟨c, ⟨hc, hactive, d, hd, hid, hda, hds, hde, hreach⟩, rfl⟩
        exact ⟨d, ⟨⟨hd, hda, hds, hde, customerActive_iff.mpr ⟨c, hc, hid.symm, hactive⟩⟩, hreach⟩, hid⟩
      · rintro ⟨d, ⟨⟨hd, hda, hds, hde, hcustomer⟩, hreach⟩, rfl⟩
        obtain ⟨c, hc, hid, hactive⟩ := customerActive_iff.mp hcustomer
        exact ⟨c, ⟨hc, hactive, d, hd, hid.symm, hda, hds, hde, hreach⟩, hid⟩
  have hlen := hperm.length_eq
  rwa [List.length_map, List.length_map, ← List.countP_eq_length_filter] at hlen

end Selection

section Limit

variable {rt : Runtime} {a : Answer} {db db' : Database} {asset : AssetCode}

theorem countP_take_eq_min_iff {α : Type} {p : α → Bool} {l : List α} {n : ℕ} :
    (l.take n).countP p = min (l.countP p) n ↔
      (∀ x ∈ l.take n, p x = true) ∨ ∀ x ∈ l.drop n, ¬ p x = true := by
  have hsum : l.countP p = (l.take n).countP p + (l.drop n).countP p := by
    rw [← List.countP_append, List.take_append_drop]
  have hle : (l.take n).countP p ≤ (l.take n).length := List.countP_le_length
  have hlen : (l.take n).length = min n l.length := List.length_take
  rw [← List.countP_eq_length, ← List.countP_eq_zero]
  constructor
  · intro h
    by_cases hrest : (l.drop n).countP p = 0
    · exact .inr hrest
    · exact .inl (by omega)
  · rintro (h | h)
    · have hdrop : (l.drop n).countP p ≤ l.length - n :=
        List.countP_le_length.trans_eq List.length_drop
      omega
    · omega

/-- The items of the batch that `plan` makes. -/
def plannedItems (a : Answer) (db : Database) (asset : AssetCode) : List NewItem :=
  (eligibleDestinations a db asset db.payoutPolicy).filterMap (planItem db asset db.payoutPolicy)

theorem plannedItems_length : (plannedItems a db asset).length =
    ((candidates a db asset).take db.payoutPolicy.maxBatchItems).countP (ReachesMinimum db asset) := by
  rw [plannedItems, List.length_filterMap_eq_countP, eligibleDestinations_eq]
  refine List.countP_congr (fun d _ => ?_)
  rw [isSome_planItem]

theorem mem_plannedItems {i : NewItem} (h : i ∈ plannedItems a db asset) :
    ∃ d ∈ (candidates a db asset).take db.payoutPolicy.maxBatchItems, ReachesMinimum db asset d ∧
      i = ⟨some d.customerId, d.address, available db d.customerId asset⟩ := by
  obtain ⟨d, hd, hi⟩ := List.mem_filterMap.mp h
  have hreach : ReachesMinimum db asset d := by
    have hsome : (planItem db asset db.payoutPolicy d).isSome = decide (ReachesMinimum db asset d) :=
      isSome_planItem d
    rw [hi] at hsome
    exact of_decide_eq_true hsome.symm
  refine ⟨d, hd, hreach, ?_⟩
  rw [planItem, if_pos (by exact hreach)] at hi
  exact (Option.some.inj hi).symm

theorem planTransaction_cases (h : planTransaction rt a db asset db.payoutPolicy = .ok db') :
    plannedItems a db asset = [] ∧ db' = db ∨
      plannedItems a db asset ≠ [] ∧ ∃ batch, batch.asset = asset ∧ batch.id = a.newId 0 ∧
        Created a db db' batch (plannedItems a db asset) := by
  rw [planTransaction] at h
  dsimp only at h
  split at h
  · rename_i hempty
    cases h
    exact .inl ⟨List.isEmpty_iff.mp hempty, rfl⟩
  · rename_i hsome
    exact .inr ⟨fun hnil => hsome (List.isEmpty_iff.mpr hnil), _, rfl, rfl, createBatch_ok h⟩

theorem plannedItems_eligible {i : NewItem} (h : i ∈ plannedItems a db asset) :
    ∃ c ∈ eligibleCustomers a.now db asset, i.customerId = some c.id := by
  obtain ⟨d, hd, hreach, rfl⟩ := mem_plannedItems h
  obtain ⟨hdm, hda, hds, hde, hcustomer⟩ := mem_candidates.mp (List.mem_of_mem_take hd)
  obtain ⟨c, hc, hid, hactive⟩ := customerActive_iff.mp hcustomer
  refine ⟨c, List.mem_filter.mpr ⟨hc, decide_eq_true ⟨hactive, d, hdm, hid.symm, hda, hds, hde, hreach⟩⟩, ?_⟩
  exact congrArg some hid.symm

theorem planTransaction_includes_iff
    (h : planTransaction rt a db asset db.payoutPolicy = .ok db')
    (hsingle : SingleActive db.payoutDestinations.rows) (hmax : 0 < db.payoutPolicy.maxBatchItems) :
    IncludesAll a.now db db' asset ↔ CutsNoneOff a db asset := by
  have hcount : (eligibleCustomers a.now db asset).length =
      (candidates a db asset).countP (ReachesMinimum db asset) := eligibleCustomers_length hsingle
  have hmin : (plannedItems a db asset).length =
      min (eligibleCustomers a.now db asset).length db.payoutPolicy.maxBatchItems ↔
        CutsNoneOff a db asset := by
    rw [plannedItems_length, hcount, countP_take_eq_min_iff]
    simp only [decide_eq_true_eq]
    rfl
  rw [← hmin]
  obtain ⟨hnil, rfl⟩ | ⟨hne, batch, hasset, hid, hcreated⟩ := planTransaction_cases h
  · rw [hnil]
    constructor
    · intro hall
      by_cases hnone : eligibleCustomers a.now db' asset = []
      · rw [hnone]
        rfl
      · obtain ⟨batch, _, hbatches, _⟩ := hall.planned hnone
        exact absurd (congrArg List.length hbatches) (by simp)
    · intro hlen
      have hnone : eligibleCustomers a.now db' asset = [] := by
        apply List.length_eq_zero_iff.mp
        rw [List.length_nil] at hlen
        omega
      exact ⟨fun hsome => absurd hnone hsome, fun _ => rfl⟩
  · obtain ⟨i, hi⟩ := List.exists_mem_of_ne_nil _ hne
    obtain ⟨c, hc, _⟩ := plannedItems_eligible hi
    have hsome : eligibleCustomers a.now db asset ≠ [] := List.ne_nil_of_mem hc
    constructor
    · intro hall
      obtain ⟨batch', items, _, _, hitems, hlen, _⟩ := hall.planned hsome
      have hsame := List.append_cancel_left (hcreated.items.symm.trans hitems)
      rw [← hlen, ← hsame, List.length_mapIdx]
    · intro hlen
      refine ⟨fun _ => ⟨batch, _, hcreated.batches, hasset, hcreated.items, ?_, fun x hx => ?_⟩,
        fun hnone => absurd hnone hsome⟩
      · rw [List.length_mapIdx, hlen]
      · obtain ⟨n, hn, rfl⟩ := List.mem_mapIdx.mp hx
        exact ⟨hid.symm, plannedItems_eligible (List.getElem_mem hn)⟩

/-- Alone, `plan` makes a batch for all eligible customers, as far as it may hold them,
exactly when its limit of destinations cuts none of them off. -/
theorem plan_includes_iff {answers : List Answer}
    (h : alone (stepPlan rt) db (some (.listDue asset)) (answers ++ [a]) = some db')
    (hsingle : SingleActive db.payoutDestinations.rows) (hmax : 0 < db.payoutPolicy.maxBatchItems) :
    IncludesAll a.now (withDestinations db db'.payoutDestinations) db' asset ↔
      CutsNoneOff a (withDestinations db db'.payoutDestinations) asset := by
  obtain ⟨x, as, b, c, hanswers, hcompleted, ht⟩ := alone_plan h
  have hsnoc : answers ++ [a] = (x :: (as ++ [b])) ++ [c] := by
    rw [hanswers]
    simp
  obtain rfl : a = c := List.singleton_inj.mp (List.append_inj' hsnoc rfl).2
  exact planTransaction_includes_iff ht (hcompleted.singleActive hsingle) hmax

end Limit

section Sample

def unfunded : PayoutDestination := ⟨1, 1, .btc, "bc1qone", .active, 0, 1, 0, none⟩

def funded : PayoutDestination := ⟨2, 2, .btc, "bc1qtwo", .active, 0, 1, 1, none⟩

def twoCustomers (maxBatchItems : ℕ) : Database :=
  { Database.empty ⟨"UTC", .customer, 1000, maxBatchItems, fun _ => 1, fun _ => 900⟩
      (fun _ => ⟨.retain, "", 1⟩) with
    customers := ⟨[⟨1, .active⟩, ⟨2, .active⟩], by decide⟩
    payoutDestinations := ⟨[unfunded, funded], by decide⟩
    journalTransactions := .single ⟨1, .btc, .allocation, .allocationBatch 1,
      [⟨⟨.btc, .allocationClearing⟩, .debit, 1000⟩,
        ⟨⟨.btc, .customerLiability 2⟩, .credit, 1000⟩]⟩ }

theorem twoCustomers_single (maxBatchItems : ℕ) :
    SingleActive (twoCustomers maxBatchItems).payoutDestinations.rows := by
  intro d hd e he
  fin_cases hd <;> fin_cases he <;> decide

def planAnswers : List Answer := [{ now := 10 }, { now := 10 }]

theorem plan_includes_sample : ∃ db', alone (stepPlan sampleOfficeRuntime) (twoCustomers 2)
      (some (.listDue .btc)) (planAnswers ++ [{ now := 11 }]) = some db' ∧
    IncludesAll 11 (withDestinations (twoCustomers 2) db'.payoutDestinations) db' .btc := by
  have hview : (alone (stepPlan sampleOfficeRuntime) (twoCustomers 2) (some (.listDue .btc))
      (planAnswers ++ [{ now := 11 }])).map (fun db => db.payoutDestinations.rows.length) =
        some 2 := by decide +kernel
  obtain ⟨db', hdb', hlen⟩ := Option.map_eq_some_iff.mp hview
  refine ⟨db', hdb', (plan_includes_iff hdb' (twoCustomers_single 2) (by decide)).mpr (.inr ?_)⟩
  have hnone : (candidates { now := 11 } (withDestinations (twoCustomers 2) db'.payoutDestinations)
      .btc).drop 2 = [] := List.drop_eq_nil_iff.mpr (candidates_length_le.trans_eq hlen)
  intro d hd
  exact absurd (hnone ▸ hd) List.not_mem_nil

/-- With room for one destination, the older one of a customer without a balance keeps the
eligible customer out. -/
theorem eligible_customer_cut_off : ¬ ∀ (db db' : Database) (asset : AssetCode) (a : Answer)
    (answers : List Answer),
    alone (stepPlan sampleOfficeRuntime) db (some (.listDue asset)) (answers ++ [a]) = some db' →
      SingleActive db.payoutDestinations.rows → 0 < db.payoutPolicy.maxBatchItems →
      IncludesAll a.now (withDestinations db db'.payoutDestinations) db' asset := by
  intro h
  have hview : (alone (stepPlan sampleOfficeRuntime) (twoCustomers 1) (some (.listDue .btc))
      (planAnswers ++ [{ now := 11 }])).map (fun db => (db.payoutBatches.rows.length,
        (eligibleCustomers 11 (withDestinations (twoCustomers 1) db.payoutDestinations)
          .btc).map Customer.id)) = some (0, [2]) := by decide +kernel
  obtain ⟨db', hdb', hv⟩ := Option.map_eq_some_iff.mp hview
  obtain ⟨hbatches, heligible⟩ := Prod.mk.inj hv
  have hsome : eligibleCustomers 11 (withDestinations (twoCustomers 1) db'.payoutDestinations)
      .btc ≠ [] := fun hnil => by
    rw [hnil] at heligible
    cases heligible
  obtain ⟨batch, _, hrows, _⟩ :=
    (h _ db' .btc _ _ hdb' (twoCustomers_single 1) (by decide)).planned hsome
  rw [hrows, List.length_append] at hbatches
  exact Nat.succ_ne_zero _ hbatches

end Sample

end Bitmine.BatchPlanning
