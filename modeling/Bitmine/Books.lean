import Bitmine.AllocationSpec

namespace Bitmine.Books

open Bitmine.Lib.UniqueTable Bitmine.Lib.GroupSum Bitmine.Lib.Throwing
open Bitmine.Schema Bitmine.Ledger Bitmine.LedgerPosting Bitmine.AllocateDeposit
open Bitmine.AllocationSpec

inductive LedgerOp where
  | allocateDeposit (order : Order ((Id × Id) × ℚ)) (ids : AllocationIds) (now : Instant)
      (depositId : Id)
  | postPayout (id : Id) (input : PayoutPosting)
  | postOperatorPayout (id : Id) (input : OperatorPosting)

def LedgerOp.apply (db : Database) : LedgerOp → Except String Database
  | .allocateDeposit order ids now depositId =>
    (AllocateDeposit.allocateDeposit order ids now db depositId).map Prod.snd
  | .postPayout id input => Ledger.postPayout db id input
  | .postOperatorPayout id input => Ledger.postOperatorPayout db id input

/-- Whatever else happens to the database, the journal is left alone and
accounts and allocation batches are never removed. -/
structure Elsewhere (db db' : Database) : Prop where
  journal : db'.journalTransactions = db.journalTransactions
  refs : ∀ r ∈ accountRefs db, r ∈ accountRefs db'
  batches : ∀ b ∈ db.allocationBatches.rows, b ∈ db'.allocationBatches.rows

/-- A ledger state reached from an empty journal, with the operations that succeeded. -/
inductive LedgerRun : List LedgerOp → Database → Prop where
  | start {db : Database} : db.journalTransactions.rows = [] → LedgerRun [] db
  | op {ops : List LedgerOp} {db db' : Database} {op : LedgerOp} :
      LedgerRun ops db → op.apply db = .ok db' → LedgerRun (ops ++ [op]) db'
  | elsewhere {ops : List LedgerOp} {db db' : Database} :
      LedgerRun ops db → Elsewhere db db' → LedgerRun ops db'

def runOps (db : Database) (ops : List LedgerOp) : Except String Database :=
  ops.foldlM LedgerOp.apply db

def operatorPaidFee (asset : AssetCode) : LedgerOp → ℤ
  | .postPayout _ input =>
    if input.asset = asset ∧ 0 < input.feeAtomic ∧ input.operatorPaysFee then input.feeAtomic else 0
  | _ => 0

def debitBalance (db : Database) (account : AccountRef) : ℤ := -creditBalance db account

def isLiability : AccountCode → Bool
  | .customerLiability _ => true
  | _ => false

def liabilityRefs (db : Database) (asset : AssetCode) : List AccountRef :=
  (accountRefs db).filter (fun r => r.asset = asset ∧ isLiability r.code)

def liabilitySum (db : Database) (asset : AssetCode) : ℤ :=
  ((liabilityRefs db asset).map (creditBalance db)).sum

def assetEntries (db : Database) (asset : AssetCode) : List JournalEntry :=
  (journalEntries db).filter (fun e => e.account.asset = asset)

def accountEntries (db : Database) (account : AccountRef) : List JournalEntry :=
  (journalEntries db).filter (fun e => e.account = account)

def accountRow (db : Database) (a : LedgerAccount) : TrialBalanceRow :=
  ⟨a, debitTotal (accountEntries db a.ref), creditTotal (accountEntries db a.ref)⟩

structure Referenced (db : Database) (t : JournalTransaction) : Prop where
  deposit : ∀ d, t.reference = .deposit d → ∃ b ∈ db.allocationBatches.rows, b.depositId = d
  batch : ∀ i, t.reference = .allocationBatch i → ∃ b ∈ db.allocationBatches.rows, b.id = i

/-- The books after some operations: every transaction balances within its own
asset on accounts that exist, clearing is empty, and the fee accounts differ by
what the operator has borne. -/
structure Balanced (ops : List LedgerOp) (db : Database) : Prop where
  balanced : ∀ t ∈ db.journalTransactions.rows, debitTotal t.entries = creditTotal t.entries
  booked : ∀ t ∈ db.journalTransactions.rows, ∀ e ∈ t.entries,
    e.account ∈ accountRefs db ∧ e.account.asset = t.asset
  clearing : ∀ asset, net (journalEntries db) ⟨asset, .allocationClearing⟩ = 0
  fees : ∀ asset, net (journalEntries db) ⟨asset, .networkFee⟩ +
    net (journalEntries db) ⟨asset, .networkFeeRecovery⟩ = (ops.map (operatorPaidFee asset)).sum
  referenced : ∀ t ∈ db.journalTransactions.rows, Referenced db t

theorem Referenced.mono {db db' : Database} {t : JournalTransaction} (h : Referenced db t)
    (hb : ∀ b ∈ db.allocationBatches.rows, b ∈ db'.allocationBatches.rows) : Referenced db' t := by
  refine ⟨fun d hd => ?_, fun i hi => ?_⟩
  · obtain ⟨b, hm, he⟩ := h.deposit d hd
    exact ⟨b, hb b hm, he⟩
  · obtain ⟨b, hm, he⟩ := h.batch i hi
    exact ⟨b, hb b hm, he⟩

theorem runOps_run {ops : List LedgerOp} (done : List LedgerOp) {db db' : Database} (h : LedgerRun done db)
    (hr : runOps db ops = .ok db') : LedgerRun (done ++ ops) db' := by
  induction ops generalizing done db with
  | nil =>
    rw [runOps, List.foldlM_nil, pure_eq_ok] at hr
    subst hr
    simpa using h
  | cons op ops ih =>
    rw [runOps, List.foldlM_cons, bind_eq_ok] at hr
    obtain ⟨mid, hm, hr⟩ := hr
    simpa using ih _ (h.op hm) hr

theorem liabilityLines_net (asset : AssetCode) (totals : List (Id × ℤ)) {account : AccountRef}
    (h : isLiability account.code = false) :
    net (totals.map (fun t => ⟨liabilityRef asset t.1, .credit, t.2⟩)) account = 0 := by
  refine net_eq_zero (fun e he heq => ?_)
  obtain ⟨t, _, rfl⟩ := List.mem_map.mp he
  rw [← heq] at h
  cases h

theorem allocationEntries_net (deposit : Deposit) (items : List AllocationItem) (asset : AssetCode) :
    net (allocationEntries deposit items) ⟨asset, .allocationClearing⟩ =
      (if deposit.asset = asset then deposit.amountAtomic else 0) ∧
    net (allocationEntries deposit items) ⟨asset, .networkFee⟩ = 0 ∧
    net (allocationEntries deposit items) ⟨asset, .networkFeeRecovery⟩ = 0 := by
  have hop : ∀ code, code ≠ AccountCode.operatorRevenue →
      net (if 0 < operatorTotal items then
        [⟨⟨deposit.asset, .operatorRevenue⟩, .credit, operatorTotal items⟩] else [])
        ⟨asset, code⟩ = 0 := by
    intro code hc
    refine net_eq_zero (fun e he heq => hc ?_)
    split at he
    · rw [List.mem_singleton.mp he, AccountRef.mk.injEq] at heq
      exact heq.2.symm
    · cases he
  refine ⟨?_, ?_, ?_⟩
  all_goals
    rw [allocationEntries, net_append, net_append, liabilityLines_net _ _ rfl, hop _ (by simp)]
    simp [net_cons, signed]

/-- What an operation adds to the journal, account by account. -/
theorem apply_ok {db db' : Database} {op : LedgerOp} (h : op.apply db = .ok db') :
    ∃ ts, Appends db db' ts ∧ (∀ b ∈ db.allocationBatches.rows, b ∈ db'.allocationBatches.rows) ∧
      (∀ t ∈ ts, Referenced db' t) ∧ ∀ asset,
      net (ts.flatMap JournalTransaction.entries) ⟨asset, .allocationClearing⟩ = 0 ∧
      net (ts.flatMap JournalTransaction.entries) ⟨asset, .networkFee⟩ +
        net (ts.flatMap JournalTransaction.entries) ⟨asset, .networkFeeRecovery⟩ =
          operatorPaidFee asset op := by
  cases op with
  | allocateDeposit order ids now depositId =>
    obtain ⟨⟨batch, db''⟩, ha, rfl⟩ := map_eq_ok.mp h
    obtain ⟨rfl, _, _⟩ | ⟨deposit, endpointIds, items, _, _, _, hc⟩ := allocateDeposit_ok ha
    · exact ⟨[], ⟨by simp, by simp, fun r hr => hr, by simp⟩, fun b hb => hb, by simp,
        fun asset => ⟨rfl, rfl⟩⟩
    · refine ⟨_, hc.ledger, fun b hb => by simp [hc.batches, hb], ?_, fun asset => ?_⟩
      · intro t ht
        have hmem : allocationBatch ids deposit items ∈ db''.allocationBatches.rows := by
          simp [hc.batches]
        rcases List.mem_cons.mp ht with rfl | ht
        · refine ⟨fun d hd => ⟨_, hmem, ?_⟩, fun i hi => (by cases hi)⟩
          cases hd
          rfl
        · rw [List.mem_singleton.mp ht]
          refine ⟨fun d hd => (by cases hd), fun i hi => ⟨_, hmem, ?_⟩⟩
          cases hi
          rfl
      obtain ⟨h1, h2, h3⟩ := allocationEntries_net deposit items asset
      simp only [List.flatMap_cons, List.flatMap_nil, List.append_nil, net_append,
        allocationJournal, depositJournal, h1, h2, h3, operatorPaidFee]
      constructor
      · by_cases ha : deposit.asset = asset <;> simp [depositEntries, net_cons, signed, ha]
      · simp [depositEntries, net_cons]
  | postPayout id input =>
    obtain ⟨ha, _, _, hframe⟩ := postPayout_ok h
    refine ⟨_, ha, by rw [hframe]; exact fun b hb => hb, ?_, fun asset => ?_⟩
    · intro t ht
      rw [List.mem_singleton.mp ht]
      exact ⟨fun d hd => (by cases hd), fun i hi => (by cases hi)⟩
    simp only [List.flatMap_cons, List.flatMap_nil, List.append_nil, payoutTransaction,
      payoutEntries, net_append, operatorPaidFee]
    by_cases hfee : 0 < input.feeAtomic <;> by_cases hpays : input.operatorPaysFee = true <;>
      by_cases hasset : input.asset = asset <;>
      simp [net_cons, signed, liabilityRef, recoveredFee, hfee, hpays, hasset]
  | postOperatorPayout id input =>
    obtain ⟨ha, _, _, hframe⟩ := postOperatorPayout_ok h
    refine ⟨_, ha, by rw [hframe]; exact fun b hb => hb, ?_, fun asset => ?_⟩
    · intro t ht
      rw [List.mem_singleton.mp ht]
      exact ⟨fun d hd => (by cases hd), fun i hi => (by cases hi)⟩
    simp only [List.flatMap_cons, List.flatMap_nil, List.append_nil, operatorTransaction,
      operatorPayoutEntries, net_append, operatorPaidFee]
    by_cases hfee : 0 < input.feeAtomic <;> by_cases hasset : input.asset = asset <;>
      simp [net_cons, signed, recoveredFee, hfee, hasset]

theorem Balanced.append {ops : List LedgerOp} {db db' : Database} {op : LedgerOp} (hb : Balanced ops db)
    (h : op.apply db = .ok db') : Balanced (ops ++ [op]) db' := by
  obtain ⟨ts, ha, hbatches, hrefs, hnet⟩ := apply_ok h
  refine ⟨?_, ?_, ?_, ?_, ?_⟩
  · intro t ht
    rw [ha.journal, List.mem_append] at ht
    obtain ht | ht := ht
    · exact hb.balanced t ht
    · exact ha.balanced t ht
  · intro t ht e he
    rw [ha.journal, List.mem_append] at ht
    obtain ht | ht := ht
    · obtain ⟨hr, has⟩ := hb.booked t ht e he
      exact ⟨ha.refs _ hr, has⟩
    · exact ha.booked t ht e he
  · intro asset
    rw [ha.net, hb.clearing, (hnet asset).1, add_zero]
  · intro asset
    have hf := hb.fees asset
    have hn := (hnet asset).2
    rw [ha.net, ha.net, List.map_append, List.sum_append, List.map_singleton, List.sum_singleton]
    omega
  · intro t ht
    rw [ha.journal, List.mem_append] at ht
    obtain ht | ht := ht
    · exact (hb.referenced t ht).mono hbatches
    · exact hrefs t ht

theorem LedgerRun.balanced {ops : List LedgerOp} {db : Database} (h : LedgerRun ops db) :
    Balanced ops db := by
  induction h with
  | start hj =>
    refine ⟨?_, ?_, ?_, ?_, ?_⟩ <;> simp [journalEntries, hj]
  | op _ ha ih => exact ih.append ha
  | elsewhere _ he ih =>
    have hj : ∀ {db db' : Database}, db'.journalTransactions = db.journalTransactions →
        journalEntries db' = journalEntries db := by
      intro db db' hj
      rw [journalEntries, hj, journalEntries]
    refine ⟨?_, ?_, ?_, ?_, ?_⟩
    · rw [he.journal]
      exact ih.balanced
    · rw [he.journal]
      exact fun t ht e h => ⟨he.refs _ (ih.booked t ht e h).1, (ih.booked t ht e h).2⟩
    · rw [hj he.journal]
      exact ih.clearing
    · rw [hj he.journal]
      exact ih.fees
    · rw [he.journal]
      exact fun t ht => (ih.referenced t ht).mono he.batches

section Identity

variable {ops : List LedgerOp} {db : Database}

def accountClass : AccountCode → AccountCode
  | .customerLiability _ => .customerLiability 0
  | code => code

theorem sum_filter_asset {t : JournalTransaction} (asset : AssetCode)
    (ha : ∀ e ∈ t.entries, e.account.asset = t.asset) :
    t.entries.filter (fun e => e.account.asset = asset) = if t.asset = asset then t.entries else [] := by
  split
  · rename_i h
    exact List.filter_eq_self.mpr (fun e he => by simp [ha e he, h])
  · rename_i h
    exact List.filter_eq_nil_iff.mpr (fun e he => by simp [ha e he, h])

theorem Balanced.assetEntries_sum (hb : Balanced ops db) (asset : AssetCode) :
    ((assetEntries db asset).map signed).sum = 0 := by
  rw [assetEntries, journalEntries, List.filter_flatMap, List.map_flatMap, List.flatMap_def,
    List.sum_flatten]
  refine List.sum_eq_zero (fun x hx => ?_)
  obtain ⟨l, hl, rfl⟩ := List.mem_map.mp hx
  obtain ⟨t, ht, rfl⟩ := List.mem_map.mp hl
  rw [sum_filter_asset asset (fun e he => (hb.booked t ht e he).2)]
  split
  · rw [sum_signed, hb.balanced t ht, sub_self]
  · rfl

theorem net_class (db : Database) (asset : AssetCode) {code : AccountCode}
    (h : isLiability code = false) :
    sumAt (fun e => accountClass e.account.code) signed code (assetEntries db asset) =
      net (journalEntries db) ⟨asset, code⟩ := by
  have hk : ∀ c, accountClass c = code ↔ c = code := by
    intro c
    cases c <;> cases code <;> simp_all [accountClass, isLiability]
  rw [sumAt, assetEntries, List.filter_filter, net, sumAt]
  refine congrArg (fun l => (l.map signed).sum) (List.filter_congr (fun e _ => ?_))
  obtain ⟨⟨a, c⟩, d, v⟩ := e
  simp only [hk, AccountRef.mk.injEq]
  by_cases ha : a = asset <;> by_cases hc : c = code <;> simp [ha, hc]

theorem liability_class (hb : Balanced ops db) (asset : AssetCode) :
    sumAt (fun e => accountClass e.account.code) signed (.customerLiability 0)
      (assetEntries db asset) = -liabilitySum db asset := by
  let rows := (assetEntries db asset).filter (fun e => isLiability e.account.code)
  have hcover : ∀ e ∈ rows, e.account ∈ liabilityRefs db asset := by
    intro e he
    obtain ⟨he, hl⟩ := List.mem_filter.mp he
    obtain ⟨he, ha⟩ := List.mem_filter.mp he
    obtain ⟨t, ht, het⟩ := List.mem_flatMap.mp he
    refine List.mem_filter.mpr ⟨(hb.booked t ht e het).1, ?_⟩
    simp only [decide_eq_true_eq] at ha ⊢
    exact ⟨ha, hl⟩
  have hsum := sum_sumAt JournalEntry.account signed rows (liabilityRefs db asset)
    ((accountRefs_nodup db).filter _) hcover
  have heach : ∀ r ∈ liabilityRefs db asset,
      sumAt JournalEntry.account signed r rows = -creditBalance db r := by
    intro r hr
    have hr' := (List.mem_filter.mp hr).2
    simp only [decide_eq_true_eq] at hr'
    rw [creditBalance_eq, neg_neg, net, sumAt, sumAt]
    simp only [rows, assetEntries, List.filter_filter]
    refine congrArg (fun l => (l.map signed).sum) (List.filter_congr (fun e _ => ?_))
    by_cases he : e.account = r
    · simp [he, hr'.1, hr'.2]
    · simp [he]
  have hclass : ∀ c, accountClass c = .customerLiability 0 ↔ isLiability c = true := by
    intro c
    cases c <;> simp [accountClass, isLiability]
  have hrows : sumAt (fun e => accountClass e.account.code) signed (.customerLiability 0)
      (assetEntries db asset) = (rows.map signed).sum := by
    simp only [sumAt, hclass, rows, Bool.decide_eq_true]
  rw [hrows, ← hsum, List.map_congr_left heach, liabilitySum]
  induction liabilityRefs db asset with
  | nil => rfl
  | cons r l ih => simp [ih, add_comm]

theorem Balanced.identity (hb : Balanced ops db) (asset : AssetCode) :
    debitBalance db ⟨asset, .treasury⟩ + debitBalance db ⟨asset, .networkFee⟩ =
      liabilitySum db asset + creditBalance db ⟨asset, .operatorRevenue⟩ +
        creditBalance db ⟨asset, .networkFeeRecovery⟩ := by
  have hsum := sum_sumAt (fun e : JournalEntry => accountClass e.account.code) signed
    (assetEntries db asset)
    [.treasury, .allocationClearing, .operatorRevenue, .networkFee, .networkFeeRecovery,
      .customerLiability 0] (by decide) (fun e _ => by cases e.account.code <;> simp [accountClass])
  have hc := hb.clearing asset
  have hs : ∀ code, isLiability code = false → _ := fun _ h => net_class db asset h
  simp only [List.map_cons, List.map_nil, List.sum_cons, List.sum_nil, hs .treasury rfl,
    hs .allocationClearing rfl, hs .operatorRevenue rfl, hs .networkFee rfl,
    hs .networkFeeRecovery rfl, liability_class hb asset, hb.assetEntries_sum asset] at hsum
  simp only [debitBalance, creditBalance_eq, neg_neg]
  omega

theorem accountEntries_eq (db : Database) {account : AccountRef} {asset : AssetCode}
    (h : account.asset = asset) :
    accountEntries db account = (assetEntries db asset).filter (fun e => e.account = account) := by
  rw [accountEntries, assetEntries, List.filter_filter]
  refine List.filter_congr (fun e _ => ?_)
  by_cases he : e.account = account
  · simp [he, h]
  · simp [he]

theorem trialBalance_rows (db : Database) (asset : AssetCode) : trialBalance db asset =
    (db.ledgerAccounts.rows.filter (fun a => a.asset = asset)).map (accountRow db) := by
  refine List.map_congr_left (fun a ha => ?_)
  have hasset : a.ref.asset = asset := of_decide_eq_true (List.mem_filter.mp ha).2
  have hcol : ∀ direction : LedgerDirection,
      sumAt (fun e : JournalEntry => (e.account, e.direction)) JournalEntry.amountAtomic
        (a.ref, direction) (assetEntries db asset) =
      (((accountEntries db a.ref).filter (fun e => e.direction = direction)).map
        JournalEntry.amountAtomic).sum := by
    intro direction
    rw [sumAt, accountEntries_eq db hasset, List.filter_filter]
    refine congrArg (fun l => (l.map JournalEntry.amountAtomic).sum)
      (List.filter_congr (fun e _ => ?_))
    simp only [Prod.mk.injEq, Bool.decide_and, Bool.and_comm]
  exact congrArg₂ (TrialBalanceRow.mk a) ((find?_groupSum _ _ _ _).trans (hcol .debit))
    ((find?_groupSum _ _ _ _).trans (hcol .credit))

/-- The two columns of the trial balance. -/
theorem trialBalance_sum (hb : Balanced ops db) (asset : AssetCode) :
    ((trialBalance db asset).map TrialBalanceRow.debitAtomic).sum =
      debitTotal (assetEntries db asset) ∧
    ((trialBalance db asset).map TrialBalanceRow.creditAtomic).sum =
      creditTotal (assetEntries db asset) := by
  have hcol : ∀ direction : LedgerDirection,
      ((db.ledgerAccounts.rows.filter (fun a => a.asset = asset)).map (fun a =>
        (((accountEntries db a.ref).filter (fun e => e.direction = direction)).map
          JournalEntry.amountAtomic).sum)).sum =
      (((assetEntries db asset).filter (fun e => e.direction = direction)).map
        JournalEntry.amountAtomic).sum := by
    intro direction
    have hrefs : ((db.ledgerAccounts.rows.filter (fun a => a.asset = asset)).map
        LedgerAccount.ref).Nodup :=
      (accountRefs_nodup db).sublist (List.filter_sublist.map _)
    rw [← sum_sumAt JournalEntry.account JournalEntry.amountAtomic _ _ hrefs, List.map_map]
    · refine congrArg List.sum (List.map_congr_left (fun a ha => ?_))
      have hasset : a.ref.asset = asset := of_decide_eq_true (List.mem_filter.mp ha).2
      rw [Function.comp, sumAt, accountEntries_eq db hasset, List.filter_filter, List.filter_filter]
      refine congrArg (fun l => (l.map JournalEntry.amountAtomic).sum)
        (List.filter_congr (fun e _ => ?_))
      rw [Bool.and_comm]
    · intro e he
      obtain ⟨he, _⟩ := List.mem_filter.mp he
      obtain ⟨he, ha⟩ := List.mem_filter.mp he
      obtain ⟨t, ht, het⟩ := List.mem_flatMap.mp he
      obtain ⟨a, hmem, href⟩ := List.mem_map.mp (hb.booked t ht e het).1
      refine List.mem_map.mpr ⟨a, List.mem_filter.mpr ⟨hmem, ?_⟩, href⟩
      rw [← href] at ha
      exact ha
  refine ⟨?_, ?_⟩ <;> rw [trialBalance_rows, List.map_map]
  · exact hcol .debit
  · exact hcol .credit

end Identity

section Accepted

variable (db : Database)

theorem post_accepts (t : JournalTransaction) (hb : debitTotal t.entries = creditTotal t.entries)
    (hp : 0 < debitTotal t.entries) (hn : ∀ u ∈ db.journalTransactions.rows, ¬ Clash u t) :
    ∃ db', post db t = .ok db' := by
  unfold post
  dsimp only
  rw [if_neg (by simp only [not_or, not_not, not_le]; exact ⟨hb, hp⟩), Table.insert, dif_pos hn]
  exact ⟨_, rfl⟩

theorem upsertAccount_succeeds (create : LedgerAccount) (f : LedgerAccount → LedgerAccount)
    (hf : KeepsKeys f) : ∃ db', upsertAccount db create f hf = .ok db' := by
  unfold upsertAccount Table.upsert
  split
  · exact ⟨_, rfl⟩
  · rename_i hany
    have hn : ∀ b ∈ db.ledgerAccounts.rows, ¬ Clash b create := by
      rintro b hb (hid | ⟨_, hs⟩)
      · exact hany (List.any_eq_true.mpr ⟨b, hb, decide_eq_true hid⟩)
      · cases hs
    rw [Table.insert, dif_pos hn]
    exact ⟨_, rfl⟩

theorem ensureSystemAccounts_succeeds (asset : AssetCode) :
    ∃ db', ensureSystemAccounts db asset = .ok db' := by
  rw [ensureSystemAccounts]
  generalize systemAccounts asset = accounts
  induction accounts generalizing db with
  | nil => exact ⟨db, rfl⟩
  | cons a accounts ih =>
    obtain ⟨mid, hm⟩ := upsertAccount_succeeds db a
      (fun x => { x with name := a.name, type := a.type }) (fun _ => ⟨rfl, rfl⟩)
    obtain ⟨db', h⟩ := ih mid
    exact ⟨db', by rw [List.foldlM_cons, bind_eq_ok]; exact ⟨mid, hm, h⟩⟩

theorem ensureLiabilities_succeeds (asset : AssetCode) (totals : List (Id × ℤ)) :
    ∃ db', totals.foldlM (fun db t => ensureLiability db asset t.1) db = .ok db' := by
  induction totals generalizing db with
  | nil => exact ⟨db, rfl⟩
  | cons t totals ih =>
    obtain ⟨mid, hm⟩ : ∃ mid, ensureLiability db asset t.1 = .ok mid := upsertAccount_succeeds _ _ _ _
    obtain ⟨db', h⟩ := ih mid
    exact ⟨db', by rw [List.foldlM_cons, bind_eq_ok]; exact ⟨mid, hm, h⟩⟩

variable {db}

/-- Once the items are known and no batch exists for a positive deposit, both
journals are accepted and the allocation commits. -/
theorem Balanced.commits {ops : List LedgerOp} {order : Order ((Id × Id) × ℚ)}
    {ids : AllocationIds} {deposit : Deposit} {endpointIds : List Id} {items : List AllocationItem}
    (hb : Balanced ops db) (now : Instant) (hpos : 0 < deposit.amountAtomic)
    (hitems : allocationItems order db deposit endpointIds = .ok items)
    (hnew : ∀ b ∈ db.allocationBatches.rows, ¬ Clash b (allocationBatch ids deposit items))
    (hids : ids.depositJournalId ≠ ids.allocationJournalId)
    (hfresh : ∀ t ∈ db.journalTransactions.rows,
      t.id ≠ ids.depositJournalId ∧ t.id ≠ ids.allocationJournalId) :
    ∃ db', commitAllocation db ids now deposit endpointIds items = .ok db' := by
  obtain ⟨hfair, _, _, hsum⟩ := allocationItems_ok hitems
  obtain ⟨hdd, hdc⟩ := depositEntries_total deposit
  obtain ⟨had, hac⟩ := allocationEntries_total hfair hsum
  have hins : ∃ t, db.allocationBatches.insert (allocationBatch ids deposit items) = some t := by
    rw [Table.insert, dif_pos hnew]
    exact ⟨_, rfl⟩
  obtain ⟨batches, hbatches⟩ := hins
  have hdep : ∀ u ∈ db.journalTransactions.rows, ¬ Clash u (depositJournal ids deposit) := by
    rintro u hu (hid | ⟨hkey, _⟩)
    · exact (hfresh u hu).1 hid
    · have hr : u.reference = .deposit deposit.id := congrArg (fun k => k.2.2) (Option.some.inj hkey)
      obtain ⟨b, hm, hd⟩ := (hb.referenced u hu).deposit _ hr
      exact hnew b hm (.inr ⟨congrArg some hd, rfl⟩)
  have halloc : ∀ u ∈ db.journalTransactions.rows,
      ¬ Clash u (allocationJournal ids deposit items) := by
    rintro u hu (hid | ⟨hkey, _⟩)
    · exact (hfresh u hu).2 hid
    · have hr : u.reference = .allocationBatch ids.batchId :=
        congrArg (fun k => k.2.2) (Option.some.inj hkey)
      obtain ⟨b, hm, hd⟩ := (hb.referenced u hu).batch _ hr
      exact hnew b hm (.inl hd)
  obtain ⟨db₁, h₁⟩ := ensureSystemAccounts_succeeds
    (db.withAllocation batches (db.shareEvents.update (openShare endpointIds)
      (ShareEvent.stamp ids.batchId) (fun _ => ⟨rfl, rfl⟩)) db.deposits) deposit.asset
  obtain ⟨hf₁, _, _⟩ := ensureSystemAccounts_ok h₁
  have hj₁ : db₁.journalTransactions = db.journalTransactions := by rw [hf₁]; rfl
  obtain ⟨db₂, h₂⟩ := post_accepts db₁ (depositJournal ids deposit)
    (hdd.trans hdc.symm) (lt_of_lt_of_eq hpos hdd.symm) (by rw [hj₁]; exact hdep)
  obtain ⟨_, _, hj₂, _, _⟩ := post_ok h₂
  obtain ⟨db₃, h₃⟩ := ensureLiabilities_succeeds db₂ deposit.asset (liabilityTotals items)
  obtain ⟨hf₃, _, _⟩ := ensureLiabilities_ok _ _ h₃
  have hj₃ : db₃.journalTransactions.rows =
      db.journalTransactions.rows ++ [depositJournal ids deposit] := by
    rw [hf₃, ← hj₁, ← hj₂]; rfl
  obtain ⟨db₄, h₄⟩ := post_accepts db₃ (allocationJournal ids deposit items)
    (had.trans hac.symm) (lt_of_lt_of_eq hpos had.symm) (by
      intro u hu
      rw [hj₃, List.mem_append, List.mem_singleton] at hu
      obtain hu | rfl := hu
      · exact halloc u hu
      · rintro (hid | ⟨hkey, _⟩)
        · exact hids hid
        · cases hkey)
  simp only [commitAllocation, bind_eq_ok, orThrow_eq_ok, pure_eq_ok]
  exact ⟨_, batches, hbatches, db₁, h₁, db₂, h₂, db₃, h₃, db₄, h₄, rfl⟩

end Accepted

/-- The double-entry identity of every reachable ledger state. -/
theorem ledgerRun_double_entry {ops : List LedgerOp} {db : Database} (h : LedgerRun ops db) :
    (∀ asset,
      trialBalance db asset =
        (db.ledgerAccounts.rows.filter (fun a => a.asset = asset)).map (accountRow db) ∧
      ((trialBalance db asset).map TrialBalanceRow.debitAtomic).sum =
        ((trialBalance db asset).map TrialBalanceRow.creditAtomic).sum ∧
      debitBalance db ⟨asset, .allocationClearing⟩ = 0 ∧
      debitBalance db ⟨asset, .treasury⟩ + debitBalance db ⟨asset, .networkFee⟩ =
        liabilitySum db asset + creditBalance db ⟨asset, .operatorRevenue⟩ +
          creditBalance db ⟨asset, .networkFeeRecovery⟩) ∧
    ∀ (order : Order ((Id × Id) × ℚ)) (ids : AllocationIds) (now : Instant) (deposit : Deposit)
      (endpointIds : List Id) (items : List AllocationItem), 0 < deposit.amountAtomic →
      allocationItems order db deposit endpointIds = .ok items →
      (∀ mid, (∀ t ∈ [depositJournal ids deposit, allocationJournal ids deposit items],
        ∀ e, post mid t = .error e → ∃ u ∈ mid.journalTransactions.rows, Clash u t)) ∧
      ((∀ b ∈ db.allocationBatches.rows, ¬ Clash b (allocationBatch ids deposit items)) →
        ids.depositJournalId ≠ ids.allocationJournalId →
        (∀ t ∈ db.journalTransactions.rows,
          t.id ≠ ids.depositJournalId ∧ t.id ≠ ids.allocationJournalId) →
        ∃ db', commitAllocation db ids now deposit endpointIds items = .ok db') := by
  have hb := h.balanced
  refine ⟨fun asset => ⟨trialBalance_rows db asset, ?_, ?_, hb.identity asset⟩, ?_⟩
  · obtain ⟨hd, hc⟩ := trialBalance_sum hb asset
    have hz := hb.assetEntries_sum asset
    rw [sum_signed] at hz
    omega
  · rw [debitBalance, creditBalance_eq, neg_neg, hb.clearing]
  · intro order ids now deposit endpointIds items hpos hitems
    obtain ⟨hfair, _, _, hsum⟩ := allocationItems_ok hitems
    obtain ⟨hdd, hdc⟩ := depositEntries_total deposit
    obtain ⟨had, hac⟩ := allocationEntries_total hfair hsum
    refine ⟨fun mid t ht e he => ?_, hb.commits now hpos hitems⟩
    by_contra hno
    push Not at hno
    have hacc : ∃ db', post mid t = .ok db' := by
      rcases List.mem_cons.mp ht with rfl | ht
      · exact post_accepts _ _ (hdd.trans hdc.symm) (lt_of_lt_of_eq hpos hdd.symm) hno
      · rw [List.mem_singleton.mp ht] at hno ⊢
        exact post_accepts _ _ (had.trans hac.symm) (lt_of_lt_of_eq hpos had.symm) hno
    obtain ⟨db', hok⟩ := hacc
    rw [hok] at he
    cases he

def sampleDatabase : Database :=
  { Database.empty ⟨"UTC", .operator, 1000, 100, fun _ => 1, fun _ => 0⟩
      (fun _ => ⟨.retain, "", 1⟩) with
    upstreams := .single ⟨1, "pool", .btc, 100, true, some "address"⟩
    splitPolicies := .single ⟨1, 1, .btc, 8000, 0⟩
    shareEvents := .single
      ⟨1, .btc, 1, 1, 1, 1, 1, "1", .accepted, 5, 5, 0, some 1, some 20, none, none⟩
    deposits := .single
      ⟨1, .btc, 1, "txid", "0", 1000, 6, false, .confirmed, some 2, none⟩ }

def sampleOps : List LedgerOp :=
  [.allocateDeposit .asStored ⟨1, 1, 2⟩ 3 1,
    .postPayout 3 ⟨1, .btc, 1, 800, 10, true⟩,
    .postOperatorPayout 4 ⟨2, .btc, 100, 2⟩]

theorem ledgerRun_double_entry_sample : ∃ db, LedgerRun sampleOps db ∧
    db.journalTransactions.rows.length = 4 ∧
    debitBalance db ⟨.btc, .treasury⟩ + debitBalance db ⟨.btc, .networkFee⟩ =
      liabilitySum db .btc + creditBalance db ⟨.btc, .operatorRevenue⟩ +
        creditBalance db ⟨.btc, .networkFeeRecovery⟩ := by
  have hr : (runOps sampleDatabase sampleOps).map
      (fun db => db.journalTransactions.rows.length) = .ok 4 := by decide +kernel
  obtain ⟨db, hdb, hlen⟩ := map_eq_ok.mp hr
  have hrun : LedgerRun sampleOps db := runOps_run [] (.start rfl) hdb
  exact ⟨db, hrun, hlen, ((ledgerRun_double_entry hrun).1 .btc).2.2.2⟩

end Bitmine.Books
