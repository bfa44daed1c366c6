import Bitmine.Schema

namespace Bitmine.Ledger

open Bitmine.Lib.UniqueTable Bitmine.Lib.GroupSum Bitmine.Lib.Throwing Bitmine.Schema

def assetText : AssetCode → String
  | .btc => "BTC"
  | .xmr => "XMR"

/-- The definitions of `ensureSystemAccounts`. -/
def systemAccounts (asset : AssetCode) : List LedgerAccount :=
  [⟨asset, .treasury, none, assetText asset ++ " treasury", .asset⟩,
    ⟨asset, .allocationClearing, none, assetText asset ++ " allocation clearing", .clearing⟩,
    ⟨asset, .operatorRevenue, none, assetText asset ++ " operator revenue", .revenue⟩,
    ⟨asset, .networkFee, none, assetText asset ++ " network fee", .expense⟩,
    ⟨asset, .networkFeeRecovery, none, assetText asset ++ " network fee recovery", .revenue⟩]

def upsertAccount (db : Database) (create : LedgerAccount)
    (f : LedgerAccount → LedgerAccount) (hf : KeepsKeys f) : Except String Database := do
  let accounts ← orThrow uniqueViolation
    (db.ledgerAccounts.upsert (fun a => a.ref = create.ref) create f hf)
  pure (db.withLedger accounts db.journalTransactions)

def ensureSystemAccounts (db : Database) (asset : AssetCode) : Except String Database :=
  (systemAccounts asset).foldlM (fun db account =>
    upsertAccount db account (fun a => { a with name := account.name, type := account.type })
      (fun _ => ⟨rfl, rfl⟩)) db

def liabilityRef (asset : AssetCode) (customerId : Id) : AccountRef :=
  ⟨asset, .customerLiability customerId⟩

def ensureLiability (db : Database) (asset : AssetCode) (customerId : Id) :
    Except String Database :=
  upsertAccount db ⟨asset, .customerLiability customerId, some customerId,
    "Customer " ++ toString customerId ++ " liability", .liability⟩ id (fun _ => ⟨rfl, rfl⟩)

def debitTotal (entries : List JournalEntry) : ℤ :=
  ((entries.filter (fun e => e.direction = .debit)).map JournalEntry.amountAtomic).sum

def creditTotal (entries : List JournalEntry) : ℤ :=
  ((entries.filter (fun e => e.direction = .credit)).map JournalEntry.amountAtomic).sum

def post (db : Database) (t : JournalTransaction) : Except String Database :=
  let debit := debitTotal t.entries
  let credit := creditTotal t.entries
  if debit ≠ credit ∨ debit ≤ 0 then
    .error ("Unbalanced journal: debit=" ++ toString debit ++ " credit=" ++ toString credit)
  else do
    let journal ← orThrow uniqueViolation (db.journalTransactions.insert t)
    pure (db.withLedger db.ledgerAccounts journal)

structure PayoutPosting where
  batchId : Id
  asset : AssetCode
  customerId : Id
  grossAtomic : ℤ
  feeAtomic : ℤ
  operatorPaysFee : Bool

structure OperatorPosting where
  batchId : Id
  asset : AssetCode
  grossAtomic : ℤ
  feeAtomic : ℤ

def recoveredFee (asset : AssetCode) (feeAtomic : ℤ) : List JournalEntry :=
  [⟨⟨asset, .networkFee⟩, .debit, feeAtomic⟩, ⟨⟨asset, .networkFeeRecovery⟩, .credit, feeAtomic⟩]

def payoutEntries (input : PayoutPosting) : List JournalEntry :=
  [⟨liabilityRef input.asset input.customerId, .debit, input.grossAtomic⟩,
    ⟨⟨input.asset, .treasury⟩, .credit, input.grossAtomic⟩] ++
  (if 0 < input.feeAtomic ∧ input.operatorPaysFee then
    [⟨⟨input.asset, .networkFee⟩, .debit, input.feeAtomic⟩,
      ⟨⟨input.asset, .treasury⟩, .credit, input.feeAtomic⟩]
  else if 0 < input.feeAtomic then recoveredFee input.asset input.feeAtomic
  else [])

def postPayout (db : Database) (id : Id) (input : PayoutPosting) : Except String Database := do
  let db ← ensureSystemAccounts db input.asset
  let _ ← orThrow recordNotFound
    (db.ledgerAccounts.find? (fun a => a.ref = liabilityRef input.asset input.customerId))
  post db ⟨id, input.asset, .payout, .payoutItem input.batchId input.customerId,
    payoutEntries input⟩

def operatorPayoutEntries (input : OperatorPosting) : List JournalEntry :=
  [⟨⟨input.asset, .operatorRevenue⟩, .debit, input.grossAtomic⟩,
    ⟨⟨input.asset, .treasury⟩, .credit, input.grossAtomic⟩] ++
  (if 0 < input.feeAtomic then recoveredFee input.asset input.feeAtomic else [])

def postOperatorPayout (db : Database) (id : Id) (input : OperatorPosting) :
    Except String Database := do
  let db ← ensureSystemAccounts db input.asset
  post db ⟨id, input.asset, .payout, .operatorPayout input.batchId, operatorPayoutEntries input⟩

def journalEntries (db : Database) : List JournalEntry :=
  db.journalTransactions.rows.flatMap JournalTransaction.entries

/-- Credits minus debits of one account, from totals grouped by direction. -/
def creditBalance (db : Database) (account : AccountRef) : ℤ :=
  (groupSum JournalEntry.direction JournalEntry.amountAtomic
    ((journalEntries db).filter (fun e => e.account = account))).foldl
    (fun balance total => balance + if total.1 = .credit then total.2 else -total.2) 0

def customerBalance (db : Database) (customerId : Id) (asset : AssetCode) : ℤ :=
  creditBalance db (liabilityRef asset customerId)

def operatorBalance (db : Database) (asset : AssetCode) : ℤ :=
  creditBalance db ⟨asset, .operatorRevenue⟩

structure TrialBalanceRow where
  account : LedgerAccount
  debitAtomic : ℤ
  creditAtomic : ℤ

def trialBalance (db : Database) (asset : AssetCode) : List TrialBalanceRow :=
  let totals := groupSum (fun e : JournalEntry => (e.account, e.direction))
    JournalEntry.amountAtomic ((journalEntries db).filter (fun e => e.account.asset = asset))
  let total (account : AccountRef) (direction : LedgerDirection) : ℤ :=
    ((totals.find? (fun t => t.1 = (account, direction))).map Prod.snd).getD 0
  (db.ledgerAccounts.rows.filter (fun a => a.asset = asset)).map
    (fun a => ⟨a, total a.ref .debit, total a.ref .credit⟩)

end Bitmine.Ledger
