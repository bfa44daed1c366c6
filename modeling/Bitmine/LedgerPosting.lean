import Bitmine.Ledger

namespace Bitmine.LedgerPosting

open Bitmine.Lib.UniqueTable Bitmine.Lib.GroupSum Bitmine.Lib.Throwing
open Bitmine.Schema Bitmine.Ledger

def signed (e : JournalEntry) : ℤ :=
  if e.direction = .debit then e.amountAtomic else -e.amountAtomic

def net (entries : List JournalEntry) (account : AccountRef) : ℤ :=
  sumAt JournalEntry.account signed account entries

def accountRefs (db : Database) : List AccountRef := db.ledgerAccounts.rows.map LedgerAccount.ref

@[simp] theorem net_nil (account : AccountRef) : net [] account = 0 := rfl

theorem net_append (xs ys : List JournalEntry) (account : AccountRef) :
    net (xs ++ ys) account = net xs account + net ys account :=
  sumAt_append _ _ _ xs ys

theorem net_cons (e : JournalEntry) (entries : List JournalEntry) (account : AccountRef) :
    net (e :: entries) account = (if e.account = account then signed e else 0) + net entries account :=
  sumAt_cons _ _ _ e entries

theorem net_eq_zero {entries : List JournalEntry} {account : AccountRef}
    (h : ∀ e ∈ entries, e.account ≠ account) : net entries account = 0 :=
  sumAt_eq_zero _ _ _ h

theorem sum_signed (entries : List JournalEntry) :
    (entries.map signed).sum = debitTotal entries - creditTotal entries := by
  induction entries with
  | nil => rfl
  | cons e entries ih =>
    cases hd : e.direction <;>
      simp_all [signed, debitTotal, creditTotal] <;> ring

theorem sum_neg_signed (entries : List JournalEntry) :
    (entries.map (fun e => -signed e)).sum = -(entries.map signed).sum := by
  induction entries with
  | nil => rfl
  | cons e entries ih => simp [ih, add_comm]

theorem foldl_add (f : LedgerDirection × ℤ → ℤ) (l : List (LedgerDirection × ℤ)) (z : ℤ) :
    l.foldl (fun b t => b + f t) z = z + (l.map f).sum := by
  induction l generalizing z with
  | nil => simp
  | cons t l ih => simp [ih, add_assoc]

theorem creditBalance_eq (db : Database) (account : AccountRef) :
    creditBalance db account = -net (journalEntries db) account := by
  let φ : LedgerDirection → ℤ →+ ℤ := fun d =>
    if d = .credit then AddMonoidHom.id ℤ else -AddMonoidHom.id ℤ
  have hφ : ∀ d v, φ d v = if d = .credit then v else -v := by
    intro d v
    cases d <;> simp [φ]
  have hg := sum_groupSum JournalEntry.direction JournalEntry.amountAtomic
    ((journalEntries db).filter (fun e => e.account = account)) φ
  simp only [hφ] at hg
  have hs : ∀ e : JournalEntry, (if e.direction = .credit then e.amountAtomic else -e.amountAtomic) =
      -signed e := by
    intro e
    cases hd : e.direction <;> simp [signed, hd]
  rw [creditBalance, foldl_add, zero_add, hg]
  simp only [hs, sum_neg_signed, net, sumAt]

theorem accountRefs_nodup (db : Database) : (accountRefs db).Nodup := by
  refine List.pairwise_map.mpr (db.ledgerAccounts.unique.imp ?_)
  intro a b hab he
  exact hab (.inl he)

theorem upsertAccount_ok {db db' : Database} {create : LedgerAccount}
    {f : LedgerAccount → LedgerAccount} {hf : KeepsKeys f}
    (h : upsertAccount db create f hf = .ok db') :
    db' = db.withLedger db'.ledgerAccounts db.journalTransactions ∧
      (∀ r ∈ accountRefs db, r ∈ accountRefs db') ∧ create.ref ∈ accountRefs db' := by
  simp only [upsertAccount, bind_eq_ok, orThrow_eq_ok, pure_eq_ok] at h
  obtain ⟨accounts, hu, rfl⟩ := h
  refine ⟨rfl, ?_⟩
  rw [Table.upsert] at hu
  split at hu
  · rename_i hany
    cases hu
    have hrefs : (db.ledgerAccounts.update (fun a => a.ref = create.ref) f hf).rows.map
        LedgerAccount.ref = db.ledgerAccounts.rows.map LedgerAccount.ref := by
      rw [Table.update_rows, List.map_map]
      apply List.map_congr_left
      intro a _
      have ha : (f a).ref = a.ref := (hf a).1
      by_cases hc : a.ref = create.ref <;> simp [hc, ha]
    obtain ⟨a, ha, hac⟩ := List.any_eq_true.mp hany
    simp only [accountRefs, Database.withLedger_ledgerAccounts, hrefs]
    exact ⟨fun r hr => hr, List.mem_map.mpr ⟨a, ha, by simpa using hac⟩⟩
  · obtain ⟨hrows, _⟩ := Table.insert_eq_some hu
    simp only [accountRefs, Database.withLedger_ledgerAccounts, hrows, List.map_append, List.mem_append]
    exact ⟨fun r hr => .inl hr, .inr (by simp)⟩

theorem systemAccounts_ref (asset : AssetCode) {code : AccountCode}
    (h : ∀ c, code ≠ .customerLiability c) :
    ∃ a ∈ systemAccounts asset, a.ref = ⟨asset, code⟩ := by
  cases code <;> simp_all [systemAccounts, LedgerAccount.ref]

theorem ensureSystemAccounts_ok {db db' : Database} {asset : AssetCode}
    (h : ensureSystemAccounts db asset = .ok db') :
    db' = db.withLedger db'.ledgerAccounts db.journalTransactions ∧
      (∀ r ∈ accountRefs db, r ∈ accountRefs db') ∧
      ∀ code, (∀ c, code ≠ .customerLiability c) → (⟨asset, code⟩ : AccountRef) ∈ accountRefs db' := by
  have hloop : ∀ (accounts : List LedgerAccount) (db : Database),
      accounts.foldlM (fun db account =>
        upsertAccount db account (fun a => { a with name := account.name, type := account.type })
          (fun _ => ⟨rfl, rfl⟩)) db = .ok db' →
      db' = db.withLedger db'.ledgerAccounts db.journalTransactions ∧
        (∀ r ∈ accountRefs db, r ∈ accountRefs db') ∧ ∀ a ∈ accounts, a.ref ∈ accountRefs db' := by
    intro accounts
    induction accounts with
    | nil =>
      intro db h
      rw [List.foldlM_nil, pure_eq_ok] at h
      subst h
      exact ⟨rfl, fun r hr => hr, by simp⟩
    | cons a accounts ih =>
      intro db h
      rw [List.foldlM_cons, bind_eq_ok] at h
      obtain ⟨mid, hu, h⟩ := h
      obtain ⟨hm, hr, hc⟩ := upsertAccount_ok hu
      obtain ⟨hm', hr', hc'⟩ := ih mid h
      refine ⟨by rw [hm', hm]; rfl, fun r hx => hr' r (hr r hx), ?_⟩
      intro b hb
      rcases List.mem_cons.mp hb with rfl | hb
      · exact hr' _ hc
      · exact hc' b hb
  obtain ⟨hf, hr, hc⟩ := hloop (systemAccounts asset) db h
  refine ⟨hf, hr, fun code hcode => ?_⟩
  obtain ⟨a, ha, he⟩ := systemAccounts_ref asset hcode
  exact he ▸ hc a ha

theorem post_ok {db db' : Database} {t : JournalTransaction} (h : post db t = .ok db') :
    debitTotal t.entries = creditTotal t.entries ∧ 0 < debitTotal t.entries ∧
      db'.journalTransactions.rows = db.journalTransactions.rows ++ [t] ∧
      (∀ u ∈ db.journalTransactions.rows, ¬ Clash u t) ∧
      db' = db.withLedger db.ledgerAccounts db'.journalTransactions := by
  unfold post at h
  dsimp only at h
  split at h
  · cases h
  rename_i hb
  rw [not_or, not_not, not_le] at hb
  simp only [bind_eq_ok, orThrow_eq_ok, pure_eq_ok] at h
  obtain ⟨journal, hi, rfl⟩ := h
  obtain ⟨hrows, hfresh⟩ := Table.insert_eq_some hi
  exact ⟨hb.1, hb.2, hrows, hfresh, rfl⟩

/-- The ledger of `db'` is that of `db` with the transactions `ts` posted to
accounts that exist, each balanced and within its own asset. -/
structure Appends (db db' : Database) (ts : List JournalTransaction) : Prop where
  journal : db'.journalTransactions.rows = db.journalTransactions.rows ++ ts
  balanced : ∀ t ∈ ts, debitTotal t.entries = creditTotal t.entries
  refs : ∀ r ∈ accountRefs db, r ∈ accountRefs db'
  booked : ∀ t ∈ ts, ∀ e ∈ t.entries, e.account ∈ accountRefs db' ∧ e.account.asset = t.asset

theorem Appends.entries {db db' : Database} {ts : List JournalTransaction} (h : Appends db db' ts) :
    journalEntries db' = journalEntries db ++ ts.flatMap JournalTransaction.entries := by
  rw [journalEntries, h.journal, List.flatMap_append, journalEntries]

theorem Appends.net {db db' : Database} {ts : List JournalTransaction} (h : Appends db db' ts)
    (account : AccountRef) :
    LedgerPosting.net (journalEntries db') account =
      LedgerPosting.net (journalEntries db) account +
        LedgerPosting.net (ts.flatMap JournalTransaction.entries) account := by
  rw [h.entries, net_append]

def payoutTransaction (id : Id) (input : PayoutPosting) : JournalTransaction :=
  ⟨id, input.asset, .payout, .payoutItem input.batchId input.customerId, payoutEntries input⟩

def operatorTransaction (id : Id) (input : OperatorPosting) : JournalTransaction :=
  ⟨id, input.asset, .payout, .operatorPayout input.batchId, operatorPayoutEntries input⟩

theorem payoutEntries_account {input : PayoutPosting} {e : JournalEntry}
    (he : e ∈ payoutEntries input) :
    e.account.asset = input.asset ∧
      (e.account = liabilityRef input.asset input.customerId ∨
        ∀ c, e.account.code ≠ .customerLiability c) := by
  simp only [payoutEntries, recoveredFee] at he
  split at he
  · fin_cases he <;> simp [liabilityRef]
  · split at he <;> fin_cases he <;> simp [liabilityRef]

theorem operatorPayoutEntries_account {input : OperatorPosting} {e : JournalEntry}
    (he : e ∈ operatorPayoutEntries input) :
    e.account.asset = input.asset ∧ ∀ c, e.account.code ≠ .customerLiability c := by
  simp only [operatorPayoutEntries, recoveredFee] at he
  split at he <;> fin_cases he <;> simp

theorem postPayout_ok {db db' : Database} {id : Id} {input : PayoutPosting}
    (h : postPayout db id input = .ok db') :
    Appends db db' [payoutTransaction id input] ∧
      0 < debitTotal (payoutEntries input) ∧
      (∀ u ∈ db.journalTransactions.rows, ¬ Clash u (payoutTransaction id input)) ∧
      db' = db.withLedger db'.ledgerAccounts db'.journalTransactions := by
  simp only [postPayout, bind_eq_ok, orThrow_eq_ok] at h
  obtain ⟨mid, hm, liability, hl, h⟩ := h
  obtain ⟨hmid, hrefs, hsys⟩ := ensureSystemAccounts_ok hm
  obtain ⟨hb, hp, hrows, hfresh, hframe⟩ := post_ok h
  have hacc : accountRefs db' = accountRefs mid := by rw [hframe]; rfl
  have hj : mid.journalTransactions = db.journalTransactions := by rw [hmid]; rfl
  refine ⟨⟨by rw [hrows, hj]; rfl, by simpa [payoutTransaction] using hb, by rw [hacc]; exact hrefs, ?_⟩,
    hp, by rw [← hj]; exact hfresh, by rw [hframe, hmid]; rfl⟩
  intro t ht e he
  rw [List.mem_singleton.mp ht] at he ⊢
  obtain ⟨ha, hc⟩ := payoutEntries_account he
  refine ⟨?_, ha⟩
  rw [hacc]
  rcases hc with hc | hc
  · obtain ⟨hmem, href⟩ := Table.find?_mem hl
    rw [hc]
    exact List.mem_map.mpr ⟨liability, hmem, by simpa using href⟩
  · have := hsys e.account.code hc
    rwa [← ha] at this

theorem postOperatorPayout_ok {db db' : Database} {id : Id} {input : OperatorPosting}
    (h : postOperatorPayout db id input = .ok db') :
    Appends db db' [operatorTransaction id input] ∧
      0 < debitTotal (operatorPayoutEntries input) ∧
      (∀ u ∈ db.journalTransactions.rows, ¬ Clash u (operatorTransaction id input)) ∧
      db' = db.withLedger db'.ledgerAccounts db'.journalTransactions := by
  simp only [postOperatorPayout, bind_eq_ok] at h
  obtain ⟨mid, hm, h⟩ := h
  obtain ⟨hmid, hrefs, hsys⟩ := ensureSystemAccounts_ok hm
  obtain ⟨hb, hp, hrows, hfresh, hframe⟩ := post_ok h
  have hacc : accountRefs db' = accountRefs mid := by rw [hframe]; rfl
  have hj : mid.journalTransactions = db.journalTransactions := by rw [hmid]; rfl
  refine ⟨⟨by rw [hrows, hj]; rfl, by simpa [operatorTransaction] using hb,
    by rw [hacc]; exact hrefs, ?_⟩, hp, by rw [← hj]; exact hfresh, by rw [hframe, hmid]; rfl⟩
  intro t ht e he
  rw [List.mem_singleton.mp ht] at he ⊢
  obtain ⟨ha, hc⟩ := operatorPayoutEntries_account he
  refine ⟨?_, ha⟩
  have := hsys e.account.code hc
  rwa [← ha, ← hacc] at this

end Bitmine.LedgerPosting
