import Bitmine.Books

namespace Bitmine.Solvency

open Bitmine.Lib.GroupSum Bitmine.Lib.Throwing
open Bitmine.Schema Bitmine.Ledger Bitmine.LedgerPosting Bitmine.Books

/-- Whatever customers and operator may still withdraw is in the treasury. -/
def Solvent (db : Database) (asset : AssetCode) : Prop :=
  liabilitySum db asset + operatorBalance db asset ≤ debitBalance db ⟨asset, .treasury⟩

instance (db : Database) (asset : AssetCode) : Decidable (Solvent db asset) :=
  inferInstanceAs (Decidable (_ ≤ _))

/-- A customer payout whose network fee is left to the operator. -/
def LeavesFeeToOperator (asset : AssetCode) (input : PayoutPosting) : Prop :=
  input.asset = asset ∧ input.operatorPaysFee = true ∧ 0 < input.feeAtomic

/-- Fees borne by the operator leave the treasury without lowering any balance
that may be withdrawn. -/
theorem treasury_shortfall {ops : List LedgerOp} {db : Database} (h : LedgerRun ops db)
    (asset : AssetCode) : debitBalance db ⟨asset, .treasury⟩ =
      liabilitySum db asset + operatorBalance db asset - (ops.map (operatorPaidFee asset)).sum := by
  have hi := h.balanced.identity asset
  have hf := h.balanced.fees asset
  simp only [debitBalance, creditBalance_eq, neg_neg, operatorBalance] at hi ⊢
  omega

theorem operatorPaidFee_nonneg (asset : AssetCode) (op : LedgerOp) : 0 ≤ operatorPaidFee asset op := by
  cases op with
  | allocateDeposit order ids now depositId => exact le_rfl
  | postPayout id input =>
    simp only [operatorPaidFee]
    split
    · omega
    · exact le_rfl
  | postOperatorPayout id input => exact le_rfl

theorem operatorPaidFee_pos {asset : AssetCode} {op : LedgerOp} :
    0 < operatorPaidFee asset op ↔ ∃ id input, op = .postPayout id input ∧
      LeavesFeeToOperator asset input := by
  constructor
  · intro h
    cases op with
    | allocateDeposit order ids now depositId => exact absurd h (lt_irrefl _)
    | postPayout id input =>
      simp only [operatorPaidFee] at h
      split at h
      · rename_i hc
        exact ⟨id, input, rfl, hc.1, hc.2.2, hc.2.1⟩
      · exact absurd h (lt_irrefl _)
    | postOperatorPayout id input => exact absurd h (lt_irrefl _)
  · rintro ⟨id, input, rfl, ha, hp, hf⟩
    rw [operatorPaidFee, if_pos ⟨ha, hf, hp⟩]
    exact hf

theorem sum_fees_nonpos {asset : AssetCode} {ops : List LedgerOp} :
    (ops.map (operatorPaidFee asset)).sum ≤ 0 ↔ ∀ op ∈ ops, ¬ 0 < operatorPaidFee asset op := by
  induction ops with
  | nil => simp
  | cons op ops ih =>
    have hop := operatorPaidFee_nonneg asset op
    have hops : 0 ≤ (ops.map (operatorPaidFee asset)).sum :=
      List.sum_nonneg (fun x hx => by
        obtain ⟨o, _, rfl⟩ := List.mem_map.mp hx
        exact operatorPaidFee_nonneg asset o)
    rw [List.map_cons, List.sum_cons, List.forall_mem_cons, ← ih]
    omega

/-- A reachable ledger is solvent in an asset exactly when no customer payout
of that asset has left a fee to the operator. -/
theorem solvent_iff {ops : List LedgerOp} {db : Database} (h : LedgerRun ops db)
    (asset : AssetCode) : Solvent db asset ↔
      ∀ id input, LedgerOp.postPayout id input ∈ ops → ¬ LeavesFeeToOperator asset input := by
  have hs : Solvent db asset ↔ (ops.map (operatorPaidFee asset)).sum ≤ 0 := by
    rw [Solvent, treasury_shortfall h asset]
    omega
  rw [hs, sum_fees_nonpos]
  constructor
  · intro hall id input hmem hl
    exact hall _ hmem (operatorPaidFee_pos.mpr ⟨id, input, rfl, hl⟩)
  · intro hall op hmem hp
    obtain ⟨id, input, rfl, hl⟩ := operatorPaidFee_pos.mp hp
    exact hall id input hmem hl

theorem solvent_iff_sample : ∃ ops db, LedgerRun ops db ∧
    db.journalTransactions.rows.length = 3 ∧ Solvent db .btc := by
  have hr : (runOps sampleDatabase [.allocateDeposit .asStored ⟨1, 1, 2⟩ 3 1,
      .postPayout 3 ⟨1, .btc, 1, 800, 10, false⟩]).map
      (fun db => db.journalTransactions.rows.length) = .ok 3 := by decide +kernel
  obtain ⟨db, hdb, hlen⟩ := map_eq_ok.mp hr
  have hrun := runOps_run [] (.start rfl) hdb
  refine ⟨_, db, hrun, hlen, (solvent_iff hrun .btc).mpr ?_⟩
  intro id input hmem hl
  simp only [List.nil_append, List.mem_cons, reduceCtorEq, LedgerOp.postPayout.injEq,
    List.not_mem_nil, or_false, false_or] at hmem
  obtain ⟨_, rfl⟩ := hmem
  exact absurd hl.2.1 (by decide)

/-- A deposit of 1000, of which 200 belong to the operator, and a payout of 800
whose fee of 10 the operator bears leave 190 in the treasury. -/
theorem operator_fee_insolvent : ¬ ∀ ops db, LedgerRun ops db → ∀ asset, Solvent db asset := by
  intro hall
  have hr : (runOps sampleDatabase [.allocateDeposit .asStored ⟨1, 1, 2⟩ 3 1,
      .postPayout 3 ⟨1, .btc, 1, 800, 10, true⟩]).map
      (fun db => (debitBalance db ⟨.btc, .treasury⟩, operatorBalance db .btc,
        liabilitySum db .btc)) = .ok (190, 200, 0) := by decide +kernel
  obtain ⟨db, hdb, heq⟩ := map_eq_ok.mp hr
  simp only [Prod.mk.injEq] at heq
  have hs := hall _ db (runOps_run [] (.start rfl) hdb) .btc
  rw [Solvent, heq.1, heq.2.1, heq.2.2] at hs
  exact absurd hs (by decide)

end Bitmine.Solvency
