import Bitmine.Lib.ShortestDecimal
import Bitmine.Deployment
import Bitmine.PayoutPreparation

namespace Bitmine.WalletAmounts

open Bitmine.Lib.JsNumber Bitmine.Lib.ShortestDecimal Bitmine.Lib.Dialogue Bitmine.Lib.Rounding
open Bitmine.Schema Bitmine.Allocation Bitmine.Apportionment Bitmine.PayoutPreparation
open Bitmine.Deployment (WalletReceipt)

structure BitcoinTransaction where
  address : Option String
  category : Option String
  amount : Option ℚ
  confirmations : Option ℤ
  txid : Option String
  vout : Option ℕ

/-- The number of a double as the decimal library takes it: by the digits that it
is printed with. -/
def decimal (x : ℚ) : Option ℚ := if x < 0 then (shortest (-x)).map (fun c => -c) else shortest x

def amountAtomic (amount : ℚ) : Option ℤ :=
  (decimal amount).map (fun d => roundHalfUp (decimalRound (d * 100000000)))

def present (s : Option String) : Bool := s.isSome && decide (s ≠ some "")

def isReceipt (addresses : List String) (tx : BitcoinTransaction) : Bool :=
  decide (tx.category = some "receive") && present tx.address &&
    addresses.any (fun a => decide (tx.address = some a)) && present tx.txid &&
      decide (0 < tx.amount.getD 0)

def receipt (required : ℤ) (tx : BitcoinTransaction) : Option WalletReceipt :=
  (amountAtomic (tx.amount.getD 0)).map (fun atomic =>
    { txid := tx.txid.getD ""
      outputRef := toString (tx.vout.getD 0)
      address := tx.address.getD ""
      amountAtomic := atomic
      confirmations := tx.confirmations.getD 0
      locked := tx.confirmations.getD 0 < required })

/-- What becomes of the answer of `listtransactions`. -/
def scanReceipts (required : ℤ) (addresses : List String) (transactions : List BitcoinTransaction) :
    Option (List WalletReceipt) :=
  if addresses.isEmpty then some []
  else (transactions.filter (isReceipt addresses)).mapM (receipt required)

def maxMoney : ℕ := 2100000000000000

def bitcoins (n : ℤ) : ℚ := n / 100000000

section Doubles

variable {n : ℕ} {x : ℚ}

theorem roundHalfEven_eq (x : ℚ) : Bitcoin.roundHalfEven x = roundHalfEven x := by
  rw [Bitcoin.roundHalfEven, roundHalfEven]
  by_cases hlt : x - ⌊x⌋ < 1 / 2
  · rw [if_pos (Or.inl hlt), if_pos hlt]
  · rw [if_neg hlt]
    by_cases hgt : 1 / 2 < x - ⌊x⌋
    · rw [if_pos hgt, if_neg]
      rintro (h | h)
      · exact hlt h
      · linarith [h.1]
    · have hhalf : x - ⌊x⌋ = 1 / 2 := le_antisymm (not_lt.mp hgt) (not_lt.mp hlt)
      rw [if_neg hgt]
      by_cases heven : ⌊x⌋ % 2 = 0
      · rw [if_pos (Or.inr ⟨hhalf, heven⟩), if_pos heven]
      · rw [if_neg heven, if_neg]
        rintro (h | h)
        · exact hlt h
        · exact heven h.2

theorem bitcoins_units (n : ℕ) : bitcoins n * 10 ^ 8 = (n : ℚ) := by
  rw [bitcoins, Int.cast_natCast]
  norm_num

theorem bitcoins_bounds (hpos : 0 < n) (hn : n ≤ maxMoney) :
    (10 : ℚ) ^ (-8 : ℤ) ≤ bitcoins n ∧ bitcoins n ≤ 21000000 := by
  have hone : (1 : ℚ) ≤ n := by exact_mod_cast hpos
  have hmax : (n : ℚ) ≤ 2100000000000000 := by exact_mod_cast hn
  have hunit : (10 : ℚ) ^ (-8 : ℤ) = 1 / 100000000 := by norm_num
  rw [bitcoins, hunit, Int.cast_natCast]
  constructor
  · exact div_le_div_of_nonneg_right hone (by norm_num)
  · rw [div_le_iff₀ (by norm_num)]
    linarith

theorem lastBit_bitcoins (hpos : 0 < n) (hn : n ≤ maxMoney) :
    lastBit (bitcoins n) = Int.log 2 (bitcoins n) - 52 := by
  obtain ⟨hlow, _⟩ := bitcoins_bounds hpos hn
  have hunit : (0 : ℚ) < 10 ^ (-8 : ℤ) := by positivity
  have hlog : -27 ≤ Int.log 2 (bitcoins n) := by
    apply (Int.zpow_le_iff_le_log (b := 2) (by decide) (hunit.trans_le hlow)).mp
    apply le_trans _ hlow
    norm_num
  rw [lastBit, abs_of_pos (hunit.trans_le hlow), max_eq_left]
  omega

theorem read_bitcoins (hpos : 0 < n) (hn : n ≤ maxMoney) :
    roundDouble (bitcoins n) = some (Bitcoin.number (bitcoins n)) := by
  obtain ⟨hlow, hhigh⟩ := bitcoins_bounds hpos hn
  have hunit : (0 : ℚ) < 10 ^ (-8 : ℤ) := by positivity
  have hv : 0 < bitcoins n := hunit.trans_le hlow
  have hnumber : Bitcoin.number (bitcoins n) =
      roundHalfEven (bitcoins n / 2 ^ lastBit (bitcoins n)) * 2 ^ lastBit (bitcoins n) := by
    have hscale : (2 : ℚ) ^ (52 - Int.log 2 |bitcoins n|) = (2 ^ lastBit (bitcoins n))⁻¹ := by
      rw [lastBit_bitcoins hpos hn, abs_of_pos hv, ← zpow_neg]
      congr 1
      ring
    rw [Bitcoin.number, if_neg hv.ne']
    dsimp only
    rw [hscale, roundHalfEven_eq, div_inv_eq_mul, div_eq_mul_inv]
  have hbit : lastBit (bitcoins n) ≤ 25 - 53 := lastBit_le (by decide) hv (hhigh.trans_lt (by norm_num))
  have hpow : (0 : ℚ) < 2 ^ lastBit (bitcoins n) := by positivity
  have hsmall : (2 : ℚ) ^ lastBit (bitcoins n) ≤ 1 := by
    calc (2 : ℚ) ^ lastBit (bitcoins n) ≤ 2 ^ (0 : ℤ) := zpow_le_zpow_right₀ (by norm_num) (by omega)
      _ = 1 := zpow_zero 2
  have herror := abs_le.mp (roundHalfEven_error (bitcoins n / 2 ^ lastBit (bitcoins n)))
  have hdiv : bitcoins n / 2 ^ lastBit (bitcoins n) * 2 ^ lastBit (bitcoins n) = bitcoins n :=
    div_mul_cancel₀ _ hpow.ne'
  have hbound : |Bitcoin.number (bitcoins n)| < 2 ^ 1024 := by
    have hclose : |Bitcoin.number (bitcoins n)| ≤ 21000001 := by
      rw [hnumber, abs_le]
      constructor <;> nlinarith
    calc |Bitcoin.number (bitcoins n)| ≤ 21000001 := hclose
      _ < 2 ^ 25 := by norm_num
      _ ≤ 2 ^ 1024 := pow_le_pow_right₀ (by norm_num) (by decide)
  rw [hnumber] at hbound
  rw [hnumber, roundDouble, if_pos hbound]

theorem le_number_satoshi : (10 : ℚ) ^ (-8 : ℤ) ≤ Bitcoin.number (bitcoins 1) := by
  have hv : bitcoins 1 = 1 / 100000000 := by norm_num [bitcoins]
  have hlog : Int.log 2 |bitcoins 1| = -27 := by
    rw [hv, abs_of_pos (by norm_num)]
    apply le_antisymm
    · apply Int.lt_add_one_iff.mp
      exact (Int.lt_zpow_iff_log_lt (b := 2) (by decide) (by norm_num)).mp (by norm_num)
    · exact (Int.zpow_le_iff_le_log (b := 2) (by decide) (by norm_num)).mp (by norm_num)
  have hfloor : ⌊(1 / 100000000 : ℚ) * 2 ^ (79 : ℤ)⌋ = 6044629098073145 := by
    apply Int.floor_eq_iff.mpr
    constructor <;> norm_num
  have hround : roundHalfEven ((1 / 100000000 : ℚ) * 2 ^ (79 : ℤ)) = 6044629098073146 := by
    rw [roundHalfEven, hfloor, if_neg (by norm_num), if_pos (by norm_num)]
    rfl
  have hexp : (52 : ℤ) - -27 = 79 := by decide
  rw [Bitcoin.number, if_neg (by rw [hv]; norm_num), hlog, hexp, hv]
  dsimp only
  rw [roundHalfEven_eq, hround]
  norm_num

theorem number_error (hpos : 0 < n) (hn : n ≤ maxMoney) :
    |Bitcoin.number (bitcoins n) - bitcoins n| ≤ 2 ^ (-28 : ℤ) / 2 := by
  obtain ⟨hlow, hhigh⟩ := bitcoins_bounds hpos hn
  have hunit : (0 : ℚ) < 10 ^ (-8 : ℤ) := by positivity
  have herror := read_error (m := 25) (by decide) (hunit.trans_le hlow).le
    (hhigh.trans_lt (by norm_num)) (read_bitcoins hpos hn)
  have hexp : (25 : ℤ) - 53 = -28 := by decide
  rw [hexp] at herror
  exact herror

theorem le_number (hpos : 0 < n) (hn : n ≤ maxMoney) :
    (10 : ℚ) ^ (-8 : ℤ) ≤ Bitcoin.number (bitcoins n) := by
  obtain h | h := eq_or_lt_of_le (show 1 ≤ n from hpos)
  · rw [← h]
    exact le_number_satoshi
  · have htwo : (2 : ℚ) ≤ n := by exact_mod_cast h
    have hlow : (2 : ℚ) / 100000000 ≤ bitcoins n := by
      rw [bitcoins, Int.cast_natCast]
      exact div_le_div_of_nonneg_right htwo (by norm_num)
    have herror := (abs_le.mp (number_error hpos hn)).1
    norm_num at herror ⊢
    linarith

theorem printed_bitcoins (hpos : 0 < n) (hn : n ≤ maxMoney) :
    shortest (Bitcoin.number (bitcoins n)) = some (bitcoins n) := by
  obtain ⟨_, hhigh⟩ := bitcoins_bounds hpos hn
  have herror := (abs_le.mp (number_error hpos hn)).2
  have hsmall : Bitcoin.number (bitcoins n) < 2 ^ (25 : ℤ) := by
    norm_num at herror ⊢
    linarith
  refine shortest_grid (bitcoins_units n) (show 3 * (2 : ℚ) ^ ((25 : ℤ) - 53) / 2 < _ by norm_num) (by decide)
    (hhigh.trans_lt (by norm_num)) hsmall (le_number hpos hn) ?_ (read_bitcoins hpos hn)
  apply hsmall.trans
  norm_num

theorem decimal_number (hpos : 0 < n) (hn : n ≤ maxMoney) :
    decimal (Bitcoin.number (bitcoins n)) = some (bitcoins n) := by
  have hunit : (0 : ℚ) < 10 ^ (-8 : ℤ) := by positivity
  have hlow := le_number hpos hn
  rw [decimal, if_neg (by linarith), printed_bitcoins hpos hn]

theorem bitcoins_mul (n : ℤ) : bitcoins n * 100000000 = n := div_mul_cancel₀ _ (by norm_num)

theorem decimalRound_natCast (hn : n ≤ maxMoney) : decimalRound n = n := by
  have hunits : (n : ℚ) * 10 ^ 0 = n := by rw [pow_zero, mul_one]
  apply roundSig_eq_self hunits
  calc n ≤ maxMoney := hn
    _ < 10 ^ 20 := by decide

theorem decimalRound_bitcoins (hn : n ≤ maxMoney) : decimalRound (bitcoins n) = bitcoins n := by
  apply roundSig_eq_self (bitcoins_units n)
  calc n ≤ maxMoney := hn
    _ < 10 ^ 20 := by decide

theorem amountAtomic_number (hpos : 0 < n) (hn : n ≤ maxMoney) :
    amountAtomic (Bitcoin.number (bitcoins n)) = some (n : ℤ) := by
  rw [amountAtomic, decimal_number hpos hn, Option.map_some, bitcoins_mul, Int.cast_natCast,
    decimalRound_natCast hn]
  exact congrArg some (roundHalfUp_intCast (Int.natCast_nonneg n))

end Doubles

section Sending

open Talk (Succeeds)

variable {node : Bitcoin.Node} {config : Bitcoin.Config} {items : List PayoutCandidate} {deduct : Bool}
  {log log' : List Bitcoin.Exchange} {p : PreparedPayout}

def printed (o : Bitcoin.Output) : String × Option ℚ := (o.address, shortest o.amount)

theorem printed_output {d : Destination} (hpos : 0 < d.amountAtomic) (hmax : d.amountAtomic ≤ maxMoney) :
    printed (Bitcoin.output d) = (d.address, some (bitcoins d.amountAtomic)) := by
  obtain ⟨n, hn⟩ := Int.eq_ofNat_of_zero_le hpos.le
  rw [hn] at hpos hmax
  have hnpos : 0 < n := by exact_mod_cast hpos
  have hnmax : n ≤ maxMoney := by exact_mod_cast hmax
  have hplaces : roundPlaces 8 (bitcoins n) = bitcoins n := by
    have hpow : (100000000 : ℚ) = 10 ^ 8 := by norm_num
    rw [roundPlaces, ← hpow, bitcoins_mul, roundHalfUp_intCast (Int.natCast_nonneg n)]
    rfl
  have hamount : (Bitcoin.output d).amount = Bitcoin.number (bitcoins n) := by
    change Bitcoin.number (roundPlaces 8 (decimalRound (bitcoins d.amountAtomic))) = _
    rw [hn, decimalRound_bitcoins hnmax, hplaces]
  rw [printed, hamount, printed_bitcoins hnpos hnmax, hn]
  rfl

theorem bitcoins_add (a b : ℤ) : bitcoins (a + b) = bitcoins a + bitcoins b := by
  rw [bitcoins, Int.cast_add, add_div]
  rfl

theorem sum_bitcoins {l : List NetItem} (h : ∀ i ∈ l, i.netAtomic + i.allocatedFeeAtomic = i.grossAtomic) :
    (l.map (fun i => bitcoins i.netAtomic)).sum + bitcoins (l.map NetItem.allocatedFeeAtomic).sum =
      bitcoins (l.map (fun i => i.grossAtomic)).sum := by
  induction l with
  | nil => simp [bitcoins]
  | cons i l ih =>
    have hrest := ih (fun j hj => h j (List.mem_cons_of_mem i hj))
    have hhead := h i List.mem_cons_self
    simp only [List.map_cons, List.sum_cons]
    rw [← hhead, bitcoins_add, bitcoins_add, bitcoins_add, ← hrest]
    ring

theorem net_bounds (hids : (items.map PayoutCandidate.id).Nodup)
    (hgross : ∀ item ∈ items, 0 < item.grossAtomic ∧ item.grossAtomic ≤ maxMoney)
    (h : apportionFee deduct items p.feeAtomic = .ok p.items) :
    ∀ i ∈ p.items, 0 < i.netAtomic ∧ i.netAtomic ≤ maxMoney := by
  obtain ⟨hcandidates, hitems, _⟩ := apportionFee_ok hids (fun i hi => (hgross i hi).1.le) h
  intro i hi
  obtain ⟨hbalanced, hnonneg⟩ := hitems i hi
  have hitem : i.toPayoutCandidate ∈ items := by
    rw [← hcandidates]
    exact List.mem_map_of_mem hi
  obtain ⟨hlow, hhigh⟩ := hgross _ hitem
  cases hd : deduct with
  | true =>
    obtain ⟨heq, hpos⟩ := hbalanced.deducted hd
    omega
  | false =>
    rw [hbalanced.kept hd]
    exact ⟨hlow, hhigh⟩

theorem atomicFee_exact {n : ℕ} {funded : Bitcoin.FundedPsbt} (hpos : 0 < n) (hn : n ≤ maxMoney)
    (hread : ∃ d, decimal (Bitcoin.number (bitcoins n)) = some d ∧ funded.fee = .ok d) :
    Bitcoin.atomicFee funded = .ok n := by
  obtain ⟨d, hd, hanswer⟩ := hread
  rw [decimal_number hpos hn] at hd
  cases hd
  have hceil : ⌈decimalRound (bitcoins n * 100000000)⌉ = n := by
    rw [bitcoins_mul, Int.cast_natCast, decimalRound_natCast hn, Int.ceil_natCast]
  rw [Bitcoin.atomicFee, hanswer]
  exact congrArg Except.ok hceil

/-- The transaction that is signed was asked for with exact amounts, and a fee that
the node names is taken exactly. -/
theorem signed_transaction_pays_exactly (hids : (items.map PayoutCandidate.id).Nodup)
    (hgross : ∀ item ∈ items, 0 < item.grossAtomic ∧ item.grossAtomic ≤ maxMoney)
    (h : Succeeds (Bitcoin.preparePayout node config items deduct) log log' p) :
    ∃ (before : List Bitcoin.Exchange) (request : Bitcoin.FundRequest) (funded : Bitcoin.FundedPsbt)
      (processed : Bitcoin.ProcessedPsbt) (finalized : Bitcoin.FinalizedPsbt) (txid passphrase : String)
      (unlocked locked : Except Failure Unit),
      log' = before ++ .walletcreatefundedpsbt request (.ok funded) ::
        .walletpassphrase passphrase 15 unlocked ::
          (Bitcoin.signing funded processed finalized txid ++ [.walletlock locked]) ∧
      p.signedPayload = finalized.hex ∧
      request.outputs.map printed = p.items.map (fun i => (i.address, some (bitcoins i.netAtomic))) ∧
      (∀ n : ℕ, 0 < n → n ≤ maxMoney →
        (∃ d, decimal (Bitcoin.number (bitcoins n)) = some d ∧ funded.fee = .ok d) → p.feeAtomic = n) ∧
      (deduct = true → Conserves decimalRound p.feeAtomic (feeWeights items) →
        (request.outputs.map (fun o => (printed o).2.getD 0)).sum + bitcoins p.feeAtomic =
          bitcoins (items.map PayoutCandidate.grossAtomic).sum) := by
  obtain ⟨hamounts, hsigns⟩ := Bitcoin.preparePayout_ok h
  obtain ⟨hcandidates, hitems, hsum⟩ := apportionFee_ok hids (fun i hi => (hgross i hi).1.le) hamounts
  obtain ⟨before, unlocked, locked, passphrase, funded, processed, finalized, txid, hlog, hfee, _, _,
    hpayload, _⟩ := hsigns.record
  have hnet := net_bounds hids hgross hamounts
  have hprinted : ∀ i ∈ p.items,
      printed (Bitcoin.output i.net) = (i.address, some (bitcoins i.netAtomic)) := by
    intro i hi
    obtain ⟨hpos, hmax⟩ := hnet i hi
    exact printed_output hpos hmax
  refine ⟨before, { outputs := p.items.map (fun i => Bitcoin.output i.net) }, funded, processed,
    finalized, txid, passphrase, unlocked, locked, hlog, hpayload, ?_, ?_, ?_⟩
  · rw [List.map_map]
    apply List.map_congr_left
    intro i hi
    exact hprinted i hi
  · intro n hpos hn hread
    rw [atomicFee_exact hpos hn hread] at hfee
    exact (Except.ok.inj hfee).symm
  · intro hd hconserves
    have hvalues : (p.items.map (fun i => Bitcoin.output i.net)).map (fun o => (printed o).2.getD 0) =
        p.items.map (fun i => bitcoins i.netAtomic) := by
      rw [List.map_map]
      apply List.map_congr_left
      intro i hi
      rw [Function.comp_apply, hprinted i hi]
      rfl
    have hdeducted : ∀ i ∈ p.items, i.netAtomic + i.allocatedFeeAtomic = i.grossAtomic := by
      intro i hi
      have hbalanced := ((hitems i hi).1.deducted hd).1
      omega
    rw [hvalues, ← hsum hconserves, sum_bitcoins hdeducted, ← hcandidates, List.map_map]
    rfl

theorem signed_transaction_pays_exactly_sample :
    ∃ log' p, Succeeds (Bitcoin.preparePayout sampleNode ⟨"regtest", false, .ok "secret"⟩
        sampleCandidates true) [] log' p ∧
      p.items.map NetItem.netAtomic = [540, 360] ∧
      ∃ request funded, .walletcreatefundedpsbt request (.ok funded) ∈ log' ∧
        request.outputs.map printed = p.items.map (fun i => (i.address, some (bitcoins i.netAtomic))) := by
  obtain ⟨log', p, h, _, _, hnet⟩ := @amounts_succeeds _ (Bitcoin.preparePayout sampleNode
    ⟨"regtest", false, .ok "secret"⟩ sampleCandidates true) [] (100, [60, 40], [540, 360])
      (by decide +kernel)
  obtain ⟨before, request, funded, _, _, _, _, _, _, hlog, _, hprinted, _⟩ :=
    signed_transaction_pays_exactly (by decide) (by decide) h
  refine ⟨log', p, h, hnet, request, funded, ?_, hprinted⟩
  rw [hlog]
  simp

end Sending

section Receiving

variable {required : ℤ} {addresses : List String} {sats : BitcoinTransaction → ℕ}

/-- What a receipt tells of the entry that it comes from. -/
structure Tells (required : ℤ) (sats : BitcoinTransaction → ℕ) (tx : BitcoinTransaction)
    (r : WalletReceipt) : Prop where
  txid : tx.txid = some r.txid ∧ r.txid ≠ ""
  address : tx.address = some r.address
  outputRef : r.outputRef = toString (tx.vout.getD 0)
  amount : r.amountAtomic = sats tx
  confirmations : r.confirmations = tx.confirmations.getD 0
  locked : r.locked = true ↔ r.confirmations < required

theorem present_eq {s : Option String} (h : present s = true) : ∃ t, s = some t ∧ t ≠ "" := by
  cases s with
  | none => cases h
  | some t =>
    refine ⟨t, rfl, ?_⟩
    rintro rfl
    cases h

theorem receipt_tells {tx : BitcoinTransaction} (hreceipt : isReceipt addresses tx = true)
    (hpos : 0 < sats tx) (hmax : sats tx ≤ maxMoney)
    (hamount : tx.amount = some (Bitcoin.number (bitcoins (sats tx)))) :
    ∃ r, receipt required tx = some r ∧ Tells required sats tx r := by
  simp only [isReceipt, Bool.and_eq_true] at hreceipt
  obtain ⟨⟨⟨⟨_, hto⟩, _⟩, hid⟩, _⟩ := hreceipt
  obtain ⟨address, haddress, _⟩ := present_eq hto
  obtain ⟨txid, htxid, hne⟩ := present_eq hid
  refine ⟨⟨txid, toString (tx.vout.getD 0), address, sats tx, tx.confirmations.getD 0,
    tx.confirmations.getD 0 < required⟩, ?_, ⟨htxid, hne⟩, haddress, rfl, rfl, rfl, by simp⟩
  rw [receipt, hamount, Option.getD_some, amountAtomic_number hpos hmax, Option.map_some, htxid, haddress]
  rfl

theorem mapM_tells {l : List BitcoinTransaction} (hall : ∀ tx ∈ l, ∃ r, receipt required tx = some r ∧
    Tells required sats tx r) :
    ∃ receipts, l.mapM (receipt required) = some receipts ∧ List.Forall₂ (Tells required sats) l receipts := by
  induction l with
  | nil => exact ⟨[], rfl, .nil⟩
  | cons tx l ih =>
    obtain ⟨r, hr, htells⟩ := hall tx List.mem_cons_self
    obtain ⟨rs, hrs, hrest⟩ := ih (fun t ht => hall t (List.mem_cons_of_mem tx ht))
    refine ⟨r :: rs, ?_, .cons htells hrest⟩
    rw [List.mapM_cons, hr, hrs]
    rfl

theorem sum_tells {l : List BitcoinTransaction} {receipts : List WalletReceipt}
    (h : List.Forall₂ (Tells required sats) l receipts) :
    (receipts.map WalletReceipt.amountAtomic).sum = ((l.map sats).sum : ℕ) := by
  induction h with
  | nil => rfl
  | cons hhead _ ih =>
    simp only [List.map_cons, List.sum_cons, Nat.cast_add]
    rw [hhead.amount, ih]

/-- Every incoming entry becomes one receipt about exactly the satoshis that the node
wrote down, although they travel as a binary fraction of a bitcoin. -/
theorem receipts_exact {transactions : List BitcoinTransaction} (hwatched : addresses ≠ [])
    (hamounts : ∀ tx ∈ transactions, isReceipt addresses tx = true →
      0 < sats tx ∧ sats tx ≤ maxMoney ∧ tx.amount = some (Bitcoin.number (bitcoins (sats tx)))) :
    ∃ receipts, scanReceipts required addresses transactions = some receipts ∧
      List.Forall₂ (Tells required sats) (transactions.filter (isReceipt addresses)) receipts ∧
      (receipts.map WalletReceipt.amountAtomic).sum =
        (((transactions.filter (isReceipt addresses)).map sats).sum : ℕ) := by
  have hall : ∀ tx ∈ transactions.filter (isReceipt addresses),
      ∃ r, receipt required tx = some r ∧ Tells required sats tx r := by
    intro tx htx
    obtain ⟨hmem, hreceipt⟩ := List.mem_filter.mp htx
    obtain ⟨hpos, hmax, hamount⟩ := hamounts tx hmem hreceipt
    exact receipt_tells hreceipt hpos hmax hamount
  obtain ⟨receipts, hreceipts, htells⟩ := mapM_tells hall
  refine ⟨receipts, ?_, htells, sum_tells htells⟩
  rw [scanReceipts, if_neg (by simpa using hwatched), hreceipts]

def sampleTransaction : BitcoinTransaction :=
  ⟨some "address-a", some "receive", some (Bitcoin.number (bitcoins 29)), some 3, some "txid", some 1⟩

theorem receipts_exact_sample :
    ∃ receipts, scanReceipts 6 ["address-a"] [sampleTransaction] = some receipts ∧
      (receipts.map WalletReceipt.amountAtomic).sum = 29 := by
  have hreceipt : isReceipt ["address-a"] sampleTransaction = true := by decide +kernel
  obtain ⟨receipts, hreceipts, _, hsum⟩ :=
    @receipts_exact 6 ["address-a"] (fun _ => 29) [sampleTransaction] (by simp) (by
        intro tx htx _
        rw [List.mem_singleton.mp htx]
        exact ⟨by decide, by decide, rfl⟩)
  refine ⟨receipts, hreceipts, ?_⟩
  rw [hsum, List.filter_cons_of_pos hreceipt]
  rfl

end Receiving

end Bitmine.WalletAmounts
