import Bitmine.Apportionment
import Bitmine.Schema
import Bitmine.Lib.Dialogue
import Bitmine.Lib.JsonText

namespace Bitmine.PayoutPreparation

open Bitmine.Lib.Dialogue Bitmine.Lib.Rounding Bitmine.Lib.Throwing Bitmine.Schema
open Bitmine.Allocation Bitmine.Apportionment
open Talk (Succeeds)

structure Failure where
  rpc : Bool
  message : String

def thrown (message : String) : Failure := ⟨false, message⟩

structure PayoutCandidate where
  id : Id
  address : String
  grossAtomic : ℤ

structure NetItem extends PayoutCandidate where
  allocatedFeeAtomic : ℤ
  netAtomic : ℤ

structure PreparedPayout where
  signedPayload : String
  transactionIds : List String
  feeAtomic : ℤ
  items : List NetItem

structure Destination where
  address : String
  amountAtomic : ℤ

def PayoutCandidate.gross (i : PayoutCandidate) : Destination := ⟨i.address, i.grossAtomic⟩

def NetItem.net (i : NetItem) : Destination := ⟨i.address, i.netAtomic⟩

section Fees

def feeWeights (items : List PayoutCandidate) : List (WeightedItem Id) :=
  items.map (fun i => ⟨i.id, i.grossAtomic⟩)

def feeMap (fees : List (AllocatedItem Id)) (id : Id) : Option ℤ :=
  (fees.reverse.find? (fun fee => fee.key = id)).map AllocatedItem.amount

def netItem (deductFeeFromOutputs : Bool) (fees : List (AllocatedItem Id)) (item : PayoutCandidate) :
    Except Failure NetItem :=
  let allocatedFeeAtomic := (feeMap fees item.id).getD 0
  if deductFeeFromOutputs ∧ item.grossAtomic ≤ allocatedFeeAtomic then
    .error (thrown ("Payout " ++ toString item.id ++ " is smaller than its fee"))
  else .ok ⟨item, allocatedFeeAtomic,
    if deductFeeFromOutputs then item.grossAtomic - allocatedFeeAtomic else item.grossAtomic⟩

def apportionFee (deductFeeFromOutputs : Bool) (items : List PayoutCandidate) (feeAtomic : ℤ) :
    Except Failure (List NetItem) := do
  let fees ← (largestRemainder decimalRound feeAtomic (feeWeights items)).mapError thrown
  items.mapM (netItem deductFeeFromOutputs fees)

end Fees

section Loop

variable {ε φ : Type}

/-- The variables of the loop; `funded` is undefined until the fee is confirmed. -/
structure Attempt (φ : Type) where
  feeAtomic : ℤ
  netItems : List NetItem
  funded : Option φ

/-- The loop of both adapters: apportion the fee, have the transaction built, and
stop when the wallet reports the fee that was apportioned. -/
def converge (fund : List Destination → Talk ε Failure φ) (feeOf : φ → Except Failure ℤ)
    (deductFeeFromOutputs : Bool) (items : List PayoutCandidate) :
    ℕ → Attempt φ → Talk ε Failure (Attempt φ)
  | 0, s => pure s
  | attempts + 1, s => do
    let netItems ← Talk.attempt (apportionFee deductFeeFromOutputs items s.feeAtomic)
    let funded ← fund (netItems.map NetItem.net)
    let actualFee ← Talk.attempt (feeOf funded)
    if actualFee = s.feeAtomic then pure ⟨s.feeAtomic, netItems, some funded⟩
    else converge fund feeOf deductFeeFromOutputs items attempts ⟨actualFee, netItems, none⟩

/-- When the loop ends with a transaction, it was built last, from the amounts
that go with its fee. -/
structure Converged (fund : List Destination → Talk ε Failure φ) (feeOf : φ → Except Failure ℤ)
    (deductFeeFromOutputs : Bool) (items : List PayoutCandidate) (log' : List ε) (funded : φ)
    (s : Attempt φ) : Prop where
  built : ∃ log, Succeeds (fund (s.netItems.map NetItem.net)) log log' funded
  fee : feeOf funded = .ok s.feeAtomic
  amounts : apportionFee deductFeeFromOutputs items s.feeAtomic = .ok s.netItems

theorem converge_spec {fund : List Destination → Talk ε Failure φ} {feeOf : φ → Except Failure ℤ}
    {deduct : Bool} {items : List PayoutCandidate} {attempts : ℕ} {s s' : Attempt φ}
    {log log' : List ε} {funded : φ} (hs : s.funded = none)
    (h : Succeeds (converge fund feeOf deduct items attempts s) log log' s')
    (hf : s'.funded = some funded) : Converged fund feeOf deduct items log' funded s' := by
  induction attempts generalizing s log with
  | zero =>
    obtain ⟨_, rfl⟩ := Talk.succeeds_pure.mp h
    rw [hs] at hf
    cases hf
  | succ attempts ih =>
    simp only [converge, Talk.succeeds_bind, Talk.succeeds_attempt] at h
    obtain ⟨_, netItems, ⟨rfl, hamounts⟩, mid, funded', hfund, _, actualFee, ⟨rfl, hfee⟩, h⟩ := h
    split at h
    · rename_i heq
      obtain ⟨rfl, rfl⟩ := Talk.succeeds_pure.mp h
      cases hf
      exact ⟨⟨_, hfund⟩, heq ▸ hfee, hamounts⟩
    · exact ih rfl h

end Loop

section Amounts

variable {items : List PayoutCandidate} {deduct : Bool} {netItems : List NetItem}

structure Balanced (deductFeeFromOutputs : Bool) (i : NetItem) : Prop where
  deducted : deductFeeFromOutputs = true →
    i.netAtomic = i.grossAtomic - i.allocatedFeeAtomic ∧ 0 < i.netAtomic
  kept : deductFeeFromOutputs = false → i.netAtomic = i.grossAtomic

theorem netItem_ok {fees : List (AllocatedItem Id)} {item : PayoutCandidate} {i : NetItem}
    (h : netItem deduct fees item = .ok i) : i.toPayoutCandidate = item ∧
      i.allocatedFeeAtomic = (feeMap fees item.id).getD 0 ∧ Balanced deduct i := by
  unfold netItem at h
  dsimp only at h
  split at h
  · cases h
  · rename_i hfee
    cases h
    refine ⟨rfl, rfl, fun hd => ⟨if_pos hd, ?_⟩, fun hd => by simp [hd]⟩
    rw [not_and, not_le] at hfee
    rw [if_pos hd]
    exact sub_pos.mpr (hfee hd)

theorem netItems_ok {fees : List (AllocatedItem Id)}
    (h : items.mapM (netItem deduct fees) = .ok netItems) :
    netItems.map NetItem.toPayoutCandidate = items ∧
      netItems.map NetItem.allocatedFeeAtomic =
        items.map (fun item => (feeMap fees item.id).getD 0) ∧
      ∀ i ∈ netItems, Balanced deduct i := by
  have hall := forall₂_of_mapM h
  clear h
  induction hall with
  | nil => exact ⟨rfl, rfl, fun i hi => (by cases hi)⟩
  | cons hi _ ih =>
    obtain ⟨hc, hf, hb⟩ := netItem_ok hi
    obtain ⟨hcs, hfs, hbs⟩ := ih
    refine ⟨by rw [List.map_cons, hc, hcs], by rw [List.map_cons, List.map_cons, hf, hfs], ?_⟩
    intro j hj
    rcases List.mem_cons.mp hj with rfl | hj
    · exact hb
    · exact hbs j hj

theorem sum_feeMap {fees : List (AllocatedItem Id)} {ids : List Id}
    (hperm : (fees.map AllocatedItem.key).Perm ids) (hnodup : ids.Nodup) :
    (ids.map (fun id => (feeMap fees id).getD 0)).sum = (fees.map AllocatedItem.amount).sum := by
  have hkeys : (fees.map AllocatedItem.key).Nodup := hperm.nodup_iff.mpr hnodup
  have hlookup : ∀ fee ∈ fees, (feeMap fees fee.key).getD 0 = fee.amount := by
    intro fee hfee
    have hinj := List.inj_on_of_nodup_map hkeys
    cases hfind : fees.reverse.find? (fun other => other.key = fee.key) with
    | none =>
      have := List.find?_eq_none.mp hfind fee (List.mem_reverse.mpr hfee)
      simp at this
    | some other =>
      have hkey := List.find?_some hfind
      have hmem := List.mem_reverse.mp (List.mem_of_find?_eq_some hfind)
      rw [feeMap, hfind, hinj hmem hfee (by simpa using hkey)]
      rfl
  rw [← (hperm.map _).sum_eq, List.map_map]
  exact congrArg List.sum (List.map_congr_left hlookup)

theorem mapError_eq_ok {α : Type} {x : Except String α} {a : α}
    (h : x.mapError thrown = .ok a) : x = .ok a := by
  cases x with
  | ok b => exact congrArg Except.ok (Except.ok.inj h)
  | error e => cases h

theorem feeMap_nonneg {fees : List (AllocatedItem Id)} (h : ∀ fee ∈ fees, 0 ≤ fee.amount) (id : Id) :
    0 ≤ (feeMap fees id).getD 0 := by
  rw [feeMap]
  cases hfind : fees.reverse.find? (fun fee => fee.key = id) with
  | none => exact le_rfl
  | some fee => exact h fee (List.mem_reverse.mp (List.mem_of_find?_eq_some hfind))

/-- Every item is charged, no item negatively, and the charges make up the fee as
long as the apportionment keeps its total. -/
theorem apportionFee_ok {feeAtomic : ℤ} (hids : (items.map PayoutCandidate.id).Nodup)
    (hgross : ∀ item ∈ items, 0 ≤ item.grossAtomic)
    (h : apportionFee deduct items feeAtomic = .ok netItems) :
    netItems.map NetItem.toPayoutCandidate = items ∧
      (∀ i ∈ netItems, Balanced deduct i ∧ 0 ≤ i.allocatedFeeAtomic) ∧
      (Conserves decimalRound feeAtomic (feeWeights items) →
        (netItems.map NetItem.allocatedFeeAtomic).sum = feeAtomic) := by
  simp only [apportionFee, bind_eq_ok] at h
  obtain ⟨fees, hfees, h⟩ := h
  have hfees := mapError_eq_ok hfees
  obtain ⟨hcandidates, hallocated, hbalanced⟩ := netItems_ok h
  have hweights : ∀ w ∈ feeWeights items, 0 ≤ w.weight := by
    intro w hw
    obtain ⟨item, hi, rfl⟩ := List.mem_map.mp hw
    exact Int.cast_nonneg (hgross item hi)
  obtain ⟨hperm, hnonneg⟩ := largestRemainder_ok decimalRound_nonneg hweights hfees
  refine ⟨hcandidates, fun i hi => ⟨hbalanced i hi, ?_⟩, fun hc => ?_⟩
  · have hmem := List.mem_map_of_mem (f := NetItem.allocatedFeeAtomic) hi
    rw [hallocated] at hmem
    obtain ⟨item, _, heq⟩ := List.mem_map.mp hmem
    exact heq ▸ feeMap_nonneg hnonneg item.id
  · have hkeys : (feeWeights items).map WeightedItem.key = items.map PayoutCandidate.id := by
      rw [feeWeights, List.map_map]
      rfl
    rw [hkeys] at hperm
    have hsum := sum_feeMap hperm hids
    rw [List.map_map] at hsum
    obtain ⟨result, hresult, _, htotal⟩ := hc
    have heq : result = fees := Except.ok.inj (hresult.symm.trans hfees)
    rw [hallocated]
    exact hsum.trans (heq ▸ htotal)

/-- What the prepared items say about amounts fits together. The fee has no
rest as long as the apportionment keeps its total. -/
structure Consistent (items : List PayoutCandidate) (deductFeeFromOutputs : Bool)
    (p : PreparedPayout) : Prop where
  candidates : p.items.map NetItem.toPayoutCandidate = items
  balanced : ∀ i ∈ p.items, Balanced deductFeeFromOutputs i
  fees : Conserves decimalRound p.feeAtomic (feeWeights items) →
    (p.items.map NetItem.allocatedFeeAtomic).sum = p.feeAtomic

theorem consistent_of_apportionFee {p : PreparedPayout}
    (hids : (items.map PayoutCandidate.id).Nodup) (hgross : ∀ item ∈ items, 0 < item.grossAtomic)
    (h : apportionFee deduct items p.feeAtomic = .ok p.items) : Consistent items deduct p := by
  obtain ⟨hcandidates, hitems, hsum⟩ := apportionFee_ok hids (fun i hi => (hgross i hi).le) h
  exact ⟨hcandidates, fun i hi => (hitems i hi).1, hsum⟩

end Amounts

namespace Bitcoin

def roundHalfEven (x : ℚ) : ℤ :=
  let rest := x - ⌊x⌋
  if rest < 1 / 2 ∨ (rest = 1 / 2 ∧ ⌊x⌋ % 2 = 0) then ⌊x⌋ else ⌊x⌋ + 1

/-- `Number(...)`: the nearest binary64 number, within the range of the normal ones. -/
def number (x : ℚ) : ℚ :=
  if x = 0 then 0
  else
    let scale : ℚ := 2 ^ (52 - Int.log 2 |x|)
    roundHalfEven (x * scale) / scale

structure Output where
  address : String
  amount : ℚ

def output (d : Destination) : Output :=
  ⟨d.address, number (roundPlaces 8 (decimalRound (d.amountAtomic / 100000000)))⟩

structure FundRequest where
  inputs : List String := []
  outputs : List Output
  locktime : ℕ := 0
  addInputs : Bool := true
  lockUnspents : Bool := false
  replaceable : Bool := true
  bip32Derivs : Bool := true

structure FundedPsbt where
  psbt : String
  fee : Except Failure ℚ

structure ProcessedPsbt where
  psbt : String
  complete : Bool

structure FinalizedPsbt where
  hex : String
  complete : Bool

inductive Exchange where
  | walletcreatefundedpsbt (request : FundRequest) (answer : Except Failure FundedPsbt)
  | walletpassphrase (passphrase : String) (seconds : ℕ) (answer : Except Failure Unit)
  | walletprocesspsbt (psbt : String) (sign : Bool) (sighash : String) (bip32Derivs : Bool)
      (answer : Except Failure ProcessedPsbt)
  | finalizepsbt (psbt : String) (extract : Bool) (answer : Except Failure FinalizedPsbt)
  | decoderawtransaction (hex : String) (answer : Except Failure String)
  | walletlock (answer : Except Failure Unit)

structure Node where
  fund : FundRequest → List Exchange → Except Failure FundedPsbt
  unlock : List Exchange → Except Failure Unit
  process : String → List Exchange → Except Failure ProcessedPsbt
  finalize : String → List Exchange → Except Failure FinalizedPsbt
  decode : String → List Exchange → Except Failure String
  lock : List Exchange → Except Failure Unit

structure Config where
  network : String
  enableMainnetPayouts : Bool
  passphrase : Except Failure String

variable (node : Node) (config : Config)

def atomicFee (funded : FundedPsbt) : Except Failure ℤ :=
  funded.fee.map (fun fee => ⌈decimalRound (fee * 100000000)⌉)

def assertMainnetAllowed : Talk Exchange Failure Unit :=
  if config.network = "mainnet" ∧ config.enableMainnetPayouts = false then
    .fail (thrown "Bitcoin mainnet payouts are disabled by ENABLE_MAINNET_PAYOUTS")
  else pure ()

def walletcreatefundedpsbt (destinations : List Destination) : Talk Exchange Failure FundedPsbt :=
  let request : FundRequest := { outputs := destinations.map output }
  .ask (node.fund request) (.walletcreatefundedpsbt request)

def unencrypted (e : Failure) : Bool :=
  e.rpc && decide ("unencrypted".toList <:+: e.message.toLower.toList)

def unlock : Talk Exchange Failure Unit := do
  let passphrase ← Talk.attempt config.passphrase
  (Talk.ask node.unlock (.walletpassphrase passphrase 15)).ignoring unencrypted

def walletlock : Talk Exchange Failure Unit := .ask node.lock .walletlock

/-- The part of `preparePayout` that runs while the wallet is unlocked. -/
def sign (funded : FundedPsbt) (feeAtomic : ℤ) (netItems : List NetItem) :
    Talk Exchange Failure PreparedPayout := do
  let processed ← .ask (node.process funded.psbt) (.walletprocesspsbt funded.psbt true "ALL" true)
  if processed.complete then do
    let finalized ← .ask (node.finalize processed.psbt) (.finalizepsbt processed.psbt true)
    if finalized.complete ∧ finalized.hex ≠ "" then do
      let txid ← .ask (node.decode finalized.hex) (.decoderawtransaction finalized.hex)
      pure ⟨finalized.hex, [txid], feeAtomic, netItems⟩
    else .fail (thrown "Bitcoin Core did not finalize the payout PSBT")
  else .fail (thrown "Bitcoin Core did not fully sign the payout PSBT")

def finish (s : Attempt FundedPsbt) : Talk Exchange Failure PreparedPayout :=
  match s.funded with
  | none => .fail (thrown "Bitcoin payout fee did not converge")
  | some funded => do
    unlock node config
    (sign node funded s.feeAtomic s.netItems).andFinally (walletlock node)

def preparePayout (items : List PayoutCandidate) (deductFeeFromOutputs : Bool) :
    Talk Exchange Failure PreparedPayout :=
  if items.isEmpty then .fail (thrown "Payout has no items")
  else do
    assertMainnetAllowed config
    let preliminary ← walletcreatefundedpsbt node (items.map PayoutCandidate.gross)
    let feeAtomic ← Talk.attempt (atomicFee preliminary)
    let s ← converge (walletcreatefundedpsbt node) atomicFee deductFeeFromOutputs items 4
      ⟨feeAtomic, [], none⟩
    finish node config s

def signing (funded : FundedPsbt) (processed : ProcessedPsbt) (finalized : FinalizedPsbt)
    (txid : String) : List Exchange :=
  [.walletprocesspsbt funded.psbt true "ALL" true (.ok processed),
    .finalizepsbt processed.psbt true (.ok finalized),
    .decoderawtransaction finalized.hex (.ok txid)]

/-- The last exchanges with the node: the transaction with the returned net
amounts is built at the returned fee, and this transaction is signed. -/
structure Signs (log' : List Exchange) (p : PreparedPayout) : Prop where
  record : ∃ (before : List Exchange) (unlocked locked : Except Failure Unit) (passphrase : String)
      (funded : FundedPsbt) (processed : ProcessedPsbt) (finalized : FinalizedPsbt) (txid : String),
    log' = before ++ Exchange.walletcreatefundedpsbt
        { outputs := p.items.map (fun i => output i.net) } (.ok funded) ::
      Exchange.walletpassphrase passphrase 15 unlocked ::
        (signing funded processed finalized txid ++ [Exchange.walletlock locked]) ∧
    atomicFee funded = .ok p.feeAtomic ∧ processed.complete = true ∧ finalized.complete = true ∧
    p.signedPayload = finalized.hex ∧ p.transactionIds = [txid]

variable {node config}

theorem sign_ok {funded : FundedPsbt} {feeAtomic : ℤ} {netItems : List NetItem}
    {log log' : List Exchange} {p : PreparedPayout}
    (h : Succeeds (sign node funded feeAtomic netItems) log log' p) :
    ∃ (processed : ProcessedPsbt) (finalized : FinalizedPsbt) (txid : String),
      log' = log ++ signing funded processed finalized txid ∧ processed.complete = true ∧ finalized.complete = true ∧
      p = ⟨finalized.hex, [txid], feeAtomic, netItems⟩ := by
  simp only [sign, Talk.succeeds_bind, Talk.succeeds_ask] at h
  obtain ⟨_, processed, ⟨_, rfl⟩, h⟩ := h
  split at h
  · rename_i hprocessed
    simp only [Talk.succeeds_bind, Talk.succeeds_ask] at h
    obtain ⟨_, finalized, ⟨_, rfl⟩, h⟩ := h
    split at h
    · rename_i hfinalized
      simp only [Talk.succeeds_bind, Talk.succeeds_ask] at h
      obtain ⟨_, txid, ⟨_, rfl⟩, h⟩ := h
      obtain ⟨rfl, rfl⟩ := Talk.succeeds_pure.mp h
      exact ⟨processed, finalized, txid, by simp [signing], hprocessed, hfinalized.1, rfl⟩
    · exact absurd h Talk.succeeds_fail
  · exact absurd h Talk.succeeds_fail

theorem unlock_ok {log log' : List Exchange} (h : Succeeds (unlock node config) log log' ()) :
    ∃ (passphrase : String) (unlocked : Except Failure Unit),
      log' = log ++ [.walletpassphrase passphrase 15 unlocked] := by
  simp only [unlock, Talk.succeeds_bind, Talk.succeeds_attempt] at h
  obtain ⟨mid, passphrase, ⟨hmid, _⟩, h⟩ := h
  rw [hmid] at h
  refine ⟨passphrase, node.unlock log, ?_⟩
  have hrecord := congrArg Prod.fst h
  rw [Talk.ignoring_record] at hrecord
  exact hrecord.symm

theorem preparePayout_ok {items : List PayoutCandidate} {deduct : Bool} {log log' : List Exchange}
    {p : PreparedPayout} (h : Succeeds (preparePayout node config items deduct) log log' p) :
    apportionFee deduct items p.feeAtomic = .ok p.items ∧ Signs log' p := by
  rw [preparePayout] at h
  split at h
  · exact absurd h Talk.succeeds_fail
  simp only [Talk.succeeds_bind, Talk.succeeds_attempt] at h
  obtain ⟨_, _, _, _, _, _, _, feeAtomic, _, built, s, hloop, h⟩ := h
  rw [finish] at h
  split at h
  · exact absurd h Talk.succeeds_fail
  rename_i funded hfunded
  simp only [Talk.succeeds_bind, Talk.succeeds_andFinally] at h
  obtain ⟨unlocked, _, hunlock, signed, hsign, rfl⟩ := h
  obtain ⟨⟨before, hbuilt⟩, hfee, hamounts⟩ := converge_spec rfl hloop hfunded
  obtain ⟨passphrase, result, rfl⟩ := unlock_ok hunlock
  obtain ⟨processed, finalized, txid, rfl, hp, hf, rfl⟩ := sign_ok hsign
  obtain ⟨_, rfl⟩ := Talk.succeeds_ask.mp hbuilt
  refine ⟨hamounts, ⟨before, result, ?_, passphrase, funded, processed, finalized, txid, ?_, hfee,
    hp, hf, rfl, rfl⟩⟩
  rotate_left
  · simp only [walletlock, Talk.ask, List.append_assoc, List.cons_append, List.nil_append,
      List.map_map, Function.comp_def]
    rfl

end Bitcoin

namespace Monero

open Bitmine.Lib.JsonText

structure TransferDestination where
  address : String
  amount : String

structure TransferRequest where
  destinations : List TransferDestination
  accountIndex : ℕ := 0
  priority : ℕ := 0
  getTxKeys : Bool := true
  doNotRelay : Bool := true
  getTxHex : Bool := true
  getTxMetadata : Bool := true

structure TransferSplitResult where
  txHashList : Option (List String)
  txMetadataList : Option (List String)
  feeList : Option (List (Except Failure ℤ))

inductive Exchange where
  | transfer_split (request : TransferRequest) (answer : Except Failure TransferSplitResult)

structure Config where
  network : String
  enableMainnetPayouts : Bool

abbrev Wallet := TransferRequest → List Exchange → Except Failure TransferSplitResult

variable (wallet : Wallet) (config : Config)

def destination (d : Destination) : TransferDestination := ⟨d.address, toString d.amountAtomic⟩

def transferSplit (destinations : List Destination) : Talk Exchange Failure TransferSplitResult :=
  let request : TransferRequest := { destinations := destinations.map destination }
  .ask (wallet request) (.transfer_split request)

def totalFee (result : TransferSplitResult) : Except Failure ℤ :=
  (result.feeList.getD []).foldlM (fun sum fee => fee.map (sum + ·)) 0

def assertMainnetAllowed : Talk Exchange Failure Unit :=
  if config.network = "mainnet" ∧ config.enableMainnetPayouts = false then
    .fail (thrown "Monero mainnet payouts are disabled by ENABLE_MAINNET_PAYOUTS")
  else pure ()

def payload (metadata transactionIds : List String) : String :=
  (Json.obj [("metadata", .arr (metadata.map .str)),
    ("transactionIds", .arr (transactionIds.map .str))]).stringify

def finish (s : Attempt TransferSplitResult) : Except Failure PreparedPayout :=
  match s.funded with
  | none => .error (thrown "Monero payout fee did not converge")
  | some prepared =>
    let metadata := prepared.txMetadataList.getD []
    let transactionIds := prepared.txHashList.getD []
    if metadata.isEmpty then
      .error (thrown "Monero wallet did not return transaction metadata")
    else if transactionIds.length ≠ metadata.length then
      .error (thrown "Monero wallet did not return stable transaction IDs")
    else .ok ⟨payload metadata transactionIds, transactionIds, s.feeAtomic, s.netItems⟩

def preparePayout (items : List PayoutCandidate) (deductFeeFromOutputs : Bool) :
    Talk Exchange Failure PreparedPayout :=
  if items.isEmpty then .fail (thrown "Payout has no items")
  else do
    assertMainnetAllowed config
    let preliminary ← transferSplit wallet (items.map PayoutCandidate.gross)
    let feeAtomic ← Talk.attempt (totalFee preliminary)
    let s ← converge (transferSplit wallet) totalFee deductFeeFromOutputs items 4
      ⟨feeAtomic, [], none⟩
    Talk.attempt (finish s)

/-- The last exchange with the wallet: it has built and signed the transactions
with the returned net amounts at the returned fee. -/
structure Signs (log' : List Exchange) (p : PreparedPayout) : Prop where
  record : ∃ (before : List Exchange) (prepared : TransferSplitResult) (metadata : List String),
    log' = before ++ [.transfer_split
      { destinations := p.items.map (fun i => destination i.net) } (.ok prepared)] ∧
    totalFee prepared = .ok p.feeAtomic ∧ prepared.txMetadataList.getD [] = metadata ∧
    metadata ≠ [] ∧ p.transactionIds = prepared.txHashList.getD [] ∧
    p.transactionIds.length = metadata.length ∧
    p.signedPayload = payload metadata p.transactionIds

variable {wallet config}

theorem preparePayout_ok {items : List PayoutCandidate} {deduct : Bool} {log log' : List Exchange}
    {p : PreparedPayout} (h : Succeeds (preparePayout wallet config items deduct) log log' p) :
    apportionFee deduct items p.feeAtomic = .ok p.items ∧ Signs log' p := by
  rw [preparePayout] at h
  split at h
  · exact absurd h Talk.succeeds_fail
  simp only [Talk.succeeds_bind, Talk.succeeds_attempt] at h
  obtain ⟨_, _, _, _, _, _, _, feeAtomic, _, built, s, hloop, hbuilt, h⟩ := h
  subst hbuilt
  rw [finish] at h
  split at h
  · cases h
  rename_i prepared hprepared
  dsimp only at h
  split at h
  · cases h
  rename_i hmetadata
  split at h
  · cases h
  rename_i hlength
  cases h
  obtain ⟨⟨before, hbuilt⟩, hfee, hamounts⟩ := converge_spec rfl hloop hprepared
  obtain ⟨_, rfl⟩ := Talk.succeeds_ask.mp hbuilt
  refine ⟨hamounts, ⟨before, prepared, _, ?_, hfee, rfl, ?_, rfl, not_not.mp hlength, rfl⟩⟩
  · simp only [List.map_map, Function.comp_def]
  · exact fun hnil => hmetadata (List.isEmpty_iff.mpr hnil)

end Monero

/-- Whatever the wallet answers: a payout that is returned was built last with
the returned net amounts, at the returned fee, and is the one that was signed;
the fee is divided over the items without rest and taken off their amounts, or
not at all. -/
theorem prepared_consistent {items : List PayoutCandidate} {deductFeeFromOutputs : Bool}
    (hids : (items.map PayoutCandidate.id).Nodup)
    (hgross : ∀ item ∈ items, 0 < item.grossAtomic) :
    (∀ node config log log' p,
      Succeeds (Bitcoin.preparePayout node config items deductFeeFromOutputs) log log' p →
        Bitcoin.Signs log' p ∧ Consistent items deductFeeFromOutputs p) ∧
    ∀ wallet config log log' p,
      Succeeds (Monero.preparePayout wallet config items deductFeeFromOutputs) log log' p →
        Monero.Signs log' p ∧ Consistent items deductFeeFromOutputs p := by
  constructor
  · intro node config log log' p h
    obtain ⟨hamounts, hsigns⟩ := Bitcoin.preparePayout_ok h
    exact ⟨hsigns, consistent_of_apportionFee hids hgross hamounts⟩
  · intro wallet config log log' p h
    obtain ⟨hamounts, hsigns⟩ := Monero.preparePayout_ok h
    exact ⟨hsigns, consistent_of_apportionFee hids hgross hamounts⟩

section Sample

def sampleNode : Bitcoin.Node :=
  ⟨fun _ _ => .ok ⟨"funded-psbt", .ok (1 / 1000000)⟩, fun _ => .ok (),
    fun _ _ => .ok ⟨"signed-psbt", true⟩, fun _ _ => .ok ⟨"signed-hex", true⟩,
    fun _ _ => .ok "stable-txid", fun _ => .ok ()⟩

def sampleWallet : Monero.Wallet :=
  fun _ _ => .ok ⟨some ["stable-txid"], some ["metadata"], some [.ok 60, .ok 40]⟩

def sampleCandidates : List PayoutCandidate := [⟨1, "address-a", 600⟩, ⟨2, "address-b", 400⟩]

def amounts {ε : Type} (r : List ε × Except Failure PreparedPayout) : Option (ℤ × List ℤ × List ℤ) :=
  r.2.toOption.map (fun p => (p.feeAtomic, p.items.map NetItem.allocatedFeeAtomic,
    p.items.map NetItem.netAtomic))

theorem amounts_succeeds {ε : Type} {x : Talk ε Failure PreparedPayout} {log : List ε}
    {v : ℤ × List ℤ × List ℤ} (h : amounts (x log) = some v) :
    ∃ log' p, Succeeds x log log' p ∧ p.feeAtomic = v.1 ∧
      p.items.map NetItem.allocatedFeeAtomic = v.2.1 ∧ p.items.map NetItem.netAtomic = v.2.2 := by
  obtain ⟨p, hp, rfl⟩ := Option.map_eq_some_iff.mp h
  cases hx : x log with
  | mk log' r =>
    cases r with
    | ok q =>
      rw [hx] at hp
      cases hp
      exact ⟨log', p, hx, rfl, rfl, rfl⟩
    | error e =>
      rw [hx] at hp
      cases hp

theorem prepared_consistent_sample :
    (∃ log' p, Succeeds (Bitcoin.preparePayout sampleNode ⟨"regtest", false, .ok "secret"⟩
        sampleCandidates true) [] log' p ∧ p.feeAtomic = 100 ∧
      p.items.map NetItem.netAtomic = [540, 360] ∧ Bitcoin.Signs log' p ∧
        Consistent sampleCandidates true p) ∧
    ∃ log' p, Succeeds (Monero.preparePayout sampleWallet ⟨"stagenet", false⟩ sampleCandidates true)
        [] log' p ∧ p.feeAtomic = 100 ∧ p.items.map NetItem.netAtomic = [540, 360] ∧
      Monero.Signs log' p ∧ Consistent sampleCandidates true p := by
  obtain ⟨hbitcoin, hmonero⟩ := @prepared_consistent sampleCandidates true (by decide)
    (by decide)
  constructor
  · obtain ⟨log', p, h, hfee, _, hnet⟩ := @amounts_succeeds _ (Bitcoin.preparePayout sampleNode
      ⟨"regtest", false, .ok "secret"⟩ sampleCandidates true) [] (100, [60, 40], [540, 360])
        (by decide +kernel)
    exact ⟨log', p, h, hfee, hnet, hbitcoin _ _ _ _ _ h⟩
  · obtain ⟨log', p, h, hfee, _, hnet⟩ := @amounts_succeeds _ (Monero.preparePayout sampleWallet
      ⟨"stagenet", false⟩ sampleCandidates true) [] (100, [60, 40], [540, 360]) (by decide +kernel)
    exact ⟨log', p, h, hfee, hnet, hmonero _ _ _ _ _ h⟩

end Sample

end Bitmine.PayoutPreparation
