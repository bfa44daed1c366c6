import Bitmine.Envelope
import Bitmine.LedgerOutflow
import Bitmine.Lib.JsonParse
import Bitmine.Relay

namespace Bitmine.Broadcasting

open Bitmine.Lib.UniqueTable Bitmine.Lib.Throwing Bitmine.Lib.Await Bitmine.Lib.Dialogue
open Bitmine.Lib.JsonText
open Bitmine.Schema Bitmine.Deployment Bitmine.PayoutPreparation
open Bitmine.Relay (Transaction Prepared Outcome relayFrom)

section Adapters

inductive Exchange where
  | sendrawtransaction (hex : String) (answer : Except Failure String)
  | relay_tx (hex : String) (answer : Except Failure (Option String))

def Exchange.hex : Exchange → String
  | .sendrawtransaction hex _ => hex
  | .relay_tx hex _ => hex

/-- The answers of the node and of the wallet, a `tx_hash` that is absent as `none`. -/
structure Wallets where
  sendrawtransaction : String → List Exchange → Except Failure String
  relay_tx : String → List Exchange → Except Failure (Option String)

structure Networks where
  bitcoinNetwork : String
  moneroNetwork : String
  enableMainnetPayouts : Bool

variable (wallets : Wallets) (config : Networks) (numberText : String → String)

def Networks.network : AssetCode → String
  | .btc => config.bitcoinNetwork
  | .xmr => config.moneroNetwork

def coin : AssetCode → String
  | .btc => "Bitcoin"
  | .xmr => "Monero"

def Networks.allowed (asset : AssetCode) : Bool :=
  !(config.network asset = "mainnet" ∧ config.enableMainnetPayouts = false)

def assertMainnetAllowed (asset : AssetCode) : Talk Exchange Failure Unit :=
  if config.allowed asset then pure ()
  else .fail (thrown (coin asset ++ " mainnet payouts are disabled by ENABLE_MAINNET_PAYOUTS"))

namespace Bitcoin

def broadcast (signedPayload : String) : Talk Exchange Failure (List String) := do
  assertMainnetAllowed config .btc
  let txid ← .ask (wallets.sendrawtransaction signedPayload) (.sendrawtransaction signedPayload)
  pure [txid]

end Bitcoin

namespace Monero

structure Payload where
  metadata : List String
  transactionIds : List String

def strings? : Json → Option (List String)
  | .arr items => items.mapM Json.string?
  | _ => none

/-- The text is taken for an object with two lists of texts. Of the errors of the
language the class is kept. -/
def readPayload (signedPayload : String) : Except Failure Payload :=
  match Lib.JsonParse.parse numberText signedPayload.toList with
  | none => .error (thrown "SyntaxError")
  | some json =>
    match (json.get? "metadata").bind strings?, (json.get? "transactionIds").bind strings? with
    | some metadata, some transactionIds => .ok ⟨metadata, transactionIds⟩
    | _, _ => .error (thrown "TypeError")

/-- The loop over the entries of `metadata`. -/
def relay (transactionIds : List String) : ℕ → List String → Talk Exchange Failure (List String)
  | _, [] => pure []
  | index, hex :: rest => do
    let txHash ← .ask (wallets.relay_tx hex) (.relay_tx hex)
    let txid := (txHash <|> transactionIds[index]?).getD ""
    if txid = "" then .fail (thrown "Monero wallet relay did not return a transaction ID")
    else do
      let txids ← relay transactionIds (index + 1) rest
      pure (txid :: txids)

def broadcast (signedPayload : String) : Talk Exchange Failure (List String) := do
  assertMainnetAllowed config .xmr
  let payload ← Talk.attempt (readPayload numberText signedPayload)
  relay wallets payload.transactionIds 0 payload.metadata

end Monero

def broadcast (signedPayload : String) : AssetCode → Talk Exchange Failure (List String)
  | .btc => Bitcoin.broadcast wallets config signedPayload
  | .xmr => Monero.broadcast wallets config numberText signedPayload

end Adapters

section Reading

variable {numberText : String → String} {metadata transactionIds : List String}

theorem proper_strings (l : List String) : Lib.JsonParse.ProperItems numberText (l.map .str) := by
  induction l with
  | nil => trivial
  | cons s l ih => exact ⟨trivial, ih⟩

theorem strings_map (l : List String) : Monero.strings? (.arr (l.map .str)) = some l := by
  rw [Monero.strings?]
  induction l with
  | nil => rfl
  | cons s l ih => simp [List.mapM_cons, ih, Json.string?]

theorem readPayload_payload :
    Monero.readPayload numberText (PayoutPreparation.Monero.payload metadata transactionIds) =
      .ok ⟨metadata, transactionIds⟩ := by
  have hproper : Lib.JsonParse.Proper numberText (.obj [("metadata", .arr (metadata.map .str)),
      ("transactionIds", .arr (transactionIds.map .str))]) := by
    refine ⟨?_, proper_strings _, proper_strings _, trivial⟩
    have hmetadata : Lib.JsonParse.arrayIndex? "metadata" = none := by decide
    have hids : Lib.JsonParse.arrayIndex? "transactionIds" = none := by decide
    simp [Lib.JsonParse.collect, Lib.JsonParse.enumerate, Json.put, hmetadata, hids]
  rw [Monero.readPayload, PayoutPreparation.Monero.payload, Lib.JsonParse.parse_stringify hproper]
  have hmetadata : (Json.get? "metadata" (.obj [("metadata", .arr (metadata.map .str)),
      ("transactionIds", .arr (transactionIds.map .str))])).bind Monero.strings? = some metadata := by
    simp [Json.get?, strings_map]
  have hids : (Json.get? "transactionIds" (.obj [("metadata", .arr (metadata.map .str)),
      ("transactionIds", .arr (transactionIds.map .str))])).bind Monero.strings? = some transactionIds := by
    simp [Json.get?, strings_map]
  simp only [hmetadata, hids]

end Reading

section Refinement

variable {wallets : Wallets} {config : Networks} {numberText : String → String} {log : List Exchange}

theorem relayFrom_begins (p : Prepared) (outcome : ℕ → Outcome) (index : ℕ) (ts : List Transaction) :
    (relayFrom p outcome index ts).submitted <+: ts ∧
      ((relayFrom p outcome index ts).result.isOk = true → (relayFrom p outcome index ts).submitted = ts) := by
  induction ts generalizing index with
  | nil => exact ⟨List.prefix_rfl, fun _ => rfl⟩
  | cons t ts ih =>
    rw [relayFrom]
    cases Relay.answer p t (outcome index) with
    | error message => exact ⟨⟨ts, rfl⟩, fun h => by cases h⟩
    | ok txid =>
      obtain ⟨hbegin, hall⟩ := ih (index + 1)
      refine ⟨(List.cons_prefix_cons).mpr ⟨rfl, hbegin⟩, fun h => ?_⟩
      dsimp only at h ⊢
      rw [hall]
      cases hr : (relayFrom p outcome (index + 1) ts).result with
      | ok txids => rfl
      | error message =>
        rw [hr] at h
        cases h

theorem relayFrom_congr {p : Prepared} {outcome outcome' : ℕ → Outcome} {index : ℕ}
    (h : ∀ k, index ≤ k → outcome k = outcome' k) (ts : List Transaction) :
    relayFrom p outcome index ts = relayFrom p outcome' index ts := by
  induction ts generalizing index with
  | nil => rfl
  | cons t ts ih =>
    rw [relayFrom, relayFrom, h index le_rfl, ih (fun k hk => h k (by omega))]

theorem andThen_pure {α β : Type} (x : Talk Exchange Failure α) (f : α → β) (log : List Exchange) :
    x.andThen (fun a => pure (f a)) log = ((x log).1, (x log).2.map f) := by
  rw [Talk.andThen]
  split <;> simp_all [pure, Talk.attempt, Except.map]

/-- What a call to the adapter says and answers is what an attempt to relay does. -/
structure Refines (x : List Exchange × Except Failure (List String)) (log : List Exchange)
    (r : Relay.Relayed) : Prop where
  said : ∃ es, x.1 = log ++ es ∧ es.map Exchange.hex = r.submitted.map Transaction.hex
  answered : x.2.mapError Failure.message = r.result

variable {metadata transactionIds : List String} (stable : transactionIds.length = metadata.length)

theorem txid_at {index : ℕ} {t : Transaction} {rest : List Transaction}
    (h : t :: rest = (Prepared.monero metadata transactionIds stable).transactions.drop index) :
    transactionIds[index]? = some t.txid := by
  have hat : (Prepared.monero metadata transactionIds stable).transactions[index]? = some t := by
    rw [← List.head?_drop, ← h, List.head?_cons]
  rw [Prepared.transactions, List.getElem?_zipWith] at hat
  cases hm : metadata[index]? with
  | none => simp [hm] at hat
  | some hex =>
    cases hid : transactionIds[index]? with
    | none => simp [hm, hid] at hat
    | some txid =>
      rw [hm, hid] at hat
      cases hat
      rfl

theorem hexes_transactions :
    (Prepared.monero metadata transactionIds stable).transactions.map Transaction.hex = metadata := by
  rw [Prepared.transactions, List.map_zipWith]
  apply List.ext_getElem
  · simp [stable]
  · intro index h h'
    simp

theorem relay_refines (rest : List Transaction) (index : ℕ) (log : List Exchange)
    (h : rest = (Prepared.monero metadata transactionIds stable).transactions.drop index) :
    ∃ outcome, Refines (Monero.relay wallets transactionIds index (rest.map Transaction.hex) log) log
      (relayFrom (.monero metadata transactionIds stable) outcome index rest) := by
  induction rest generalizing index log with
  | nil => exact ⟨fun _ => .relayed none, ⟨[], (List.append_nil log).symm, rfl⟩, rfl⟩
  | cons t rest ih =>
    simp only [List.map_cons, Monero.relay, bind, Talk.andThen, Talk.ask, txid_at stable h]
    cases ha : wallets.relay_tx t.hex log with
    | error e =>
      refine ⟨fun _ => .refused e.message, ⟨[.relay_tx t.hex (.error e)], rfl, ?_⟩, ?_⟩ <;>
        simp [relayFrom, Relay.answer, Exchange.hex, Except.mapError]
    | ok txHash =>
      have hid : (txHash <|> some t.txid).getD "" = txHash.getD t.txid := by cases txHash <;> rfl
      simp only [hid]
      by_cases hempty : txHash.getD t.txid = ""
      · refine ⟨fun _ => .relayed txHash, ⟨[.relay_tx t.hex (.ok txHash)], ?_, ?_⟩, ?_⟩ <;>
          simp [relayFrom, Relay.answer, Exchange.hex, Except.mapError, hempty, Talk.fail, Talk.attempt, thrown]
      · have hrest : rest = (Prepared.monero metadata transactionIds stable).transactions.drop (index + 1) := by
          rw [← List.tail_drop, ← h, List.tail_cons]
        obtain ⟨outcome, ⟨es, hes, hhex⟩, hanswer⟩ :=
          ih (index + 1) (log ++ [.relay_tx t.hex (.ok txHash)]) hrest
        let all : ℕ → Outcome := fun k => if k = index then .relayed txHash else outcome k
        have hfirst : all index = .relayed txHash := if_pos rfl
        have hlater : relayFrom (.monero metadata transactionIds stable) all (index + 1) rest =
            relayFrom (.monero metadata transactionIds stable) outcome (index + 1) rest := by
          apply relayFrom_congr
          intro k hk
          exact if_neg (by omega)
        have hansweredFirst : Relay.answer (.monero metadata transactionIds stable) t (all index) =
            .ok (txHash.getD t.txid) := by
          rw [hfirst, Relay.answer]
          exact if_neg hempty
        refine ⟨all, ⟨.relay_tx t.hex (.ok txHash) :: es, ?_, ?_⟩, ?_⟩
        · rw [if_neg hempty, andThen_pure, hes, List.append_assoc]
          rfl
        · rw [relayFrom, hansweredFirst, hlater, List.map_cons, List.map_cons, hhex]
          rfl
        · rw [relayFrom, hansweredFirst, hlater, if_neg hempty, andThen_pure]
          dsimp only
          rw [← hanswer]
          cases (Monero.relay wallets transactionIds (index + 1) (rest.map Transaction.hex)
            (log ++ [.relay_tx t.hex (.ok txHash)])).2 with
          | ok txids => rfl
          | error e => rfl

/-- The transactions that a payload carries. -/
inductive Carries (p : PayoutPreparation.PreparedPayout) : AssetCode → Prepared → Prop where
  | btc {txid : String} (hids : p.transactionIds = [txid]) : Carries p .btc (.bitcoin p.signedPayload txid)
  | xmr {metadata : List String} (stable : p.transactionIds.length = metadata.length)
      (hpayload : p.signedPayload = PayoutPreparation.Monero.payload metadata p.transactionIds) :
      Carries p .xmr (.monero metadata p.transactionIds stable)

theorem carries_of_prepares {items : List PayoutCandidate} {deduct : Bool}
    {p : PayoutPreparation.PreparedPayout} {asset : AssetCode}
    (h : LedgerOutflow.Prepares items deduct p asset) : ∃ t, Carries p asset t := by
  cases h with
  | btc h =>
    obtain ⟨_, ⟨_, _, _, _, _, _, _, txid, _, _, _, _, _, hids⟩⟩ :=
      PayoutPreparation.Bitcoin.preparePayout_ok h
    exact ⟨_, .btc hids⟩
  | xmr h =>
    obtain ⟨_, ⟨_, _, metadata, _, _, _, _, _, hstable, hpayload⟩⟩ :=
      PayoutPreparation.Monero.preparePayout_ok h
    exact ⟨_, .xmr hstable hpayload⟩

theorem refused_refines {asset : AssetCode} {p : Prepared} (hcoin : p.coin = coin asset)
    (f : Unit → Talk Exchange Failure (List String)) (hallowed : config.allowed asset = false) :
    Refines ((assertMainnetAllowed config asset).andThen f log) log
      (Relay.broadcast false p (fun _ => .refused "")) := by
  refine ⟨⟨[], ?_, rfl⟩, ?_⟩
  · simp [assertMainnetAllowed, hallowed, Talk.andThen, Talk.fail, Talk.attempt]
  · simp [assertMainnetAllowed, hallowed, Talk.andThen, Talk.fail, Talk.attempt, Relay.broadcast, hcoin,
      Except.mapError, thrown]

/-- The call to the adapter, on the payload that the adapter has prepared, is an attempt to
relay the prepared transactions. -/
theorem broadcast_refines {p : PayoutPreparation.PreparedPayout} {asset : AssetCode} {t : Prepared}
    (h : Carries p asset t) (log : List Exchange) : ∃ outcome,
      Refines (broadcast wallets config numberText p.signedPayload asset log) log
        (Relay.broadcast (config.allowed asset) t outcome) := by
  cases hallowed : config.allowed asset with
  | false =>
    refine ⟨fun _ => .refused "", ?_⟩
    cases h with
    | btc hids => exact refused_refines rfl _ hallowed
    | xmr stable hpayload => exact refused_refines rfl _ hallowed
  | true =>
    have hpass : assertMainnetAllowed config asset = pure () := if_pos hallowed
    cases h with
    | @btc txid hids =>
      have hrun : broadcast wallets config numberText p.signedPayload .btc log =
          (Talk.ask (wallets.sendrawtransaction p.signedPayload)
            (.sendrawtransaction p.signedPayload)).andThen (fun txid => pure [txid]) log := by
        rw [broadcast, Bitcoin.broadcast, hpass]
        rfl
      rw [hrun, andThen_pure]
      cases ha : wallets.sendrawtransaction p.signedPayload log with
      | ok answer =>
        refine ⟨fun _ => .relayed (some answer),
          ⟨[.sendrawtransaction p.signedPayload (.ok answer)], ?_, rfl⟩, ?_⟩ <;>
          simp [Talk.ask, ha, Relay.broadcast, Prepared.transactions, relayFrom, Relay.answer, Except.map,
            Except.mapError]
      | error e =>
        refine ⟨fun _ => .refused e.message,
          ⟨[.sendrawtransaction p.signedPayload (.error e)], ?_, rfl⟩, ?_⟩ <;>
          simp [Talk.ask, ha, Relay.broadcast, Prepared.transactions, relayFrom, Relay.answer, Except.map,
            Except.mapError]
    | @xmr metadata stable hpayload =>
      have hrun : broadcast wallets config numberText p.signedPayload .xmr log =
          Monero.relay wallets p.transactionIds 0 metadata log := by
        rw [broadcast, Monero.broadcast, hpass, hpayload, readPayload_payload]
        rfl
      obtain ⟨outcome, hrelay⟩ : ∃ outcome, Refines (Monero.relay wallets p.transactionIds 0 _ log) log
          (relayFrom (.monero metadata p.transactionIds stable) outcome 0 _) :=
        relay_refines stable _ 0 log rfl
      rw [List.drop_zero, hexes_transactions] at hrelay
      exact ⟨outcome, hrun ▸ hrelay⟩

/-- The call says no more than the transactions, in their order, and all of them when it
succeeds. -/
def Submits (x : List Exchange × Except Failure (List String)) (log : List Exchange)
    (ts : List Transaction) : Prop :=
  ∃ es, x.1 = log ++ es ∧ es.map Exchange.hex <+: ts.map Transaction.hex ∧
    (x.2.isOk = true → es.map Exchange.hex = ts.map Transaction.hex)

theorem broadcast_submits {p : PayoutPreparation.PreparedPayout} {asset : AssetCode} {t : Prepared}
    (h : Carries p asset t) (log : List Exchange) :
    Submits (broadcast wallets config numberText p.signedPayload asset log) log t.transactions := by
  obtain ⟨outcome, ⟨es, hlog, hhex⟩, hanswer⟩ : ∃ outcome,
      Refines (broadcast wallets config numberText p.signedPayload asset log) log
        (Relay.broadcast (config.allowed asset) t outcome) := broadcast_refines h log
  have hok : (broadcast wallets config numberText p.signedPayload asset log).2.isOk = true →
      (Relay.broadcast (config.allowed asset) t outcome).result.isOk = true := by
    rw [← hanswer]
    cases (broadcast wallets config numberText p.signedPayload asset log).2 with
    | ok txids => exact id
    | error e => rintro ⟨⟩
  refine ⟨es, hlog, ?_⟩
  rw [hhex]
  rw [Relay.broadcast] at hok ⊢
  split at hok
  · rename_i hallowed
    obtain ⟨hbegin, hall⟩ := relayFrom_begins t outcome 0 t.transactions
    rw [if_pos hallowed]
    exact ⟨hbegin.map _, fun h => congrArg _ (hall (hok h))⟩
  · rename_i hallowed
    rw [if_neg hallowed]
    refine ⟨List.nil_prefix, fun h => ?_⟩
    cases hok h

end Refinement

end Bitmine.Broadcasting
