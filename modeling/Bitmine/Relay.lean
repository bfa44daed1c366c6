import Bitmine.Execute

namespace Bitmine.Relay

open Bitmine.Schema Bitmine.Deployment Bitmine.Execute

structure Transaction where
  hex : String
  txid : String
  deriving DecidableEq

/-- The payload of a prepared payout: a raw Bitcoin transaction, or the metadata
of the transactions that the Monero wallet has split the payout into. -/
inductive Prepared where
  | bitcoin (hex txid : String)
  | monero (metadata transactionIds : List String)
      (stable : transactionIds.length = metadata.length)

def Prepared.transactions : Prepared → List Transaction
  | .bitcoin hex txid => [⟨hex, txid⟩]
  | .monero metadata transactionIds _ => List.zipWith Transaction.mk metadata transactionIds

def Prepared.transactionIds (p : Prepared) : List String := p.transactions.map Transaction.txid

/-- The end of one call to the wallet: an answer, a refusal, or an answer that
never arrives although the wallet has relayed the transaction. -/
inductive Outcome where
  | relayed (txHash : Option String)
  | refused (message : String)
  | lost (message : String)

def Outcome.reached : Outcome → Bool
  | .refused _ => false
  | _ => true

/-- The identifier that a call yields: `sendrawtransaction` returns it, after
`relay_tx` the prepared one stands in for a missing hash. -/
def answer : Prepared → Transaction → Outcome → Except String String
  | _, _, .refused message => .error message
  | _, _, .lost message => .error message
  | .bitcoin _ _, _, .relayed txHash => .ok (txHash.getD "")
  | .monero _ _ _, t, .relayed txHash =>
    let txid := txHash.getD t.txid
    if txid = "" then .error "Monero wallet relay did not return a transaction ID" else .ok txid

/-- What an attempt to broadcast does: the transactions it submits, those that
the wallet has relayed, and the result. -/
structure Relayed where
  submitted : List Transaction
  learned : List String
  result : Except String (List String)

/-- The loop of `broadcast`, from the transaction with the given index on. -/
def relayFrom (p : Prepared) (outcome : ℕ → Outcome) (index : ℕ) : List Transaction → Relayed
  | [] => ⟨[], [], .ok []⟩
  | t :: rest =>
    let learned := if (outcome index).reached then [t.txid] else []
    match answer p t (outcome index) with
    | .error message => ⟨[t], learned, .error message⟩
    | .ok txid =>
      let r := relayFrom p outcome (index + 1) rest
      ⟨t :: r.submitted, learned ++ r.learned, r.result.map (txid :: ·)⟩

def Prepared.coin : Prepared → String
  | .bitcoin _ _ => "Bitcoin"
  | .monero _ _ _ => "Monero"

def broadcast (allowed : Bool) (p : Prepared) (outcome : ℕ → Outcome) : Relayed :=
  if allowed then relayFrom p outcome 0 p.transactions
  else ⟨[], [], .error (p.coin ++ " mainnet payouts are disabled by ENABLE_MAINNET_PAYOUTS")⟩

def alreadyBroadcast (expectedIds : List String) (known : String → Bool) : Bool :=
  !expectedIds.isEmpty && expectedIds.all known

/-- The part of `executeUnderLock` that talks to the network. -/
def attempt (allowed : Bool) (p : Prepared) (known : String → Bool) (outcome : ℕ → Outcome) :
    Relayed :=
  if alreadyBroadcast p.transactionIds known then ⟨[], [], .ok p.transactionIds⟩
  else broadcast allowed p outcome

/-- What happens to a payout: an attempt that reaches the wallet, or the wallet
itself, which comes to know a transaction or drops it. -/
inductive Event where
  | attempt (outcome : ℕ → Outcome)
  | learns (txid : String)
  | forgets (txid : String)

def next (allowed : Bool) (p : Prepared) (known : List String) : Event → List String
  | .attempt outcome => known ++ (attempt allowed p (· ∈ known) outcome).learned
  | .learns txid => known ++ [txid]
  | .forgets txid => known.filter (· ≠ txid)

/-- The attempts of a history, each with what the wallet reports at its start. -/
def attempts (allowed : Bool) (p : Prepared) : List String → List Event →
    List (List String × (ℕ → Outcome))
  | _, [] => []
  | known, e :: events =>
    let rest := attempts allowed p (next allowed p known e) events
    match e with
    | .attempt outcome => (known, outcome) :: rest
    | _ => rest

def unknown (p : Prepared) (known : List String) : List Transaction :=
  p.transactions.filter (fun t => t.txid ∉ known)

/-- An attempt submits nothing but what the wallet does not know, in order, and
all of it unless it fails on the way. -/
def SubmitsUnknown (allowed : Bool) (p : Prepared) (known : List String)
    (outcome : ℕ → Outcome) : Prop :=
  let r := attempt allowed p (· ∈ known) outcome
  r.submitted <+: unknown p known ∧ (r.result.isOk = true → r.submitted = unknown p known)

def fails (p : Prepared) (outcome : ℕ → Outcome) (t : Transaction) (index : ℕ) : Bool :=
  !(answer p t (outcome index)).isOk

/-- Every transaction that the wallet knows stands behind one whose call fails. -/
def Behind (p : Prepared) (known : List String) (outcome : ℕ → Outcome) (index : ℕ)
    (ts : List Transaction) : Prop :=
  ∀ i, ∀ hi : i < ts.length, ts[i].txid ∈ known →
    ∃ j, ∃ hj : j < i, fails p outcome (ts[j]) (index + j) = true

section Loop

variable {p : Prepared} {known : List String} {outcome : ℕ → Outcome} {index : ℕ}
  {t : Transaction} {ts : List Transaction}

theorem not_behind_of_known (h : t.txid ∈ known) : ¬ Behind p known outcome index (t :: ts) := by
  intro hb
  obtain ⟨j, hj, _⟩ := hb 0 (by simp) h
  exact absurd hj (Nat.not_lt_zero j)

theorem behind_of_fails (h : t.txid ∉ known) (hf : fails p outcome t index = true) :
    Behind p known outcome index (t :: ts) := by
  intro i hi hk
  cases i with
  | zero => exact absurd hk h
  | succ i => exact ⟨0, Nat.succ_pos i, hf⟩

theorem behind_cons (h : t.txid ∉ known) (hf : fails p outcome t index = false) :
    Behind p known outcome index (t :: ts) ↔ Behind p known outcome (index + 1) ts := by
  constructor
  · intro hb i hi hk
    obtain ⟨j, hj, hfj⟩ := hb (i + 1) (by simpa using hi) (by simpa using hk)
    cases j with
    | zero =>
      rw [List.getElem_cons_zero, Nat.add_zero, hf] at hfj
      cases hfj
    | succ j =>
      refine ⟨j, Nat.lt_of_succ_lt_succ hj, ?_⟩
      rwa [Nat.add_right_comm, Nat.add_assoc]
  · intro hb i hi hk
    cases i with
    | zero => exact absurd hk h
    | succ i =>
      obtain ⟨j, hj, hfj⟩ := hb i (by simpa using hi) (by simpa using hk)
      refine ⟨j + 1, Nat.succ_lt_succ hj, ?_⟩
      rwa [List.getElem_cons_succ, ← Nat.add_assoc, Nat.add_right_comm]

/-- The loop submits only unknown transactions, and all of them unless it fails,
exactly when every known one stands behind a failing call. -/
theorem relayFrom_iff (p : Prepared) (known : List String) (outcome : ℕ → Outcome) (index : ℕ)
    (ts : List Transaction) :
    ((relayFrom p outcome index ts).submitted <+: ts.filter (fun t => t.txid ∉ known) ∧
      ((relayFrom p outcome index ts).result.isOk = true →
        (relayFrom p outcome index ts).submitted = ts.filter (fun t => t.txid ∉ known))) ↔
      Behind p known outcome index ts := by
  induction ts generalizing index with
  | nil => exact iff_of_true ⟨List.prefix_rfl, fun _ => rfl⟩ (fun i hi => absurd hi (Nat.not_lt_zero i))
  | cons t ts ih =>
    have hhead : ∃ rest, (relayFrom p outcome index (t :: ts)).submitted = t :: rest := by
      cases ha : answer p t (outcome index) <;> simp only [relayFrom, ha] <;> exact ⟨_, rfl⟩
    by_cases hk : t.txid ∈ known
    · -- a known transaction is submitted first
      refine iff_of_false (fun h => ?_) (not_behind_of_known hk)
      obtain ⟨rest, hrest⟩ := hhead
      rw [hrest] at h
      have hm := h.1.subset (List.mem_cons_self)
      simp [hk] at hm
    · have hfilter : (t :: ts).filter (fun t => decide (t.txid ∉ known)) =
          t :: ts.filter (fun t => t.txid ∉ known) := by simp [hk]
      rw [hfilter]
      cases ha : answer p t (outcome index) with
      | error message =>
        refine iff_of_true ?_ (behind_of_fails hk (by rw [fails, ha]; rfl))
        simp only [relayFrom, ha]
        exact ⟨by simp, fun h => by cases h⟩
      | ok txid =>
        rw [behind_cons hk (by rw [fails, ha]; rfl), ← ih]
        simp only [relayFrom, ha, List.cons_prefix_cons, true_and, List.cons.injEq]
        cases (relayFrom p outcome (index + 1) ts).result <;> exact Iff.rfl

end Loop

/-- The wallet knows all transactions or, but for those behind a failing call,
none of them. -/
def Uniform (allowed : Bool) (p : Prepared) (known : List String) (outcome : ℕ → Outcome) : Prop :=
  allowed = false ∨ (∀ t ∈ p.transactions, t.txid ∈ known) ∨
    Behind p known outcome 0 p.transactions

theorem unknown_eq_nil {p : Prepared} {known : List String}
    (h : ∀ t ∈ p.transactions, t.txid ∈ known) : unknown p known = [] :=
  List.filter_eq_nil_iff.mpr (fun t ht => by simpa using h t ht)

theorem alreadyBroadcast_iff {p : Prepared} {known : List String} :
    alreadyBroadcast p.transactionIds (· ∈ known) = true ↔
      p.transactions ≠ [] ∧ ∀ t ∈ p.transactions, t.txid ∈ known := by
  simp [alreadyBroadcast, Prepared.transactionIds]

theorem submitsUnknown_iff (allowed : Bool) (p : Prepared) (known : List String)
    (outcome : ℕ → Outcome) :
    SubmitsUnknown allowed p known outcome ↔ Uniform allowed p known outcome := by
  unfold SubmitsUnknown attempt
  by_cases hall : alreadyBroadcast p.transactionIds (· ∈ known) = true
  · obtain ⟨_, hknown⟩ := alreadyBroadcast_iff.mp hall
    refine iff_of_true ?_ (.inr (.inl hknown))
    simp only [hall, ↓reduceIte, unknown_eq_nil hknown]
    exact ⟨List.prefix_rfl, fun _ => trivial⟩
  · simp only [hall, Bool.false_eq_true, ↓reduceIte, broadcast]
    cases allowed with
    | false => exact iff_of_true ⟨List.nil_prefix, fun h => by cases h⟩ (.inl rfl)
    | true =>
      have hbehind : (∀ t ∈ p.transactions, t.txid ∈ known) →
          Behind p known outcome 0 p.transactions := by
        intro hknown
        have hnil : p.transactions = [] := by
          by_contra hne
          exact hall (alreadyBroadcast_iff.mpr ⟨hne, hknown⟩)
        intro i hi
        simp [hnil] at hi
      apply (relayFrom_iff p known outcome 0 p.transactions).trans
      constructor
      · exact fun h => .inr (.inr h)
      · rintro (h | h | h)
        · cases h
        · exact hbehind h
        · exact h

/-- An execution that has asked the wallet goes on to broadcast exactly when its
transactions are not all known. -/
theorem step_queryKnown {rt : Runtime} {w w' : World} {c c' : ExecuteCall} {a : Answer}
    {held : Held} {payload : String} (hp : c.point = .queryKnown held payload)
    (hids : held.batch.transactionIds ≠ []) (hlock : c.lockLost = false)
    (h : step rt w c a = .ok (w', some c')) :
    c'.point = .broadcast held payload ↔
      alreadyBroadcast held.batch.transactionIds a.known = false := by
  have hall : alreadyBroadcast held.batch.transactionIds a.known =
      held.batch.transactionIds.all a.known := by
    simp [alreadyBroadcast, hids]
  rw [hall]
  simp only [step, hp] at h
  split at h
  · rename_i hknown
    cases h
    refine iff_of_false ?_ (by simp [hknown])
    simp only [toPost, ExecuteCall.assertLock, hlock, Bool.false_eq_true, ↓reduceIte]
    cases Payouts.assertPayoutTransition held.batch.state .broadcast <;>
      exact ExecutePoint.noConfusion
  · rename_i hknown
    cases h
    refine iff_of_true ?_ (by simpa using hknown)
    simp only [ExecuteCall.assertLock, hlock, Bool.false_eq_true, ↓reduceIte]
    rfl

/-- In a history of attempts, each one submits exactly what the wallet does not
know if and only if at the start of each the wallet knows all or nothing. -/
theorem relays_exactly_unknown_iff (allowed : Bool) (p : Prepared) (known : List String)
    (events : List Event) :
    (∀ x ∈ attempts allowed p known events, SubmitsUnknown allowed p x.1 x.2) ↔
      ∀ x ∈ attempts allowed p known events, Uniform allowed p x.1 x.2 :=
  forall₂_congr (fun x _ => submitsUnknown_iff allowed p x.1 x.2)

section Sample

def partialRelay : List Event :=
  [.attempt (fun i => if i = 0 then .relayed (some "tx0") else .refused "no connection"),
    .attempt (fun _ => .relayed none)]

def splitPayout : Prepared := .monero ["meta0", "meta1"] ["tx0", "tx1"] rfl

theorem retry_submits_known : ∃ x ∈ attempts true splitPayout [] partialRelay,
    x.1 = ["tx0"] ∧ unknown splitPayout x.1 = [⟨"meta1", "tx1"⟩] ∧
      (attempt true splitPayout (· ∈ x.1) x.2).submitted = [⟨"meta0", "tx0"⟩, ⟨"meta1", "tx1"⟩] ∧
      ¬ SubmitsUnknown true splitPayout x.1 x.2 := by
  refine ⟨(["tx0"], fun _ => .relayed none), .tail _ (.head _), rfl, by decide, by decide, ?_⟩
  intro h
  have hs := h.2 (by decide)
  exact absurd hs (by decide)

end Sample

end Bitmine.Relay
