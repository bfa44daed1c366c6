import Bitmine.SessionHistory

namespace Bitmine.Acceptance

open Bitmine.Lib.Await Bitmine.Lib.JsonText Bitmine.Lib.History
open Bitmine.Schema Bitmine.GatewaySession Bitmine.SessionHistory

def successResult (kind : AssetCode) (result : Json) : Bool :=
  match kind with
  | .btc => result.isBool true
  | .xmr => (Json.get? "status" result).any (Json.isStr "OK")

/-- The response has a result that signals success, and no error. -/
def Signals (kind : AssetCode) (m : Message) : Prop :=
  m.result.any (successResult kind) = true ∧ m.error.all Json.isNull = true

/-- What either session reads correctly: Bitcoin any response at all, Monero a
response that is refused by an error or by the results `null` and `false`, or
that is a clean success. -/
def Readable (kind : AssetCode) (m : Message) : Prop :=
  match kind with
  | .btc => True
  | .xmr => m.error.any Json.truthy = true ∨ m.result.any Json.isNull = true ∨
      m.result.any (Json.isBool false) = true ∨
      (m.result.any (successResult .xmr) = true ∧ m.error.all Json.isNull = true)

theorem accepts_bitcoin (m : Message) : accepts .btc m = true ↔ Signals .btc m := by
  simp only [accepts, Signals, Bool.and_eq_true]
  rfl

theorem accepts_monero (m : Message) : accepts .xmr m = true ↔
    ¬ (m.error.any Json.truthy = true ∨ m.result.any Json.isNull = true ∨
      m.result.any (Json.isBool false) = true) := by
  simp [accepts, and_assoc]

theorem signals_of_accepts_iff (kind : AssetCode) (m : Message) :
    (accepts kind m = true → Signals kind m) ↔ Readable kind m := by
  cases kind with
  | btc => exact iff_of_true (accepts_bitcoin m).mp trivial
  | xmr =>
    rw [accepts_monero]
    simp only [Readable, Signals]
    tauto

theorem resolved_status {decimal : Decimal} {kind : AssetCode} {l : List Observation}
    (hj : Justified (Justifies decimal kind) l) {r : Shares.ShareReference}
    {status : Option ShareStatus} {m : Message} (h : .resolved r status m ∈ l) :
    status = some .accepted ↔ accepts kind m = true := by
  obtain ⟨_, _, _, _, rfl, _⟩ := hj.mem h
  cases accepts kind m <;> simp

/-- A share is recorded as accepted only on a success signal, if and only if the
response is one that the session reads correctly. -/
theorem accepted_only_on_signal_iff {decimal : Decimal} {kind : AssetCode} {g : Gateway}
    (hg : g.Fresh) {c : Config Gateway Call}
    (h : (gateway decimal kind).Run Steps (.idle g) c) {r : Shares.ShareReference}
    {status : Option ShareStatus} {m : Message} (hr : .resolved r status m ∈ c.shared.log) :
    (status = some .accepted → Signals kind m) ↔ Readable kind m := by
  rw [resolved_status (run_consistent hg h).justified hr]
  exact signals_of_accepts_iff kind m

section Sample

def resolvedAs (p : Message → Bool) (c : Config Gateway Call) : List (Id × Option ShareStatus) :=
  c.shared.log.filterMap (fun
    | .resolved r status m => if p m then some (r.id, status) else none
    | _ => none)

theorem resolved_of_resolvedAs {p : Message → Bool} {c : Config Gateway Call} {id : Id}
    {status : Option ShareStatus} (h : resolvedAs p c = [(id, status)]) :
    ∃ r m, .resolved r status m ∈ c.shared.log ∧ p m = true := by
  have hm : (id, status) ∈ resolvedAs p c := by simp [h]
  obtain ⟨o, ho, he⟩ := List.mem_filterMap.mp hm
  split at he
  · rename_i r status' m
    split at he
    · cases he
      exact ⟨r, m, ho, ‹_›⟩
    · cases he
  · cases he

def answeredBy (m : Message) : List (Action Call Reply Event) :=
  login .xmr ++ submits .xmr "3" "job" 9 5 ++ tells { m with id := some (.num "2") } 3

theorem accepted_only_on_signal_iff_sample : ∃ c, (gateway sampleDecimal .xmr).Run Steps
    (.idle (sampleGateway .xmr)) c ∧ ∃ r m, .resolved r (some .accepted) m ∈ c.shared.log ∧
      m.result.isSome = true ∧
      ((some ShareStatus.accepted = some .accepted → Signals .xmr m) ↔ Readable .xmr m) := by
  obtain ⟨c, hc, hv⟩ := execAlone_sample .xmr
    (answeredBy { result := some (.obj [("status", .str "OK")]) })
    (resolvedAs (fun m => m.result.isSome)) [(9, some .accepted)] (by decide +kernel)
  obtain ⟨r, m, hr, hm⟩ := resolved_of_resolvedAs hv
  exact ⟨c, hc, r, m, hr, hm, accepted_only_on_signal_iff (sampleGateway_fresh .xmr) hc hr⟩

/-- A Monero response with neither a result nor an error is taken for an
accepted share. -/
theorem empty_response_accepted : ∃ c, (gateway sampleDecimal .xmr).Run Steps
    (.idle (sampleGateway .xmr)) c ∧ ∃ r m, .resolved r (some .accepted) m ∈ c.shared.log ∧
      m.result = none ∧ m.error = none ∧ ¬ Signals .xmr m := by
  obtain ⟨c, hc, hv⟩ := execAlone_sample .xmr (answeredBy {})
    (resolvedAs (fun m => m.result.isNone && m.error.isNone)) [(9, some .accepted)]
    (by decide +kernel)
  obtain ⟨r, m, hr, hm⟩ := resolved_of_resolvedAs hv
  simp only [Bool.and_eq_true, Option.isNone_iff_eq_none] at hm
  refine ⟨c, hc, r, m, hr, hm.1, hm.2, fun hs => ?_⟩
  simp [Signals, hm.1] at hs

end Sample

end Bitmine.Acceptance
