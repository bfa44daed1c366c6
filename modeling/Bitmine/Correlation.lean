import Bitmine.SessionHistory

namespace Bitmine.Correlation

open Bitmine.Lib.Await Bitmine.Lib.JsonText Bitmine.Lib.History
open Bitmine.Schema Bitmine.Shares Bitmine.GatewaySession Bitmine.SessionHistory

/-- How the log of a session relates submits, shares, responses and replies. -/
structure Correlated (kind : AssetCode) (log : List Observation) : Prop where
  /-- A submit goes upstream after its own pending row was committed. -/
  journaled : ∀ l₁ n fm p reached l₂, log = l₁ ++ .forwarded n fm p reached :: l₂ →
    fm.isMethod (submitMethod kind) = true → ∃ s share, .journaled s share ∈ l₁ ∧
      share.status = .pending ∧ p.shareEvent = some (referenceOf share) ∧
      fm = withUpstreamId kind s.message n ∧ ¬ Forwards l₁ (referenceOf share)
  /-- A share is resolved once, by the first response to its submit. -/
  resolved : ∀ l₁ r status m l₂, log = l₁ ++ .resolved r status m :: l₂ →
    ¬ Resolves l₁ r ∧ ¬ Resolves l₂ r ∧
      ∃ n p socket, Answered n p socket m l₁ ∧ p.shareEvent = some r
  /-- The reply has the id of the message that the miner sent. -/
  replied : ∀ l₁ m p r l₂, log = l₁ ++ .sent m (some p) :: l₂ → p.shareEvent = some r →
    ∃ s share, .journaled s share ∈ l₁ ∧ referenceOf share = r ∧ .received s.received ∈ l₁ ∧
      m.id = some s.received.idOrNull
  /-- A reply that accepts comes after the verdict was committed. -/
  accepted : ∀ l₁ m p r l₂, log = l₁ ++ .sent m (some p) :: l₂ → p.shareEvent = some r →
    accepts kind m = true → ∃ m₀, .resolved r (some .accepted) m₀ ∈ l₁

section History

variable {decimal : Decimal} {kind : AssetCode} {log : List Observation}

theorem withUpstreamId_isMethod (m : Message) (n : ℕ) (name : String) :
    (withUpstreamId kind m n).isMethod name = m.isMethod name := rfl

theorem accepts_id (m : Message) (id : Option Json) :
    accepts kind { m with id := id } = accepts kind m := by
  cases kind <;> rfl

theorem journaled_pending (hj : Justified (Justifies decimal kind) log) {s : Submit}
    {share : ShareEvent} (h : .journaled s share ∈ log) : share.status = .pending := by
  obtain ⟨l₁, l₂, _, _, hstatus, _⟩ := hj.mem h
  exact hstatus

theorem journaled_read (hj : Justified (Justifies decimal kind) log) {s : Submit}
    {share : ShareEvent} (h : .journaled s share ∈ log) : Read kind log s := by
  obtain ⟨l₁, l₂, rfl, hread, _⟩ := hj.mem h
  exact hread.append _

theorem forwarded_submit (hj : Justified (Justifies decimal kind) log) {n : ℕ} {fm : Message}
    {p : PendingRpc} {reached : Bool} {r : ShareReference} (h : .forwarded n fm p reached ∈ log)
    (hp : p.shareEvent = some r) : ∃ s share, .journaled s share ∈ log ∧ referenceOf share = r ∧
      p.downstreamId = s.message.idOrNull := by
  obtain ⟨l₁, l₂, rfl, _, m, hown, _, hid⟩ := hj.mem h
  rw [hp] at hown
  obtain ⟨⟨s, share, hs, hr, rfl⟩, _⟩ := hown
  exact ⟨s, share, List.mem_append_left _ hs, hr, hid⟩

theorem correlated_of_justified (hj : Justified (Justifies decimal kind) log) :
    Correlated kind log where
  journaled := by
    rintro l₁ n fm p reached l₂ rfl hsubmit
    obtain ⟨_, m, hown, rfl, _⟩ := hj l₁ _ l₂ rfl
    rw [withUpstreamId_isMethod] at hsubmit
    cases hp : p.shareEvent with
    | none =>
      rw [hp] at hown
      exact absurd hsubmit (ne_true_of_eq_false hown)
    | some r =>
      rw [hp] at hown
      obtain ⟨⟨s, share, hs, rfl, rfl⟩, hf⟩ := hown
      exact ⟨s, share, hs, journaled_pending hj.of_append hs, rfl, rfl, hf⟩
  resolved := by
    rintro l₁ r status m l₂ rfl
    obtain ⟨hans, _, hfirst⟩ := hj l₁ _ l₂ rfl
    refine ⟨hfirst, ?_, hans⟩
    -- a second verdict would have had to do without the first
    rintro ⟨status', m', hm⟩
    obtain ⟨l₃, l₄, rfl⟩ := List.append_of_mem hm
    obtain ⟨_, _, hsecond⟩ := hj (l₁ ++ .resolved r status m :: l₃)
      (.resolved r status' m') l₄ (by simp)
    exact hsecond ⟨status, m, by simp⟩
  replied := by
    rintro l₁ m p r l₂ rfl hp
    obtain ⟨m₀, rfl, hsent⟩ := hj l₁ _ l₂ rfl
    obtain ⟨⟨n, fm, reached, hf⟩, _⟩ := hsent r hp
    obtain ⟨s, share, hs, hr, hid⟩ := forwarded_submit hj.of_append hf hp
    have hread := journaled_read hj.of_append hs
    refine ⟨s, share, hs, hr, hread.received, ?_⟩
    rw [hid, Message.idOrNull, hread.id, Message.idOrNull]
  accepted := by
    rintro l₁ m p r l₂ rfl hp hacc
    obtain ⟨m₀, rfl, hsent⟩ := hj l₁ _ l₂ rfl
    obtain ⟨_, status, hres⟩ := hsent r hp
    obtain ⟨l₃, l₄, _, _, hstatus, _⟩ := hj.of_append.mem hres
    rw [accepts_id] at hacc
    rw [hstatus, hacc] at hres
    exact ⟨m₀, hres⟩

end History

/-- In every run of a session its shares, responses and replies are correlated,
and what was journaled is in the database. -/
theorem shares_correlated {decimal : Decimal} {kind : AssetCode} {g : Gateway} (hg : g.Fresh)
    {c : Config Gateway Call} (h : (gateway decimal kind).Run Steps (.idle g) c) :
    Correlated kind c.shared.log ∧
      ∀ s share, .journaled s share ∈ c.shared.log → Stored c.shared (referenceOf share) :=
  ⟨correlated_of_justified (run_consistent hg h).justified, (run_consistent hg h).stored⟩

section Sample

def acceptedShare : List (Action Call Reply Event) :=
  login .btc ++ submits .btc "3" "job" 9 5 ++
    tells ⟨some (.str "2"), none, none, none, some (.bool true), some .null⟩ 3

def verdicts (c : Config Gateway Call) : List (Id × Option ShareStatus) × List String :=
  (c.shared.log.filterMap (fun
    | .resolved r status _ => some (r.id, status)
    | _ => none),
   c.shared.log.filterMap (fun
    | .sent m (some p) => if p.shareEvent.isSome then some m.idOrNull.text else none
    | _ => none))

theorem shares_correlated_sample : ∃ c, (gateway sampleDecimal .btc).Run Steps
    (.idle (sampleGateway .btc)) c ∧ verdicts c = ([(9, some .accepted)], ["3"]) ∧
    Correlated .btc c.shared.log ∧
      ∀ s share, .journaled s share ∈ c.shared.log → Stored c.shared (referenceOf share) := by
  obtain ⟨c, hc, hv⟩ := execAlone_sample .btc acceptedShare verdicts
    ([(9, some .accepted)], ["3"]) (by decide +kernel)
  exact ⟨c, hc, hv, shares_correlated (sampleGateway_fresh .btc) hc⟩

end Sample

end Bitmine.Correlation
