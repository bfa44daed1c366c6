import Bitmine.Cooling
import Bitmine.Lib.Watch

namespace Bitmine.OperatorChanges

open Bitmine.Lib.UniqueTable Bitmine.Lib.Throwing Bitmine.Lib.Await Bitmine.Lib.Watch
open Bitmine.Schema Bitmine.Deployment Bitmine.Payouts Bitmine.Destinations
open Bitmine.Cooling (Ticks)

inductive Event where
  | accepted (p : PendingOperator)
  | activated (p : PendingOperator) (time : Instant)

abbrev Events := AssetCode → List Event

def record (asset : AssetCode) (e : Event) (g : Events) : Events :=
  Function.update g asset (e :: g asset)

variable (minimum : AssetCode → ℕ)

def note (_ : Office) (r : Call) (a : Reply) (g : Events) : Events :=
  match r with
  | .updateOperatorPayout (.upsert dto effectiveAt) =>
    record dto.asset (.accepted ⟨dto.setting minimum, effectiveAt⟩) g
  | .activateDueOperatorPayouts (.activate asset pending _) _ =>
    record asset (.activated pending a.createdAt) g
  | _ => g

def desk (rt : Runtime) : Machine (Office × Events) Call Reply Elsewhere :=
  watched (office rt minimum) (note minimum)

theorem run_at_desk {rt : Runtime} {ok : Config Office Call → Action Call Reply Elsewhere → Prop}
    {c d : Config Office Call} (h : (office rt minimum).Run ok c d) (g : Events) :
    ∃ g', (desk minimum rt).Run (fun c => ok (plain c)) (noted c g) (noted d g') :=
  run_noted h g

def opening (s : Office) : Office × Events :=
  (s, fun asset => (s.pendingOperator asset).toList.map .accepted)

/-- A change that was accepted is pending, or it has been activated when it was
due, or a later change has been accepted for the asset. -/
def Kept (s : Office × Events) : Prop :=
  ∀ asset p l₁ l₂, s.2 asset = l₁ ++ .accepted p :: l₂ →
    s.1.pendingOperator asset = some p ∨
    (∃ time, .activated p time ∈ l₁ ∧ p.effectiveAt ≤ time) ∨ ∃ p', .accepted p' ∈ l₁

def Standing (s : Office × Events) : Prop :=
  ∀ asset p, s.1.pendingOperator asset = some p → ∃ l, s.2 asset = .accepted p :: l

def Due (s : Office × Events) : Call → Prop
  | .activateDueOperatorPayouts (.activate _ pending _) _ => pending.effectiveAt ≤ s.1.clock
  | _ => True

/-- An activation deletes the setting it has read. -/
def Current (s : Office) : Call → Prop
  | .activateDueOperatorPayouts (.activate asset pending _) _ =>
    ∀ p, s.pendingOperator asset = some p → p = pending
  | _ => True

section Steps

variable {minimum} {rt : Runtime} {s s' : Office} {a : Reply} {r : Call} {o : Option Call}

/-- What an effect makes of the pending settings. -/
inductive Changed (minimum : AssetCode → ℕ) (s : Office) (a : Reply) : Call →
    (AssetCode → Option PendingOperator) → Option Call → Prop where
  | same {r : Call} {o : Option Call} (hnote : ∀ g, note minimum s r a g = g)
      (ho : ∀ r' ∈ o, ∀ asset p rest planFor,
        r' = .activateDueOperatorPayouts (.activate asset p rest) planFor → p.effectiveAt ≤ a.now) :
      Changed minimum s a r s.pendingOperator o
  | accept {dto : UpdateOperatorPayoutDto} {effectiveAt : Instant} :
      Changed minimum s a (.updateOperatorPayout (.upsert dto effectiveAt))
        (Function.update s.pendingOperator dto.asset (some ⟨dto.setting minimum, effectiveAt⟩)) none
  | activate {asset : AssetCode} {pending p : PendingOperator} {rest : List AssetCode}
      {planFor : Option AssetCode} (hp : s.pendingOperator asset = some p) :
      Changed minimum s a (.activateDueOperatorPayouts (.activate asset pending rest) planFor)
        (Function.update s.pendingOperator asset none) (continueOperator planFor (readRest rest))

theorem continue_readRest {planFor : Option AssetCode} {l : List AssetCode} :
    ∀ r ∈ continueOperator planFor (readRest l), ∀ asset p rest planFor',
      r ≠ .activateDueOperatorPayouts (.activate asset p rest) planFor' := by
  intro r hr asset p rest planFor'
  cases l with
  | nil =>
    obtain ⟨_, _, rfl⟩ := Option.map_eq_some_iff.mp hr
    exact fun h => (by cases h)
  | cons =>
    cases hr
    exact fun h => (by cases h)

theorem Changed.others {κ : Type} {o : Option κ} (f : κ → Call)
    (hp : s'.pendingOperator = s.pendingOperator) (hnote : ∀ g, note minimum s r a g = g)
    (hf : ∀ c asset p rest planFor, f c ≠ .activateDueOperatorPayouts (.activate asset p rest) planFor) :
    Changed minimum s a r (s'.tick a.createdAt).pendingOperator (o.map f) := by
  simp only [Office.tick, hp]
  apply Changed.same hnote
  intro r' hr' asset p rest planFor h
  obtain ⟨c, _, rfl⟩ := Option.map_eq_some_iff.mp hr'
  exact absurd h (hf c asset p rest planFor)

theorem effect_changed (he : effect rt minimum s r a = .ok (s', o)) :
    s'.clock = a.createdAt ∧ Changed minimum s a r s'.pendingOperator o := by
  obtain ⟨⟨s₁, o₁⟩, hserve, he⟩ := map_eq_ok.mp he
  cases he
  refine ⟨rfl, ?_⟩
  cases r with
  | createDestination c =>
    obtain ⟨⟨s₂, o₂⟩, hs, he⟩ := map_eq_ok.mp hserve
    cases he
    exact .others _ (createDestination_redirects hs).pendingOperator (fun _ => rfl) (fun _ _ _ _ _ h => by cases h)
  | requestDestination c =>
    obtain ⟨⟨s₂, o₂⟩, hs, he⟩ := map_eq_ok.mp hserve
    cases he
    exact .others _ (requestDestination_redirects hs).pendingOperator (fun _ => rfl) (fun _ _ _ _ _ h => by cases h)
  | activateDueDestinations c =>
    obtain ⟨⟨s₂, o₂⟩, hs, he⟩ := map_eq_ok.mp hserve
    cases he
    exact .others _ (activateDueDestinations_redirects hs).pendingOperator (fun _ => rfl)
      (fun _ _ _ _ _ h => by cases h)
  | plan c =>
    obtain ⟨⟨db, o₂⟩, _, he⟩ := map_eq_ok.mp hserve
    cases he
    exact .others _ rfl (fun _ => rfl) (fun _ _ _ _ _ h => by cases h)
  | planOperator c =>
    obtain ⟨⟨db, o₂⟩, _, he⟩ := map_eq_ok.mp hserve
    cases he
    exact .others _ rfl (fun _ => rfl) (fun _ _ _ _ _ h => by cases h)
  | updateOperatorPayout c =>
    obtain ⟨⟨s₂, o₂⟩, hs, he⟩ := map_eq_ok.mp hserve
    cases he
    have hnext : ∀ c asset p rest planFor, Call.updateOperatorPayout c ≠
        .activateDueOperatorPayouts (.activate asset p rest) planFor := fun _ _ _ _ _ h => by cases h
    cases c with
    | receive dto =>
      simp only [updateOperatorPayout] at hs
      split at hs
      · cases hs
        exact .others (o := some _) Call.updateOperatorPayout rfl (fun _ => rfl) hnext
      · split at hs <;> cases hs
        exact .others (o := some _) Call.updateOperatorPayout rfl (fun _ => rfl) hnext
    | validateAddress dto =>
      simp only [updateOperatorPayout] at hs
      split at hs <;> cases hs
      exact .others (o := some _) Call.updateOperatorPayout rfl (fun _ => rfl) hnext
    | upsert dto effectiveAt =>
      cases hs
      exact .accept
  | activateDueOperatorPayouts c planFor =>
    obtain ⟨⟨s₂, o₂⟩, hs, he⟩ := map_eq_ok.mp hserve
    cases he
    have hrest : ∀ {l : List AssetCode}, ∀ r' ∈ continueOperator planFor (readRest l),
        ∀ asset p rest planFor',
          r' = .activateDueOperatorPayouts (.activate asset p rest) planFor' →
            p.effectiveAt ≤ a.now :=
      fun r' hr' asset p rest planFor' h => absurd h (continue_readRest r' hr' asset p rest planFor')
    cases c with
    | readPending asset rest =>
      simp only [activateDueOperatorPayouts] at hs
      split at hs
      · cases hs
        exact .same (fun _ => rfl) hrest
      · split at hs
        · cases hs
          exact .same (fun _ => rfl) hrest
        · rename_i hdue
          cases hs
          refine .same (fun _ => rfl) ?_
          rintro _ ⟨⟩ asset p rest planFor' ⟨⟩
          exact not_lt.mp hdue
    | activate asset pending rest =>
      simp only [activateDueOperatorPayouts, bind_eq_ok, orThrow_eq_ok, pure_eq_ok] at hs
      obtain ⟨p, hp, hs⟩ := hs
      cases hs
      exact .activate hp

theorem Kept.accept {g : Events} (h : Kept (s, g)) {asset : AssetCode} {p : PendingOperator}
    {f : AssetCode → Option PendingOperator} (hs' : s'.pendingOperator = f)
    (hf : f = Function.update s.pendingOperator asset (some p)) :
    Kept (s', record asset (.accepted p) g) := by
  intro asset' p' l₁ l₂ hsplit
  simp only [hs', hf]
  by_cases hasset : asset' = asset
  · subst asset'
    simp only [record, Function.update_self] at hsplit ⊢
    cases l₁ with
    | nil =>
      cases hsplit
      exact .inl rfl
    | cons e l₁ =>
      obtain ⟨rfl, _⟩ := List.cons.inj hsplit
      exact .inr (.inr ⟨p, List.mem_cons_self⟩)
  · simp only [record, Function.update_of_ne hasset] at hsplit ⊢
    exact h asset' p' l₁ l₂ hsplit

theorem Kept.activate {g : Events} (h : Kept (s, g)) {asset : AssetCode} {p : PendingOperator}
    {time : Instant} (hp : s.pendingOperator asset = some p) (ht : p.effectiveAt ≤ time)
    (hs' : s'.pendingOperator = Function.update s.pendingOperator asset none) :
    Kept (s', record asset (.activated p time) g) := by
  intro asset' p' l₁ l₂ hsplit
  simp only [hs']
  by_cases hasset : asset' = asset
  · subst asset'
    simp only [record, Function.update_self] at hsplit ⊢
    cases l₁ with
    | nil => cases hsplit
    | cons e l₁ =>
      obtain ⟨rfl, hold⟩ := List.cons.inj hsplit
      obtain hpend | ⟨time', hm, ht'⟩ | ⟨p'', hm⟩ := h asset p' l₁ l₂ hold
      · cases hp.symm.trans hpend
        exact .inr (.inl ⟨time, List.mem_cons_self, ht⟩)
      · exact .inr (.inl ⟨time', List.mem_cons_of_mem _ hm, ht'⟩)
      · exact .inr (.inr ⟨p'', List.mem_cons_of_mem _ hm⟩)
  · simp only [record, Function.update_of_ne hasset] at hsplit ⊢
    exact h asset' p' l₁ l₂ hsplit

theorem Due.later {s s' : Office × Events} (h : s.1.clock ≤ s'.1.clock) {r : Call} (hd : Due s r) :
    Due s' r := by
  unfold Due at hd ⊢
  split at hd
  · exact hd.trans h
  · trivial

/-- The assertion of an activation holds in every run, as long as the clock does
not go back. -/
theorem changed_due {g : Events} (ht : Ticks s r a) (hclock : s'.clock = a.createdAt)
    (h : Changed minimum s a r s'.pendingOperator o) : ∀ r' ∈ o, Due (s', g) r' := by
  have hnow : a.now ≤ s'.clock := hclock ▸ ht.2
  generalize s'.pendingOperator = f at h
  cases h with
  | same _ ho =>
    intro r' hr'
    unfold Due
    split
    · exact (ho _ hr' _ _ _ _ rfl).trans hnow
    · trivial
  | accept => exact fun _ hr' => (by cases hr')
  | activate =>
    intro r' hr'
    unfold Due
    split
    · exact absurd rfl (continue_readRest _ hr' _ _ _ _)
    · trivial

theorem changed_kept {g : Events} (hk : Kept (s, g)) (hd : Due (s, g) r) (hcur : Current s r)
    (ht : Ticks s r a) (h : Changed minimum s a r s'.pendingOperator o) :
    Kept (s', note minimum s r a g) := by
  generalize hf : s'.pendingOperator = f at h
  cases h with
  | same hnote _ =>
    rw [hnote]
    intro asset p l₁ l₂ hsplit
    simp only [hf]
    exact hk asset p l₁ l₂ hsplit
  | accept => exact hk.accept hf rfl
  | @activate asset pending p rest planFor hp =>
    cases hcur p hp
    exact hk.activate hp (hd.trans (ht.1.trans ht.2)) hf

end Steps

theorem annotated (rt : Runtime) : Annotation (desk minimum rt) (fun _ _ => True)
    (fun s r a => Ticks s.1 r a ∧ Current s.1 r) (fun _ _ => True) Kept Due where
  entry s r _ hr _ := by
    have hentry : r.entry = true := hr
    unfold Call.entry at hentry
    split at hentry <;> trivial
  effect s r a s' o hk hd hP he := by
    obtain ⟨ht, hcur⟩ := hP
    obtain ⟨he, hg⟩ := watched_effect_ok he
    obtain ⟨hclock, hch⟩ := @effect_changed minimum rt _ _ _ _ _ he
    refine ⟨?_, fun r' hr' => changed_due ht hclock hch r' hr', fun _ _ hr' => (by cases hr'),
      fun r' hr' => Due.later ?_ hr'⟩
    · rw [← @Prod.mk.eta _ _ s', hg]
      exact changed_kept hk hd hcur ht hch
    · rw [hclock]
      exact ht.1.trans ht.2
  handler _ _ _ _ _ _ h := by cases h
  background _ _ _ _ hd := hd
  event s e hk _ := by
    refine ⟨?_, fun r hr => Due.later ?_ hr⟩ <;> cases e <;> first | exact hk | exact le_rfl

theorem opening_kept (s : Office) : Kept (opening s) := by
  intro asset p l₁ l₂ hsplit
  simp only [opening] at hsplit ⊢
  cases hp : s.pendingOperator asset with
  | none => simp [hp] at hsplit
  | some q =>
    rw [hp] at hsplit
    cases l₁ with
    | nil =>
      cases hsplit
      exact .inl rfl
    | cons e l₁ => simp at hsplit

/-- Where every activation deletes the setting it has read, no change of the
operator's settings is lost, whatever runs at the same time. -/
theorem changes_kept {rt : Runtime} {s : Office} {c : Config (Office × Events) Call}
    (h : (desk minimum rt).Run (Admits (fun _ _ => True)
      (fun s r a => Ticks s.1 r a ∧ Current s.1 r) (fun _ _ => True)) (.idle (opening s)) c) :
    Kept c.shared :=
  ((annotated minimum rt).run (opening_kept s) h).1

section Converse

variable {minimum} {rt : Runtime}

theorem standing (rt : Runtime) : Annotation (desk minimum rt) (fun _ _ => True)
    (fun _ _ _ => True) (fun _ _ => True) Standing (fun _ _ => True) where
  entry _ _ _ _ _ := trivial
  effect s r a s' o h _ _ he := by
    refine ⟨?_, fun _ _ => trivial, fun _ _ _ => trivial, fun _ _ => trivial⟩
    obtain ⟨he, hg⟩ := watched_effect_ok he
    obtain ⟨_, hch⟩ := @effect_changed minimum rt _ _ _ _ _ he
    intro asset q hq
    rw [hg]
    generalize s'.1.pendingOperator = f at hch hq
    cases hch with
    | same hnote _ =>
      rw [hnote]
      exact h asset q hq
    | @accept dto effectiveAt =>
      by_cases hasset : asset = dto.asset
      · rw [hasset, Function.update_self] at hq
        cases hq
        exact ⟨s.2 dto.asset, by simp only [note, record, hasset, Function.update_self]⟩
      · rw [Function.update_of_ne hasset] at hq
        simp only [note, record, Function.update_of_ne hasset]
        exact h asset q hq
    | @activate asset' =>
      by_cases hasset : asset = asset'
      · rw [hasset, Function.update_self] at hq
        cases hq
      · rw [Function.update_of_ne hasset] at hq
        simp only [note, record, Function.update_of_ne hasset]
        exact h asset q hq
  handler _ _ _ _ _ _ _ := trivial
  background _ _ _ _ _ := trivial
  event s e h _ := by
    refine ⟨?_, fun _ _ => trivial⟩
    cases e <;> exact h

/-- An activation that deletes another setting than the one it has read loses it. -/
theorem stale_activation_loses {s : Office} {c : Config (Office × Events) Call}
    (hc : (desk minimum rt).Reaches (.idle (opening s)) c) {asset : AssetCode}
    {pending p : PendingOperator} {rest : List AssetCode} {planFor : Option AssetCode}
    (hp : c.shared.1.pendingOperator asset = some p) (hne : p ≠ pending) {a : Reply}
    {s' : Office × Events} {o : Option Call} (he : (desk minimum rt).effect c.shared
      (.activateDueOperatorPayouts (.activate asset pending rest) planFor) a = .ok (s', o)) :
    ¬ Kept s' := by
  have hopen : Standing (opening s) := by
    intro asset q hq
    have hpend : s.pendingOperator asset = some q := hq
    exact ⟨[], by simp [opening, hpend]⟩
  obtain ⟨l, hl⟩ := ((standing rt).run hopen
    (hc.mono (fun c act _ => by cases act <;> simp [Admits]))).1 asset p hp
  obtain ⟨he, hg⟩ := watched_effect_ok he
  obtain ⟨_, hch⟩ := @effect_changed minimum rt _ _ _ _ _ he
  intro hkept
  have hsplit : s'.2 asset = [.activated pending a.createdAt] ++ .accepted p :: l := by
    rw [hg]
    simp only [note, record, Function.update_self, hl, List.cons_append, List.nil_append]
  have hnone : s'.1.pendingOperator asset = none := by
    generalize s'.1.pendingOperator = f at hch
    cases hch with
    | same hnote _ =>
      have hlen := congrArg List.length (congrFun (hnote c.shared.2) asset)
      simp [note, record] at hlen
    | activate _ => exact Function.update_self ..
  obtain hpend | ⟨time, hm, _⟩ | ⟨p', hm⟩ := hkept asset p _ _ hsplit
  · rw [hnone] at hpend
    cases hpend
  · cases List.mem_singleton.mp hm
    exact hne rfl
  · cases List.mem_singleton.mp hm

end Converse

section Sample

deriving instance DecidableEq for OperatorPayoutSetting, PendingOperator, Event

def submits (address : String) : Call :=
  .updateOperatorPayout (.receive ⟨.btc, .daily, some address, none⟩)

def activates : Call := .activateDueOperatorPayouts (.readPending .btc [.xmr]) none

def begins (pid : ℕ) (r : Call) (times : List Instant) : List (Action Call Reply Elsewhere) :=
  .call pid r :: times.map (fun t => .resolve pid { now := t, createdAt := t })

/-- The conditions of a step, as a test; `strict` says whether what is deleted has
to be what was read. -/
def testStep (strict : Bool) (s : Office × Events) (r : Call) (a : Reply) : Bool :=
  s.1.clock ≤ a.now && a.now ≤ a.createdAt && (!strict || match r with
    | .activateDueOperatorPayouts (.activate asset pending _) _ =>
      (s.1.pendingOperator asset).all (· = pending)
    | _ => true)

theorem testStep_ticks {s : Office × Events} {r : Call} {a : Reply}
    (h : testStep false s r a = true) : Ticks s.1 r a := by
  simpa [testStep, Ticks] using h

theorem testStep_current {s : Office × Events} {r : Call} {a : Reply}
    (h : testStep true s r a = true) : Ticks s.1 r a ∧ Current s.1 r := by
  simp only [testStep, Bool.not_true, Bool.false_or, Bool.and_eq_true, decide_eq_true_eq] at h
  obtain ⟨ht, hcur⟩ := h
  refine ⟨ht, ?_⟩
  unfold Current
  split
  · intro p hp
    simpa [hp] using hcur
  · trivial

def addresses (c : Config (Office × Events) Call) : String × Option String :=
  ((c.shared.1.db.operatorPayout .btc).address,
    (c.shared.1.pendingOperator .btc).map (fun p => p.setting.address))

theorem changes_kept_sample : ∃ c, (desk (fun _ => 1) DestinationCycle.sampleOfficeRuntime).Run
      (Admits (fun _ _ => True) (fun s r a => Ticks s.1 r a ∧ Current s.1 r) (fun _ _ => True))
      (.idle (opening DestinationCycle.sampleOffice)) c ∧
    addresses c = ("bc1qfirst", some "bc1qsecond") ∧ Kept c.shared := by
  have hexec : ((desk (fun _ => 1) DestinationCycle.sampleOfficeRuntime).execChecked
      (testing (testStep true)) (.idle (opening DestinationCycle.sampleOffice))
      (begins 0 (submits "bc1qfirst") [0, 1, 2] ++ begins 1 activates [86400001, 86400002, 86400003] ++
        begins 2 (submits "bc1qsecond") [86400004, 86400005, 86400006])).map addresses =
      some ("bc1qfirst", some "bc1qsecond") := by
    decide +kernel
  obtain ⟨c, hc, hv⟩ := Option.map_eq_some_iff.mp hexec
  have hrun := Machine.execChecked_run (testing_admits (fun _ _ _ => testStep_current)) hc
  exact ⟨c, hrun, hv, changes_kept _ hrun⟩

/-- A change is accepted after an activation has read the one before it, and the
activation deletes it. -/
theorem activation_deletes_newer_change : ¬ ∀ (minimum : AssetCode → ℕ) (rt : Runtime) (s : Office)
    (c : Config (Office × Events) Call), (desk minimum rt).Run (Admits (fun _ _ => True)
      (fun s r a => Ticks s.1 r a) (fun _ _ => True)) (.idle (opening s)) c → Kept c.shared := by
  intro h
  have hexec : ((desk (fun _ => 1) DestinationCycle.sampleOfficeRuntime).execChecked
      (testing (testStep false)) (.idle (opening DestinationCycle.sampleOffice))
      (begins 0 (submits "bc1qfirst") [0, 1, 2] ++ begins 1 activates [86400001] ++
        begins 2 (submits "bc1qsecond") [86400002, 86400003, 86400004] ++
        [.resolve 1 { now := 86400005, createdAt := 86400005 }])).map
      (fun c => (c.shared.2 .btc, c.shared.1.pendingOperator .btc)) =
      some ([.activated ⟨⟨.daily, "bc1qfirst", 1⟩, 86400001⟩ 86400005,
        .accepted ⟨⟨.daily, "bc1qsecond", 1⟩, 172800003⟩,
        .accepted ⟨⟨.daily, "bc1qfirst", 1⟩, 86400001⟩], none) := by
    decide +kernel
  obtain ⟨c, hc, hv⟩ := Option.map_eq_some_iff.mp hexec
  obtain ⟨hevents, hnone⟩ := Prod.mk.inj hv
  have hkept := h _ _ _ c (Machine.execChecked_run (testing_admits (fun _ _ _ => testStep_ticks)) hc)
  obtain hpend | ⟨time, hm, _⟩ | ⟨p, hm⟩ := hkept .btc _ [_] _ hevents
  · rw [hnone] at hpend
    cases hpend
  · simp at hm
  · simp at hm

end Sample

end Bitmine.OperatorChanges
