import Bitmine.Destinations

namespace Bitmine.DestinationCycle

open Bitmine.Lib.UniqueTable Bitmine.Lib.Throwing Bitmine.Lib.Await
open Bitmine.Schema Bitmine.Deployment Bitmine.Payouts Bitmine.Destinations

def listed : Call → List PayoutDestination
  | .activateDueDestinations (.activate due rest) => due :: rest
  | .plan (.activate _ due rest) => due :: rest
  | _ => []

def activating (r : Call) : Option PayoutDestination := (listed r).head?

def unrevoked (s : Office) (r : Call) : Bool :=
  (activating r).all (fun due =>
    s.db.payoutDestinations.rows.all (fun d => d.id ≠ due.id ∨ d.status ≠ .revoked))

def activated (now : Instant) (due d : PayoutDestination) : PayoutDestination :=
  let revoked := if d.customerId = due.customerId ∧ d.asset = due.asset ∧ d.status = .active then
    { d with status := .revoked, revokedAt := some now } else d
  if d.id = due.id then { revoked with status := .active } else revoked

inductive Rewritten (a : Reply) (r : Call) (rows : List PayoutDestination) :
    List PayoutDestination → Prop where
  | same (hr : activating r = none) : Rewritten a r rows rows
  | activate {due : PayoutDestination} (hr : activating r = some due)
      (hm : ∃ d ∈ rows, d.id = due.id) : Rewritten a r rows (rows.map (activated a.now due))
  | insert {f : PayoutDestination → PayoutDestination} {x : PayoutDestination}
      (hr : activating r = none) (hf : ∀ d, f d = d ∨ ∃ now, d.status = .pending ∧
        f d = { d with status := .revoked, revokedAt := some now })
      (hx : x.status = .pending) (hn : ∀ d ∈ rows, d.id ≠ x.id) :
      Rewritten a r rows (rows.map f ++ [x])

section Inversion

variable {rt : Runtime} {minimum : AssetCode → ℕ} {s s' : Office} {a : Reply} {r : Call}
  {o : Option Call}

theorem activateDestination_ok {db db' : Database} {now : Instant} {due : PayoutDestination}
    (h : activateDestination db now due = .ok db') :
    (∃ d ∈ db.payoutDestinations.rows, d.id = due.id) ∧
      db'.payoutDestinations.rows = db.payoutDestinations.rows.map (activated now due) := by
  simp only [activateDestination, bind_eq_ok, orThrow_eq_ok, pure_eq_ok] at h
  obtain ⟨x, hx, rfl⟩ := h
  obtain ⟨hm, hid⟩ := Table.find?_mem hx
  obtain ⟨d, hd, rfl⟩ := Table.mem_update hm
  refine ⟨⟨d, hd, ?_⟩, ?_⟩
  · split at hid <;> simpa using hid
  · refine (List.map_map (l := db.payoutDestinations.rows)).trans
      (List.map_congr_left (fun d _ => ?_))
    simp only [Function.comp_apply, activated, decide_eq_true_eq]
    by_cases hc : d.customerId = due.customerId ∧ d.asset = due.asset ∧ d.status = .active <;>
      simp [hc]

theorem insert_fresh {t t' : Table PayoutDestination} {x : PayoutDestination}
    (h : t.insert x = some t') : t'.rows = t.rows ++ [x] ∧ ∀ d ∈ t.rows, d.id ≠ x.id := by
  obtain ⟨hrows, hnew⟩ := Table.insert_eq_some h
  exact ⟨hrows, fun d hd hid => hnew d hd (.inl hid)⟩

theorem create_rewritten {c : CreateCall} {o : Option CreateCall}
    (h : createDestination minimum s c a = .ok (s', o)) :
    Rewritten a (.createDestination c) s.db.payoutDestinations.rows
      s'.db.payoutDestinations.rows := by
  cases c with
  | receive customerId dto =>
    cases h
    exact .same rfl
  | get customerId dto =>
    simp only [createDestination, bind_eq_ok, pure_eq_ok] at h
    obtain ⟨_, _, he⟩ := h
    cases he
    exact .same rfl
  | validateAddress customerId dto =>
    simp only [createDestination] at h
    split at h <;> cases h
    exact .same rfl
  | create customerId dto effectiveAt =>
    simp only [createDestination, bind_eq_ok, orThrow_eq_ok, pure_eq_ok] at h
    obtain ⟨t, ht, he⟩ := h
    cases he
    obtain ⟨hrows, hnew⟩ := insert_fresh ht
    simp only [Office.store, withDestinations, hrows]
    have hinsert : Rewritten a (.createDestination (.create customerId dto effectiveAt))
        s.db.payoutDestinations.rows (s.db.payoutDestinations.rows.map id ++
          [newDestination a customerId dto.asset (trim dto.address) effectiveAt
            (dto.minPayoutAtomic.getD (minimum dto.asset))]) :=
      .insert rfl (fun _ => .inl rfl) rfl hnew
    rwa [List.map_id] at hinsert

theorem request_rewritten {c : RequestCall} {o : Option RequestCall}
    (h : requestDestination s c a = .ok (s', o)) :
    Rewritten a (.requestDestination c) s.db.payoutDestinations.rows
      s'.db.payoutDestinations.rows := by
  cases c with
  | authenticate dto =>
    simp only [requestDestination, bind_eq_ok, pure_eq_ok] at h
    obtain ⟨_, _, he⟩ := h
    cases he
    exact .same rfl
  | validateAddress customerId dto =>
    simp only [requestDestination] at h
    split at h <;> cases h
    exact .same rfl
  | readPolicy customerId dto =>
    simp only [requestDestination] at h
    split at h <;> cases h
    exact .same rfl
  | transaction customerId dto min effectiveAt =>
    simp only [requestDestination, bind_eq_ok, orThrow_eq_ok, pure_eq_ok] at h
    obtain ⟨t, ht, he⟩ := h
    cases he
    obtain ⟨hrows, hnew⟩ := insert_fresh ht
    simp only [Office.store, withDestinations, hrows]
    refine .insert rfl (fun d => ?_) rfl (fun d hd => ?_)
    · by_cases hp : d.customerId = customerId ∧ d.asset = dto.asset ∧ d.status = .pending
      · exact .inr ⟨a.now, hp.2.2, by simp [hp]⟩
      · exact .inl (by simp [hp])
    · have hm := hnew _ (Table.mem_update_of_mem hd)
      split at hm <;> exact hm

theorem plan_rewritten {c : PlanCall} {db : Database} {o : Option PlanCall}
    (h : stepPlan rt s.db c a.toAnswer = .ok (db, o)) :
    Rewritten a (.plan c) s.db.payoutDestinations.rows db.payoutDestinations.rows := by
  cases c with
  | listDue asset =>
    cases h
    exact .same rfl
  | activate asset due rest =>
    simp only [stepPlan, bind_eq_ok, pure_eq_ok] at h
    obtain ⟨db, hd, he⟩ := h
    cases he
    obtain ⟨hm, hrows⟩ := activateDestination_ok hd
    exact hrows ▸ .activate rfl hm
  | readPolicy asset =>
    cases h
    exact .same rfl
  | transaction asset policy =>
    simp only [stepPlan, bind_eq_ok, pure_eq_ok] at h
    obtain ⟨db, hd, he⟩ := h
    cases he
    obtain rfl | ⟨items, hp⟩ := planTransaction_ok hd
    · exact .same rfl
    · rw [hp.created.frame]
      exact .same rfl

theorem planOperator_destinations {c : OperatorCall} {db db' : Database} {o : Option OperatorCall}
    {x : Answer} (h : stepOperator rt db c x = .ok (db', o)) :
    db'.payoutDestinations = db.payoutDestinations := by
  obtain ⟨rfl, _⟩ | ⟨asset, setting, policy, items, _, _, hp⟩ := stepOperator_ok h
  · rfl
  · rw [hp.created.frame]
    rfl

theorem updateOperator_db {c : UpdateCall} {o : Option UpdateCall}
    (h : updateOperatorPayout minimum s c a = .ok (s', o)) : s'.db = s.db := by
  cases c with
  | receive dto =>
    simp only [updateOperatorPayout] at h
    split at h
    · cases h
      rfl
    · split at h <;> cases h
      rfl
  | validateAddress dto =>
    simp only [updateOperatorPayout] at h
    split at h <;> cases h
    rfl
  | upsert dto effectiveAt =>
    cases h
    rfl

theorem activateOperator_destinations {c : OperatorActivation} {o : Option OperatorActivation}
    (h : activateDueOperatorPayouts s c a = .ok (s', o)) :
    s'.db.payoutDestinations = s.db.payoutDestinations := by
  cases c with
  | readPending asset rest =>
    simp only [activateDueOperatorPayouts] at h
    split at h
    · cases h
      rfl
    · split at h <;> cases h <;> rfl
  | activate asset pending rest =>
    simp only [activateDueOperatorPayouts, bind_eq_ok, pure_eq_ok] at h
    obtain ⟨_, _, he⟩ := h
    cases he
    rfl

theorem effect_rewritten (h : effect rt minimum s r a = .ok (s', o)) :
    Rewritten a r s.db.payoutDestinations.rows s'.db.payoutDestinations.rows := by
  obtain ⟨⟨s₁, o₁⟩, hserve, he⟩ := map_eq_ok.mp h
  cases he
  simp only [Office.tick]
  cases r with
  | createDestination c =>
    obtain ⟨⟨s₂, o₂⟩, hs, he⟩ := map_eq_ok.mp hserve
    cases he
    exact create_rewritten hs
  | requestDestination c =>
    obtain ⟨⟨s₂, o₂⟩, hs, he⟩ := map_eq_ok.mp hserve
    cases he
    exact request_rewritten hs
  | activateDueDestinations c =>
    obtain ⟨⟨s₂, o₂⟩, hs, he⟩ := map_eq_ok.mp hserve
    cases he
    cases c with
    | listDue =>
      cases hs
      exact .same rfl
    | activate due rest =>
      simp only [activateDueDestinations, bind_eq_ok, pure_eq_ok] at hs
      obtain ⟨db, hd, he⟩ := hs
      cases he
      obtain ⟨hm, hrows⟩ := activateDestination_ok hd
      exact hrows ▸ .activate rfl hm
  | plan c =>
    obtain ⟨⟨db, o₂⟩, hs, he⟩ := map_eq_ok.mp hserve
    cases he
    exact plan_rewritten hs
  | updateOperatorPayout c =>
    obtain ⟨⟨s₂, o₂⟩, hs, he⟩ := map_eq_ok.mp hserve
    cases he
    exact updateOperator_db hs ▸ .same rfl
  | activateDueOperatorPayouts c planFor =>
    obtain ⟨⟨s₂, o₂⟩, hs, he⟩ := map_eq_ok.mp hserve
    cases he
    exact activateOperator_destinations hs ▸ .same rfl
  | planOperator c =>
    obtain ⟨⟨db, o₂⟩, hs, he⟩ := map_eq_ok.mp hserve
    cases he
    simp only [Office.store, planOperator_destinations hs]
    exact .same rfl

end Inversion

section Rows

variable {a : Reply} {r : Call} {l l' : List PayoutDestination} {now : Instant}
  {due d : PayoutDestination}

@[simp] theorem activated_id : (activated now due d).id = d.id := by
  rw [activated]
  split <;> split <;> rfl

@[simp] theorem activated_customerId : (activated now due d).customerId = d.customerId := by
  rw [activated]
  split <;> split <;> rfl

@[simp] theorem activated_asset : (activated now due d).asset = d.asset := by
  rw [activated]
  split <;> split <;> rfl

theorem activated_of_eq (h : d.id = due.id) : (activated now due d).status = .active := by
  simp [activated, h]

/-- A row beside the listed one is active only if it was so before, for another
customer or asset. -/
theorem activated_of_ne (h : d.id ≠ due.id) (ha : (activated now due d).status = .active) :
    d.status = .active ∧ ¬ (d.customerId = due.customerId ∧ d.asset = due.asset) := by
  simp only [activated, h, ↓reduceIte] at ha
  split at ha
  · cases ha
  · rename_i hc
    exact ⟨ha, fun hca => hc ⟨hca.1, hca.2, ha⟩⟩

theorem activated_revoked (h : d.id ≠ due.id) (hd : d.status = .revoked) :
    (activated now due d).status = .revoked := by
  simp [activated, h, hd]

/-- Rows are never deleted and never change hands. -/
def Persists (l l' : List PayoutDestination) : Prop :=
  ∀ d ∈ l, ∃ d' ∈ l', d'.id = d.id ∧ d'.customerId = d.customerId ∧ d'.asset = d.asset

def StaysRevoked (l l' : List PayoutDestination) : Prop :=
  ∀ d ∈ l, ∃ d' ∈ l', d'.id = d.id ∧ (d.status = .revoked → d'.status = .revoked)

def SingleActive (l : List PayoutDestination) : Prop :=
  ∀ d ∈ l, ∀ e ∈ l, d.status = .active → e.status = .active →
    d.customerId = e.customerId → d.asset = e.asset → d.id = e.id

theorem StaysRevoked.refl (l : List PayoutDestination) : StaysRevoked l l :=
  fun d hd => ⟨d, hd, rfl, id⟩

theorem StaysRevoked.trans {l'' : List PayoutDestination} (h : StaysRevoked l l')
    (h' : StaysRevoked l' l'') : StaysRevoked l l'' := by
  intro d hd
  obtain ⟨e, he, hid, hs⟩ := h d hd
  obtain ⟨x, hx, hid', hs'⟩ := h' e he
  exact ⟨x, hx, hid'.trans hid, hs' ∘ hs⟩

theorem Rewritten.persists (h : Rewritten a r l l') : Persists l l' := by
  intro d hd
  cases h with
  | same => exact ⟨d, hd, rfl, rfl, rfl⟩
  | activate => exact ⟨_, List.mem_map_of_mem hd, by simp⟩
  | @insert f x _ hf =>
    refine ⟨f d, List.mem_append_left _ (List.mem_map_of_mem hd), ?_⟩
    obtain he | ⟨now, _, he⟩ := hf d <;> simp [he]

theorem Rewritten.staysRevoked (h : Rewritten a r l l')
    (hu : ∀ due ∈ activating r, ∀ d ∈ l, d.id = due.id → d.status ≠ .revoked) :
    StaysRevoked l l' := by
  intro d hd
  cases h with
  | same => exact ⟨d, hd, rfl, id⟩
  | activate hr =>
    refine ⟨_, List.mem_map_of_mem hd, activated_id, fun hs => ?_⟩
    exact activated_revoked (fun hid => hu _ hr d hd hid hs) hs
  | @insert f x _ hf =>
    refine ⟨f d, List.mem_append_left _ (List.mem_map_of_mem hd), ?_⟩
    obtain he | ⟨now, hp, he⟩ := hf d
    · simp [he]
    · simp [he]

theorem Rewritten.revives (h : Rewritten a r l l') (hr : activating r = some due) (hd : d ∈ l)
    (hid : d.id = due.id) : ∃ d' ∈ l', d'.id = d.id ∧ d'.status = .active := by
  cases h with
  | same hr' => cases hr'.symm.trans hr
  | activate hr' =>
    cases hr'.symm.trans hr
    exact ⟨_, List.mem_map_of_mem hd, activated_id, activated_of_eq hid⟩
  | insert hr' => cases hr'.symm.trans hr

theorem Rewritten.singleActive (h : Rewritten a r l l')
    (hunique : ∀ d ∈ l, ∀ e ∈ l, d.id = e.id → d = e)
    (hl : ∀ due ∈ activating r, ∃ d ∈ l, d.id = due.id ∧ d.customerId = due.customerId ∧
      d.asset = due.asset)
    (hs : SingleActive l) : SingleActive l' := by
  cases h with
  | same => exact hs
  | @activate due hr =>
    obtain ⟨x, hx, hxid, hxc, hxa⟩ := hl _ hr
    -- the listed row belongs to the customer and asset it was listed for
    have hown : ∀ d ∈ l, d.id = due.id → d.customerId = due.customerId ∧ d.asset = due.asset := by
      intro d hd hid
      rw [hunique d hd x hx (hid.trans hxid.symm)]
      exact ⟨hxc, hxa⟩
    intro d' hd' e' he' hda hea hc has
    obtain ⟨d, hd, rfl⟩ := List.mem_map.mp hd'
    obtain ⟨e, he, rfl⟩ := List.mem_map.mp he'
    simp only [activated_id, activated_customerId, activated_asset] at hc has ⊢
    by_cases hdi : d.id = due.id
    · by_cases hei : e.id = due.id
      · exact hdi.trans hei.symm
      · obtain ⟨hdc, hdas⟩ := hown d hd hdi
        exact absurd ⟨hc.symm.trans hdc, has.symm.trans hdas⟩ (activated_of_ne hei hea).2
    · by_cases hei : e.id = due.id
      · obtain ⟨hec, heas⟩ := hown e he hei
        exact absurd ⟨hc.trans hec, has.trans heas⟩ (activated_of_ne hdi hda).2
      · exact hs d hd e he (activated_of_ne hdi hda).1 (activated_of_ne hei hea).1 hc has
  | @insert f x _ hf hx =>
    have hold : ∀ d' ∈ l.map f ++ [x], d'.status = .active → d' ∈ l := by
      intro d' hd' ha
      rw [List.mem_append, List.mem_map, List.mem_singleton] at hd'
      obtain ⟨d, hd, rfl⟩ | rfl := hd'
      · obtain he | ⟨now, _, he⟩ := hf d
        · exact he.symm ▸ hd
        · rw [he] at ha
          cases ha
      · rw [hx] at ha
        cases ha
    intro d hd e he hda hea
    exact hs d (hold d hd hda) e (hold e he hea) hda hea

end Rows

section Run

variable {rt : Runtime} {minimum : AssetCode → ℕ} {s s' : Office} {a : Reply} {r : Call}

theorem mem_due {x : Answer} {rows : List PayoutDestination} {p : PayoutDestination → Bool}
    {d : PayoutDestination} (h : d ∈ (x.destinationOrder.arrange rows).filter p) : d ∈ rows :=
  (x.destinationOrder.perm _).mem_iff.mp (List.mem_filter.mp h).1

theorem listed_activateRest {l : List PayoutDestination} {r' : Call}
    (h : (activateRest l).map Call.activateDueDestinations = some r') : listed r' = l := by
  cases l with
  | nil => cases h
  | cons due rest =>
    cases h
    rfl

theorem listed_activateNext (asset : AssetCode) (l : List PayoutDestination) :
    listed (.plan (activateNext asset l)) = l := by
  cases l <;> rfl

/-- What a call has listed was in the table when it listed it. -/
theorem effect_listed {r' : Call} (h : effect rt minimum s r a = .ok (s', some r')) :
    ∀ due ∈ listed r', due ∈ listed r ∨ due ∈ s.db.payoutDestinations.rows := by
  obtain ⟨⟨s₁, o₁⟩, hserve, he⟩ := map_eq_ok.mp h
  obtain ⟨rfl, rfl⟩ := Prod.mk.inj he
  cases r with
  | activateDueDestinations c =>
    obtain ⟨⟨s₂, o₂⟩, hs, he⟩ := map_eq_ok.mp hserve
    obtain ⟨_, ho⟩ := Prod.mk.inj he
    cases c with
    | listDue =>
      cases hs
      rw [listed_activateRest ho]
      exact fun due hd => .inr (mem_due hd)
    | activate due rest =>
      simp only [activateDueDestinations, bind_eq_ok, pure_eq_ok] at hs
      obtain ⟨_, _, hs⟩ := hs
      cases hs
      rw [listed_activateRest ho]
      exact fun x hx => .inl (List.mem_cons_of_mem _ hx)
  | plan c =>
    obtain ⟨⟨db, o₂⟩, hs, he⟩ := map_eq_ok.mp hserve
    obtain ⟨_, ho⟩ := Prod.mk.inj he
    cases c with
    | listDue asset =>
      cases hs
      cases ho
      rw [listed_activateNext]
      exact fun due hd => .inr (mem_due hd)
    | activate asset due rest =>
      simp only [stepPlan, bind_eq_ok, pure_eq_ok] at hs
      obtain ⟨_, _, hs⟩ := hs
      cases hs
      cases ho
      rw [listed_activateNext]
      exact fun x hx => .inl (List.mem_cons_of_mem _ hx)
    | readPolicy asset =>
      cases hs
      cases ho
      exact fun _ hx => by cases hx
    | transaction asset policy =>
      simp only [stepPlan, bind_eq_ok, pure_eq_ok] at hs
      obtain ⟨_, _, hs⟩ := hs
      cases hs
      cases ho
  | createDestination c | requestDestination c | updateOperatorPayout c | planOperator c =>
    obtain ⟨⟨s₂, o₂⟩, hs, he⟩ := map_eq_ok.mp hserve
    obtain ⟨_, ho⟩ := Prod.mk.inj he
    obtain ⟨c', _, rfl⟩ := Option.map_eq_some_iff.mp ho
    exact fun _ hx => by cases hx
  | activateDueOperatorPayouts c planFor =>
    obtain ⟨⟨s₂, o₂⟩, hs, he⟩ := map_eq_ok.mp hserve
    obtain ⟨_, ho⟩ := Prod.mk.inj he
    cases o₂ with
    | some c' =>
      cases ho
      exact fun _ hx => by cases hx
    | none =>
      obtain ⟨asset, _, rfl⟩ := Option.map_eq_some_iff.mp ho
      exact fun _ hx => by cases hx

/-- What a call has listed is still there, for the same customer and asset. -/
def Stored (s : Office) (r : Call) : Prop :=
  Persists (listed r) s.db.payoutDestinations.rows

theorem Persists.trans {l l' l'' : List PayoutDestination} (h : Persists l l')
    (h' : Persists l' l'') : Persists l l'' := by
  intro d hd
  obtain ⟨e, he, hid, hc, ha⟩ := h d hd
  obtain ⟨x, hx, hid', hc', ha'⟩ := h' e he
  exact ⟨x, hx, hid'.trans hid, hc'.trans hc, ha'.trans ha⟩

theorem elsewhere_destinations (s : Office) (e : Elsewhere) :
    (elsewhere s e).db.payoutDestinations = s.db.payoutDestinations := by
  cases e <;> rfl

theorem listed_entry (h : r.entry = true) : listed r = [] := by
  unfold Call.entry at h
  split at h <;> first | rfl | cases h

theorem mem_listed_of_activating {due : PayoutDestination} (h : activating r = some due) :
    due ∈ listed r := List.mem_of_mem_head? h

theorem outline (rt : Runtime) (minimum : AssetCode → ℕ) (P : Office → Call → Reply → Prop) :
    Outline (office rt minimum) (shared (ρ := Call)) P (fun _ _ => True)
      (fun s => SingleActive s.db.payoutDestinations.rows) Stored
      (fun _ s s' => Persists s.db.payoutDestinations.rows s'.db.payoutDestinations.rows) where
  entry s r _ hr := by
    rw [Stored, listed_entry hr]
    exact fun _ hx => by cases hx
  effect s r a s' o hs hl _ he := by
    have hw := effect_rewritten he
    refine ⟨hw.singleActive (fun d hd e he hid => s.db.payoutDestinations.eq_of_id hd he hid)
      (fun due hr => hl due (mem_listed_of_activating hr)) hs, hw.persists, ?_, fun _ _ h => by cases h⟩
    rintro r' ⟨⟩ due hdue
    obtain hold | hrow := effect_listed he due hdue
    · exact hl.trans hw.persists due hold
    · exact hw.persists due hrow
  handler _ _ _ _ _ _ h := by cases h
  background _ _ _ _ hl := hl
  event s e hs _ := by
    refine ⟨?_, fun r hr => ?_⟩
    · simpa only [office, elsewhere_destinations] using hs
    · simpa only [Stored, office, elsewhere_destinations] using hr
  stable _ _ _ _ _ hg _ hl := hl.trans hg

/-- No row that has been revoked is active. -/
def NeverRevived (l l' : List PayoutDestination) : Prop :=
  ∀ d ∈ l, d.status = .revoked → ∀ d' ∈ l', d'.id = d.id → d'.status ≠ .active

theorem StaysRevoked.neverRevived {l : List PayoutDestination} {t : Table PayoutDestination}
    (h : StaysRevoked l t.rows) : NeverRevived l t.rows := by
  intro d hd hs d' hd' hid
  obtain ⟨e, he, hide, hse⟩ := h d hd
  rw [t.eq_of_id hd' he (hid.trans hide.symm), hse hs]
  exact DestinationStatus.noConfusion

theorem unrevoked_iff : unrevoked s r = true ↔ ∀ due ∈ activating r,
    ∀ d ∈ s.db.payoutDestinations.rows, d.id = due.id → d.status ≠ .revoked := by
  cases h : activating r <;>
    simp [unrevoked, h, ← imp_iff_not_or]

/-- An effect revives a revoked row exactly when it activates a row that has been
revoked since it was listed. -/
theorem effect_neverRevived_iff {o : Option Call} (h : effect rt minimum s r a = .ok (s', o)) :
    NeverRevived s.db.payoutDestinations.rows s'.db.payoutDestinations.rows ↔
      unrevoked s r = true := by
  have hw := effect_rewritten h
  constructor
  · intro hn
    refine unrevoked_iff.mpr (fun due hr d hd hid hs => ?_)
    obtain ⟨d', hd', hid', ha⟩ := hw.revives hr hd hid
    exact hn d hd hs d' hd' hid' ha
  · intro hu
    exact (hw.staysRevoked (unrevoked_iff.mp hu)).neverRevived

/-- In every run there is at most one active destination for a customer and an
asset; each effect leaves the revoked ones inactive exactly when the row it
activates is not revoked, and a run of such effects never revives any. -/
theorem destination_life_cycle {s₀ : Office} (h₀ : s₀.Opening) {c : Config Office Call}
    (hc : (office rt minimum).Reaches (.idle s₀) c) :
    SingleActive c.shared.db.payoutDestinations.rows ∧
    (∀ pid r a s o, c.calls pid = some r → (office rt minimum).effect c.shared r a = .ok (s, o) →
      (NeverRevived c.shared.db.payoutDestinations.rows s.db.payoutDestinations.rows ↔
        unrevoked c.shared r = true)) ∧
    ∀ d, (office rt minimum).Run (Allowed (shared (ρ := Call)) (fun s r _ => unrevoked s r = true)
      (fun _ _ => True)) c d →
      NeverRevived c.shared.db.payoutDestinations.rows d.shared.db.payoutDestinations.rows := by
  have hopen : SingleActive s₀.db.payoutDestinations.rows := by
    rw [h₀.destinations]
    exact fun _ h => by cases h
  have hheld := (outline rt minimum _).run (keyed_shared _) (Outline.idle hopen) hc.allowed
  refine ⟨hheld.inv, fun pid r a s o _ he => effect_neverRevived_iff he, fun d hd => ?_⟩
  apply StaysRevoked.neverRevived
  refine (outline rt minimum _).run_rel (keyed_shared _)
    (G := fun s s' => StaysRevoked s.db.payoutDestinations.rows s'.db.payoutDestinations.rows)
    (fun _ => .refl _) (fun _ _ _ => .trans) ?_ ?_ hheld hd
  · exact fun s r a s' o _ _ hu he => (effect_rewritten he).staysRevoked (unrevoked_iff.mp hu)
  · intro s e _ _
    simp only [office, elsewhere_destinations]
    exact .refl _

end Run

section Sample

def sampleOffice : Office :=
  ⟨{ Database.empty ⟨"UTC", .customer, 1000, 100, fun _ => 1, fun _ => 900⟩
      (fun _ => ⟨.retain, "", 1⟩) with customers := .single ⟨1, .active⟩ }, fun _ => none, 0, []⟩

theorem sampleOffice_opening : sampleOffice.Opening :=
  ⟨rfl, rfl, fun _ => ⟨rfl, rfl⟩, fun _ => rfl⟩

def sampleOfficeRuntime : Runtime :=
  ⟨⟨fun _ _ plaintext => ("tag", plaintext), fun _ _ ciphertext _ => some ciphertext, fun _ _ => []⟩,
    fun _ t => t / 86400000 * 86400000, fun _ t => (t / 86400000 + 1) * 86400000, fun _ => 3⟩

def statuses (c : Config Office Call) : List (Id × DestinationStatus) :=
  c.shared.db.payoutDestinations.rows.map (fun d => (d.id, d.status))

/-- An address is created by an administrator; a day later it is listed as due,
and before it is activated the customer replaces it from the portal. -/
def replaced : List (Action Call Reply Elsewhere) :=
  [.call 0 (.createDestination (.receive 1 ⟨.btc, "bc1qold", none⟩)), .resolve 0 {}, .resolve 0 {},
    .resolve 0 {}, .resolve 0 { newId := fun _ => 1 },
    .call 1 (.activateDueDestinations .listDue),
    .resolve 1 { now := 86400000, createdAt := 86400000 },
    .call 2 (.requestDestination (.authenticate ⟨.btc, "bc1qnew", none⟩)),
    .resolve 2 { now := 86400001, createdAt := 86400001, credentials := some 1 },
    .resolve 2 { now := 86400001, createdAt := 86400001 },
    .resolve 2 { now := 86400001, createdAt := 86400001 },
    .resolve 2 { now := 86400002, createdAt := 86400002, newId := fun _ => 2 }]

theorem destination_life_cycle_sample : ∃ c, (office sampleOfficeRuntime (fun _ => 1)).Reaches
    (.idle sampleOffice) c ∧ statuses c = [(1, .revoked), (2, .pending)] ∧
      SingleActive c.shared.db.payoutDestinations.rows := by
  have h : ((office sampleOfficeRuntime (fun _ => 1)).exec (.idle sampleOffice) replaced).map
      statuses = some [(1, .revoked), (2, .pending)] := by decide +kernel
  obtain ⟨c, hc, hv⟩ := Option.map_eq_some_iff.mp h
  have hr := Machine.exec_reaches hc
  exact ⟨c, hr, hv, (destination_life_cycle sampleOffice_opening hr).1⟩

theorem revoked_destination_activated : ∃ c d, (office sampleOfficeRuntime (fun _ => 1)).Reaches
      (.idle sampleOffice) c ∧ (office sampleOfficeRuntime (fun _ => 1)).Reaches c d ∧
    statuses c = [(1, .revoked), (2, .pending)] ∧ statuses d = [(1, .active), (2, .pending)] ∧
    ¬ NeverRevived c.shared.db.payoutDestinations.rows d.shared.db.payoutDestinations.rows := by
  have h : ((office sampleOfficeRuntime (fun _ => 1)).exec (.idle sampleOffice) replaced).bind
      (fun c => ((office sampleOfficeRuntime (fun _ => 1)).exec c
        [.resolve 1 { now := 86400003, createdAt := 86400003 }]).map
          (fun d => (statuses c, statuses d))) =
        some ([(1, .revoked), (2, .pending)], [(1, .active), (2, .pending)]) := by decide +kernel
  obtain ⟨c, hc, h⟩ := Option.bind_eq_some_iff.mp h
  obtain ⟨d, hd, hv⟩ := Option.map_eq_some_iff.mp h
  obtain ⟨hs, hs'⟩ := Prod.mk.inj hv
  refine ⟨c, d, Machine.exec_reaches hc, Machine.exec_reaches hd, hs, hs', fun hn => ?_⟩
  have hm : (1, DestinationStatus.revoked) ∈ statuses c := by simp [hs]
  have hm' : (1, DestinationStatus.active) ∈ statuses d := by simp [hs']
  obtain ⟨x, hx, hxe⟩ := List.mem_map.mp hm
  obtain ⟨y, hy, hye⟩ := List.mem_map.mp hm'
  obtain ⟨hxi, hxs⟩ := Prod.mk.inj hxe
  obtain ⟨hyi, hys⟩ := Prod.mk.inj hye
  exact hn x hx hxs y hy (hyi.trans hxi.symm) hys

end Sample

end Bitmine.DestinationCycle
