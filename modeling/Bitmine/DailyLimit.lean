import Bitmine.Income
import Bitmine.Payloads

namespace Bitmine.DailyLimit

open Bitmine.Lib.UniqueTable Bitmine.Lib.Throwing Bitmine.Lib.Await
open Bitmine.Schema Bitmine.Deployment Bitmine.Payouts Bitmine.Execute Bitmine.PayoutHistory
open Bitmine.System Bitmine.Commitments Bitmine.NoOvercommit Bitmine.Payloads Bitmine.Income

/-- The local days of a time zone do not overlap: instants of one day have the
same midnights around them. -/
structure Calendar (rt : Runtime) (timezone : String) : Prop where
  coincide : ∀ s t, rt.startOfDay timezone s ≤ t → t < rt.startOfNextDay timezone s →
    rt.startOfDay timezone t = rt.startOfDay timezone s ∧
      rt.startOfNextDay timezone t = rt.startOfNextDay timezone s

def automaticOn (rt : Runtime) (timezone : String) (asset : AssetCode) (day : Instant)
    (b : PayoutBatch) : Bool :=
  b.asset = asset ∧ b.approvalThresholdHit = false ∧ rt.startOfDay timezone day ≤ b.createdAt ∧
    b.createdAt < rt.startOfNextDay timezone day

def automaticGross (rt : Runtime) (timezone : String) (db : Database) (asset : AssetCode)
    (day : Instant) : ℤ :=
  ((db.payoutBatches.rows.filter (automaticOn rt timezone asset day)).map
    PayoutBatch.totalGrossAtomic).sum

structure Limited (rt : Runtime) (policy : PayoutPolicySetting) (db : Database) : Prop where
  fixed : db.payoutPolicy = policy
  limit : ∀ asset day,
    automaticGross rt policy.timezone db asset day ≤ policy.dailyAutoLimitAtomic asset

theorem automaticOn_same {rt : Runtime} {timezone : String} {asset : AssetCode} {day : Instant}
    {b b' : PayoutBatch} (h : SameBatch b b') :
    automaticOn rt timezone asset day b' = automaticOn rt timezone asset day b := by
  simp only [automaticOn, h.asset, h.approvalThresholdHit, h.createdAt]

theorem automaticGross_map {rt : Runtime} {timezone : String} {db db' : Database}
    {f : PayoutBatch → PayoutBatch} (hf : ∀ b, SameBatch b (f b))
    (hr : db'.payoutBatches.rows = db.payoutBatches.rows.map f) (asset : AssetCode)
    (day : Instant) :
    automaticGross rt timezone db' asset day = automaticGross rt timezone db asset day := by
  rw [automaticGross, hr, List.filter_map, List.map_map, automaticGross]
  have hp : (automaticOn rt timezone asset day) ∘ f = automaticOn rt timezone asset day :=
    funext (fun b => automaticOn_same (hf b))
  rw [hp]
  exact congrArg List.sum (List.map_congr_left (fun b _ => (hf b).totalGrossAtomic))

theorem canAutoApprove_true {rt : Runtime} {now : Instant} {db : Database} {asset : AssetCode}
    {amount : ℤ} {policy : PayoutPolicySetting} (hc : Covered db)
    (h : canAutoApprove rt now db asset amount policy = true) :
    automaticGross rt policy.timezone db asset now + amount ≤ policy.dailyAutoLimitAtomic asset := by
  rw [canAutoApprove] at h
  dsimp only at h
  split at h
  · cases h
  · have hsum := of_decide_eq_true h
    have hfilter : db.payoutBatches.rows.filter (automaticOn rt policy.timezone asset now) =
        db.payoutBatches.rows.filter (fun b => b.asset = asset ∧ b.approvalThresholdHit = false ∧
          rt.startOfDay policy.timezone now ≤ b.createdAt ∧
          b.createdAt < rt.startOfNextDay policy.timezone now ∧ b.state ≠ .cancelled) := by
      refine List.filter_congr (fun b hb => ?_)
      simp [automaticOn, hc.alive b hb]
    rw [automaticGross, hfilter]
    exact hsum

/-- A batch that is created today counts today and on no other day. -/
theorem Limited.planned {rt : Runtime} {a : Answer} {db db' : Database} {asset : AssetCode}
    {policy : PayoutPolicySetting} {kind : PayoutKind} {payer : NetworkFeePayer}
    {items : List NewItem} (h : Limited rt policy db) (hc : Covered db)
    (hcal : Calendar rt policy.timezone)
    (htoday : rt.startOfDay policy.timezone a.now ≤ a.createdAt ∧
      a.createdAt < rt.startOfNextDay policy.timezone a.now)
    (hp : Planned rt a db db' asset policy kind payer items) : Limited rt policy db' := by
  refine ⟨by rw [hp.created.frame]; exact h.fixed, fun asset' day => ?_⟩
  have hold := h.limit asset' day
  rw [automaticGross, hp.created.batches, List.filter_append, List.map_append, List.sum_append]
  by_cases hcount : automaticOn rt policy.timezone asset' day (newBatch a asset kind
      (canAutoApprove rt a.now db asset (items.map NewItem.grossAtomic).sum policy)
      (items.map NewItem.grossAtomic).sum ⟨some payer, some policy.maxFeeBps⟩) = true
  · have hcount' := of_decide_eq_true hcount
    obtain ⟨hasset, hauto, hstart, hstop⟩ := hcount'
    have hauto : canAutoApprove rt a.now db asset (items.map NewItem.grossAtomic).sum policy =
        true := by simpa [newBatch] using hauto
    -- both windows hold the moment of creation
    obtain ⟨hs, hn⟩ := hcal.coincide day a.createdAt hstart hstop
    obtain ⟨hs', hn'⟩ := hcal.coincide a.now a.createdAt htoday.1 htoday.2
    have hasset : asset = asset' := hasset
    have hday : automaticGross rt policy.timezone db asset' day =
        automaticGross rt policy.timezone db asset a.now := by
      have hon : automaticOn rt policy.timezone asset' day =
          automaticOn rt policy.timezone asset a.now := by
        funext b
        simp only [automaticOn, hasset, ← hs, ← hn, hs', hn']
      rw [automaticGross, hon, automaticGross]
    have hlim := canAutoApprove_true hc hauto
    rw [List.filter_cons_of_pos hcount, List.filter_nil]
    simp only [List.map_cons, List.map_nil, List.sum_cons, List.sum_nil, add_zero]
    rw [automaticGross] at hday
    rw [hday, ← hasset]
    exact hlim
  · rw [automaticGross] at hold
    rw [List.filter_cons_of_neg hcount, List.filter_nil]
    simpa using hold

section Steps

variable {rt : Runtime} {w w' : World} {a : Answer}

def Rewrites (db db' : Database) : Prop :=
  ∃ f, (∀ b, SameBatch b (f b)) ∧ db'.payoutBatches.rows = db.payoutBatches.rows.map f

theorem Rewrites.of_eq {db db' : Database} (h : db'.payoutBatches = db.payoutBatches) :
    Rewrites db db' := ⟨fun b => b, .refl, by rw [h, List.map_id']⟩

theorem Rewrites.of_update {db db' : Database} {id : Id} {f : PayoutBatch → PayoutBatch}
    (hf : ∀ b, SameBatch b (f b)) (h : db'.payoutBatches.rows =
      db.payoutBatches.rows.map (fun b => if b.id = id then f b else b)) : Rewrites db db' := by
  refine ⟨_, fun b => ?_, h⟩
  split
  · exact hf b
  · exact .refl b

theorem executed_rewrites {c : ExecuteCall} {o : Option ExecuteCall}
    (h : Executed rt w c a w' o) : Rewrites w.db w'.db := by
  cases h with
  | acquire | checkReorg | unsigned | opened | readPolicy | prepare | known | unknown | broadcast
  | readResult | fails | failsLater | release => exact .of_eq rfl
  | persist hp hs hd => exact .of_update (sameBatch_sign _ _) (persistTransaction_ok hd).2.2.1
  | post hp hd => exact .of_update (sameBatch_broadcast _ _) (postTransaction_batches hd)
  | markFailed hp hd => exact .of_update (sameBatch_fail _) (updateBatch_ok hd).2.1

def Plans (rt : Runtime) (a : Answer) (policy : PayoutPolicySetting) (db db' : Database) : Prop :=
  ∃ asset kind payer items, Planned rt a db db' asset policy kind payer items

def planning : Call → Option PayoutPolicySetting
  | .plan (.transaction _ policy) => some policy
  | .planOperator (.transaction _ _ policy) => some policy
  | _ => none

theorem acted_batches {r : Call} {o : Option Call} (h : Acted rt w a r w' o) :
    Rewrites w.db w'.db ∨ ∃ policy, planning r = some policy ∧ Plans rt a policy w.db w'.db := by
  cases h with
  | allocate hd => exact .inl (.of_eq (allocate_batches hd))
  | scan hs => exact .inl (.of_eq (scanned_batches hs).1)
  | share hs => exact .inl (.of_eq (journals_payouts hs).batches)
  | prepares | preparesOperator => exact .inl (.of_eq rfl)
  | plans hp | plansOperator hp => exact .inr ⟨_, rfl, _, _, _, _, hp⟩
  | approve hx =>
    cases hx with
    | assertTotp | readBatch => exact .inl (.of_eq rfl)
    | write hd => exact .inl (.of_update (sameBatch_approve _ _ _) (updateBatch_ok hd).2.1)
  | execute hx => exact .inl (executed_rewrites hx)
  | reconcile hx =>
    cases hx with
    | list | pass | enough => exact .inl (.of_eq rfl)
    | write hd => exact .inl (.of_update (sameBatch_confirm _) (updateBatch_ok hd).2.1)

theorem acted_planning {r r' : Call} (h : Acted rt w a r w' (some r')) {policy : PayoutPolicySetting}
    (hp : planning r' = some policy) : policy = w.db.payoutPolicy := by
  generalize ho : some r' = o at h
  cases h with
  | prepares hn =>
    obtain ⟨c', hc', rfl⟩ := Option.map_eq_some_iff.mp ho.symm
    cases c' with
    | transaction asset policy' =>
      cases hp
      exact hn asset _ hc'
    | listDue | activate | readPolicy => cases hp
  | preparesOperator hn =>
    obtain ⟨c', hc', rfl⟩ := Option.map_eq_some_iff.mp ho.symm
    cases c' with
    | transaction asset setting policy' =>
      cases hp
      exact hn asset setting _ hc'
    | readSetting | readPolicy => cases hp
  | allocate | plans | plansOperator => cases ho
  | scan | share | approve | execute | reconcile =>
    obtain ⟨c', _, rfl⟩ := Option.map_eq_some_iff.mp ho.symm
    cases hp

/-- The moment of creation lies in the local day that the check has used. -/
def CreatedToday (rt : Runtime) (timezone : String) (_ : World) (r : Call) (a : Answer) : Prop :=
  (planning r).isSome = true → rt.startOfDay timezone a.now ≤ a.createdAt ∧
    a.createdAt < rt.startOfNextDay timezone a.now

/-- Changes of the configuration leave the payout policy alone. -/
def KeepsPolicy (policy : PayoutPolicySetting) (_ : World) (e : Change) : Prop :=
  ∀ configuration, e = .configure configuration → configuration.payoutPolicy = policy

theorem acted_limited {policy : PayoutPolicySetting} {r : Call} {o : Option Call}
    (hcal : Calendar rt policy.timezone) (h : Limited rt policy w.db) (hc : Covered w.db)
    (hp : ∀ p, planning r = some p → p = policy) (ht : CreatedToday rt policy.timezone w r a)
    (ha : Acted rt w a r w' o) : Limited rt policy w'.db := by
  obtain ⟨f, hf, hr⟩ | ⟨p, hr, asset, kind, payer, items, hplan⟩ := acted_batches ha
  · refine ⟨(acted_flow ha).payoutPolicy.trans h.fixed, fun asset day => ?_⟩
    rw [automaticGross_map hf hr]
    exact h.limit asset day
  · have hpol := hp p hr
    subst hpol
    exact h.planned hc hcal (ht (by simp [hr])) hplan

theorem change_limited {policy : PayoutPolicySetting} (h : Limited rt policy w.db) {e : Change}
    (he : KeepsPolicy policy w e) : Limited rt policy (change w e).db := by
  have hb := (change_payouts w e).batches
  refine ⟨?_, fun asset day => ?_⟩
  · cases e with
    | lockVanishes => exact h.fixed
    | configure c => exact he c rfl
    | addSplitPolicy p =>
      simp only [change]
      split <;> exact h.fixed
  · rw [automaticGross, hb]
    exact h.limit asset day

def planLoc (policy : PayoutPolicySetting) (w : World) (r : Call) : Prop :=
  loc w r ∧ ∀ p, planning r = some p → p = policy

theorem handler_planning {r r' : Call} {e : String} (h : System.handler r e = some r') :
    planning r' = none := by
  cases r with
  | execute c =>
    obtain ⟨c', _, rfl⟩ := Option.map_eq_some_iff.mp h
    rfl
  | scan c =>
    obtain ⟨c', _, rfl⟩ := Option.map_eq_some_iff.mp h
    rfl
  | allocate d | share c | plan c | planOperator c | approve c | reconcile c => cases h

theorem handler_planLoc {policy : PayoutPolicySetting} {r r' : Call} {e : String}
    (h : System.handler r e = some r') : planLoc policy w r' := by
  refine ⟨handler_loc h, fun p hp => ?_⟩
  rw [handler_planning h] at hp
  cases hp

theorem entry_planning {r : Call} (h : r.entry = true) : planning r = none := by
  cases r with
  | plan c => cases c <;> first | rfl | cases h
  | planOperator c => cases c <;> first | rfl | cases h
  | allocate d | scan c | share c | approve c | execute c | reconcile c => rfl

theorem background_planning (w : World) (r : Call) (b : Bool) :
    planning (background w r b) = planning r := by
  cases r <;> rfl

theorem outline {policy : PayoutPolicySetting} (hcal : Calendar rt policy.timezone) :
    Outline (system rt) (shared (ρ := Call)) (CreatedToday rt policy.timezone) (KeepsPolicy policy)
      (fun w => Covered w.db ∧ Limited rt policy w.db) (planLoc policy)
      (fun _ w w' => Grows w.db w'.db) where
  entry _ _ _ h := ⟨entry_loc h, fun p hp => by rw [entry_planning h] at hp; cases hp⟩
  effect w r a w' o h hl ht he := by
    have ha := effect_acted he
    obtain ⟨hc, hg, ho⟩ := acted_covered h.1 hl.1 ha
    refine ⟨⟨hc, acted_limited hcal h.2 h.1 hl.2 ht ha⟩, hg, fun r' hr' => ⟨ho r' hr', ?_⟩,
      fun e r' hr' => handler_planLoc hr'⟩
    intro p hp
    cases hr'
    exact (acted_planning ha hp).trans h.2.fixed
  handler _ _ _ _ _ _ h := handler_planLoc h
  background w r b _ h := ⟨background_loc h.1 b,
    fun p hp => h.2 p ((background_planning w r b).symm.trans hp)⟩
  event w e h he := ⟨⟨(change_payouts w e).covered h.1, change_limited h.2 he⟩,
    fun _ hl => ⟨hl.1.grow (change_payouts w e).grows, hl.2⟩⟩
  stable _ _ _ _ _ hg _ hl := ⟨hl.1.grow hg, hl.2⟩

end Steps

end Bitmine.DailyLimit
