import Bitmine.Payloads

namespace Bitmine.Authority

open Bitmine.Lib.UniqueTable Bitmine.Lib.Throwing Bitmine.Lib.Await
open Bitmine.Schema Bitmine.Deployment Bitmine.Payouts Bitmine.Execute Bitmine.PayoutHistory
open Bitmine.System Bitmine.NoOvercommit Bitmine.Payloads

/-- A batch that has been signed or may be executed. -/
def Exercised (b : PayoutBatch) : Prop :=
  b.signedPayload ≠ none ∨
    b.state ∈ [PayoutState.autoApproved, .signed, .broadcast, .confirmed, .failed]

/-- Within the automatic limit when it was planned, or approved by an
administrator who passed the second factor for this batch. -/
def Authorized (log : List Observation) (b : PayoutBatch) : Prop :=
  b.approvalThresholdHit = false ∨
    ∃ adminId, b.approvedById = some adminId ∧ .totpPassed b.id adminId ∈ log

def snapshotMaxFeeBps (b : PayoutBatch) : Option ℕ := b.policySnapshot.bind PolicySnapshot.maxFeeBps

/-- The fee of a signed customer batch is within the limit it was planned with. -/
def FeeBounded (b : PayoutBatch) : Prop :=
  b.signedPayload ≠ none → b.kind = .customer → ∀ bps, snapshotMaxFeeBps b = some bps →
    b.totalFeeAtomic * 10000 ≤ b.totalGrossAtomic * bps

structure Warranted (w : World) : Prop where
  authorized : ∀ b ∈ w.db.payoutBatches.rows, Exercised b → Authorized w.log b
  snapshot : ∀ b ∈ w.db.payoutBatches.rows, (snapshotMaxFeeBps b).isSome = true
  fee : ∀ b ∈ w.db.payoutBatches.rows, FeeBounded b

structure Upholds (w w' : World) : Prop where
  batches : ∀ b ∈ w.db.payoutBatches.rows, ∃ b' ∈ w'.db.payoutBatches.rows, SameBatch b b' ∧
    (Authorized w.log b → Authorized w'.log b')
  log : ∀ o ∈ w.log, o ∈ w'.log

theorem Authorized.mono {log log' : List Observation} {b b' : PayoutBatch} (h : Authorized log b)
    (hlog : ∀ o ∈ log, o ∈ log') (hs : SameBatch b b') (ha : b'.approvedById = b.approvedById) :
    Authorized log' b' := by
  obtain h | ⟨adminId, hap, hl⟩ := h
  · exact .inl (hs.approvalThresholdHit.trans h)
  · exact .inr ⟨adminId, ha.trans hap, hs.id ▸ hlog _ hl⟩

theorem snapshotMaxFeeBps_same {b b' : PayoutBatch} (h : SameBatch b b') :
    snapshotMaxFeeBps b' = snapshotMaxFeeBps b := by
  rw [snapshotMaxFeeBps, h.policySnapshot, snapshotMaxFeeBps]

theorem FeeBounded.same {b b' : PayoutBatch} (h : FeeBounded b) (hs : SameBatch b b')
    (hp : b'.signedPayload = b.signedPayload) (hf : b'.totalFeeAtomic = b.totalFeeAtomic) :
    FeeBounded b' := by
  intro hsigned hk bps hb
  rw [hf, hs.totalGrossAtomic]
  exact h (hp ▸ hsigned) (hs.kind ▸ hk) bps (snapshotMaxFeeBps_same hs ▸ hb)

section Steps

variable {w v : World}

theorem Warranted.same (h : Warranted w) (hb : v.db.payoutBatches = w.db.payoutBatches)
    (hlog : ∀ o ∈ w.log, o ∈ v.log) : Warranted v ∧ Upholds w v := by
  refine ⟨⟨fun b hm he => ?_, fun b hm => ?_, fun b hm => ?_⟩, fun b hm => ⟨b, ?_, .refl b, ?_⟩, hlog⟩
  · rw [hb] at hm
    exact (h.authorized b hm he).mono hlog (.refl b) rfl
  · exact h.snapshot b (hb ▸ hm)
  · exact h.fee b (hb ▸ hm)
  · rwa [hb]
  · exact fun ha => ha.mono hlog (.refl b) rfl

/-- One batch is rewritten. -/
theorem Warranted.rewrite (h : Warranted w) {id : Id} {f : PayoutBatch → PayoutBatch}
    (hrows : v.db.payoutBatches.rows =
      w.db.payoutBatches.rows.map (fun b => if b.id = id then f b else b))
    (hlog : ∀ o ∈ w.log, o ∈ v.log) (hs : ∀ b, SameBatch b (f b))
    (ha : ∀ b ∈ w.db.payoutBatches.rows, b.id = id → Authorized v.log (f b))
    (hf : ∀ b ∈ w.db.payoutBatches.rows, b.id = id → FeeBounded (f b)) :
    Warranted v ∧ Upholds w v := by
  have hrow : ∀ b' ∈ v.db.payoutBatches.rows, ∃ b ∈ w.db.payoutBatches.rows,
      (b.id = id ∧ b' = f b) ∨ b' = b := by
    intro b' hm
    rw [hrows] at hm
    obtain ⟨b, hb, rfl⟩ := List.mem_map.mp hm
    refine ⟨b, hb, ?_⟩
    split
    · rename_i hid
      exact .inl ⟨hid, rfl⟩
    · exact .inr rfl
  refine ⟨⟨fun b' hm he => ?_, fun b' hm => ?_, fun b' hm => ?_⟩, fun b hm => ?_, hlog⟩
  · obtain ⟨b, hb, ⟨hid, rfl⟩ | rfl⟩ := hrow b' hm
    · exact ha b hb hid
    · exact (h.authorized b' hb he).mono hlog (.refl b') rfl
  · obtain ⟨b, hb, ⟨hid, rfl⟩ | rfl⟩ := hrow b' hm
    · rw [snapshotMaxFeeBps_same (hs b)]
      exact h.snapshot b hb
    · exact h.snapshot b' hb
  · obtain ⟨b, hb, ⟨hid, rfl⟩ | rfl⟩ := hrow b' hm
    · exact hf b hb hid
    · exact h.fee b' hb
  · refine ⟨if b.id = id then f b else b, ?_, ?_⟩
    · rw [hrows]
      exact List.mem_map.mpr ⟨b, hm, rfl⟩
    · split
      · rename_i hid
        exact ⟨hs b, fun _ => ha b hm hid⟩
      · exact ⟨.refl b, fun hb => hb.mono hlog (.refl b) rfl⟩

def Empowered (w : World) (id : Id) : Prop :=
  ∃ b ∈ w.db.payoutBatches.rows, b.id = id ∧ Authorized w.log b

theorem Empowered.authorized {id : Id} (h : Empowered w id) {b : PayoutBatch}
    (hb : b ∈ w.db.payoutBatches.rows) (hid : b.id = id) : Authorized w.log b := by
  obtain ⟨b', hb', hid', ha⟩ := h
  rwa [w.db.payoutBatches.eq_of_id hb hb' (hid.trans hid'.symm)]

theorem Empowered.uphold {id : Id} (h : Empowered w id) (hu : Upholds w v) : Empowered v id := by
  obtain ⟨b, hb, hid, ha⟩ := h
  obtain ⟨b', hb', hs, ha'⟩ := hu.batches b hb
  exact ⟨b', hb', hs.id.trans hid, ha' ha⟩

theorem Warranted.advance (h : Warranted w) {id : Id} {f : PayoutBatch → PayoutBatch}
    (hrows : v.db.payoutBatches.rows =
      w.db.payoutBatches.rows.map (fun b => if b.id = id then f b else b))
    (hlog : v.log = w.log) (hs : ∀ b, SameBatch b (f b)) (he : Empowered w id)
    (ha : ∀ b, (f b).approvedById = b.approvedById)
    (hp : ∀ b, (f b).signedPayload = b.signedPayload)
    (hf : ∀ b, (f b).totalFeeAtomic = b.totalFeeAtomic) : Warranted v ∧ Upholds w v := by
  have hsub : ∀ o ∈ w.log, o ∈ v.log := fun o ho => hlog ▸ ho
  refine h.rewrite hrows hsub hs (fun b hb hid => ?_) (fun b hb _ => ?_)
  · exact (he.authorized hb hid).mono hsub (hs b) (ha b)
  · exact (h.fee b hb).same (hs b) (hp b) (hf b)

/-- A new batch is automatic only within the limit. -/
theorem Warranted.planned (h : Warranted w) {rt : Runtime} {a : Answer} {db : Database}
    {asset : AssetCode} {policy : PayoutPolicySetting} {kind : PayoutKind}
    {payer : NetworkFeePayer} {items : List NewItem}
    (hp : Planned rt a w.db db asset policy kind payer items) :
    Warranted (w.store db) ∧ Upholds w (w.store db) := by
  have hmem : ∀ b ∈ w.db.payoutBatches.rows, b ∈ db.payoutBatches.rows := by
    intro b hb
    rw [hp.created.batches]
    exact List.mem_append_left _ hb
  have hnew : ∀ b ∈ db.payoutBatches.rows, b ∈ w.db.payoutBatches.rows ∨
      ∃ auto total, b = newBatch a asset kind auto total ⟨some payer, some policy.maxFeeBps⟩ := by
    intro b hb
    rw [hp.created.batches, List.mem_append, List.mem_singleton] at hb
    exact hb.imp_right (fun hb => ⟨_, _, hb⟩)
  refine ⟨⟨fun b hb he => ?_, fun b hb => ?_, fun b hb => ?_⟩,
    fun b hb => ⟨b, hmem b hb, .refl b, id⟩, fun _ ho => ho⟩
  · obtain hb | ⟨auto, total, rfl⟩ := hnew b hb
    · exact h.authorized b hb he
    · cases auto with
      | true => exact .inl rfl
      | false => simp [Exercised, newBatch] at he
  · obtain hb | ⟨auto, total, rfl⟩ := hnew b hb
    · exact h.snapshot b hb
    · rfl
  · obtain hb | ⟨auto, total, rfl⟩ := hnew b hb
    · exact h.fee b hb
    · exact fun hs => absurd rfl hs

end Steps

section Calls

structure Holds (w : World) (id : Id) (held : Held) : Prop where
  empowered : Empowered w id
  id : held.batch.id = id
  stored : ∃ b ∈ w.db.payoutBatches.rows, SameBatch held.batch b

/-- What an execution has checked once it has read its batch. -/
def executeLoc (w : World) (c : ExecuteCall) : Prop :=
  match c.point with
  | .acquire => True
  | .checkReorg => True
  | .readBatch => True
  | .release => True
  | .readPolicy held => Holds w c.id held
  | .prepare held _ bps => Holds w c.id held ∧ snapshotMaxFeeBps held.batch = some bps
  | .persist held prepared => Holds w c.id held ∧ (held.batch.kind = .customer → ∀ bps,
      snapshotMaxFeeBps held.batch = some bps →
        prepared.feeAtomic * 10000 ≤ held.batch.totalGrossAtomic * bps)
  | _ => Empowered w c.id

def approveLoc (w : World) : ApproveCall → Prop
  | .assertTotp _ _ _ => True
  | .readBatch id adminId => .totpPassed id adminId ∈ w.log
  | .write id adminId _ => .totpPassed id adminId ∈ w.log

def reconcileLoc (w : World) : ReconcileCall → Prop
  | .listBroadcast => True
  | .query b rest => ∀ b' ∈ b :: rest, Empowered w b'.id
  | .write b rest => ∀ b' ∈ b :: rest, Empowered w b'.id

def loc (w : World) : Call → Prop
  | .approve c => approveLoc w c
  | .execute c => executeLoc w c
  | .reconcile c => reconcileLoc w c
  | _ => True

variable {w w' : World}

theorem Holds.uphold {id : Id} {held : Held} (h : Holds w id held) (hu : Upholds w w') :
    Holds w' id held := by
  obtain ⟨b, hb, hs⟩ := h.stored
  obtain ⟨b', hb', hs', _⟩ := hu.batches b hb
  exact ⟨h.empowered.uphold hu, h.id, b', hb', hs.trans hs'⟩

theorem executeLoc.uphold {c : ExecuteCall} (h : executeLoc w c) (hu : Upholds w w') :
    executeLoc w' c := by
  unfold executeLoc at h ⊢
  split at h
  case h_1 | h_2 | h_3 | h_4 => trivial
  case h_5 => exact h.uphold hu
  case h_6 | h_7 => exact ⟨h.1.uphold hu, h.2⟩
  case h_8 => exact h.uphold hu

theorem loc.uphold {r : Call} (h : loc w r) (hu : Upholds w w') : loc w' r := by
  cases r with
  | execute c => exact executeLoc.uphold h hu
  | approve c =>
    cases c with
    | assertTotp => trivial
    | readBatch | write => exact hu.log _ h
  | reconcile c =>
    cases c with
    | listBroadcast => trivial
    | query b rest | write b rest => exact fun b' hb' => (h b' hb').uphold hu
  | allocate d | scan c | share c | plan c | planOperator c => trivial

theorem executeLoc.empowered {c : ExecuteCall} (h : executeLoc w c)
    (hp : c.point ≠ .acquire ∧ c.point ≠ .checkReorg ∧ c.point ≠ .readBatch ∧
      c.point ≠ .release) : Empowered w c.id := by
  rw [executeLoc] at h
  split at h
  case h_1 hc => exact absurd hc hp.1
  case h_2 hc => exact absurd hc hp.2.1
  case h_3 hc => exact absurd hc hp.2.2.1
  case h_4 hc => exact absurd hc hp.2.2.2
  case h_5 => exact h.empowered
  case h_6 | h_7 => exact h.1.empowered
  case h_8 => exact h

theorem empowered_of_reads {c : ExecuteCall} {a : Answer} {held : Held} (h : Warranted w)
    (hr : Reads w c a held) (hs : Executable held.batch.state) : Empowered w c.id := by
  refine ⟨held.batch, hr.stored, hr.id, h.authorized _ hr.stored (.inr ?_)⟩
  obtain hs | hs | hs := hs <;> simp [hs]

theorem executed_warranted {rt : Runtime} {a : Answer} {c : ExecuteCall} {o : Option ExecuteCall}
    (hx : Executed rt w c a w' o) (h : Warranted w) (hl : executeLoc w c) :
    Warranted w' ∧ Upholds w w' ∧ ∀ c' ∈ o, executeLoc w' c' := by
  have hlock : ∀ lock, Warranted { w with lock := lock } ∧ Upholds w { w with lock := lock } :=
    fun lock => h.same rfl (fun _ ho => ho)
  have hrefl : Warranted w ∧ Upholds w w := hlock w.lock
  cases hx with
  | acquire => exact ⟨(hlock _).1, (hlock _).2, by rintro _ ⟨⟩; trivial⟩
  | checkReorg => exact ⟨hrefl.1, hrefl.2, by rintro _ ⟨⟩; trivial⟩
  | release => exact ⟨(hlock _).1, (hlock _).2, by rintro _ ⟨⟩⟩
  | unsigned hp hr hs hu =>
    have he := empowered_of_reads h hr hs
    refine ⟨hrefl.1, hrefl.2, ?_⟩
    rintro _ ⟨⟩
    exact ⟨he, hr.id, _, hr.stored, .refl _⟩
  | opened hp hr hs ho ht =>
    have he : Empowered w c.id := by
      obtain ⟨_, hst⟩ | hp := hp
      · exact empowered_of_reads h hr hst
      · exact hl.empowered (by simp [hp])
    refine ⟨hrefl.1, hrefl.2, ?_⟩
    rintro _ ⟨⟩
    obtain rfl | rfl := ht <;> exact he
  | readPolicy hp hb =>
    simp only [executeLoc, hp] at hl
    refine ⟨hrefl.1, hrefl.2, ?_⟩
    rintro _ ⟨⟩
    refine ⟨hl, ?_⟩
    obtain ⟨b, hm, hs⟩ := hl.stored
    obtain ⟨bps, hbps⟩ := Option.isSome_iff_exists.mp (h.snapshot b hm)
    rw [snapshotMaxFeeBps_same hs] at hbps
    rw [hb, hbps, ← snapshotMaxFeeBps, hbps]
    rfl
  | prepare hp hf =>
    simp only [executeLoc, hp] at hl
    refine ⟨hrefl.1, hrefl.2, ?_⟩
    rintro _ ⟨⟩
    refine ⟨hl.1, fun hk bps hb => ?_⟩
    rw [hl.2] at hb
    cases hb
    exact hf hk
  | @persist held prepared stored db hp hs hd =>
    simp only [executeLoc, hp] at hl
    obtain ⟨hholds, hfee⟩ := hl
    obtain ⟨_, _, hrows, _⟩ := persistTransaction_ok hd
    have hlog : ∀ o ∈ w.log, o ∈ w.log ++ [.signed c.id stored prepared.transactionIds] :=
      fun o ho => List.mem_append_left _ ho
    obtain ⟨hw, hu⟩ := h.rewrite
      (v := (w.store db).observe (.signed c.id stored prepared.transactionIds)) hrows hlog
      (sameBatch_sign stored prepared)
      (fun b hb hid => (hholds.empowered.authorized hb hid).mono hlog (sameBatch_sign _ _ b) rfl)
      (fun b hb hid _ hk bps hbps => by
        obtain ⟨b', hb', hsame⟩ := hholds.stored
        have he := w.db.payoutBatches.eq_of_id hb hb' (hid.trans (hsame.id.trans hholds.id).symm)
        subst he
        rw [show snapshotMaxFeeBps (signBatch stored prepared b) = snapshotMaxFeeBps b from rfl,
          snapshotMaxFeeBps_same hsame] at hbps
        have := hfee (hsame.kind ▸ hk) bps hbps
        rwa [← hsame.totalGrossAtomic] at this)
    refine ⟨hw, hu, ?_⟩
    rintro _ ⟨⟩
    exact hholds.empowered.uphold hu
  | known hp | unknown hp =>
    refine ⟨hrefl.1, hrefl.2, ?_⟩
    rintro _ ⟨⟩
    exact hl.empowered (by simp [hp])
  | broadcast hp ht =>
    have he := hl.empowered (by simp [hp])
    obtain ⟨hw, hu⟩ := h.same (v := w.observe (.broadcast c.id _)) rfl
      (fun o ho => List.mem_append_left _ ho)
    refine ⟨hw, hu, ?_⟩
    rintro _ ⟨⟩
    obtain rfl | ⟨e, rfl⟩ := ht <;> exact he.uphold hu
  | post hp hd =>
    have he := hl.empowered (by simp [hp])
    obtain ⟨hw, hu⟩ := h.advance (v := w.store _) (postTransaction_batches hd) rfl
      (sameBatch_broadcast _ _) he (fun _ => rfl) (fun _ => rfl) (fun _ => rfl)
    refine ⟨hw, hu, ?_⟩
    rintro _ ⟨⟩
    exact he.uphold hu
  | readResult hp => exact ⟨hrefl.1, hrefl.2, by rintro _ ⟨⟩; trivial⟩
  | fails hp hr hs =>
    have he := empowered_of_reads h hr hs
    refine ⟨hrefl.1, hrefl.2, ?_⟩
    rintro _ ⟨⟩
    exact he
  | failsLater hp =>
    refine ⟨hrefl.1, hrefl.2, ?_⟩
    rintro _ ⟨⟩
    obtain hp | ⟨_, _, _, hp⟩ | ⟨_, _, hp⟩ := hp <;> exact hl.empowered (by simp [hp])
  | markFailed hp hd =>
    have he := hl.empowered (by simp [hp])
    obtain ⟨hw, hu⟩ := h.advance (v := w.store _) (updateBatch_ok hd).2.1 rfl
      (sameBatch_fail _) he (fun _ => rfl) (fun _ => rfl) (fun _ => rfl)
    exact ⟨hw, hu, by rintro _ ⟨⟩; trivial⟩

theorem approved_warranted {rt : Runtime} {a : Answer} {c : ApproveCall} {o : Option ApproveCall}
    (hx : Approved rt w a c w' o) (h : Warranted w) (hl : approveLoc w c) :
    Warranted w' ∧ Upholds w w' ∧ ∀ c' ∈ o, approveLoc w' c' := by
  cases hx with
  | assertTotp ht =>
    obtain ⟨hw, hu⟩ := h.same (v := w.observe (.totpPassed _ _)) rfl
      (fun o ho => List.mem_append_left _ ho)
    refine ⟨hw, hu, ?_⟩
    rintro _ ⟨⟩
    simp [approveLoc]
  | readBatch hn =>
    obtain ⟨hw, hu⟩ := h.same rfl (fun _ ho => ho)
    refine ⟨hw, hu, ?_⟩
    rintro _ ⟨⟩
    exact hl
  | @write id adminId next db hd =>
    obtain ⟨hw, hu⟩ := h.rewrite (v := w.store db) (updateBatch_ok hd).2.1 (fun _ ho => ho)
      (sameBatch_approve _ _ _) (fun b _ hid => .inr ⟨adminId, rfl, by rw [← hid] at hl; exact hl⟩)
      (fun b hb _ => (h.fee b hb).same (sameBatch_approve _ _ _ b) rfl rfl)
    exact ⟨hw, hu, by rintro _ ⟨⟩⟩

theorem reconciled_warranted {a : Answer} {c : ReconcileCall} {o : Option ReconcileCall}
    {db : Database} (hx : Reconciled w.db a c db o) (h : Warranted w) (hl : reconcileLoc w c) :
    Warranted (w.store db) ∧ Upholds w (w.store db) ∧ ∀ c' ∈ o, reconcileLoc (w.store db) c' := by
  have hnext : ∀ {w₁ : World} {l : List PayoutBatch}, (∀ b ∈ l, Empowered w₁ b.id) →
      ∀ c' ∈ queryNext l, reconcileLoc w₁ c' :=
    queryNext_all (fun _ _ hall => hall)
  have hrefl : Warranted w ∧ Upholds w w := h.same rfl (fun _ ho => ho)
  cases hx with
  | list hm =>
    refine ⟨hrefl.1, hrefl.2, hnext (fun b hb => ⟨b, (hm b hb).1, rfl, ?_⟩)⟩
    exact h.authorized b (hm b hb).1 (.inr (by simp [(hm b hb).2]))
  | pass => exact ⟨hrefl.1, hrefl.2, hnext (fun b hb => hl b (by simp [hb]))⟩
  | enough =>
    refine ⟨hrefl.1, hrefl.2, ?_⟩
    rintro _ ⟨⟩
    exact hl
  | @write batch rest db hd =>
    obtain ⟨hw, hu⟩ := h.advance (v := w.store db) (updateBatch_ok hd).2.1 rfl
      (sameBatch_confirm _) (hl batch (by simp)) (fun _ => rfl) (fun _ => rfl) (fun _ => rfl)
    exact ⟨hw, hu, hnext (fun b hb => (hl b (by simp [hb])).uphold hu)⟩

theorem acted_warranted {rt : Runtime} {r : Call} {a : Answer} {o : Option Call}
    (h : Warranted w) (hl : loc w r) (ha : Acted rt w a r w' o) :
    Warranted w' ∧ Upholds w w' ∧ ∀ r' ∈ o, loc w' r' := by
  have htriv : ∀ {α : Type} {o : Option α} {k : α → Call}, (∀ x w, loc w (k x)) →
      ∀ r' ∈ o.map k, loc w' r' := by
    intro α o k hk r' hr'
    obtain ⟨x, _, rfl⟩ := Option.map_eq_some_iff.mp hr'
    exact hk x w'
  cases ha with
  | allocate hd =>
    obtain ⟨hw, hu⟩ := h.same (v := w.store _) (allocate_batches hd) (fun _ ho => ho)
    exact ⟨hw, hu, by rintro _ ⟨⟩⟩
  | scan hs =>
    obtain ⟨hw, hu⟩ := h.same (scanned_batches hs).1 (scanned_batches hs).2
    exact ⟨hw, hu, htriv (fun _ _ => trivial)⟩
  | share hs =>
    obtain ⟨hw, hu⟩ := h.same (v := w.store _) (journals_payouts hs).batches (fun _ ho => ho)
    exact ⟨hw, hu, htriv (fun _ _ => trivial)⟩
  | @prepares _ t =>
    obtain ⟨hw, hu⟩ := h.same (v := w.store (withDestinations w.db t)) rfl (fun _ ho => ho)
    exact ⟨hw, hu, htriv (fun _ _ => trivial)⟩
  | preparesOperator =>
    obtain ⟨hw, hu⟩ := h.same rfl (fun _ ho => ho)
    exact ⟨hw, hu, htriv (fun _ _ => trivial)⟩
  | plans hp | plansOperator hp =>
    obtain ⟨hw, hu⟩ := h.planned hp
    exact ⟨hw, hu, by rintro _ ⟨⟩⟩
  | approve hx =>
    obtain ⟨hw, hu, ho⟩ := approved_warranted hx h hl
    refine ⟨hw, hu, fun r' hr' => ?_⟩
    obtain ⟨c', hc', rfl⟩ := Option.map_eq_some_iff.mp hr'
    exact ho c' hc'
  | execute hx =>
    obtain ⟨hw, hu, ho⟩ := executed_warranted hx h hl
    refine ⟨hw, hu, fun r' hr' => ?_⟩
    obtain ⟨c', hc', rfl⟩ := Option.map_eq_some_iff.mp hr'
    exact ho c' hc'
  | reconcile hx =>
    obtain ⟨hw, hu, ho⟩ := reconciled_warranted hx h hl
    refine ⟨hw, hu, fun r' hr' => ?_⟩
    obtain ⟨c', hc', rfl⟩ := Option.map_eq_some_iff.mp hr'
    exact ho c' hc'

theorem handler_warranted {r r' : Call} {e : String} (h : loc w r)
    (hh : System.handler r e = some r') : loc w r' := by
  cases r with
  | execute c =>
    obtain ⟨c', hc, rfl⟩ := Option.map_eq_some_iff.mp hh
    rw [Execute.handler] at hc
    split at hc <;> cases hc
    · trivial
    · trivial
    · trivial
    · rename_i h₁ h₂ h₃ h₄ _
      have he : Empowered w c.id := executeLoc.empowered (c := c) h ⟨h₁, h₃, h₄, h₂⟩
      exact he
  | scan c =>
    obtain ⟨c', _, rfl⟩ := Option.map_eq_some_iff.mp hh
    trivial
  | allocate d | share c | plan c | planOperator c | approve c | reconcile c => cases hh

theorem entry_warranted {r : Call} (h : r.entry = true) : loc w r := by
  cases r with
  | execute c => simp only [loc, executeLoc, entry_point h]
  | approve c => cases c <;> trivial
  | reconcile c => cases c <;> trivial
  | allocate d | scan c | share c | plan c | planOperator c => trivial

theorem background_warranted {r : Call} (h : loc w r) (b : Bool) : loc w (background w r b) := by
  cases r with
  | execute c =>
    simp only [background, loc, executeLoc, renew_point, renew_id] at h ⊢
    exact h
  | allocate d | scan c | share c | plan c | planOperator c | approve c | reconcile c => exact h

theorem outline (rt : Runtime) : Outline (system rt) (shared (ρ := Call)) (fun _ _ _ => True)
    (fun _ _ => True) Warranted loc (fun _ => Upholds) where
  entry _ _ _ h := entry_warranted h
  effect _ _ _ _ _ h hl _ he := by
    obtain ⟨hw, hu, ho⟩ := acted_warranted h hl (effect_acted he)
    exact ⟨hw, hu, ho, fun e r' hr' => handler_warranted (hl.uphold hu) hr'⟩
  handler _ _ _ _ _ hl h := handler_warranted hl h
  background _ _ b _ h := background_warranted h b
  event w e h _ := by
    have hsame : (change w e).log = w.log := change_log w e
    obtain ⟨hw, hu⟩ := h.same (change_payouts w e).batches (fun o ho => hsame ▸ ho)
    exact ⟨hw, fun _ hl => hl.uphold hu⟩
  stable _ _ _ _ _ hu _ hl := hl.uphold hu

theorem fresh_warranted {w : World} (h : w.db.Fresh) : Warranted w := by
  constructor <;> simp [h.payoutBatches]

end Calls

/-- In every reachable state a batch that is signed or beyond its approval was
automatic or has been approved with the second factor, and the fee of a signed
customer batch is within the limit of its snapshot. -/
theorem signed_with_authority {rt : Runtime} {w : World} {c : Config World Call} (hw : w.db.Fresh)
    (h : (system rt).Reaches (.idle w) c) {b : PayoutBatch}
    (hb : b ∈ c.shared.db.payoutBatches.rows) :
    (Exercised b → Authorized c.shared.log b) ∧
    (b.signedPayload ≠ none → b.kind = .customer → ∃ bps, snapshotMaxFeeBps b = some bps ∧
      b.totalFeeAtomic * 10000 ≤ b.totalGrossAtomic * bps) := by
  have hc := ((outline rt).run (keyed_shared _) (Outline.idle (fresh_warranted hw)) h.allowed).inv
  refine ⟨hc.authorized b hb, fun hs hk => ?_⟩
  obtain ⟨bps, hbps⟩ := Option.isSome_iff_exists.mp (hc.snapshot b hb)
  exact ⟨bps, hbps, hc.fee b hb hs hk bps hbps⟩

theorem signed_with_authority_sample : ∃ c, (system sampleRuntime).Reaches (.idle sampleWorld) c ∧
    ∃ b ∈ c.shared.db.payoutBatches.rows, b.approvalThresholdHit = true ∧
      b.state = .autoApproved ∧ Authorized c.shared.log b := by
  obtain ⟨c, hr, hv⟩ := exec_sample (sampleCredit ++ samplePayout)
    (f := fun c => c.shared.db.payoutBatches.rows.map (fun b => (b.approvalThresholdHit, b.state)))
    (v := [(false, .broadcast), (true, .autoApproved)]) (by decide +kernel)
  have hm : (true, PayoutState.autoApproved) ∈
      c.shared.db.payoutBatches.rows.map (fun b => (b.approvalThresholdHit, b.state)) := by
    simp [hv]
  obtain ⟨b, hb, he⟩ := List.mem_map.mp hm
  obtain ⟨hhit, hstate⟩ := Prod.mk.inj he
  exact ⟨c, hr, b, hb, hhit, hstate,
    (signed_with_authority sampleWorld_fresh hr hb).1 (.inr (by simp [hstate]))⟩

end Bitmine.Authority
