import Bitmine.BatchAccounts
import Bitmine.Lib.Resources
import Bitmine.PayoutPreparation

namespace Bitmine.LedgerOutflow

open Bitmine.Lib.UniqueTable Bitmine.Lib.Throwing Bitmine.Lib.Await
open Bitmine.Lib.Resources (HoldOutline Guarded)
open Bitmine.Lib.Dialogue.Talk (Succeeds)
open Bitmine.Schema Bitmine.Deployment Bitmine.Ledger Bitmine.Payouts Bitmine.Execute
open Bitmine.PayoutHistory Bitmine.System Bitmine.Commitments Bitmine.NoOvercommit
open Bitmine.Payloads Bitmine.BatchAccounts
open Bitmine.Security (truthy)
open Bitmine.Allocation (decimalRound)
open Bitmine.Apportionment (Conserves)
open Bitmine.PayoutPreparation (PayoutCandidate NetItem feeWeights apportionFee apportionFee_ok)

section Preparing

def candidates (held : Held) : List PayoutCandidate :=
  held.items.map (fun i => ⟨i.id, i.destination, i.grossAtomic⟩)

def toPrepared (p : PayoutPreparation.PreparedPayout) : PreparedPayout :=
  ⟨p.signedPayload, p.transactionIds, p.feeAtomic,
    p.items.map (fun i => ⟨i.id, i.allocatedFeeAtomic, i.netAtomic⟩)⟩

/-- A payout that the adapter of an asset returns, whatever its wallet answers. -/
inductive Prepares (items : List PayoutCandidate) (deductFeeFromOutputs : Bool)
    (p : PayoutPreparation.PreparedPayout) : AssetCode → Prop where
  | btc {node : PayoutPreparation.Bitcoin.Node} {config : PayoutPreparation.Bitcoin.Config}
      {log log' : List PayoutPreparation.Bitcoin.Exchange}
      (h : Succeeds (PayoutPreparation.Bitcoin.preparePayout node config items deductFeeFromOutputs)
        log log' p) : Prepares items deductFeeFromOutputs p .btc
  | xmr {wallet : PayoutPreparation.Monero.Wallet} {config : PayoutPreparation.Monero.Config}
      {log log' : List PayoutPreparation.Monero.Exchange}
      (h : Succeeds (PayoutPreparation.Monero.preparePayout wallet config items
        deductFeeFromOutputs) log log' p) : Prepares items deductFeeFromOutputs p .xmr

/-- Who pays is read from the snapshot of the batch, else from the policy of the time. -/
def Agrees (b : PayoutBatch) (deductFeeFromOutputs : Bool) : Prop :=
  ∃ current, deductFeeFromOutputs =
    !decide (b.kind = .customer ∧ (snapshotFeePayer b).getD current = .operator)

theorem Prepares.amounts {items : List PayoutCandidate} {deduct : Bool}
    {p : PayoutPreparation.PreparedPayout} {asset : AssetCode} (h : Prepares items deduct p asset) :
    apportionFee deduct items p.feeAtomic = .ok p.items := by
  cases h with
  | btc h => exact (PayoutPreparation.Bitcoin.preparePayout_ok h).1
  | xmr h => exact (PayoutPreparation.Monero.preparePayout_ok h).1

/-- The posting derives the payer again, from the snapshot or from the amounts; it
comes to the same result wherever a fee was charged. -/
theorem itemCredit_chargeItem {b : PayoutBatch} {i : PayoutItem} {p : PreparedItem} {deduct : Bool}
    (ha : Agrees b deduct) (hcustomer : b.kind = .customer → i.customerId.isSome)
    (hfee : 0 ≤ p.allocatedFeeAtomic)
    (hdeducted : deduct = true → p.netAtomic = i.grossAtomic - p.allocatedFeeAtomic)
    (hkept : deduct = false → p.netAtomic = i.grossAtomic) :
    itemCredit b (chargeItem p i) = p.netAtomic + p.allocatedFeeAtomic := by
  obtain ⟨current, hd⟩ := ha
  rw [itemCredit]
  cases deduct with
  | true =>
    have hnet := hdeducted rfl
    have hpayer : ¬ (b.kind = .customer ∧ (snapshotFeePayer b).getD current = .operator) := by
      intro hc
      rw [decide_eq_true hc] at hd
      cases hd
    have hnot : ¬ (operatorPaysFee b (chargeItem p i) = true ∧ 0 < p.allocatedFeeAtomic) := by
      rintro ⟨ho, hpos⟩
      obtain ⟨hkind, ho⟩ := of_decide_eq_true ho
      cases hs : snapshotFeePayer b with
      | some payer =>
        rw [hs] at ho hpayer
        exact hpayer ⟨hkind, ho⟩
      | none =>
        have hlt : p.netAtomic < i.grossAtomic := by omega
        simp [hs, chargeItem, hlt] at ho
    rw [if_neg (fun hc => hnot hc.2)]
    simp only [chargeItem]
    omega
  | false =>
    have hnet := hkept rfl
    obtain ⟨hkind, hpayer⟩ : b.kind = .customer ∧ (snapshotFeePayer b).getD current = .operator := by
      simpa using hd.symm
    have ho : operatorPaysFee b (chargeItem p i) = true := by
      refine decide_eq_true ⟨hkind, ?_⟩
      cases hs : snapshotFeePayer b with
      | some payer =>
        rw [hs] at hpayer
        exact hpayer
      | none => simp [chargeItem, hnet]
    by_cases hpos : 0 < p.allocatedFeeAtomic
    · rw [if_pos ⟨hcustomer hkind, ho, hpos⟩]
      simp only [chargeItem]
      omega
    · rw [if_neg (fun hc => hpos hc.2.2)]
      simp only [chargeItem]
      omega

theorem charges_of_prepares {held : Held} {deduct : Bool} {p : PayoutPreparation.PreparedPayout}
    (hnodup : (held.items.map PayoutItem.id).Nodup)
    (hgross : ∀ i ∈ held.items, 0 ≤ i.grossAtomic) (ha : Agrees held.batch deduct)
    (hp : Prepares (candidates held) deduct p held.batch.asset)
    (hc : Conserves decimalRound p.feeAtomic (feeWeights (candidates held))) :
    Charges held (toPrepared p) := by
  have hids : (candidates held).map PayoutCandidate.id = held.items.map PayoutItem.id := by
    rw [candidates, List.map_map]
    rfl
  have hpositive : ∀ c ∈ candidates held, 0 ≤ c.grossAtomic := by
    intro c hc
    obtain ⟨i, hi, rfl⟩ := List.mem_map.mp hc
    exact hgross i hi
  obtain ⟨hcandidates, hitems, hsum⟩ := apportionFee_ok (hids ▸ hnodup) hpositive hp.amounts
  refine ⟨?_, ?_, ?_⟩
  · rw [toPrepared, List.map_map, ← hids, ← hcandidates, List.map_map]
    rfl
  · intro q hq i hi hid hcustomer
    obtain ⟨n, hn, rfl⟩ := List.mem_map.mp hq
    obtain ⟨⟨hdeducted, hkept⟩, hfee⟩ := hitems n hn
    have hmem := List.mem_map_of_mem (f := NetItem.toPayoutCandidate) hn
    rw [hcandidates] at hmem
    obtain ⟨j, hj, hcand⟩ := List.mem_map.mp hmem
    have hji : j = i := by
      refine List.inj_on_of_nodup_map hnodup hj hi (Eq.trans ?_ hid)
      exact congrArg PayoutCandidate.id hcand
    have hng : n.grossAtomic = i.grossAtomic := hji ▸ (congrArg PayoutCandidate.grossAtomic hcand).symm
    exact itemCredit_chargeItem ha hcustomer hfee (fun hd => hng ▸ (hdeducted hd).1)
      (fun hk => hng ▸ hkept hk)
  · rw [toPrepared, List.map_map]
    exact hsum hc

end Preparing

section Lock

/-- An execution is inside from the moment it holds the lock. -/
def inside : Call → Unit → Prop
  | .execute c, _ => c.point ≠ .acquire
  | _, _ => False

def locked (w : World) (_ : Unit) : Prop := w.lock ≠ none

variable {rt : Runtime} {w w' : World} {a : Answer}

theorem executed_lock {c : ExecuteCall} {o : Option ExecuteCall} (hx : Executed rt w c a w' o) :
    (c.point = .acquire ∧ w.lock = none ∧ w'.lock ≠ none) ∨ (c.point = .release ∧ o = none) ∨
      (c.point ≠ .acquire ∧ w'.lock = w.lock) := by
  cases hx with
  | acquire hp hl => exact .inl ⟨hp, hl, nofun⟩
  | release hp => exact .inr (.inl ⟨hp, rfl⟩)
  | checkReorg hp _ | unsigned hp _ _ _ | readPolicy hp _ | prepare hp _ | persist hp _ _
  | known hp | unknown hp | broadcast hp _ | post hp _ | readResult hp | fails hp _ _
  | markFailed hp _ => exact .inr (.inr ⟨by rw [hp]; exact nofun, rfl⟩)
  | opened hp _ _ _ _ =>
    refine .inr (.inr ⟨?_, rfl⟩)
    obtain ⟨hp, _⟩ | hp := hp <;> rw [hp] <;> exact nofun
  | failsLater hp =>
    refine .inr (.inr ⟨?_, rfl⟩)
    obtain hp | ⟨_, _, _, hp⟩ | ⟨_, _, hp⟩ := hp <;> rw [hp] <;> exact nofun

theorem acted_lock {r : Call} {o : Option Call} (hr : executing r = none)
    (ha : Acted rt w a r w' o) : w'.lock = w.lock := by
  cases ha with
  | execute => cases hr
  | scan hs => cases hs <;> rfl
  | approve hx => cases hx <;> rfl
  | allocate | share | prepares | plans | preparesOperator | plansOperator | reconcile => rfl

theorem not_inside {r : Call} (hr : executing r = none) (k : Unit) : ¬ inside r k := by
  cases r with
  | execute c => cases hr
  | allocate | scan | share | plan | planOperator | approve | reconcile => exact id

theorem handler_inside {c c' : ExecuteCall} {e : String} (h : Execute.handler c e = some c') :
    c.point ≠ .acquire ∧ c.point ≠ .release := by
  rw [Execute.handler] at h
  split at h <;> simp_all

theorem resources (rt : Runtime) : Lib.Resources.Holding (system rt) inside locked where
  entry r k h := by
    cases r with
    | execute c => exact fun hin => hin (entry_point h)
    | allocate | scan | share | plan | planOperator | approve | reconcile => exact id
  enters w r a w' o h r' hr' k hin := by
    have ha := effect_acted h
    cases r with
    | execute c =>
      cases ha with
      | execute hx =>
        obtain ⟨hp, hl, hl'⟩ | ⟨hp, rfl⟩ | ⟨hp, hl⟩ := executed_lock hx
        · exact ⟨.inr (fun hlocked => hlocked hl), fun _ => hl'⟩
        · obtain hr' | ⟨e, hr'⟩ := hr'
          · cases hr'
          · obtain ⟨c', hc, _⟩ := Option.map_eq_some_iff.mp hr'
            exact absurd hp (handler_inside hc).2
        · exact ⟨.inl hp, fun hlocked => by rw [locked, hl]; exact hlocked hp⟩
    | allocate | scan | share | plan | planOperator | approve | reconcile =>
      refine absurd hin (not_inside ?_ k)
      obtain hr' | ⟨e, hr'⟩ := hr'
      · cases hr'
        exact ha.executing_eq
      · exact (keyed_executing rt).handler _ _ _ hr'
  keeps w r a w' o k h hnot hl := by
    have ha := effect_acted h
    cases r with
    | execute c =>
      cases ha with
      | execute hx =>
        obtain ⟨_, hfree, _⟩ | ⟨hp, _⟩ | ⟨hp, _⟩ := executed_lock hx
        · exact absurd hfree hl
        · exact absurd (by rw [inside, hp]; rintro ⟨⟩) hnot
        · exact absurd hp hnot
    | allocate | scan | share | plan | planOperator | approve | reconcile =>
      rw [locked, acted_lock rfl ha]
      exact hl
  handler r e r' k h hin := by
    cases r with
    | execute c =>
      obtain ⟨c', hc, _⟩ := Option.map_eq_some_iff.mp h
      exact (handler_inside hc).1
    | allocate | scan | share | plan | planOperator | approve | reconcile =>
      exact absurd hin (not_inside ((keyed_executing rt).handler _ _ _ h) k)
  background w r b k hin := by
    cases r with
    | execute c => exact fun hp => hin ((renew_point w c b).trans hp)
    | allocate | scan | share | plan | planOperator | approve | reconcile => exact hin

end Lock

section Assertions

/-- What calls outside the lock leave alone: batches with their amounts, and items. -/
structure Spares (db db' : Database) : Prop where
  batches : Keeps Kept db db'
  items : ∀ i ∈ db.payoutItems.rows, i ∈ db'.payoutItems.rows

def StaysSigned (db db' : Database) : Prop :=
  ∀ b ∈ db.payoutBatches.rows, Signed b → ∃ b' ∈ db'.payoutBatches.rows, b'.id = b.id ∧ Signed b'

def Unsigned (db : Database) (id : Id) : Prop :=
  ∀ b ∈ db.payoutBatches.rows, b.id = id → ¬ Signed b

def SignedIn (db : Database) (id : Id) : Prop := ∃ b ∈ db.payoutBatches.rows, b.id = id ∧ Signed b

def Listed (held : Held) : Prop := (held.items.map PayoutItem.id).Nodup

def feesLoc (db : Database) (c : ExecuteCall) : Prop :=
  match c.point with
  | .readPolicy held => Unsigned db c.id ∧ Listed held
  | .prepare held deduct _ => Unsigned db c.id ∧ Listed held ∧ Agrees held.batch deduct
  | .persist held prepared => Unsigned db c.id ∧ Listed held ∧ Charges held prepared
  | .queryKnown held _ => Current db held
  | .broadcast held _ => Current db held
  | .post held _ => Current db held
  | _ => True

def signedLoc (db : Database) : ReconcileCall → Prop
  | .listBroadcast => True
  | .query b rest => ∀ b' ∈ b :: rest, SignedIn db b'.id
  | .write b rest => ∀ b' ∈ b :: rest, SignedIn db b'.id

def fees (w : World) : Call → Prop
  | .execute c => feesLoc w.db c
  | .reconcile c => signedLoc w.db c
  | _ => True

variable {db db' : Database}

theorem Spares.same (hb : db'.payoutBatches = db.payoutBatches)
    (hi : db'.payoutItems = db.payoutItems) : Spares db db' :=
  ⟨.of_map (f := fun b => b) (by rw [hb, List.map_id']) .refl, fun i h => hi ▸ h⟩

theorem Spares.updateBatch {id : Id} {f : PayoutBatch → PayoutBatch} {hf : KeepsKeys f}
    (hu : updateBatch db id f hf = .ok db') (hk : ∀ b, Kept b (f b)) : Spares db db' := by
  obtain ⟨_, hrows, hframe⟩ := updateBatch_ok hu
  refine ⟨.of_map hrows (fun b => ?_), fun i h => ?_⟩
  · split
    · exact hk b
    · exact .refl b
  · rw [hframe]
    exact h

theorem Spares.created {a : Answer} {batch : PayoutBatch} {items : List NewItem}
    (hc : Created a db db' batch items) (hs : batch.signedPayload = none) : Spares db db' := by
  refine ⟨⟨fun b h => ⟨b, by simp [hc.batches, h], .refl b⟩, fun b' h => ?_⟩,
    fun i h => by simp [hc.items, h]⟩
  rw [hc.batches, List.mem_append, List.mem_singleton] at h
  obtain h | rfl := h
  · exact .inl ⟨b', h, .refl b'⟩
  · exact .inr ⟨hs, fun b hb he => hc.fresh b hb (.inl he)⟩

theorem Spares.staysSigned (h : Spares db db') : StaysSigned db db' := by
  intro b hb hs
  obtain ⟨b', hb', hk⟩ := h.batches.old b hb
  exact ⟨b', hb', hk.id, hk.signed.mpr hs⟩

theorem StaysSigned.of_map {f : PayoutBatch → PayoutBatch}
    (hb : db'.payoutBatches.rows = db.payoutBatches.rows.map f) (hid : ∀ b, (f b).id = b.id)
    (hs : ∀ b, Signed b → Signed (f b)) : StaysSigned db db' := by
  intro b hm h
  refine ⟨f b, ?_, hid b, hs b h⟩
  rw [hb]
  exact List.mem_map_of_mem hm

theorem SignedIn.stay {id : Id} (h : SignedIn db id) (hs : StaysSigned db db') : SignedIn db' id := by
  obtain ⟨b, hb, hid, hsigned⟩ := h
  obtain ⟨b', hb', hid', hsigned'⟩ := hs b hb hsigned
  exact ⟨b', hb', hid'.trans hid, hsigned'⟩

theorem Unsigned.spare {id : Id} (h : Unsigned db id) (hs : Spares db db') : Unsigned db' id := by
  intro b' hb' hid
  obtain ⟨b, hb, hk⟩ | ⟨hnone, _⟩ := hs.batches.new b' hb'
  · rw [hk.signed]
    exact h b hb (hk.id.symm.trans hid)
  · simp [Signed, hnone, truthy]

theorem Current.spare {held : Held} (h : Current db held) (hs : Spares db db') : Current db' held := by
  obtain ⟨b, hb, hk, hsigned⟩ := h.batch
  refine ⟨?_, fun i hi => ?_⟩
  · obtain ⟨b', hb', hk'⟩ := hs.batches.old b hb
    exact ⟨b', hb', hk.trans hk', hk'.signed.mpr hsigned⟩
  · obtain ⟨i', hi', hsame⟩ := h.items i hi
    exact ⟨i', hs.items i' hi', hsame⟩

theorem feesLoc.spare {c : ExecuteCall} (h : feesLoc db c) (hs : Spares db db') : feesLoc db' c := by
  unfold feesLoc at h ⊢
  split at h
  case h_1 | h_2 | h_3 => exact ⟨h.1.spare hs, h.2⟩
  case h_4 | h_5 | h_6 => exact Current.spare h hs
  case h_7 => trivial

theorem signedLoc.stay {c : ReconcileCall} (h : signedLoc db c) (hs : StaysSigned db db') :
    signedLoc db' c := by
  cases c with
  | listBroadcast => trivial
  | query b rest | write b rest => exact fun b' hb' => (h b' hb').stay hs

end Assertions

section Steps

variable {rt : Runtime} {w w' : World} {a : Answer}

/-- The wallets prepare payouts as the adapters do, and apportion fees without rest. -/
def FromAdapter (_ : World) (r : Call) (a : Answer) : Prop :=
  match r with
  | .execute ⟨_, _, _, .prepare held deduct _⟩ => ∃ p,
    Prepares (candidates held) deduct p held.batch.asset ∧
      Conserves decimalRound p.feeAtomic (feeWeights (candidates held)) ∧ a.prepared = toPrepared p
  | _ => True

theorem listed_of_reads {c : ExecuteCall} {held : Held} (hr : Reads w c a held) : Listed held := by
  have hperm := (a.itemOrder.perm w.db.payoutItems.rows).map PayoutItem.id
  have hall : (w.db.payoutItems.rows.map PayoutItem.id).Nodup :=
    List.pairwise_map.mpr (w.db.payoutItems.unique.imp (fun hc he => hc (.inl he)))
  rw [Listed, hr.items]
  exact (hperm.nodup_iff.mpr hall).sublist (List.filter_sublist.map _)

theorem current_of_reads {c : ExecuteCall} {held : Held} (hr : Reads w c a held)
    (hs : Signed held.batch) : Current w.db held := by
  refine ⟨⟨held.batch, hr.stored, .refl _, hs⟩, fun i hi => ⟨i, ?_, .refl i⟩⟩
  rw [hr.items] at hi
  exact (a.itemOrder.perm _).mem_iff.mp (List.mem_filter.mp hi).1

theorem unsigned_of_reads {c : ExecuteCall} {held : Held} (hr : Reads w c a held)
    (hu : truthy held.batch.signedPayload = none) : Unsigned w.db c.id := by
  intro b hb hid hs
  have heq := w.db.payoutBatches.eq_of_id hb hr.stored (hid.trans hr.id.symm)
  exact hs (heq ▸ hu)

theorem step_readPolicy {c : ExecuteCall} {held : Held} {o : Option ExecuteCall}
    (h : Execute.step rt w c a = .ok (w', o)) (hp : c.point = .readPolicy held) :
    ∃ deduct bps, o = some (c.goto (.prepare held deduct bps)) ∧ Agrees held.batch deduct := by
  simp only [Execute.step, hp] at h
  cases h
  exact ⟨_, _, rfl, w.db.payoutPolicy.feePayer, rfl⟩

/-- One resolved effect of an execution. -/
theorem executed_accounts {c : ExecuteCall} {o : Option ExecuteCall}
    (hstep : Execute.step rt w c a = .ok (w', o)) (hcov : Covered w.db) (h : Accounts w.db)
    (hl : executeLoc w.db c) (hf : feesLoc w.db c) (hprepared : FromAdapter w (.execute c) a) :
    Accounts w'.db ∧ StaysSigned w.db w'.db ∧ ∀ c' ∈ o, feesLoc w'.db c' := by
  have hrefl : StaysSigned w.db w.db := (Spares.same rfl rfl).staysSigned
  have hpolicy : ∀ held, c.point = .readPolicy held → _ := fun held => step_readPolicy hstep
  have hx := step_executed hstep
  cases hx with
  | acquire | checkReorg | readResult | fails | failsLater =>
    exact ⟨h.same rfl rfl (fun _ => rfl), hrefl, by rintro _ ⟨⟩; trivial⟩
  | release => exact ⟨h.same rfl rfl (fun _ => rfl), hrefl, by rintro _ ⟨⟩⟩
  | unsigned hp hr hs hu =>
    refine ⟨h, hrefl, ?_⟩
    rintro _ ⟨⟩
    have hunsigned : Unsigned w.db c.id := unsigned_of_reads hr hu
    exact ⟨hunsigned, listed_of_reads hr⟩
  | opened hp hr hs ho ht =>
    refine ⟨h, hrefl, ?_⟩
    rintro _ ⟨⟩
    have hc := current_of_reads hr (by rw [Signed, hs]; rintro ⟨⟩)
    obtain rfl | rfl := ht <;> exact hc
  | readPolicy hp hb =>
    obtain ⟨deduct, bps, ho, ha⟩ := hpolicy _ hp
    refine ⟨h, hrefl, ?_⟩
    rintro _ ⟨⟩
    cases ho
    simp only [feesLoc, hp] at hf
    exact ⟨hf.1, hf.2, ha⟩
  | prepare hp hfee =>
    refine ⟨h, hrefl, ?_⟩
    rintro _ ⟨⟩
    simp only [feesLoc, hp] at hf
    simp only [executeLoc, hp] at hl
    obtain ⟨hu, hlisted, ha⟩ := hf
    obtain ⟨id, token, lost, point⟩ := c
    cases hp
    obtain ⟨p, hp, hc, hpre⟩ := hprepared
    refine ⟨hu, hlisted, hpre ▸ charges_of_prepares hlisted (fun i hi => ?_) ha hp hc⟩
    obtain ⟨i', hi', hs⟩ := (hl.1.items i hi).item
    rw [← hs.same.grossAtomic]
    exact hcov.gross i' hi'
  | persist hp hs hd =>
    simp only [feesLoc, hp] at hf
    simp only [executeLoc, hp] at hl
    have hne := hs ▸ encrypt_ne_empty _ _ _ _
    refine ⟨h.persist hl.1 hl.2 hf.2.1 hf.1 hne hf.2.2 hd, ?_, by rintro _ ⟨⟩; trivial⟩
    refine .of_map (persistTransaction_ok hd).2.2.1 (fun b => ?_) (fun b hb => ?_)
    · split <;> rfl
    · split
      · exact signed_signBatch hne _ b
      · exact hb
  | known hp | unknown hp =>
    refine ⟨h, hrefl, ?_⟩
    rintro _ ⟨⟩
    simp only [feesLoc, hp] at hf
    exact hf
  | broadcast hp ht =>
    refine ⟨h, hrefl, ?_⟩
    rintro _ ⟨⟩
    simp only [feesLoc, hp] at hf
    obtain rfl | ⟨e, rfl⟩ := ht
    · exact hf
    · trivial
  | post hp hd =>
    simp only [feesLoc, hp] at hf
    simp only [executeLoc, hp] at hl
    refine ⟨h.post hcov hl.1 hf hl.2 hd, ?_, by rintro _ ⟨⟩; trivial⟩
    refine .of_map (postTransaction_batches hd) (fun b => ?_) (fun b hb => ?_)
    · split <;> rfl
    · split
      · exact hb
      · exact hb
  | markFailed hp hd =>
    have hk : ∀ message b, Kept b (failBatch message b) := fun _ _ => ⟨rfl, rfl, rfl, rfl, rfl⟩
    refine ⟨h.updateBatch hd (hk _) (fun b _ _ hw => ?_), (Spares.updateBatch hd (hk _)).staysSigned,
      by rintro _ ⟨⟩; trivial⟩
    obtain hw | hw | hw := hw
    · cases hw
    · cases hw
    · exact .inl (.inr (.inr hw))

theorem planTransaction_customers {db db' : Database} {asset : AssetCode} {policy : PayoutPolicySetting}
    (h : planTransaction rt a db asset policy = .ok db') :
    ∀ i ∈ db'.payoutItems.rows, i ∈ db.payoutItems.rows ∨ i.customerId.isSome := by
  rw [planTransaction] at h
  dsimp only at h
  split at h
  · cases h
    exact fun i hi => .inl hi
  · intro i hi
    rw [(createBatch_ok h).items, List.mem_append] at hi
    refine hi.imp_right (fun hnew => ?_)
    obtain ⟨k, hk, rfl⟩ := List.mem_mapIdx.mp hnew
    obtain ⟨d, _, hd⟩ := List.mem_filterMap.mp (List.getElem_mem hk)
    unfold planItem at hd
    dsimp only at hd
    split at hd
    · exact (congrArg (fun n : NewItem => n.customerId.isSome) (Option.some.inj hd)).symm
    · cases hd

theorem allocate_accounts {db db' : Database} {depositId : Id} {batch : AllocationBatch}
    (hd : AllocateDeposit.allocateDeposit a.groupOrder (Deposits.allocationIds a) a.now db depositId =
      .ok (batch, db')) (h : Accounts db) : Accounts db' ∧ Spares db db' := by
  obtain ⟨rfl, _, _⟩ | ⟨deposit, endpointIds, items, _, _, _, hc⟩ :=
    AllocationSpec.allocateDeposit_ok hd
  · exact ⟨h, .same rfl rfl⟩
  · have hb : db'.payoutBatches = db.payoutBatches := by rw [hc.frame]; rfl
    have hi : db'.payoutItems = db.payoutItems := by rw [hc.frame]; rfl
    refine ⟨h.same hb hi (fun id => ?_), .same hb hi⟩
    rw [batchCredits_append hc.ledger.journal]
    exact add_zero _

theorem samePayouts_accounts {db db' : Database} (hs : SamePayouts db db') (h : Accounts db) :
    Accounts db' ∧ Spares db db' := by
  refine ⟨h.same hs.batches hs.items (fun id => ?_), .same hs.batches hs.items⟩
  rw [batchCredits, hs.journal, batchCredits]

theorem planned_accounts {db db' : Database} {asset : AssetCode} {policy : PayoutPolicySetting}
    {kind : PayoutKind} {payer : NetworkFeePayer} {items : List NewItem} (h : Accounts db)
    (hcov : Covered db) (hp : Planned rt a db db' asset policy kind payer items)
    (hcustomers : kind = .customer → ∀ i ∈ db'.payoutItems.rows,
      i ∈ db.payoutItems.rows ∨ i.customerId.isSome) : Accounts db' ∧ Spares db db' := by
  refine ⟨h.create hcov hp.created rfl (by simp [Signed, newBatch, truthy]) ?_ (fun hk i hi => ?_),
    .created hp.created rfl⟩
  · rintro (hw | hw | hw)
    · simp only [newBatch] at hw
      split at hw <;> cases hw
    · simp only [newBatch] at hw
      split at hw <;> cases hw
    · exact hw rfl
  · obtain ⟨k, hlt, rfl⟩ := List.getElem_of_mem hi
    have hmem : newItem a k items[k] ∈ items.mapIdx (newItem a) := List.mem_mapIdx.mpr ⟨k, hlt, rfl⟩
    refine (hcustomers hk (newItem a k items[k]) ?_).resolve_left (fun hold => ?_)
    · rw [hp.created.items]
      exact List.mem_append_right _ hmem
    · obtain ⟨b, hb, hid⟩ := hcov.owned _ hold
      exact hp.created.fresh b hb (.inl hid)

theorem scanned_accounts {c : Deposits.ScanCall} {o : Option Deposits.ScanCall}
    (hs : Deposits.Scanned w a c w' o) (h : Accounts w.db) :
    Accounts w'.db ∧ Spares w.db w'.db := by
  cases hs with
  | readUpstreams | scanReceipts | locked | read => exact ⟨h, .same rfl rfl⟩
  | reorg | upsert => exact samePayouts_accounts ⟨rfl, rfl, rfl⟩ h
  | allocate hd => exact allocate_accounts hd h

theorem approved_accounts {c : ApproveCall} {o : Option ApproveCall}
    (hx : Approved rt w a c w' o) (h : Accounts w.db) (hl : approveLoc c) :
    Accounts w'.db ∧ Spares w.db w'.db := by
  cases hx with
  | assertTotp | readBatch => exact ⟨h, .same rfl rfl⟩
  | @write id adminId next db hd =>
    have hk : ∀ b, Kept b (approveBatch a.now adminId next b) := fun _ => ⟨rfl, rfl, rfl, rfl, rfl⟩
    refine ⟨h.updateBatch hd hk (fun b _ _ hw => ?_), .updateBatch hd hk⟩
    obtain hw | hw | hw := hw
    · obtain rfl | rfl := hl <;> cases hw
    · obtain rfl | rfl := hl <;> cases hw
    · exact .inl (.inr (.inr hw))

theorem reconciled_accounts {db db' : Database} {c : ReconcileCall} {o : Option ReconcileCall}
    (hx : Reconciled db a c db' o) (h : Accounts db) (hl : reconcileLoc db c)
    (hf : signedLoc db c) :
    Accounts db' ∧ Spares db db' ∧ ∀ c' ∈ o, signedLoc db' c' := by
  have hnext : ∀ {db : Database} {l : List PayoutBatch}, (∀ b ∈ l, SignedIn db b.id) →
      ∀ c' ∈ queryNext l, signedLoc db c' :=
    queryNext_all (fun _ _ hall => hall)
  cases hx with
  | list hm =>
    refine ⟨h, .same rfl rfl, hnext (fun b hb => ?_)⟩
    obtain ⟨hmem, hstate⟩ := hm b hb
    exact ⟨b, hmem, rfl, ((h b hmem).out (.inl hstate)).1⟩
  | pass => exact ⟨h, .same rfl rfl, hnext (fun b hb => hf b (by simp [hb]))⟩
  | enough =>
    refine ⟨h, .same rfl rfl, ?_⟩
    rintro _ ⟨⟩
    exact hf
  | @write batch rest db' hd =>
    have hk : ∀ b, Kept b (confirmBatch a.now b) := fun _ => ⟨rfl, rfl, rfl, rfl, rfl⟩
    have hs : Spares db db' := .updateBatch hd hk
    refine ⟨h.updateBatch hd hk (fun b hb hid _ => .inr ⟨?_, fun i hi => ?_⟩), hs,
      hnext (fun b hb => (hf b (by simp [hb])).stay hs.staysSigned)⟩
    · obtain ⟨b₀, hb₀, hid₀, hsigned⟩ := hf batch (by simp)
      rwa [db.payoutBatches.eq_of_id hb hb₀ (hid.trans hid₀.symm)]
    · obtain ⟨hm, hib⟩ := mem_itemsIn.mp hi
      exact (hl batch (by simp)).settled i hm (hib.trans hid)

structure Advances (r : Call) (w w' : World) : Prop where
  grows : Grows w.db w'.db
  signed : StaysSigned w.db w'.db
  spares : (∀ k, ¬ inside r k) → Spares w.db w'.db

theorem effect_accounts {r : Call} {o : Option Call} (he : effect rt w r a = .ok (w', o))
    (hcov : Covered w.db) (h : Accounts w.db) (hl : loc w r) (hf : fees w r)
    (hprepared : FromAdapter w r a) :
    Accounts w'.db ∧ StaysSigned w.db w'.db ∧ ((∀ k, ¬ inside r k) → Spares w.db w'.db) ∧
      ∀ r' ∈ o, fees w' r' := by
  have hspare : ∀ {r : Call}, Accounts w'.db ∧ Spares w.db w'.db → (∀ r' ∈ o, fees w' r') →
      Accounts w'.db ∧ StaysSigned w.db w'.db ∧ ((∀ k, ¬ inside r k) → Spares w.db w'.db) ∧
        ∀ r' ∈ o, fees w' r' :=
    fun h ho => ⟨h.1, h.2.staysSigned, fun _ => h.2, ho⟩
  have ha := effect_acted he
  cases ha with
  | allocate hd => exact hspare (allocate_accounts hd h) (by rintro _ ⟨⟩)
  | scan hs =>
    refine hspare (scanned_accounts hs h) (fun r' hr' => ?_)
    obtain ⟨c', _, rfl⟩ := Option.map_eq_some_iff.mp hr'
    trivial
  | share hs =>
    refine hspare (samePayouts_accounts (journals_payouts hs) h) (fun r' hr' => ?_)
    obtain ⟨c', _, rfl⟩ := Option.map_eq_some_iff.mp hr'
    trivial
  | prepares =>
    refine hspare (samePayouts_accounts ⟨rfl, rfl, rfl⟩ h) (fun r' hr' => ?_)
    obtain ⟨c', _, rfl⟩ := Option.map_eq_some_iff.mp hr'
    trivial
  | preparesOperator =>
    refine hspare ⟨h, .same rfl rfl⟩ (fun r' hr' => ?_)
    obtain ⟨c', _, rfl⟩ := Option.map_eq_some_iff.mp hr'
    trivial
  | plans hp =>
    obtain ⟨⟨db, o'⟩, hstep, heq⟩ := map_eq_ok.mp he
    simp only [stepPlan, bind_eq_ok, pure_eq_ok] at hstep
    obtain ⟨_, ht, hpair⟩ := hstep
    cases hpair
    cases congrArg World.db (Prod.mk.inj heq).1
    exact hspare (planned_accounts h hcov hp (fun _ => planTransaction_customers ht))
      (by rintro _ ⟨⟩)
  | plansOperator hp => exact hspare (planned_accounts h hcov hp (by rintro ⟨⟩)) (by rintro _ ⟨⟩)
  | approve hx =>
    refine hspare (approved_accounts hx h hl) (fun r' hr' => ?_)
    obtain ⟨c', _, rfl⟩ := Option.map_eq_some_iff.mp hr'
    trivial
  | @execute c w₁ o₁ hx =>
    obtain ⟨⟨w₂, o₂⟩, hstep, heq⟩ := map_eq_ok.mp he
    obtain ⟨rfl, ho⟩ := Prod.mk.inj heq
    obtain ⟨hacc, hsigned, hloc⟩ := executed_accounts hstep hcov h hl hf hprepared
    refine ⟨hacc, hsigned, fun hout => ?_, fun r' hr' => ?_⟩
    · obtain ⟨hp, hfree, _⟩ | ⟨hp, _⟩ | ⟨hp, _⟩ := executed_lock hx
      · simp only [Execute.step, hp, hfree] at hstep
        cases hstep
        exact .same rfl rfl
      · exact absurd (by rw [inside, hp]; rintro ⟨⟩) (hout ())
      · exact absurd hp (hout ())
    · rw [← ho] at hr'
      obtain ⟨c', hc', rfl⟩ := Option.map_eq_some_iff.mp hr'
      exact hloc c' hc'
  | reconcile hx =>
    obtain ⟨hacc, hs, ho⟩ := reconciled_accounts hx h hl hf
    refine hspare ⟨hacc, hs⟩ (fun r' hr' => ?_)
    obtain ⟨c', hc', rfl⟩ := Option.map_eq_some_iff.mp hr'
    exact ho c' hc'

end Steps

section Run

def assertion (w : World) (r : Call) : Prop := loc w r ∧ fees w r

theorem fees_entry {w : World} {r : Call} (h : r.entry = true) : fees w r := by
  cases r with
  | execute c => simp only [fees, feesLoc, entry_point h]
  | reconcile c => cases c <;> trivial
  | allocate | scan | share | plan | planOperator | approve => trivial

theorem fees_handler {w : World} {r r' : Call} {e : String} (h : System.handler r e = some r') :
    fees w r' := by
  cases r with
  | execute c =>
    obtain ⟨c', hc, rfl⟩ := Option.map_eq_some_iff.mp h
    rw [Execute.handler] at hc
    split at hc <;> cases hc <;> trivial
  | scan c =>
    obtain ⟨c', _, rfl⟩ := Option.map_eq_some_iff.mp h
    trivial
  | allocate | share | plan | planOperator | approve | reconcile => cases h

theorem fees_background {w : World} {r : Call} (h : fees w r) (b : Bool) :
    fees w (System.background w r b) := by
  cases r with
  | execute c =>
    simp only [System.background, fees, feesLoc, renew_point, renew_id] at h ⊢
    exact h
  | allocate | scan | share | plan | planOperator | approve | reconcile => exact h

theorem assertion_stable {w w' : World} {r r' : Call} (h : Advances r w w')
    (hr : ∀ k, inside r k → ¬ inside r' k) (hl : assertion w r') : assertion w' r' := by
  refine ⟨hl.1.grow h.grows, ?_⟩
  cases r' with
  | execute c =>
    by_cases hp : c.point = .acquire
    · simp only [fees, feesLoc, hp]
    · exact feesLoc.spare hl.2 (h.spares (fun k hin => hr k hin hp))
  | reconcile c => exact signedLoc.stay hl.2 h.signed
  | allocate | scan | share | plan | planOperator | approve => trivial

theorem outline (rt : Runtime) : HoldOutline (system rt) inside FromAdapter
    (fun w => Covered w.db ∧ Accounts w.db) assertion Advances where
  entry w r _ h := ⟨entry_loc h, fees_entry h⟩
  effect w r a w' o h hl hp he := by
    obtain ⟨hcov, hg, hloc⟩ := acted_covered h.1 hl.1 (effect_acted he)
    obtain ⟨hacc, hs, hspares, hfees⟩ := effect_accounts he h.1 h.2 hl.1 hl.2 hp
    exact ⟨⟨hcov, hacc⟩, ⟨hg, hs, hspares⟩, fun r' hr' => ⟨hloc r' hr', hfees r' hr'⟩,
      fun e r' hr' => ⟨handler_loc hr', fees_handler hr'⟩⟩
  handler w r e r' _ _ h := ⟨handler_loc h, fees_handler h⟩
  background w r b _ h := ⟨background_loc h.1 b, fees_background h.2 b⟩
  event w e h := by
    have hsame := change_payouts w e
    obtain ⟨hacc, hspares⟩ := samePayouts_accounts hsame h.2
    refine ⟨⟨hsame.covered h.1, hacc⟩, fun r hl => ?_⟩
    exact @assertion_stable w _ (.allocate 0) r
      ⟨hsame.grows, hspares.staysSigned, fun _ => hspares⟩ (fun k hin => hin.elim) hl
  stable w w' r r' _ h hr hl := assertion_stable h hr hl

/-- Batches may have been planned, with or without a snapshot of the policy, but none
of them has been signed or posted. -/
structure Unsent (db : Database) : Prop where
  covered : Covered db
  batches : ∀ b ∈ db.payoutBatches.rows, ¬ Signed b ∧ ¬ WentOut b
  customers : ∀ b ∈ db.payoutBatches.rows, b.kind = .customer →
    ∀ i ∈ db.payoutItems.rows, i.batchId = b.id → i.customerId.isSome
  items : ∀ i ∈ db.payoutItems.rows, i.journalTransactionId = none
  journal : ∀ t ∈ db.journalTransactions.rows, payoutBatchId t.reference = none

theorem Unsent.accounts {db : Database} (h : Unsent db) : Accounts db := by
  intro b hb
  have hzero : batchCredits db b.id = 0 := by
    rw [batchCredits, List.filter_eq_nil_iff.mpr]
    · rfl
    · intro t ht hr
      rw [h.journal t ht, decide_eq_true_eq] at hr
      cases hr
  rw [hzero]
  refine .fresh (h.batches b hb).1 (h.batches b hb).2 (fun hk i hi => ?_) (fun i hi => ?_)
  · obtain ⟨hm, hib⟩ := mem_itemsIn.mp hi
    exact h.customers b hb hk i hm hib
  · exact h.items i (mem_itemsIn.mp hi).1

theorem fresh_unsent {db : Database} (h : db.Fresh) : Unsent db := by
  refine ⟨fresh_covered h, ?_, ?_, ?_, ?_⟩
  · simp [h.payoutBatches]
  · simp [h.payoutBatches]
  · simp [h.payoutItems]
  · simp [h.journalTransactions]

/-- As long as the lock is kept while an execution runs: whatever happens to the
policy, and however often executions fail and start again, the treasury credits
of a batch that has gone out are what the wallet has paid, the net amounts and
the fee. -/
theorem outflow_recorded {rt : Runtime} {w : World} {c : Config World Call} (hw : Unsent w.db)
    (h : (system rt).Run (Guarded (system rt) inside locked FromAdapter) (.idle w) c) :
    ∀ b ∈ c.shared.db.payoutBatches.rows, WentOut b → batchCredits c.shared.db b.id =
      ((itemsIn c.shared.db b.id).map PayoutItem.netAtomic).sum + b.totalFeeAtomic := by
  intro b hb hout
  have hc := (outline rt).run (resources rt) ⟨hw.covered, hw.accounts⟩ h
  exact (hc.inv.2 b hb).total hout

end Run

section Sample

deriving instance DecidableEq for PreparedItem, PreparedPayout

def nodeAsking (fee : ℚ) : PayoutPreparation.Bitcoin.Node :=
  ⟨fun _ _ => .ok ⟨"funded", .ok (fee / 100000000)⟩, fun _ => .ok (), fun _ _ => .ok ⟨"signed", true⟩,
    fun _ _ => .ok ⟨"raw", true⟩, fun _ _ => .ok "tx", fun _ => .ok ()⟩

def sampleConfig : PayoutPreparation.Bitcoin.Config := ⟨"regtest", false, .ok "secret"⟩

def preparesSample (fee : ℚ) (held : Held) (deduct : Bool) : Option PayoutPreparation.PreparedPayout :=
  (PayoutPreparation.Bitcoin.preparePayout (nodeAsking fee) sampleConfig (candidates held) deduct
    []).2.toOption

def conserves (total : ℤ) (items : List (Allocation.WeightedItem Id)) : Bool :=
  match Allocation.largestRemainder decimalRound total items with
  | .ok result => result.all (fun a => 0 ≤ a.amount) &&
      decide ((result.map Allocation.AllocatedItem.amount).sum = total)
  | .error _ => false

theorem conserves_sound {total : ℤ} {items : List (Allocation.WeightedItem Id)}
    (h : conserves total items = true) : Conserves decimalRound total items := by
  rw [conserves] at h
  split at h
  · rename_i result hresult
    simp only [Bool.and_eq_true, List.all_eq_true, decide_eq_true_eq] at h
    exact ⟨result, hresult, h.1, h.2⟩
  · cases h

def fromAdapter (r : Call) (a : Answer) : Bool :=
  match r with
  | .execute ⟨_, _, _, .prepare held deduct _⟩ =>
    held.batch.asset = .btc && (preparesSample a.prepared.feeAtomic held deduct).any (fun p =>
      a.prepared = toPrepared p && conserves p.feeAtomic (feeWeights (candidates held)))
  | _ => true

theorem fromAdapter_sound {w : World} {r : Call} {a : Answer} (h : fromAdapter r a = true) :
    FromAdapter w r a := by
  unfold fromAdapter at h
  split at h
  · rename_i id token lost held deduct bps
    simp only [Bool.and_eq_true, decide_eq_true_eq, Option.any_eq_true] at h
    obtain ⟨hasset, p, hp, hpre, hc⟩ := h
    refine ⟨p, ?_, conserves_sound hc, hpre⟩
    rw [hasset]
    cases hx : PayoutPreparation.Bitcoin.preparePayout (nodeAsking a.prepared.feeAtomic) sampleConfig
        (candidates held) deduct [] with
    | mk log' r =>
      rw [preparesSample, hx] at hp
      cases r with
      | ok q =>
        cases hp
        exact .btc hx
      | error e => cases hp
  · rename_i hr
    unfold FromAdapter
    split
    · exact (hr _ _ _ _ _ _ rfl).elim
    · trivial

def testStep (c : Config World Call) : Action Call Answer Change → Bool
  | .event e => match e with
    | .lockVanishes => false
    | _ => true
  | .resolve pid a => (c.calls pid).all (fun r => fromAdapter r a)
  | .rejectAfter pid a _ => (c.calls pid).all (fun r => fromAdapter r a)
  | _ => true

theorem testStep_sound (c : Config World Call) (act : Action Call Answer Change)
    (h : testStep c act = true) : Guarded (system sampleRuntime) inside locked FromAdapter c act := by
  cases act with
  | event e =>
    intro pid r k _ _ hl
    cases e with
    | lockVanishes => cases h
    | configure => exact hl
    | addSplitPolicy p =>
      simp only [locked, system, change] at hl ⊢
      split <;> exact hl
  | resolve pid a | rejectAfter pid a e =>
    intro r hr
    exact fromAdapter_sound (by simpa [testStep, hr] using h)
  | call | reject | background | stop => trivial

def outflows (c : Config World Call) : List (Id × ℤ × ℤ × ℤ) :=
  (c.shared.db.payoutBatches.rows.filter (fun b => b.broadcastAt.isSome)).map (fun b =>
    (b.id, batchCredits c.shared.db b.id,
      ((itemsIn c.shared.db b.id).map PayoutItem.netAtomic).sum, b.totalFeeAtomic))

theorem outflow_recorded_sample : ∃ c, (system sampleRuntime).Run
      (Guarded (system sampleRuntime) inside locked FromAdapter) (.idle sampleWorld) c ∧
    outflows c = [(10, 800, 792, 8)] ∧ ∀ b ∈ c.shared.db.payoutBatches.rows, WentOut b →
      batchCredits c.shared.db b.id =
        ((itemsIn c.shared.db b.id).map PayoutItem.netAtomic).sum + b.totalFeeAtomic := by
  have hexec : ((system sampleRuntime).execChecked testStep (.idle sampleWorld)
      (sampleCredit ++ samplePayout)).map outflows = some [(10, 800, 792, 8)] := by
    decide +kernel
  obtain ⟨c, hc, hv⟩ := Option.map_eq_some_iff.mp hexec
  have hrun := Machine.execChecked_run testStep_sound hc
  exact ⟨c, hrun, hv, outflow_recorded (fresh_unsent sampleWorld_fresh) hrun⟩

def generousWorld : World :=
  { sampleWorld with
    db := { sampleWorld.db with
      payoutPolicy := { sampleWorld.db.payoutPolicy with feePayer := .operator } } }

/-- An execution has prepared a payout when the lock key disappears. A second one signs
another for a lower fee, sends it and posts it; then the first goes on. -/
def overlappingPayouts : List (Action Call Answer Change) :=
  perform (.plan (.listDue .btc)) [{ now := 5 }, {}, { now := 5, createdAt := 5, newId := fun n => n + 10 }] ++
  [.call 1 (.execute ⟨10, 1, false, .acquire⟩), .resolve 1 {}, .resolve 1 {}, .resolve 1 {},
    .resolve 1 {}, .resolve 1 { prepared := ⟨"raw", ["tx"], 8, [⟨11, 8, 800⟩]⟩ },
    .event .lockVanishes] ++
  perform (.execute ⟨10, 2, false, .acquire⟩)
    [{}, {}, {}, {}, { prepared := ⟨"raw", ["tx"], 4, [⟨11, 4, 800⟩]⟩ }, { iv := "iv" }, {}, {},
      { relayed := ["tx"] }, { now := 6, newId := fun _ => 30 }, {}, {}] ++
  [.resolve 1 { iv := "iv" }, .resolve 1 {}, .resolve 1 {}, .resolve 1 { relayed := ["tx"] },
    .resolve 1 { now := 7, newId := fun _ => 31 }, .resolve 1 {}, .resolve 1 {}]

/-- Without the lock the treasury's credits of a batch are those of a payout that has been
replaced. -/
theorem replaced_payout_posted : ¬ ∀ (rt : Runtime) (w : World) (c : Config World Call), Unsent w.db →
    (system rt).Run (Allowed shared FromAdapter (fun _ _ => True)) (.idle w) c →
    ∀ b ∈ c.shared.db.payoutBatches.rows, WentOut b → batchCredits c.shared.db b.id =
      ((itemsIn c.shared.db b.id).map PayoutItem.netAtomic).sum + b.totalFeeAtomic := by
  intro h
  have hfresh : generousWorld.db.Fresh := ⟨rfl, rfl, rfl, rfl, rfl, rfl⟩
  have hexec : ((system sampleRuntime).execChecked (testing (fun _ r a => fromAdapter r a))
      (.idle generousWorld) (sampleCredit ++ overlappingPayouts)).map outflows =
        some [(10, 804, 800, 8)] := by
    decide +kernel
  obtain ⟨c, hc, hv⟩ := Option.map_eq_some_iff.mp hexec
  have hrun := Machine.execChecked_run
    (testing_allowed (P := FromAdapter) (fun _ _ _ => fromAdapter_sound)) hc
  have hout : (10, 804, 800, 8) ∈ outflows c := by
    rw [hv]
    exact List.mem_singleton_self _
  obtain ⟨b, hb, he⟩ := List.mem_map.mp hout
  obtain ⟨hrow, hsent⟩ := List.mem_filter.mp hb
  have hrecorded := h sampleRuntime generousWorld c (fresh_unsent hfresh) hrun b hrow
    (.inr (.inr (Option.isSome_iff_ne_none.mp hsent)))
  simp only [Prod.mk.injEq] at he
  obtain ⟨_, hcredits, hnets, hfee⟩ := he
  rw [hcredits, hnets, hfee] at hrecorded
  exact absurd hrecorded (by decide)

end Sample

end Bitmine.LedgerOutflow
