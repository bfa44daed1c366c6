import Bitmine.Broadcasting
import Bitmine.CrashSafety
import Bitmine.Lib.Watch

namespace Bitmine.PayloadOrigin

open Bitmine.Lib.UniqueTable Bitmine.Lib.Throwing Bitmine.Lib.Await Bitmine.Lib.Watch
open Bitmine.Schema Bitmine.Deployment Bitmine.Security Bitmine.Payouts Bitmine.Execute
open Bitmine.PayoutHistory Bitmine.System Bitmine.Commitments Bitmine.NoOvercommit
open Bitmine.Payloads Bitmine.CrashSafety
open Bitmine.PoolAccounts (Undotted decrypt_encrypt)
open Bitmine.Envelope (Sealing decrypt_empty)
open Bitmine.BatchAccounts (itemsIn)
open Bitmine.PayoutPreparation (PayoutCandidate)
open Bitmine.LedgerOutflow (Prepares candidates toPrepared)

def candidate (i : PayoutItem) : PayoutCandidate := ⟨i.id, i.destination, i.grossAtomic⟩

def candidatesOf (db : Database) (id : Id) : List PayoutCandidate := (itemsIn db id).map candidate

/-- A call of `preparePayout` in the run, and what the adapter has returned to it. -/
structure Preparation where
  batchId : Id
  asset : AssetCode
  items : List PayoutCandidate
  deductFeeFromOutputs : Bool
  prepared : PreparedPayout

/-- The calls of `preparePayout` of a run, which no effect reads. -/
def note (_ : World) (r : Call) (a : Answer) (records : List Preparation) : List Preparation :=
  match r with
  | .execute ⟨id, _, _, .prepare held deduct _⟩ =>
    records ++ [⟨id, held.batch.asset, candidates held, deduct, a.prepared⟩]
  | _ => records

/-- The system with the calls of `preparePayout` beside its state. -/
abbrev recorded (rt : Runtime) : Machine (World × List Preparation) Call Answer Change :=
  watched (system rt) note

/-- A call of `preparePayout` for the items of the batch has returned the payload. -/
def Origin (records : List Preparation) (db : Database) (id : Id) (payload : String) : Prop :=
  ∃ b ∈ db.payoutBatches.rows, b.id = id ∧ ∃ r ∈ records, r.batchId = id ∧ r.asset = b.asset ∧
    r.items.Perm (candidatesOf db id) ∧ r.prepared.signedPayload = payload

def Real (r : Preparation) : Prop :=
  ∃ p, Prepares r.items r.deductFeeFromOutputs p r.asset ∧ r.prepared = toPrepared p

structure Steady (db db' : Database) : Prop where
  batches : ∀ b ∈ db.payoutBatches.rows, ∃ b' ∈ db'.payoutBatches.rows, b'.id = b.id ∧ b'.asset = b.asset
  candidates : ∀ b ∈ db.payoutBatches.rows, candidatesOf db' b.id = candidatesOf db b.id

section Steadiness

variable {db db' : Database} {records records' : List Preparation}

theorem Origin.steady {id : Id} {payload : String} (h : Origin records db id payload)
    (hs : Steady db db') : Origin records db' id payload := by
  obtain ⟨b, hb, rfl, r, hr, hid, hasset, hperm, hpayload⟩ := h
  obtain ⟨b', hb', hid', hasset'⟩ := hs.batches b hb
  exact ⟨b', hb', hid', r, hr, hid, hasset.trans hasset'.symm, hs.candidates b hb ▸ hperm, hpayload⟩

theorem Origin.mono {id : Id} {payload : String} (h : Origin records db id payload)
    (hs : records ⊆ records') : Origin records' db id payload := by
  obtain ⟨b, hb, hid, r, hr, hrest⟩ := h
  exact ⟨b, hb, hid, r, hs hr, hrest⟩

theorem candidatesOf_map {g : PayoutItem → PayoutItem}
    (hi : db'.payoutItems.rows = db.payoutItems.rows.map g)
    (hg : ∀ i, candidate (g i) = candidate i ∧ (g i).batchId = i.batchId) (id : Id) :
    candidatesOf db' id = candidatesOf db id := by
  rw [candidatesOf, BatchAccounts.itemsIn_map (fun i => (hg i).2) hi, List.map_map, candidatesOf]
  apply List.map_congr_left
  intro i _
  exact (hg i).1

theorem Steady.of_map {f : PayoutBatch → PayoutBatch}
    (hb : db'.payoutBatches.rows = db.payoutBatches.rows.map f)
    (hf : ∀ b, (f b).id = b.id ∧ (f b).asset = b.asset)
    (hi : ∀ id, candidatesOf db' id = candidatesOf db id) : Steady db db' := by
  constructor
  · intro b hmem
    refine ⟨f b, ?_, hf b⟩
    rw [hb]
    exact List.mem_map_of_mem hmem
  · exact fun b _ => hi b.id

theorem Steady.of_eq (hb : db'.payoutBatches = db.payoutBatches) (hi : db'.payoutItems = db.payoutItems) :
    Steady db db' := by
  apply Steady.of_map (f := fun b => b)
  · rw [hb, List.map_id']
  · exact fun b => ⟨rfl, rfl⟩
  · intro id
    rw [candidatesOf, itemsIn, hi, candidatesOf, itemsIn]

theorem Steady.updateBatch {id : Id} {f : PayoutBatch → PayoutBatch} {hf : KeepsKeys f}
    (hs : ∀ b, SameBatch b (f b)) (hu : updateBatch db id f hf = .ok db') : Steady db db' := by
  obtain ⟨_, hrows, hframe⟩ := updateBatch_ok hu
  apply Steady.of_map hrows
  · intro b
    split
    · exact ⟨(hs b).id, (hs b).asset⟩
    · exact ⟨rfl, rfl⟩
  · intro key
    rw [hframe]
    rfl

theorem Steady.created {a : Answer} {batch : PayoutBatch} {items : List NewItem}
    (hc : Created a db db' batch items) (hid : batch.id = a.newId 0) : Steady db db' := by
  constructor
  · intro b hb
    exact ⟨b, by simp [hc.batches, hb], rfl, rfl⟩
  · intro b hb
    have hnone : (items.mapIdx (newItem a)).filter (fun i => i.batchId = b.id) = [] := by
      apply List.filter_eq_nil_iff.mpr
      intro i hi
      obtain ⟨k, hk, rfl⟩ := List.mem_mapIdx.mp hi
      rw [decide_eq_true_eq]
      intro he
      exact hc.fresh b hb (.inl (he.symm.trans hid.symm))
    rw [candidatesOf, itemsIn, hc.items, List.filter_append, hnone, List.append_nil, candidatesOf, itemsIn]

theorem chargeItems_destination (prepared : List PreparedItem) (i : PayoutItem) :
    (chargeItems prepared i).destination = i.destination := by
  induction prepared generalizing i with
  | nil => rfl
  | cons p prepared ih =>
    apply (ih _).trans
    dsimp only
    split <;> rfl

theorem Steady.persist {id : Id} {stored : String} {prepared : PreparedPayout}
    (h : persistTransaction db id stored prepared = .ok db') : Steady db db' := by
  obtain ⟨_, hi, hb, _⟩ := persistTransaction_ok h
  apply Steady.of_map hb
  · intro b
    split <;> exact ⟨rfl, rfl⟩
  · apply candidatesOf_map hi
    intro i
    have hsame := (chargeItems_same prepared.items i).1
    refine ⟨?_, hsame.batchId⟩
    rw [candidate, candidate, hsame.id, hsame.grossAtomic, chargeItems_destination]

theorem Steady.post {a : Answer} {id : Id} {held : Held} {ids : List String}
    (h : postTransaction a db id held ids = .ok db') : Steady db db' := by
  have hb := postTransaction_batches h
  simp only [postTransaction, bind_eq_ok] at h
  obtain ⟨mid, hl, hu⟩ := h
  apply Steady.of_map hb
  · intro b
    split <;> exact ⟨rfl, rfl⟩
  · intro key
    have hmid : candidatesOf mid key = candidatesOf db key := by
      refine foldlM_invariant (fun d => candidatesOf d key = candidatesOf db key) held.items ?_ rfl hl
      intro i _ d d' hd hp
      obtain ⟨_, rfl⟩ | hposts := postItem_ok hp
      · exact hd
      · rw [← hd]
        apply candidatesOf_map hposts.items
        intro j
        split <;> exact ⟨rfl, rfl⟩
    rw [← hmid, (updateBatch_ok hu).2.2]
    rfl

end Steadiness

section Steps

variable {rt : Runtime} {w w' : World} {a : Answer} {records records' : List Preparation}

/-- The wallets prepare payouts as the adapters do, and the vectors of the encryptions
stand in base64url. -/
def FromAdapters (_ : World) (r : Call) (a : Answer) : Prop :=
  match r with
  | .execute ⟨_, _, _, .prepare held deduct _⟩ => ∃ p,
    Prepares (candidates held) deduct p held.batch.asset ∧ a.prepared = toPrepared p
  | .execute ⟨_, _, _, .persist _ _⟩ => Undotted a.iv
  | _ => True

def Shows (db : Database) (id : Id) (held : Held) : Prop :=
  ∃ b ∈ db.payoutBatches.rows, b.id = id ∧ b.asset = held.batch.asset ∧
    (candidates held).Perm (candidatesOf db id)

def originLoc (records : List Preparation) (w : World) (c : ExecuteCall) : Prop :=
  match c.point with
  | .readPolicy held => Shows w.db c.id held
  | .prepare held _ _ => Shows w.db c.id held
  | .persist _ prepared => Origin records w.db c.id prepared.signedPayload
  | .queryKnown _ payload => Origin records w.db c.id payload
  | .broadcast _ payload => Origin records w.db c.id payload
  | _ => True

/-- What is stored is sealed for its batch, and what was sent has been opened. -/
structure Genuine (prim : Primitives) (records : List Preparation) (w : World) : Prop where
  stored : ∀ b ∈ w.db.payoutBatches.rows, ∀ s, b.signedPayload = some s → ∃ iv payload,
    Undotted iv ∧ Origin records w.db b.id payload ∧
      s = encrypt prim iv payload (payloadContext b.id)
  sent : ∀ id payload, .broadcast id payload ∈ w.log → Origin records w.db id payload

theorem Shows.steady {db db' : Database} {id : Id} {held : Held} (h : Shows db id held)
    (hs : Steady db db') : Shows db' id held := by
  obtain ⟨b, hb, rfl, hasset, hperm⟩ := h
  obtain ⟨b', hb', hid, hasset'⟩ := hs.batches b hb
  exact ⟨b', hb', hid, hasset'.trans hasset, hs.candidates b hb ▸ hperm⟩

theorem originLoc_steady {c : ExecuteCall} (h : originLoc records w c) (hs : Steady w.db w'.db) :
    originLoc records w' c := by
  unfold originLoc at h ⊢
  split at h
  case h_1 | h_2 => exact Shows.steady h hs
  case h_3 | h_4 | h_5 => exact Origin.steady h hs
  case h_6 => trivial

theorem originLoc_mono {c : ExecuteCall} (h : originLoc records w c) (hs : records ⊆ records') :
    originLoc records' w c := by
  unfold originLoc at h ⊢
  split at h
  case h_1 | h_2 => exact h
  case h_3 | h_4 | h_5 => exact Origin.mono h hs
  case h_6 => trivial

theorem originLoc_local : Local (originLoc records) := by
  refine ⟨?_, ?_, ?_, ?_⟩
  · intro w c hp
    simp [originLoc, hp]
  · intro w c hp
    simp [originLoc, hp]
  · intro w c e hp
    simp [originLoc, hp]
  · intro w c b h
    simpa only [originLoc, renew_point, renew_id] using h

theorem during_steady {r : Call} (h : during (originLoc records) w r) (hs : Steady w.db w'.db) :
    during (originLoc records) w' r := by
  cases r with
  | execute c => exact originLoc_steady h hs
  | allocate | scan | share | plan | planOperator | approve | reconcile => trivial

theorem during_mono {r : Call} (h : during (originLoc records) w r) (hs : records ⊆ records') :
    during (originLoc records') w r := by
  cases r with
  | execute c => exact originLoc_mono h hs
  | allocate | scan | share | plan | planOperator | approve | reconcile => trivial

theorem Genuine.mono {prim : Primitives} (h : Genuine prim records w) (hs : records ⊆ records') :
    Genuine prim records' w := by
  constructor
  · intro b hb s hstored
    obtain ⟨iv, payload, hiv, ho, hsealed⟩ := h.stored b hb s hstored
    exact ⟨iv, payload, hiv, ho.mono hs, hsealed⟩
  · exact fun id p hp => (h.sent id p hp).mono hs

theorem Genuine.keep {prim : Primitives} (h : Genuine prim records w) (hs : Steady w.db w'.db)
    (hk : Keeps SamePayload w.db w'.db)
    (hsent : ∀ id p, .broadcast id p ∈ w'.log → .broadcast id p ∈ w.log ∨ Origin records w.db id p) :
    Genuine prim records w' := by
  constructor
  · intro b' hb' s hstored
    obtain ⟨b, hb, hsame⟩ | ⟨hnone, _⟩ := hk.new b' hb'
    · obtain ⟨iv, payload, hiv, ho, rfl⟩ := h.stored b hb s (hsame.signedPayload.symm.trans hstored)
      exact ⟨iv, payload, hiv, hsame.id ▸ ho.steady hs, by rw [hsame.id]⟩
    · rw [hnone] at hstored
      cases hstored
  · intro id p hp
    obtain hold | ho := hsent id p hp
    · exact (h.sent id p hold).steady hs
    · exact ho.steady hs

theorem openPayload_encrypt {prim : Primitives} (H : Sealing prim) {iv payload opened : String} {id : Id}
    (hiv : Undotted iv)
    (h : openPayload prim id (encrypt prim iv payload (payloadContext id)) = .ok opened) :
    opened = payload := by
  have hversion : "v1.".toList.isPrefixOf (encrypt prim iv payload (payloadContext id)).toList = true := by
    simp [encrypt]
  rw [openPayload, if_pos hversion] at h
  by_cases hp : payload = ""
  · rw [hp, decrypt_empty H hiv] at h
    cases h
  · rw [decrypt_encrypt H.toAuthentic hiv hp] at h
    exact (Except.ok.inj h).symm

theorem shows_of_reads {c : ExecuteCall} {held : Held} (hr : Reads w c a held) : Shows w.db c.id held := by
  refine ⟨held.batch, hr.stored, hr.id, rfl, ?_⟩
  rw [candidates, hr.items]
  exact ((a.itemOrder.perm _).filter _).map candidate

theorem Genuine.sign {prim : Primitives} (h : Genuine prim records w) {id : Id} {iv : String}
    {prepared : PreparedPayout} {db : Database} (hiv : Undotted iv)
    (ho : Origin records w.db id prepared.signedPayload)
    (hd : persistTransaction w.db id (encrypt prim iv prepared.signedPayload (payloadContext id)) prepared =
      .ok db) :
    Genuine prim records ((w.store db).observe (.signed id
      (encrypt prim iv prepared.signedPayload (payloadContext id)) prepared.transactionIds)) := by
  have hsteady : Steady w.db db := .persist hd
  obtain ⟨_, _, hrows, _⟩ := persistTransaction_ok hd
  constructor
  · intro b' hb' s hs
    rw [World.observe_db, World.store_db, hrows] at hb'
    obtain ⟨b, hb, rfl⟩ := List.mem_map.mp hb'
    by_cases hid : b.id = id
    · rw [if_pos hid] at hs ⊢
      cases hs
      exact ⟨iv, prepared.signedPayload, hiv, (hid ▸ ho).steady hsteady, hid ▸ rfl⟩
    · rw [if_neg hid] at hs ⊢
      obtain ⟨iv', payload, hiv', ho', hsealed⟩ := h.stored b hb s hs
      exact ⟨iv', payload, hiv', ho'.steady hsteady, hsealed⟩
  · intro key p hp
    have hold : .broadcast key p ∈ w.log := by simpa using hp
    exact (h.sent key p hold).steady hsteady

theorem note_subset (w : World) (r : Call) (a : Answer) (records : List Preparation) :
    records ⊆ note w r a records := by
  unfold note
  split
  · exact List.subset_append_left _ _
  · exact List.Subset.refl _

theorem note_real {r : Call} (h : ∀ p ∈ records, Real p) (ha : FromAdapters w r a) :
    ∀ p ∈ note w r a records, Real p := by
  unfold note
  split
  · intro p hp
    obtain hold | hnew := List.mem_append.mp hp
    · exact h p hold
    · rw [List.mem_singleton.mp hnew]
      exact ha
  · exact h

/-- One resolved effect of an execution, whose call of `preparePayout` is recorded. -/
theorem executed_genuine {c : ExecuteCall} {o : Option ExecuteCall} (H : Sealing rt.primitives)
    (hx : Executed rt w c a w' o) (h : Genuine rt.primitives records w) (hl : originLoc records w c)
    (ha : FromAdapters w (.execute c) a) (hnoted : note w (.execute c) a records ⊆ records) :
    Genuine rt.primitives records w' ∧ Steady w.db w'.db ∧ ∀ c' ∈ o, originLoc records w' c' := by
  have hrefl : Steady w.db w.db := .of_eq rfl rfl
  cases hx with
  | acquire | checkReorg | known | readResult | fails | failsLater =>
    exact ⟨⟨h.stored, h.sent⟩, hrefl, by rintro _ ⟨⟩; trivial⟩
  | release => exact ⟨⟨h.stored, h.sent⟩, hrefl, by rintro _ ⟨⟩⟩
  | unsigned hp hr hs hu =>
    have hshows := shows_of_reads hr
    refine ⟨h, hrefl, ?_⟩
    rintro _ ⟨⟩
    exact hshows
  | opened hp hr hs ho ht =>
    refine ⟨h, hrefl, ?_⟩
    rintro _ ⟨⟩
    obtain ⟨iv, payload, hiv, horigin, rfl⟩ := h.stored _ hr.stored _ (Payloads.truthy_some hs)
    rw [hr.id] at ho horigin
    have heq := openPayload_encrypt H hiv ho
    subst heq
    obtain rfl | rfl := ht <;> exact horigin
  | readPolicy hp hb =>
    simp only [originLoc, hp] at hl
    refine ⟨h, hrefl, ?_⟩
    rintro _ ⟨⟩
    exact hl
  | @prepare held deduct _ hp hf =>
    simp only [originLoc, hp] at hl
    refine ⟨h, hrefl, ?_⟩
    rintro _ ⟨⟩
    obtain ⟨id, token, lost, point⟩ := c
    cases hp
    obtain ⟨b, hb, hid, hasset, hperm⟩ := hl
    have hmem : ⟨id, held.batch.asset, candidates held, deduct, a.prepared⟩ ∈ records :=
      hnoted (List.mem_append_right _ (List.mem_singleton_self _))
    exact ⟨b, hb, hid, _, hmem, rfl, hasset.symm, hperm, rfl⟩
  | persist hp hs hd =>
    simp only [originLoc, hp] at hl
    obtain ⟨id, token, lost, point⟩ := c
    cases hp
    subst hs
    exact ⟨h.sign ha hl hd, .persist hd, by rintro _ ⟨⟩; trivial⟩
  | unknown hp =>
    simp only [originLoc, hp] at hl
    refine ⟨h, hrefl, ?_⟩
    rintro _ ⟨⟩
    exact hl
  | broadcast hp ht =>
    simp only [originLoc, hp] at hl
    refine ⟨h.keep hrefl (Keeps.of_eq rfl).payload ?_, hrefl, ?_⟩
    · intro id p hsent
      simp only [World.observe_log, List.mem_append, List.mem_singleton, Observation.broadcast.injEq] at hsent
      obtain hold | ⟨rfl, rfl⟩ := hsent
      · exact .inl hold
      · exact .inr hl
    · rintro _ ⟨⟩
      obtain rfl | ⟨e, rfl⟩ := ht <;> trivial
  | post hp hd =>
    have hk : Keeps SamePayload w.db _ := .of_map (postTransaction_batches hd) (fun b => by
      split
      · exact ⟨rfl, rfl, fun hn => by cases hn⟩
      · exact (SameSigned.refl b).toSamePayload)
    exact ⟨h.keep (.post hd) hk (fun _ _ => .inl), .post hd, by rintro _ ⟨⟩; trivial⟩
  | markFailed hp hd =>
    have hk := (Keeps.updateBatch hd (fun b => ⟨⟨rfl, rfl, fun h => ⟨h, rfl⟩⟩, rfl⟩)).payload
    have hsteady : Steady w.db _ := .updateBatch (sameBatch_fail _) hd
    exact ⟨h.keep hsteady hk (fun _ _ => .inl), hsteady, by rintro _ ⟨⟩; trivial⟩

theorem allocate_steady {db db' : Database} {depositId : Id} {batch : AllocationBatch}
    (hd : AllocateDeposit.allocateDeposit a.groupOrder (Deposits.allocationIds a) a.now db depositId =
      .ok (batch, db')) : Steady db db' := by
  obtain ⟨rfl, _, _⟩ | ⟨_, _, _, _, _, _, hc⟩ := AllocationSpec.allocateDeposit_ok hd
  · exact .of_eq rfl rfl
  · exact .of_eq (by rw [hc.frame]; rfl) (by rw [hc.frame]; rfl)

theorem acted_steady {r : Call} {o : Option Call} (hr : executing r = none)
    (ha : Acted rt w a r w' o) : Steady w.db w'.db := by
  cases ha with
  | execute => cases hr
  | allocate hd => exact allocate_steady hd
  | scan hs =>
    cases hs with
    | readUpstreams | scanReceipts | locked | read | reorg | upsert => exact .of_eq rfl rfl
    | allocate hd => exact allocate_steady hd
  | share hs => exact .of_eq (journals_payouts hs).batches (journals_payouts hs).items
  | prepares | preparesOperator => exact .of_eq rfl rfl
  | plans hp | plansOperator hp => exact .created hp.created rfl
  | approve hx =>
    cases hx with
    | assertTotp | readBatch => exact .of_eq rfl rfl
    | write hd => exact .updateBatch (sameBatch_approve _ _ _) hd
  | reconcile hx =>
    cases hx with
    | list | pass | enough => exact .of_eq rfl rfl
    | write hd => exact .updateBatch (sameBatch_confirm _) hd

theorem acted_genuine {r : Call} {o : Option Call} (H : Sealing rt.primitives)
    (h : Genuine rt.primitives records w) (hl : during (originLoc records) w r)
    (ha : FromAdapters w r a) (hx : Acted rt w a r w' o) :
    Genuine rt.primitives (note w r a records) w' ∧ Steady w.db w'.db ∧
      ∀ r' ∈ o, during (originLoc (note w r a records)) w' r' := by
  have hsub := note_subset w r a records
  cases r with
  | execute c =>
    cases hx with
    | execute hx =>
      -- the records of the effect's end show its own preparation, and no further one
      have hnoted : note w (.execute c) a (note w (.execute c) a records) ⊆
          note w (.execute c) a records := by
        unfold note
        split <;> simp
      obtain ⟨hgenuine, hsteady, ho⟩ :=
        executed_genuine H hx (h.mono hsub) (originLoc_mono hl hsub) ha hnoted
      refine ⟨hgenuine, hsteady, fun r' hr' => ?_⟩
      obtain ⟨c', hc', rfl⟩ := Option.map_eq_some_iff.mp hr'
      exact ho c' hc'
  | allocate | scan | share | plan | planOperator | approve | reconcile =>
    obtain ⟨hk, hq⟩ := acted_quiet rfl hx
    have hsteady := acted_steady rfl hx
    exact ⟨h.keep hsteady hk.payload (fun id p hp => .inl ((hq.broadcast id p).mp hp)), hsteady,
      during_of_quiet rfl hx⟩

theorem change_steady (w : World) (e : Change) : Steady w.db (change w e).db :=
  .of_eq (change_payouts w e).batches (change_payouts w e).items

structure Extends (s s' : World × List Preparation) : Prop where
  steady : Steady s.1.db s'.1.db
  records : s.2 ⊆ s'.2

theorem outline (H : Sealing rt.primitives) : Outline (recorded rt) (shared (ρ := Call))
    (fun s r a => FromAdapters s.1 r a) (fun _ _ => True)
    (fun s => Genuine rt.primitives s.2 s.1 ∧ ∀ p ∈ s.2, Real p)
    (fun s r => during (originLoc s.2) s.1 r) (fun _ => Extends) where
  entry _ _ _ h := originLoc_local.entry h
  effect s r a s' o h hl ha he := by
    obtain ⟨heffect, hrecords⟩ := watched_effect_ok he
    obtain ⟨hgenuine, hsteady, ho⟩ := acted_genuine H h.1 hl ha (effect_acted heffect)
    rw [← hrecords] at hgenuine ho
    refine ⟨⟨hgenuine, hrecords ▸ note_real h.2 ha⟩, ⟨hsteady, ?_⟩, ho,
      fun e r' hr' => originLoc_local.handler hr'⟩
    rw [hrecords]
    exact note_subset s.1 r a s.2
  handler _ _ _ _ _ _ h := originLoc_local.handler h
  background _ _ b _ h := originLoc_local.background h b
  event s e h _ := by
    refine ⟨⟨?_, h.2⟩, fun _ hl => during_steady hl (change_steady s.1 e)⟩
    exact h.1.keep (change_steady s.1 e) (change_keeps s.1 e).payload
      (fun _ _ hp => .inl (change_log s.1 e ▸ hp))
  stable _ _ _ _ _ hs _ hl := during_steady (during_mono hl hs.records) hs.steady

theorem fresh_genuine {prim : Primitives} (hw : w.db.Fresh) (hlog : w.log = []) : Genuine prim [] w := by
  constructor <;> simp [hw.payoutBatches, hlog]

end Steps

section Run

open Bitmine.Broadcasting

variable {rt : Runtime} {w : World} {c : Config (World × List Preparation) Call}

/-- Recording the calls of `preparePayout` rules out no run of the system. -/
theorem run_recorded {ok : Config World Call → Action Call Answer Change → Prop}
    {c d : Config World Call} (h : (system rt).Run ok c d) (records : List Preparation) :
    ∃ records', (recorded rt).Run (fun c => ok (plain c)) (noted c records) (noted d records') :=
  run_noted h records

/-- Whatever happens to the lock, however executions interleave, fail and start again:
a payload that is sent for a batch is one that the run's own call of `preparePayout` for
that batch has returned, a call with the items of the batch, and sending it submits a
beginning of the transactions that the payload carries, and all of them unless the call
fails. -/
theorem broadcasts_what_was_prepared (H : Sealing rt.primitives) (hw : w.db.Fresh) (hlog : w.log = [])
    (h : (recorded rt).Run (Allowed shared (fun s r a => FromAdapters s.1 r a) (fun _ _ => True))
      (.idle (w, [])) c) {id : Id} {payload : String}
    (hsent : .broadcast id payload ∈ c.shared.1.log) :
    ∃ b ∈ c.shared.1.db.payoutBatches.rows, b.id = id ∧ ∃ r ∈ c.shared.2, r.batchId = id ∧
      r.asset = b.asset ∧ r.items.Perm (candidatesOf c.shared.1.db id) ∧
      r.prepared.signedPayload = payload ∧ ∃ p t,
      Prepares r.items r.deductFeeFromOutputs p r.asset ∧ r.prepared = toPrepared p ∧
      Carries p b.asset t ∧ ∀ wallets config numberText log,
        Submits (broadcast wallets config numberText payload b.asset log) log t.transactions := by
  have hend := (outline H).run (keyed_shared _)
    (Outline.idle ⟨fresh_genuine hw hlog, fun _ hp => absurd hp List.not_mem_nil⟩) h
  obtain ⟨b, hb, hid, r, hr, hbatch, hasset, hperm, rfl⟩ := hend.inv.1.sent id payload hsent
  obtain ⟨p, hp, hprepared⟩ := hend.inv.2 r hr
  obtain ⟨t, ht⟩ := carries_of_prepares hp
  have hpayload : r.prepared.signedPayload = p.signedPayload := by
    rw [hprepared]
    rfl
  refine ⟨b, hb, hid, r, hr, hbatch, hasset, hperm, rfl, p, t, hp, hprepared, hasset ▸ ht, ?_⟩
  intro wallets config numberText log
  rw [hpayload]
  exact broadcast_submits (hasset ▸ ht) _

def sampleRuntime : Runtime := { System.sampleRuntime with primitives := Envelope.samplePrimitives }

def fromAdapters (_ : World) (r : Call) (a : Answer) : Bool :=
  match r with
  | .execute ⟨_, _, _, .persist _ _⟩ => a.iv = "iv"
  | r => LedgerOutflow.fromAdapter r a

theorem fromAdapters_sound (w : World) (r : Call) (a : Answer) (h : fromAdapters w r a = true) :
    FromAdapters w r a := by
  unfold FromAdapters
  split
  · rename_i id token lost held deduct bps
    have hadapter : LedgerOutflow.FromAdapter w (.execute ⟨id, token, lost, .prepare held deduct bps⟩) a :=
      LedgerOutflow.fromAdapter_sound h
    obtain ⟨p, hp, _, hprepared⟩ := hadapter
    exact ⟨p, hp, hprepared⟩
  · rw [of_decide_eq_true h]
    exact ⟨by decide, by decide⟩
  · trivial

def samplePayment : List (Action Call Answer Change) :=
  sampleCredit ++ perform (.plan (.listDue .btc))
    [{ now := 5 }, {}, { now := 5, createdAt := 5, newId := fun n => n + 10 }] ++
  perform (.execute ⟨10, 1, false, .acquire⟩)
    [{}, {}, {}, {}, { prepared := ⟨"raw", ["tx"], 8, [⟨11, 8, 792⟩]⟩ }, { iv := "iv" }, {}, {},
      { relayed := ["tx"] }, { now := 6, newId := fun _ => 30 }, {}, {}]

def sent (c : Config (World × List Preparation) Call) : List (Id × String) :=
  c.shared.1.log.filterMap (fun o => match o with
    | .broadcast id payload => some (id, payload)
    | _ => none)

def returned (c : Config (World × List Preparation) Call) : List (Id × String) :=
  c.shared.2.map (fun r => (r.batchId, r.prepared.signedPayload))

theorem broadcasts_what_was_prepared_sample : ∃ c,
    (recorded sampleRuntime).Run
      (Allowed shared (fun s r a => FromAdapters s.1 r a) (fun _ _ => True)) (.idle (sampleWorld, [])) c ∧
    (sent c = [(10, "raw")] ∧ returned c = [(10, "raw")]) ∧
    ∃ b ∈ c.shared.1.db.payoutBatches.rows, b.id = 10 ∧ ∃ r ∈ c.shared.2, r.batchId = 10 ∧
      r.asset = b.asset ∧ r.items.Perm (candidatesOf c.shared.1.db 10) ∧
      r.prepared.signedPayload = "raw" ∧ ∃ p t,
      Prepares r.items r.deductFeeFromOutputs p r.asset ∧ r.prepared = toPrepared p ∧
      Carries p b.asset t ∧ ∀ wallets config numberText log,
        Submits (broadcast wallets config numberText "raw" b.asset log) log t.transactions := by
  have h : ((recorded sampleRuntime).execAlone (fun s r a => fromAdapters s.1 r a)
      (.idle (sampleWorld, [])) samplePayment).map (fun c => (sent c, returned c)) =
        some ([(10, "raw")], [(10, "raw")]) := by decide +kernel
  obtain ⟨c, hc, hv⟩ := Option.map_eq_some_iff.mp h
  obtain ⟨hsent, hreturned⟩ := Prod.mk.inj hv
  have hrun := (Machine.execAlone_run (P := fun s r a => FromAdapters s.1 r a) (Q := fun _ _ => True)
    shared (fun s r a => fromAdapters_sound s.1 r a) (fun _ _ => rfl) hc).1
  have hlogged : .broadcast 10 "raw" ∈ c.shared.1.log := by
    have hmem : (10, "raw") ∈ sent c := by simp [hsent]
    obtain ⟨o, ho, hsome⟩ := List.mem_filterMap.mp hmem
    split at hsome
    · cases hsome
      exact ho
    · cases hsome
  exact ⟨c, hrun, ⟨hsent, hreturned⟩, broadcasts_what_was_prepared Envelope.samplePrimitives_sealing
    sampleWorld_fresh rfl hrun hlogged⟩

end Run

end Bitmine.PayloadOrigin
