import Bitmine.NoOvercommit

namespace Bitmine.Payloads

open Bitmine.Lib.UniqueTable Bitmine.Lib.Throwing Bitmine.Lib.Await
open Bitmine.Schema Bitmine.Deployment Bitmine.Security Bitmine.AllocationSpec Bitmine.Deposits
open Bitmine.Shares Bitmine.Payouts Bitmine.Execute Bitmine.PayoutHistory Bitmine.System
open Bitmine.Commitments Bitmine.NoOvercommit

/-- The payload of a batch is as before, and until the batch has been posted so
are the transactions it was stored with. -/
structure SamePayload (b b' : PayoutBatch) : Prop where
  id : b'.id = b.id
  signedPayload : b'.signedPayload = b.signedPayload
  expected : b'.broadcastAt = none → b.broadcastAt = none ∧ b'.transactionIds = b.transactionIds

structure SameSigned (b b' : PayoutBatch) : Prop extends SamePayload b b' where
  transactionIds : b'.transactionIds = b.transactionIds

theorem SameSigned.refl (b : PayoutBatch) : SameSigned b b := ⟨⟨rfl, rfl, fun h => ⟨h, rfl⟩⟩, rfl⟩

structure Keeps (R : PayoutBatch → PayoutBatch → Prop) (db db' : Database) : Prop where
  old : ∀ b ∈ db.payoutBatches.rows, ∃ b' ∈ db'.payoutBatches.rows, R b b'
  new : ∀ b' ∈ db'.payoutBatches.rows, (∃ b ∈ db.payoutBatches.rows, R b b') ∨
    (b'.signedPayload = none ∧ ∀ b ∈ db.payoutBatches.rows, b.id ≠ b'.id)

theorem Keeps.payload {db db' : Database} (h : Keeps SameSigned db db') :
    Keeps SamePayload db db' := by
  refine ⟨fun b hb => ?_, fun b' hb' => (h.new b' hb').imp_left ?_⟩
  · obtain ⟨b', hb', hs⟩ := h.old b hb
    exact ⟨b', hb', hs.toSamePayload⟩
  · rintro ⟨b, hb, hs⟩
    exact ⟨b, hb, hs.toSamePayload⟩

theorem Keeps.of_map {R : PayoutBatch → PayoutBatch → Prop} {db db' : Database}
    {f : PayoutBatch → PayoutBatch} (hb : db'.payoutBatches.rows = db.payoutBatches.rows.map f)
    (hf : ∀ b, R b (f b)) : Keeps R db db' := by
  refine ⟨fun b h => ⟨f b, ?_, hf b⟩, fun b' h => ?_⟩
  · rw [hb]
    exact List.mem_map_of_mem h
  · rw [hb] at h
    obtain ⟨b, hm, rfl⟩ := List.mem_map.mp h
    exact .inl ⟨b, hm, hf b⟩

theorem Keeps.of_eq {db db' : Database} (h : db'.payoutBatches = db.payoutBatches) :
    Keeps SameSigned db db' :=
  .of_map (f := fun b => b) (by rw [h, List.map_id']) .refl

theorem Keeps.updateBatch {db db' : Database} {id : Id} {f : PayoutBatch → PayoutBatch}
    {hf : KeepsKeys f} (h : updateBatch db id f hf = .ok db') (hs : ∀ b, SameSigned b (f b)) :
    Keeps SameSigned db db' := by
  refine .of_map (updateBatch_ok h).2.1 (fun b => ?_)
  split
  · exact hs b
  · exact .refl b

theorem Keeps.planned {rt : Runtime} {a : Answer} {db db' : Database} {asset : AssetCode}
    {policy : PayoutPolicySetting} {kind : PayoutKind} {payer : NetworkFeePayer}
    {items : List NewItem} (hp : Planned rt a db db' asset policy kind payer items) :
    Keeps SameSigned db db' := by
  refine ⟨fun b h => ⟨b, by simp [hp.created.batches, h], .refl b⟩, fun b' h => ?_⟩
  rw [hp.created.batches, List.mem_append, List.mem_singleton] at h
  obtain h | rfl := h
  · exact .inl ⟨b', h, .refl b'⟩
  · exact .inr ⟨rfl, fun b hb he => hp.created.fresh b hb (.inl he)⟩

structure Quiet (w w' : World) : Prop where
  signed : ∀ id s ids, .signed id s ids ∈ w'.log ↔ .signed id s ids ∈ w.log
  broadcast : ∀ id p, .broadcast id p ∈ w'.log ↔ .broadcast id p ∈ w.log

theorem Quiet.of_log {w w' : World} (h : w'.log = w.log) : Quiet w w' := by
  constructor <;> simp [h]

theorem Quiet.received {w w' : World} {asset : AssetCode} {receipt : WalletReceipt}
    (h : w'.log = w.log ++ [.received asset receipt]) : Quiet w w' := by
  constructor <;> simp [h]

theorem Quiet.totpPassed {w w' : World} {id adminId : Id}
    (h : w'.log = w.log ++ [.totpPassed id adminId]) : Quiet w w' := by
  constructor <;> simp [h]

theorem acted_quiet {rt : Runtime} {w w' : World} {r : Call} {a : Answer} {o : Option Call}
    (hr : executing r = none) (ha : Acted rt w a r w' o) :
    Keeps SameSigned w.db w'.db ∧ Quiet w w' := by
  cases ha with
  | execute => cases hr
  | allocate hd => exact ⟨.of_eq (allocate_batches hd), .of_log rfl⟩
  | scan hs =>
    refine ⟨.of_eq (scanned_batches hs).1, ?_⟩
    cases hs with
    | upsert => exact .received rfl
    | readUpstreams | scanReceipts | locked | read | reorg | allocate => exact .of_log rfl
  | share hs => exact ⟨.of_eq (journals_payouts hs).batches, .of_log rfl⟩
  | prepares | preparesOperator => exact ⟨.of_eq rfl, .of_log rfl⟩
  | plans hp | plansOperator hp => exact ⟨.planned hp, .of_log rfl⟩
  | approve hx =>
    cases hx with
    | assertTotp ht => exact ⟨.of_eq rfl, .totpPassed rfl⟩
    | readBatch hn => exact ⟨.of_eq rfl, .of_log rfl⟩
    | write hd => exact ⟨.updateBatch hd (fun b => ⟨⟨rfl, rfl, fun h => ⟨h, rfl⟩⟩, rfl⟩), .of_log rfl⟩
  | reconcile hx =>
    cases hx with
    | list | pass | enough => exact ⟨.of_eq rfl, .of_log rfl⟩
    | write hd => exact ⟨.updateBatch hd (fun b => ⟨⟨rfl, rfl, fun h => ⟨h, rfl⟩⟩, rfl⟩), .of_log rfl⟩

/-- A stored payload opens to what is being sent. -/
def Stored (prim : Primitives) (db : Database) (id : Id) (payload : String) : Prop :=
  ∃ b ∈ db.payoutBatches.rows, b.id = id ∧
    ∃ stored, b.signedPayload = some stored ∧ openPayload prim id stored = .ok payload

/-- The database holds the only payload ever stored for a batch, and everything
sent was opened from it. -/
structure Sealed (prim : Primitives) (w : World) : Prop where
  nonempty : ∀ b ∈ w.db.payoutBatches.rows, b.signedPayload ≠ some ""
  logged : ∀ b ∈ w.db.payoutBatches.rows, ∀ s, b.signedPayload = some s →
    ∃ ids, .signed b.id s ids ∈ w.log ∧ (b.broadcastAt = none → ids = b.transactionIds)
  kept : ∀ id s ids, .signed id s ids ∈ w.log →
    ∃ b ∈ w.db.payoutBatches.rows, b.id = id ∧ b.signedPayload = some s
  sent : ∀ id p, .broadcast id p ∈ w.log → Stored prim w.db id p

/-- A payload once stored stays. -/
def Persists (db db' : Database) : Prop :=
  ∀ b ∈ db.payoutBatches.rows, ∀ s, b.signedPayload = some s →
    ∃ b' ∈ db'.payoutBatches.rows, b'.id = b.id ∧ b'.signedPayload = some s

theorem Keeps.persists {db db' : Database} (h : Keeps SamePayload db db') : Persists db db' := by
  intro b hb s hs
  obtain ⟨b', hb', hsame⟩ := h.old b hb
  exact ⟨b', hb', hsame.id, hsame.signedPayload.trans hs⟩

theorem Stored.persist {prim : Primitives} {db db' : Database} {id : Id} {p : String}
    (h : Stored prim db id p) (hp : Persists db db') : Stored prim db' id p := by
  obtain ⟨b, hb, hid, s, hs, ho⟩ := h
  obtain ⟨b', hb', hid', hs'⟩ := hp b hb s hs
  exact ⟨b', hb', hid'.trans hid, s, hs', ho⟩

theorem Sealed.keep {prim : Primitives} {w w' : World} (h : Sealed prim w)
    (hk : Keeps SamePayload w.db w'.db) (hq : Quiet w w') : Sealed prim w' := by
  have hback : ∀ b' ∈ w'.db.payoutBatches.rows, ∀ s, b'.signedPayload = some s →
      ∃ b ∈ w.db.payoutBatches.rows, SamePayload b b' ∧ b.signedPayload = some s := by
    intro b' hb' s hs
    obtain ⟨b, hb, hsame⟩ | ⟨hn, _⟩ := hk.new b' hb'
    · exact ⟨b, hb, hsame, hsame.signedPayload.symm.trans hs⟩
    · rw [hn] at hs
      cases hs
  refine ⟨?_, ?_, ?_, ?_⟩
  · intro b' hb' hs
    obtain ⟨b, hb, _, hs'⟩ := hback b' hb' _ hs
    exact h.nonempty b hb hs'
  · intro b' hb' s hs
    obtain ⟨b, hb, hsame, hs'⟩ := hback b' hb' s hs
    obtain ⟨ids, hl, hids⟩ := h.logged b hb s hs'
    refine ⟨ids, (hq.signed _ _ _).mpr (hsame.id ▸ hl), fun hn => ?_⟩
    obtain ⟨hn', heq⟩ := hsame.expected hn
    exact (hids hn').trans heq.symm
  · intro id s ids hl
    obtain ⟨b, hb, hid, hs⟩ := h.kept id s ids ((hq.signed _ _ _).mp hl)
    obtain ⟨b', hb', hid', hs'⟩ := hk.persists b hb s hs
    exact ⟨b', hb', hid'.trans hid, hs'⟩
  · intro id p hl
    exact (h.sent id p ((hq.broadcast _ _).mp hl)).persist hk.persists

theorem truthy_some {o : Option String} {s : String} (h : truthy o = some s) : o = some s := by
  unfold truthy at h
  split at h
  · split at h
    · cases h
    · exact h
  · cases h

theorem truthy_none {o : Option String} (h : truthy o = none) (ho : o ≠ some "") : o = none := by
  unfold truthy at h
  split at h
  · split at h
    · rename_i hs
      exact absurd (congrArg some hs) ho
    · cases h
  · rfl

theorem encrypt_ne_empty (prim : Primitives) (iv plaintext context : String) :
    encrypt prim iv plaintext context ≠ "" := by
  intro h
  have := congrArg String.toList h
  simp [encrypt] at this

theorem Sealed.send {prim : Primitives} {w : World} (h : Sealed prim w) {id : Id} {p : String}
    (hs : Stored prim w.db id p) : Sealed prim (w.observe (.broadcast id p)) := by
  refine ⟨h.nonempty, ?_, ?_, ?_⟩
  · intro b hb s hp
    obtain ⟨ids, hl, hids⟩ := h.logged b hb s hp
    exact ⟨ids, by simp [hl], hids⟩
  · intro id' s ids hl
    exact h.kept id' s ids (by simpa using hl)
  · intro id' p' hl
    simp only [World.observe_log, List.mem_append, List.mem_singleton, Observation.broadcast.injEq] at hl
    obtain hl | ⟨rfl, rfl⟩ := hl
    · exact h.sent id' p' hl
    · exact hs

/-- A payload stored where there was none. -/
theorem Sealed.sign {prim : Primitives} {w : World} (h : Sealed prim w) {id : Id} {stored : String}
    {prepared : PreparedPayout} {db : Database}
    (hd : persistTransaction w.db id stored prepared = .ok db) (hne : stored ≠ "")
    (hnull : ∀ b ∈ w.db.payoutBatches.rows, b.id = id → b.signedPayload = none) :
    Sealed prim ((w.store db).observe (.signed id stored prepared.transactionIds)) ∧
      Persists w.db db := by
  obtain ⟨⟨b₀, hb₀, hid₀⟩, _, hrows, _⟩ := persistTransaction_ok hd
  have hrow : ∀ b' ∈ db.payoutBatches.rows, ∃ b ∈ w.db.payoutBatches.rows,
      b' = if b.id = id then signBatch stored prepared b else b := by
    intro b' hb'
    rw [hrows] at hb'
    obtain ⟨b, hb, rfl⟩ := List.mem_map.mp hb'
    exact ⟨b, hb, rfl⟩
  have hpersist : Persists w.db db := by
    intro b hb s hs
    have hne : b.id ≠ id := by
      intro he
      rw [hnull b hb he] at hs
      cases hs
    refine ⟨b, ?_, rfl, hs⟩
    rw [hrows]
    exact List.mem_map.mpr ⟨b, hb, if_neg hne⟩
  refine ⟨⟨?_, ?_, ?_, ?_⟩, hpersist⟩
  · intro b' hb'
    obtain ⟨b, hb, rfl⟩ := hrow b' hb'
    split
    · exact fun hs => hne (Option.some.inj hs)
    · exact h.nonempty b hb
  · intro b' hb' s hs
    obtain ⟨b, hb, rfl⟩ := hrow b' hb'
    split at hs
    · rename_i hid
      cases hs
      refine ⟨prepared.transactionIds, ?_⟩
      rw [if_pos hid]
      exact ⟨by simp [signBatch, hid], fun _ => rfl⟩
    · rename_i hid
      obtain ⟨ids, hl, hids⟩ := h.logged b hb s hs
      rw [if_neg hid]
      exact ⟨ids, by simp [hl], hids⟩
  · intro id' s ids hl
    simp only [World.observe_log, World.store_log, List.mem_append, List.mem_singleton,
      Observation.signed.injEq] at hl
    obtain hl | ⟨rfl, rfl, rfl⟩ := hl
    · obtain ⟨b, hb, hid, hs⟩ := h.kept id' s ids hl
      obtain ⟨b', hb', hid', hs'⟩ := hpersist b hb s hs
      exact ⟨b', hb', hid'.trans hid, hs'⟩
    · refine ⟨signBatch s prepared b₀, ?_, hid₀, rfl⟩
      show _ ∈ db.payoutBatches.rows
      rw [hrows]
      exact List.mem_map.mpr ⟨b₀, hb₀, if_pos hid₀⟩
  · intro id' p hl
    have hl' : .broadcast id' p ∈ w.log := by simpa using hl
    exact (h.sent id' p hl').persist hpersist

theorem postItems_batches {a : Answer} {b : PayoutBatch} (items : List PayoutItem)
    {db db' : Database} (h : items.foldlM (postItem a b) db = .ok db') :
    db'.payoutBatches = db.payoutBatches := by
  refine foldlM_invariant (fun d => d.payoutBatches = db.payoutBatches) items ?_ rfl h
  intro i _ d d' hd hp
  obtain ⟨_, rfl⟩ | hposts := postItem_ok hp
  · exact hd
  · exact hposts.batches.trans hd

theorem postTransaction_batches {a : Answer} {db db' : Database} {id : Id} {held : Held}
    {ids : List String} (h : postTransaction a db id held ids = .ok db') :
    db'.payoutBatches.rows = db.payoutBatches.rows.map
      (fun b => if b.id = id then broadcastBatch a.now ids b else b) := by
  simp only [postTransaction, bind_eq_ok] at h
  obtain ⟨mid, hl, hu⟩ := h
  rw [(updateBatch_ok hu).2.1, postItems_batches _ hl]

def sends (prim : Primitives) (w : World) (c : ExecuteCall) : Prop :=
  match c.point with
  | .queryKnown _ payload => Stored prim w.db c.id payload
  | .broadcast _ payload => Stored prim w.db c.id payload
  | _ => True

def signsFirst (w : World) (c : ExecuteCall) : Prop :=
  match c.point with
  | .persist _ _ => ∀ b ∈ w.db.payoutBatches.rows, b.id = c.id → b.signedPayload = none
  | _ => True

theorem stored_of_reads {rt : Runtime} {w : World} {c : ExecuteCall} {a : Answer} {held : Held}
    {stored payload : String} (hr : Reads w c a held)
    (hs : truthy held.batch.signedPayload = some stored)
    (ho : openPayload rt.primitives c.id stored = .ok payload) :
    Stored rt.primitives w.db c.id payload :=
  ⟨held.batch, hr.stored, hr.id, stored, truthy_some hs, ho⟩

theorem executed_sealed {rt : Runtime} {w w' : World} {a : Answer} {c : ExecuteCall}
    {o : Option ExecuteCall} (hx : Executed rt w c a w' o) (h : Sealed rt.primitives w)
    (hl : sends rt.primitives w c) (hfirst : signsFirst w c) :
    Sealed rt.primitives w' ∧ Persists w.db w'.db ∧ ∀ c' ∈ o, sends rt.primitives w' c' := by
  have hrefl : Persists w.db w.db := (Keeps.of_eq rfl).payload.persists
  have hlock : ∀ lock, Sealed rt.primitives { w with lock := lock } :=
    fun lock => h.keep (Keeps.of_eq rfl).payload (.of_log rfl)
  cases hx with
  | acquire | checkReorg | unsigned | readPolicy | prepare | known | readResult | fails
  | failsLater =>
    first
    | exact ⟨h, hrefl, by rintro _ ⟨⟩; trivial⟩
    | exact ⟨hlock _, hrefl, by rintro _ ⟨⟩; trivial⟩
  | release => exact ⟨hlock _, hrefl, by rintro _ ⟨⟩⟩
  | opened hp hr hs ho ht =>
    have hst : Stored rt.primitives w.db c.id _ := stored_of_reads hr hs ho
    refine ⟨h, hrefl, ?_⟩
    rintro _ ⟨⟩
    obtain rfl | rfl := ht <;> exact hst
  | unknown hp =>
    refine ⟨h, hrefl, ?_⟩
    rintro _ ⟨⟩
    simp only [sends, hp] at hl
    exact hl
  | persist hp hs hd =>
    simp only [signsFirst, hp] at hfirst
    obtain ⟨hsealed, hpersist⟩ := h.sign hd (hs ▸ encrypt_ne_empty _ _ _ _) hfirst
    exact ⟨hsealed, hpersist, by rintro _ ⟨⟩; trivial⟩
  | broadcast hp ht =>
    simp only [sends, hp] at hl
    refine ⟨h.send hl, hrefl, ?_⟩
    rintro _ ⟨⟩
    obtain rfl | ⟨e, rfl⟩ := ht <;> trivial
  | post hp hd =>
    have hk : Keeps SamePayload w.db _ := .of_map (postTransaction_batches hd) (fun b => by
      split
      · exact ⟨rfl, rfl, fun hn => by cases hn⟩
      · exact (SameSigned.refl b).toSamePayload)
    exact ⟨h.keep hk (.of_log rfl), hk.persists, by rintro _ ⟨⟩; trivial⟩
  | markFailed hp hd =>
    have hk := (Keeps.updateBatch hd (fun b => ⟨⟨rfl, rfl, fun h => ⟨h, rfl⟩⟩, rfl⟩)).payload
    exact ⟨h.keep hk (.of_log rfl), hk.persists, by rintro _ ⟨⟩; trivial⟩

end Bitmine.Payloads
