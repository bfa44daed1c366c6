import Bitmine.Payloads

namespace Bitmine.CrashSafety

open Bitmine.Lib.UniqueTable Bitmine.Lib.Throwing Bitmine.Lib.Await
open Bitmine.Schema Bitmine.Deployment Bitmine.Security Bitmine.Payouts Bitmine.Execute
open Bitmine.PayoutHistory Bitmine.System Bitmine.Commitments Bitmine.NoOvercommit
open Bitmine.Payloads

def during (L : World → ExecuteCall → Prop) (w : World) : Call → Prop
  | .execute c => L w c
  | _ => True

/-- An assertion that has nothing to say before the first and after the last
effect of the `try` block, and does not look at the lock. -/
structure Local (L : World → ExecuteCall → Prop) : Prop where
  acquire : ∀ w c, c.point = .acquire → L w c
  release : ∀ w c, c.point = .release → L w c
  markFailed : ∀ w c e, c.point = .markFailed e → L w c
  renew : ∀ w c b, L w c → L w (renew w c b)

section Local

variable {L : World → ExecuteCall → Prop} (hL : Local L)
include hL

theorem Local.entry {w : World} {r : Call} (h : r.entry = true) : during L w r := by
  cases r with
  | execute c => exact hL.acquire w c (entry_point h)
  | allocate d | scan c | share c | plan c | planOperator c | approve c | reconcile c => trivial

theorem Local.handler {w : World} {r r' : Call} {e : String} (h : System.handler r e = some r') :
    during L w r' := by
  cases r with
  | execute c =>
    obtain ⟨c', hc, rfl⟩ := Option.map_eq_some_iff.mp h
    rw [Execute.handler] at hc
    split at hc <;> cases hc
    · exact hL.release _ _ rfl
    · exact hL.release _ _ rfl
    · exact hL.release _ _ rfl
    · exact hL.markFailed _ _ _ rfl
  | scan c =>
    obtain ⟨c', _, rfl⟩ := Option.map_eq_some_iff.mp h
    trivial
  | allocate d | share c | plan c | planOperator c | approve c | reconcile c => cases h

theorem Local.background {w : World} {r : Call} (h : during L w r) (b : Bool) :
    during L w (System.background w r b) := by
  cases r with
  | execute c => exact hL.renew w c b h
  | allocate d | scan c | share c | plan c | planOperator c | approve c | reconcile c => trivial

omit hL in
theorem during_of_quiet {rt : Runtime} {w w' : World} {a : Answer} {r : Call} {o : Option Call}
    (hr : executing r = none) (ha : Acted rt w a r w' o) : ∀ r' ∈ o, during L w' r' := by
  rintro r' rfl
  have hk := ha.executing_eq
  rw [hr] at hk
  cases r' with
  | execute c => cases hk
  | allocate d | scan c | share c | plan c | planOperator c | approve c | reconcile c => trivial

end Local

section Unlocked

theorem sends_local (prim : Primitives) : Local (sends prim) := by
  refine ⟨?_, ?_, ?_, ?_⟩
  · intro w c hp
    simp [sends, hp]
  · intro w c hp
    simp [sends, hp]
  · intro w c e hp
    simp [sends, hp]
  · intro w c b h
    simpa only [sends, renew_point, renew_id] using h

theorem sends_persist {prim : Primitives} {w w' : World} (hp : Persists w.db w'.db)
    {c : ExecuteCall} (h : sends prim w c) : sends prim w' c := by
  unfold sends at h ⊢
  split at h
  · exact h.persist hp
  · exact h.persist hp
  · trivial

theorem during_persist {prim : Primitives} {w w' : World} (hp : Persists w.db w'.db) {r : Call}
    (h : during (sends prim) w r) : during (sends prim) w' r := by
  cases r with
  | execute c => exact sends_persist hp h
  | allocate d | scan c | share c | plan c | planOperator c | approve c | reconcile c => trivial

/-- The signing write of an execution finds its batch without a payload. -/
def SignsOnce (w : World) (r : Call) (_ : Answer) : Prop :=
  during signsFirst w r

theorem change_keeps (w : World) (e : Change) : Keeps SameSigned w.db (change w e).db :=
  .of_eq (change_payouts w e).batches

theorem acted_sealed {rt : Runtime} {w w' : World} {r : Call} {a : Answer} {o : Option Call}
    (h : Sealed rt.primitives w) (hl : during (sends rt.primitives) w r)
    (hs : SignsOnce w r a) (ha : Acted rt w a r w' o) :
    Sealed rt.primitives w' ∧ Persists w.db w'.db ∧
      ∀ r' ∈ o, during (sends rt.primitives) w' r' := by
  cases r with
  | execute c =>
    cases ha with
    | execute hx =>
      obtain ⟨hsealed, hp, ho⟩ := executed_sealed hx h hl hs
      refine ⟨hsealed, hp, fun r' hr' => ?_⟩
      obtain ⟨c', hc', rfl⟩ := Option.map_eq_some_iff.mp hr'
      exact ho c' hc'
  | allocate d | scan c | share c | plan c | planOperator c | approve c | reconcile c =>
    obtain ⟨hk, hq⟩ := acted_quiet rfl ha
    exact ⟨h.keep hk.payload hq, hk.payload.persists, during_of_quiet rfl ha⟩

theorem change_sealed {prim : Primitives} {w : World} (h : Sealed prim w) (e : Change) :
    Sealed prim (change w e) := h.keep (change_keeps w e).payload (.of_log (change_log w e))

theorem outline_signsOnce (rt : Runtime) : Outline (system rt) (shared (ρ := Call)) SignsOnce
    (fun _ _ => True) (Sealed rt.primitives) (during (sends rt.primitives))
    (fun _ w w' => Persists w.db w'.db) where
  entry _ _ _ h := (sends_local _).entry h
  effect _ _ _ _ _ h hl hs he := by
    obtain ⟨hsealed, hp, ho⟩ := acted_sealed h hl hs (effect_acted he)
    exact ⟨hsealed, hp, ho, fun e r' hr' => (sends_local _).handler hr'⟩
  handler _ _ _ _ _ _ h := (sends_local _).handler h
  background _ _ b _ h := (sends_local _).background h b
  event w e h _ := ⟨change_sealed h e, fun _ hl => during_persist (change_keeps w e).payload.persists hl⟩
  stable _ _ _ _ _ hp _ hl := during_persist hp hl

theorem fresh_sealed {prim : Primitives} {w : World} (hw : w.db.Fresh) (hlog : w.log = []) :
    Sealed prim w := by
  constructor <;> simp [hw.payoutBatches, hlog]

theorem Sealed.broadcast_unique {prim : Primitives} {w : World} (h : Sealed prim w) {id : Id}
    {p q : String} (hp : .broadcast id p ∈ w.log) (hq : .broadcast id q ∈ w.log) : p = q := by
  obtain ⟨b, hb, hid, s, hs, ho⟩ := h.sent id p hp
  obtain ⟨b', hb', hid', s', hs', ho'⟩ := h.sent id q hq
  have hbb : b = b' := w.db.payoutBatches.eq_of_id hb hb' (hid.trans hid'.symm)
  subst hbb
  rw [hs] at hs'
  cases hs'
  rw [ho] at ho'
  cases ho'
  rfl

/-- However executions interleave and whatever happens to the lock, a batch
sends one payload as long as no signing write replaces a stored one. -/
theorem broadcast_unique_of_signsOnce {rt : Runtime} {w : World} {c : Config World Call}
    (hw : w.db.Fresh) (hlog : w.log = [])
    (h : (system rt).Run (Allowed shared SignsOnce (fun _ _ => True)) (.idle w) c) {id : Id}
    {p q : String} (hp : .broadcast id p ∈ c.shared.log) (hq : .broadcast id q ∈ c.shared.log) :
    p = q := by
  have hs := (outline_signsOnce rt).run (keyed_shared _) (Outline.idle (fresh_sealed hw hlog)) h
  exact Sealed.broadcast_unique hs.inv hp hq

def unsigned (db : Database) (id : Id) : Bool :=
  db.payoutBatches.rows.all (fun b => b.id ≠ id ∨ b.signedPayload = none)

def signsOnce (w : World) (r : Call) (_ : Answer) : Bool :=
  match r with
  | .execute ⟨id, _, _, .persist _ _⟩ => unsigned w.db id
  | _ => true

theorem signsOnce_sound (w : World) (r : Call) (a : Answer) (h : signsOnce w r a = true) :
    SignsOnce w r a := by
  cases r with
  | execute c =>
    obtain ⟨id, token, lockLost, point⟩ := c
    cases point with
    | persist held prepared =>
      intro b hb hid
      simp only [signsOnce, unsigned, List.all_eq_true, decide_eq_true_eq] at h
      exact (h b hb).resolve_left (fun hne => hne hid)
    | _ => trivial
  | _ => trivial

def broadcasts (w : World) (id : Id) : List String :=
  w.log.filterMap (fun o => match o with
    | .broadcast b p => if b = id then some p else none
    | _ => none)

theorem mem_broadcasts {w : World} {id : Id} {p : String} :
    p ∈ broadcasts w id ↔ .broadcast id p ∈ w.log := by
  simp only [broadcasts, List.mem_filterMap]
  constructor
  · rintro ⟨o, ho, hp⟩
    split at hp
    · split at hp
      · rename_i hb
        cases hp
        exact hb ▸ ho
      · cases hp
    · cases hp
  · exact fun h => ⟨_, h, by simp⟩

theorem broadcast_unique_sample : ∃ c, (system sampleRuntime).Run
    (Allowed shared SignsOnce (fun _ _ => True)) (.idle sampleWorld) c ∧
    .broadcast 10 "raw" ∈ c.shared.log ∧
      ∀ p, .broadcast 10 p ∈ c.shared.log → p = "raw" := by
  obtain ⟨c, hr, hv⟩ := execAlone_sample shared (P := SignsOnce)
    (Q := fun _ _ => True) signsOnce_sound (sampleCredit ++ samplePayout)
    (f := fun c => broadcasts c.shared 10) (v := ["raw"]) (by decide +kernel)
  have hm : .broadcast 10 "raw" ∈ c.shared.log := mem_broadcasts.mp (by simp [hv])
  exact ⟨c, hr, hm, fun p hp =>
    broadcast_unique_of_signsOnce sampleWorld_fresh rfl hr hp hm⟩

/-- The wallet has prepared a payout when the lock key disappears. A second
execution signs and sends another one; then the first goes on. -/
def overlappingExecutions : List (Action Call Answer Change) :=
  [.call 0 (.plan (.listDue .btc)), .resolve 0 { now := 5 }, .resolve 0 {},
    .resolve 0 { now := 5, createdAt := 5, newId := fun n => n + 10 },
    .call 1 (.execute ⟨10, 1, false, .acquire⟩), .resolve 1 {}, .resolve 1 {}, .resolve 1 {},
    .resolve 1 {}, .resolve 1 { prepared := ⟨"first", ["tx1"], 8, [⟨11, 8, 792⟩]⟩ },
    .event .lockVanishes,
    .call 2 (.execute ⟨10, 2, false, .acquire⟩), .resolve 2 {}, .resolve 2 {}, .resolve 2 {},
    .resolve 2 {}, .resolve 2 { prepared := ⟨"second", ["tx2"], 8, [⟨11, 8, 792⟩]⟩ },
    .resolve 2 { iv := "iv" }, .resolve 2 {}, .resolve 2 {}, .resolve 2 { relayed := ["tx2"] },
    .resolve 1 { iv := "iv" }, .resolve 1 {}, .resolve 1 {}, .resolve 1 { relayed := ["tx1"] }]

/-- Without the lock two payloads of one batch go out. -/
theorem broadcast_not_unique : ¬ ∀ (rt : Runtime) (w : World) (c : Config World Call),
    w.db.Fresh → w.log = [] → (system rt).Reaches (.idle w) c → ∀ id p q,
      .broadcast id p ∈ c.shared.log → .broadcast id q ∈ c.shared.log → p = q := by
  intro h
  obtain ⟨c, hr, hv⟩ := exec_sample (sampleCredit ++ overlappingExecutions)
    (f := fun c => broadcasts c.shared 10) (v := ["second", "first"]) (by decide +kernel)
  have hone := h sampleRuntime sampleWorld c sampleWorld_fresh rfl hr 10 "first" "second"
    (mem_broadcasts.mp (by simp [hv])) (mem_broadcasts.mp (by simp [hv]))
  exact absurd hone (by decide)

end Unlocked

section Exclusive

/-- What an execution knows of its batch when no other execution of it runs:
there is no payload until it stores one, and the transactions it expects are
the stored ones. -/
def alone (w : World) (c : ExecuteCall) : Prop :=
  match c.point with
  | .readPolicy _ => ∀ b ∈ w.db.payoutBatches.rows, b.id = c.id → b.signedPayload = none
  | .prepare _ _ _ => ∀ b ∈ w.db.payoutBatches.rows, b.id = c.id → b.signedPayload = none
  | .persist _ _ => ∀ b ∈ w.db.payoutBatches.rows, b.id = c.id → b.signedPayload = none
  | .queryKnown held _ => ∀ b ∈ w.db.payoutBatches.rows, b.id = c.id →
      b.transactionIds = held.batch.transactionIds
  | .broadcast held _ => ∀ b ∈ w.db.payoutBatches.rows, b.id = c.id →
      b.transactionIds = held.batch.transactionIds
  | _ => True

def informed (prim : Primitives) (w : World) (c : ExecuteCall) : Prop := sends prim w c ∧ alone w c

theorem informed_local (prim : Primitives) : Local (informed prim) := by
  have hs := sends_local prim
  refine ⟨?_, ?_, ?_, ?_⟩
  · intro w c hp
    exact ⟨hs.acquire w c hp, by simp [alone, hp]⟩
  · intro w c hp
    exact ⟨hs.release w c hp, by simp [alone, hp]⟩
  · intro w c e hp
    exact ⟨hs.markFailed w c e hp, by simp [alone, hp]⟩
  · intro w c b h
    exact ⟨hs.renew w c b h.1, by simpa only [alone, renew_point, renew_id] using h.2⟩

theorem signsFirst_of_alone {w : World} {c : ExecuteCall} (h : alone w c) : signsFirst w c := by
  rw [signsFirst]
  split
  · rename_i held prepared hp
    simp only [alone, hp] at h
    exact h
  · trivial

theorem eq_of_reads {w : World} {c : ExecuteCall} {a : Answer} {held : Held} (hr : Reads w c a held)
    {b : PayoutBatch} (hb : b ∈ w.db.payoutBatches.rows) (hid : b.id = c.id) : b = held.batch :=
  w.db.payoutBatches.eq_of_id hb hr.stored (hid.trans hr.id.symm)

theorem executed_alone {rt : Runtime} {w w' : World} {a : Answer} {c c' : ExecuteCall}
    (hx : Executed rt w c a w' (some c')) (h : Sealed rt.primitives w) (hl : alone w c) :
    alone w' c' := by
  generalize ho : some c' = o at hx
  cases hx with
  | unsigned hp hr hs hu =>
    cases ho
    intro b hb hid
    rw [eq_of_reads hr hb hid]
    exact truthy_none hu (h.nonempty _ hr.stored)
  | opened hp hr hs ho' ht =>
    cases ho
    have hids : ∀ b ∈ w.db.payoutBatches.rows, b.id = c.id → b.transactionIds = _ :=
      fun b hb hid => congrArg PayoutBatch.transactionIds (eq_of_reads hr hb hid)
    obtain rfl | rfl := ht <;> exact hids
  | readPolicy hp hb | prepare hp hf | unknown hp =>
    cases ho
    simp only [alone, hp] at hl
    exact hl
  | broadcast hp ht =>
    cases ho
    obtain rfl | ⟨e, rfl⟩ := ht <;> trivial
  | acquire | checkReorg | persist | known | post | readResult | fails | failsLater | markFailed =>
    cases ho
    trivial
  | release => cases ho

theorem executed_frame {rt : Runtime} {w w' : World} {a : Answer} {c : ExecuteCall}
    {o : Option ExecuteCall} (hx : Executed rt w c a w' o) {b : PayoutBatch}
    (hb : b ∈ w'.db.payoutBatches.rows) (hid : b.id ≠ c.id) : b ∈ w.db.payoutBatches.rows := by
  have hmap : ∀ {l : List PayoutBatch} {f : PayoutBatch → PayoutBatch},
      (∀ b, (f b).id = b.id) → b ∈ l.map (fun b => if b.id = c.id then f b else b) → b ∈ l := by
    intro l f hf hm
    obtain ⟨b₀, hm, rfl⟩ := List.mem_map.mp hm
    split at hid
    · rename_i he
      exact absurd ((hf b₀).trans he) hid
    · rename_i he
      rwa [if_neg he]
  cases hx with
  | acquire | checkReorg | unsigned | opened | readPolicy | prepare | known | unknown | broadcast
  | readResult | fails | failsLater | release => exact hb
  | persist hp hs hd =>
    obtain ⟨_, _, hrows, _⟩ := persistTransaction_ok hd
    exact hmap (f := signBatch _ _) (fun _ => rfl) (hrows ▸ hb)
  | post hp hd => exact hmap (f := broadcastBatch _ _) (fun _ => rfl) (postTransaction_batches hd ▸ hb)
  | markFailed hp hd => exact hmap (f := failBatch _) (fun _ => rfl) ((updateBatch_ok hd).2.1 ▸ hb)

structure KeepsOthers (r : Call) (w w' : World) : Prop where
  persists : Persists w.db w'.db
  others : ∀ b' ∈ w'.db.payoutBatches.rows, executing r ≠ some b'.id →
    (∃ b ∈ w.db.payoutBatches.rows, SameSigned b b') ∨
      (b'.signedPayload = none ∧ ∀ b ∈ w.db.payoutBatches.rows, b.id ≠ b'.id)

theorem KeepsOthers.of_keeps {r : Call} {w w' : World} (h : Keeps SameSigned w.db w'.db) :
    KeepsOthers r w w' := ⟨h.payload.persists, fun b' hb' _ => h.new b' hb'⟩

theorem informed_stable {prim : Primitives} {r : Call} {w w' : World} (hk : KeepsOthers r w w')
    {c : ExecuteCall} (hr : executing r ≠ some c.id) (h : informed prim w c) : informed prim w' c := by
  obtain ⟨hs, ha⟩ := h
  refine ⟨sends_persist hk.persists hs, ?_⟩
  have hnone : (∀ b ∈ w.db.payoutBatches.rows, b.id = c.id → b.signedPayload = none) →
      ∀ b ∈ w'.db.payoutBatches.rows, b.id = c.id → b.signedPayload = none := by
    intro hn b' hb' hid
    obtain ⟨b, hb, hsame⟩ | ⟨hnew, _⟩ := hk.others b' hb' (hid ▸ hr)
    · exact hsame.signedPayload.trans (hn b hb (hsame.id.symm.trans hid))
    · exact hnew
  have hids : ∀ {p ids}, Stored prim w.db c.id p →
      (∀ b ∈ w.db.payoutBatches.rows, b.id = c.id → b.transactionIds = ids) →
      ∀ b ∈ w'.db.payoutBatches.rows, b.id = c.id → b.transactionIds = ids := by
    intro p ids hst hn b' hb' hid
    obtain ⟨b, hb, hsame⟩ | ⟨_, hnew⟩ := hk.others b' hb' (hid ▸ hr)
    · exact hsame.transactionIds.trans (hn b hb (hsame.id.symm.trans hid))
    · obtain ⟨b₀, hb₀, hid₀, _⟩ := hst
      exact absurd (hid₀.trans hid.symm) (hnew b₀ hb₀)
  unfold alone at ha ⊢
  rw [sends] at hs
  split at ha
  case h_6 => trivial
  case h_4 hp | h_5 hp =>
    rw [hp] at hs
    exact hids hs ha
  all_goals exact hnone ha

theorem acted_informed {rt : Runtime} {w w' : World} {r : Call} {a : Answer} {o : Option Call}
    (h : Sealed rt.primitives w) (hl : during (informed rt.primitives) w r)
    (ha : Acted rt w a r w' o) :
    Sealed rt.primitives w' ∧ KeepsOthers r w w' ∧
      ∀ r' ∈ o, during (informed rt.primitives) w' r' := by
  cases r with
  | execute c =>
    cases ha with
    | execute hx =>
      obtain ⟨hsealed, hp, ho⟩ := executed_sealed hx h hl.1 (signsFirst_of_alone hl.2)
      refine ⟨hsealed, ⟨hp, fun b' hb' hne => .inl ⟨b', ?_, .refl b'⟩⟩, fun r' hr' => ?_⟩
      · exact executed_frame hx hb' (fun he => hne (congrArg some he.symm))
      · obtain ⟨c', hc', rfl⟩ := Option.map_eq_some_iff.mp hr'
        subst hc'
        exact ⟨ho c' rfl, executed_alone hx h hl.2⟩
  | allocate d | scan c | share c | plan c | planOperator c | approve c | reconcile c =>
    obtain ⟨hk, hq⟩ := acted_quiet rfl ha
    exact ⟨h.keep hk.payload hq, .of_keeps hk, during_of_quiet rfl ha⟩

theorem during_stable {prim : Primitives} {w w' : World} {r r' : Call} (hk : KeepsOthers r w w')
    (hr : Apart executing r r') (h : during (informed prim) w r') : during (informed prim) w' r' := by
  cases r' with
  | execute c =>
    refine informed_stable hk (fun he => ?_) h
    obtain hr | hr := hr
    · rw [hr] at he
      cases he
    · exact hr he.symm
  | allocate d | scan c | share c | plan c | planOperator c | approve c | reconcile c => trivial

theorem outline_exclusive (rt : Runtime) : Outline (system rt) executing (fun _ _ _ => True)
    (fun _ _ => True) (Sealed rt.primitives) (during (informed rt.primitives)) KeepsOthers where
  entry _ _ _ h := (informed_local _).entry h
  effect _ _ _ _ _ h hl _ he := by
    obtain ⟨hsealed, hk, ho⟩ := acted_informed h hl (effect_acted he)
    exact ⟨hsealed, hk, ho, fun e r' hr' => (informed_local _).handler hr'⟩
  handler _ _ _ _ _ _ h := (informed_local _).handler h
  background _ _ b _ h := (informed_local _).background h b
  event w e h _ := ⟨change_sealed h e, fun r hl =>
    during_stable (r := .allocate 0) (.of_keeps (change_keeps w e)) (.inl rfl) hl⟩
  stable _ _ _ _ _ hk hr hl := during_stable hk hr hl

/-- A payload is stored together with the transactions expected of it: they are
those it was written with, until the wallet has reported the ones it sent. -/
def StoredWith (prim : Primitives) (w : World) (id : Id) (payload : String) (ids : List String) :
    Prop :=
  ∃ b ∈ w.db.payoutBatches.rows, b.id = id ∧ b.transactionIds = ids ∧
    ∃ stored, b.signedPayload = some stored ∧ openPayload prim id stored = .ok payload ∧
      ∃ ids', .signed id stored ids' ∈ w.log ∧ (b.broadcastAt = none → ids' = ids)

theorem informed.storedWith {prim : Primitives} {w : World} {c : ExecuteCall} {held : Held}
    {payload : String} (h : informed prim w c) (hs : Sealed prim w)
    (hp : c.point = .broadcast held payload) :
    StoredWith prim w c.id payload held.batch.transactionIds := by
  obtain ⟨hsends, halone⟩ := h
  simp only [sends, hp] at hsends
  simp only [alone, hp] at halone
  obtain ⟨b, hb, hid, s, hpay, ho⟩ := hsends
  obtain ⟨ids, hl, hids⟩ := hs.logged b hb s hpay
  refine ⟨b, hb, hid, halone b hb hid, s, hpay, ho, ids, hid ▸ hl, fun hn => ?_⟩
  exact (hids hn).trans (halone b hb hid)

def postings (db : Database) (i : PayoutItem) : List JournalTransaction :=
  db.journalTransactions.rows.filter (fun t => t.reference = itemReference i)

theorem mem_postings {db : Database} {i : PayoutItem} {t : JournalTransaction} :
    t ∈ postings db i ↔ t ∈ db.journalTransactions.rows ∧ t.reference = itemReference i := by
  simp [postings]

theorem postings_length_le {db : Database} (h : Covered db) (i : PayoutItem) :
    (postings db i).length ≤ 1 := by
  refine db.journalTransactions.filter_length_le_one (fun t ht t' ht' hr hr' => ?_)
  rw [decide_eq_true_eq] at hr hr'
  obtain ⟨htype, b, hb, hid, hasset⟩ := h.referenced t ht i.batchId
    (hr ▸ payoutBatchId_itemReference i)
  obtain ⟨htype', b', hb', hid', hasset'⟩ := h.referenced t' ht' i.batchId
    (hr' ▸ payoutBatchId_itemReference i)
  have hbb : b = b' := db.payoutBatches.eq_of_id hb hb' (hid.trans hid'.symm)
  refine .inr ⟨?_, rfl⟩
  show some (t.asset, t.type, t.reference) = some (t'.asset, t'.type, t'.reference)
  rw [htype, htype', hr, hr', ← hasset, ← hasset', hbb]

theorem postings_length_eq {db : Database} (h : Covered db) {i : PayoutItem}
    (hi : i ∈ db.payoutItems.rows) {b : PayoutBatch} (hb : b ∈ db.payoutBatches.rows)
    (hid : b.id = i.batchId) (hs : b.state = .broadcast ∨ b.state = .confirmed) :
    (postings db i).length = 1 := by
  obtain ⟨t, ht, hr⟩ := h.posted i hi (h.settled b hb hs i hi hid.symm)
  have hpos := List.length_pos_of_mem (mem_postings.mpr ⟨ht, hr⟩)
  have := postings_length_le h i
  omega

theorem Persists.trans {db db₁ db₂ : Database} (h : Persists db db₁) (h' : Persists db₁ db₂) :
    Persists db db₂ := by
  intro b hb s hs
  obtain ⟨b₁, hb₁, hid₁, hs₁⟩ := h b hb s hs
  obtain ⟨b₂, hb₂, hid₂, hs₂⟩ := h' b₁ hb₁ s hs₁
  exact ⟨b₂, hb₂, hid₂.trans hid₁, hs₂⟩

/-- As long as no two executions of a batch overlap: what is sent is stored,
what is stored is never replaced, so every attempt sends the same payload, and
an item is posted at most once, and once when its batch has gone out. -/
theorem executions_crash_safe {rt : Runtime} {w : World} {c : Config World Call}
    (hw : w.db.Fresh) (hlog : w.log = [])
    (h : (system rt).Run (Allowed executing (fun _ _ _ => True) (fun _ _ => True)) (.idle w) c) :
    (∀ pid x held payload, c.calls pid = some (.execute x) → x.point = .broadcast held payload →
      StoredWith rt.primitives c.shared x.id payload held.batch.transactionIds) ∧
    (∀ d, (system rt).Run (Allowed executing (fun _ _ _ => True) (fun _ _ => True)) c d →
      Persists c.shared.db d.shared.db) ∧
    (∀ id p q, .broadcast id p ∈ c.shared.log → .broadcast id q ∈ c.shared.log → p = q) ∧
    ∀ i ∈ c.shared.db.payoutItems.rows, (postings c.shared.db i).length ≤ 1 ∧
      ∀ b ∈ c.shared.db.payoutBatches.rows, b.id = i.batchId →
        b.state = .broadcast ∨ b.state = .confirmed → (postings c.shared.db i).length = 1 := by
  have hc := (outline_exclusive rt).run (keyed_executing rt)
    (Outline.idle (fresh_sealed hw hlog)) h
  have hcov : Covered c.shared.db := reaches_covered hw h.reaches
  refine ⟨?_, ?_, ?_, ?_⟩
  · intro pid x held payload hx hp
    exact informed.storedWith (hc.loc pid _ hx) hc.inv hp
  · intro d hd
    refine (outline_exclusive rt).run_rel (keyed_executing rt)
      (G := fun w w' => Persists w.db w'.db) ?_ ?_ ?_ ?_ hc hd
    · exact fun _ => (Keeps.of_eq rfl).payload.persists
    · exact fun _ _ _ => Persists.trans
    · exact fun _ _ _ _ _ hi hl _ he => (acted_informed hi hl (effect_acted he)).2.1.persists
    · exact fun w e _ _ => (change_keeps w e).payload.persists
  · exact fun id p q => Sealed.broadcast_unique hc.inv
  · intro i hi
    exact ⟨postings_length_le hcov i, fun b hb hid hs => postings_length_eq hcov hi hb hid hs⟩

theorem executions_crash_safe_sample : ∃ c, (system sampleRuntime).Run
    (Allowed executing (fun _ _ _ => True) (fun _ _ => True)) (.idle sampleWorld) c ∧
    .broadcast 10 "raw" ∈ c.shared.log ∧ (∀ p, .broadcast 10 p ∈ c.shared.log → p = "raw") ∧
    ∀ i ∈ c.shared.db.payoutItems.rows, (postings c.shared.db i).length ≤ 1 := by
  obtain ⟨c, hr, hv⟩ := execAlone_sample executing (P := fun _ _ _ => True)
    (Q := fun _ _ => True) (fun _ _ _ (_ : true = true) => trivial)
    (sampleCredit ++ samplePayout) (f := fun c => broadcasts c.shared 10) (v := ["raw"])
    (by decide +kernel)
  have hm : .broadcast 10 "raw" ∈ c.shared.log := mem_broadcasts.mp (by simp [hv])
  obtain ⟨_, _, hone, hposted⟩ := executions_crash_safe sampleWorld_fresh rfl hr
  exact ⟨c, hr, hm, fun p hp => hone 10 p "raw" hp hm, fun i hi => (hposted i hi).1⟩

end Exclusive

end Bitmine.CrashSafety
