import Bitmine.Payloads
import Bitmine.DailyLimit

namespace Bitmine.StateChanges

open Bitmine.Lib.UniqueTable Bitmine.Lib.Throwing Bitmine.Lib.Await
open Bitmine.Schema Bitmine.Deployment Bitmine.Security Bitmine.Deposits Bitmine.Payouts Bitmine.Execute
open Bitmine.PayoutHistory Bitmine.System
open Bitmine.NoOvercommit (allocate_batches scanned_batches journals_payouts change_payouts
  reaches_covered)
open Bitmine.Payloads (postTransaction_batches)

def pointWrite : ExecutePoint → Option PayoutState
  | .persist _ _ => some .signed
  | .post _ _ => some .broadcast
  | .markFailed _ => some .failed
  | _ => none

def stateWrite : Call → Option (Id × PayoutState)
  | .approve (.write id _ next) => some (id, next)
  | .reconcile (.write batch _) => some (batch.id, .confirmed)
  | .execute c => (pointWrite c.point).map (fun next => (c.id, next))
  | _ => none

/-- Every batch that was there before the step has moved along the table. -/
def Legal (db db' : Database) : Prop :=
  ∀ b ∈ db.payoutBatches.rows, ∀ b' ∈ db'.payoutBatches.rows, b'.id = b.id →
    canTransitionPayout b.state b'.state = true

def storedIn (db : Database) (id : Id) (states : List PayoutState) : Bool :=
  db.payoutBatches.rows.all (fun b => b.id ≠ id ∨ b.state ∈ states)

/-- At the moment of a write the batch is still in the state the call has found
it in, or already in the one that is written. The catch branch has no state to
compare with: there the batch has not been confirmed meanwhile. -/
def upToDate (w : World) : Call → Bool
  | .approve (.write id _ next) => storedIn w.db id [.approvalRequired, .failed, next]
  | .reconcile (.write batch _) => storedIn w.db batch.id [batch.state, .confirmed]
  | .execute c =>
    match c.point with
    | .persist held _ => storedIn w.db c.id [held.batch.state, .signed]
    | .post held _ => storedIn w.db c.id [held.batch.state, .broadcast]
    | .markFailed _ => w.db.payoutBatches.rows.all (fun b => b.id ≠ c.id ∨ b.state ≠ .confirmed)
    | _ => true
  | _ => true

theorem storedIn_iff {db : Database} {id : Id} {states : List PayoutState} :
    storedIn db id states = true ↔
      ∀ b ∈ db.payoutBatches.rows, b.id = id → b.state ∈ states := by
  simp only [storedIn, List.all_eq_true, decide_eq_true_eq, ne_eq, ← imp_iff_not_or]

def written (r : Call) (b : PayoutBatch) : PayoutState :=
  match stateWrite r with
  | some (id, next) => if b.id = id then next else b.state
  | none => b.state

/-- All that an effect does to the states: its own write, or a new batch. -/
def Moves (r : Call) (db db' : Database) : Prop :=
  ∀ b' ∈ db'.payoutBatches.rows,
    (∃ b ∈ db.payoutBatches.rows, b'.id = b.id ∧ b'.state = written r b) ∨
      ∀ b ∈ db.payoutBatches.rows, b.id ≠ b'.id

section Moves

variable {db db' : Database} {r : Call}

theorem Moves.of_eq (hr : stateWrite r = none) (h : db'.payoutBatches = db.payoutBatches) :
    Moves r db db' := by
  intro b hb
  refine .inl ⟨b, h ▸ hb, rfl, ?_⟩
  rw [written, hr]

theorem Moves.of_map {id : Id} {next : PayoutState} (hr : stateWrite r = some (id, next))
    {f : PayoutBatch → PayoutBatch}
    (h : db'.payoutBatches.rows = db.payoutBatches.rows.map (fun b => if b.id = id then f b else b))
    (hid : ∀ b, (f b).id = b.id) (hf : ∀ b, (f b).state = next) : Moves r db db' := by
  intro b' hb'
  rw [h] at hb'
  obtain ⟨b, hb, rfl⟩ := List.mem_map.mp hb'
  refine .inl ⟨b, hb, ?_, ?_⟩
  · split
    · exact hid b
    · rfl
  · simp only [written, hr]
    split
    · exact hf b
    · rfl

theorem Moves.of_update {id : Id} {next : PayoutState} (hr : stateWrite r = some (id, next))
    {f : PayoutBatch → PayoutBatch} {hk : KeepsKeys f} (h : updateBatch db id f hk = .ok db')
    (hid : ∀ b, (f b).id = b.id) (hf : ∀ b, (f b).state = next) : Moves r db db' :=
  .of_map hr (updateBatch_ok h).2.1 hid hf

theorem executed_moves {rt : Runtime} {w w' : World} {a : Answer} {c : ExecuteCall}
    {o : Option ExecuteCall} (h : Executed rt w c a w' o) : Moves (.execute c) w.db w'.db := by
  have hidle : pointWrite c.point = none → w'.db.payoutBatches = w.db.payoutBatches →
      Moves (.execute c) w.db w'.db := fun hn he => .of_eq (by rw [stateWrite, hn]; rfl) he
  cases h with
  | persist hp hs hd =>
    obtain ⟨_, _, hb, _⟩ := persistTransaction_ok hd
    exact .of_map (by rw [stateWrite, hp]; rfl) hb (fun _ => rfl) (fun _ => rfl)
  | post hp hd =>
    exact .of_map (by rw [stateWrite, hp]; rfl) (postTransaction_batches hd) (fun _ => rfl)
      (fun _ => rfl)
  | markFailed hp hd =>
    exact .of_update (by rw [stateWrite, hp]; rfl) hd (fun _ => rfl) (fun _ => rfl)
  | acquire hp | checkReorg hp | unsigned hp | readPolicy hp | prepare hp | known hp | unknown hp
  | broadcast hp | readResult hp | fails hp | release hp => exact hidle (by rw [hp]; rfl) rfl
  | opened hp =>
    obtain ⟨hp, _⟩ | hp := hp
    · exact hidle (by rw [hp]; rfl) rfl
    · exact hidle (by rw [hp]; rfl) rfl
  | failsLater hp =>
    obtain hp | ⟨_, _, _, hp⟩ | ⟨_, _, hp⟩ := hp
    · exact hidle (by rw [hp]; rfl) rfl
    · exact hidle (by rw [hp]; rfl) rfl
    · exact hidle (by rw [hp]; rfl) rfl

theorem acted_moves {rt : Runtime} {w w' : World} {a : Answer} {o : Option Call}
    (h : Acted rt w a r w' o) : Moves r w.db w'.db := by
  cases h with
  | allocate hd => exact .of_eq rfl (allocate_batches hd)
  | scan hs => exact .of_eq rfl (scanned_batches hs).1
  | share hs => exact .of_eq rfl (journals_payouts hs).batches
  | prepares | preparesOperator => exact .of_eq rfl rfl
  | plans hp | plansOperator hp =>
    intro b' hb'
    rw [World.store_db, hp.created.batches, List.mem_append, List.mem_singleton] at hb'
    obtain hb' | rfl := hb'
    · exact .inl ⟨b', hb', rfl, rfl⟩
    · exact .inr (fun b hb he => hp.created.fresh b hb (.inl he))
  | approve hx =>
    cases hx with
    | assertTotp | readBatch => exact .of_eq rfl rfl
    | write hd => exact .of_update rfl hd (fun _ => rfl) (fun _ => rfl)
  | execute hx => exact executed_moves hx
  | reconcile hx =>
    cases hx with
    | list | pass | enough => exact .of_eq rfl rfl
    | write hd => exact .of_update rfl hd (fun _ => rfl) (fun _ => rfl)

end Moves

section Assertions

variable {rt : Runtime} {w w' : World} {a : Answer}

def Past (db : Database) (id : Id) : Prop :=
  ∃ b ∈ db.payoutBatches.rows, b.id = id ∧ b.state ≠ .approvalRequired

/-- What each call has asserted about the batch it is going to write. -/
def asserted (db : Database) : Call → Prop
  | .approve (.write id _ next) => next = .autoApproved ∨ (next = .signed ∧ Past db id)
  | .reconcile (.query batch rest) => ∀ b ∈ batch :: rest, b.state = .broadcast
  | .reconcile (.write batch rest) => ∀ b ∈ batch :: rest, b.state = .broadcast
  | .execute c =>
    match c.point with
    | .readPolicy held => canTransitionPayout held.batch.state .signed = true
    | .prepare held _ _ => canTransitionPayout held.batch.state .signed = true
    | .persist held _ => canTransitionPayout held.batch.state .signed = true
    | .post held _ => canTransitionPayout held.batch.state .broadcast = true
    | _ => True
  | _ => True

structure Progress (db db' : Database) : Prop where
  kept : ∀ b ∈ db.payoutBatches.rows, ∃ b' ∈ db'.payoutBatches.rows, b'.id = b.id
  noReturn : ∀ b' ∈ db'.payoutBatches.rows, b'.state = .approvalRequired →
    ∀ b ∈ db.payoutBatches.rows, b.id = b'.id → b.state = .approvalRequired

theorem Past.progress {db db' : Database} {id : Id} (h : Past db id) (hp : Progress db db') :
    Past db' id := by
  obtain ⟨b, hb, hid, hs⟩ := h
  obtain ⟨b', hb', hid'⟩ := hp.kept b hb
  exact ⟨b', hb', hid'.trans hid, fun hs' => hs (hp.noReturn b' hb' hs' b hb hid'.symm)⟩

theorem asserted.progress {db db' : Database} {r : Call} (h : asserted db r)
    (hp : Progress db db') : asserted db' r := by
  cases r with
  | approve c =>
    cases c with
    | write => exact Or.imp_right (And.imp_right (fun hpast => hpast.progress hp)) h
    | assertTotp | readBatch => trivial
  | reconcile c => cases c <;> exact h
  | execute c => exact h
  | allocate | scan | share | plan | planOperator => trivial

theorem toPost_legal {c : ExecuteCall} {held : Held} {ids : List String} {point : ExecutePoint}
    (h : toPost c held ids = .ok point) :
    canTransitionPayout held.batch.state .broadcast = true := by
  simp only [toPost, bind_eq_ok] at h
  obtain ⟨_, _, _, ht, _⟩ := h
  rw [assertPayoutTransition] at ht
  split at ht
  · assumption
  · cases ht

/-- The transition to `BROADCAST` has been checked before the posting. -/
theorem step_post {c c' : ExecuteCall} (h : Execute.step rt w c a = .ok (w', some c'))
    {held : Held} {ids : List String} (hp : c'.point = .post held ids) :
    canTransitionPayout held.batch.state .broadcast = true := by
  have hguard : ∀ {held' : Held} {ids' : List String},
      (c.guarded (toPost c held' ids')).point = .post held ids →
      canTransitionPayout held.batch.state .broadcast = true := by
    intro held' ids' hg
    cases ht : toPost c held' ids' with
    | ok point =>
      rw [ht, toPost_ok ht] at hg
      cases hg
      exact toPost_legal ht
    | error e =>
      rw [ht] at hg
      cases hg
  have hx := step_executed h
  generalize ho : some c' = o at hx
  cases hx with
  | known hk | unknown hk =>
    simp only [Execute.step, hk] at h
    split at h
    · cases h
      exact hguard hp
    · simp only [Except.ok.injEq, Prod.mk.injEq, Option.some.injEq] at h
      obtain ⟨_, rfl⟩ := h
      rw [ExecuteCall.assertLock] at hp
      split at hp <;> cases hp
  | broadcast hk =>
    simp only [Execute.step, hk] at h
    cases h
    exact hguard hp
  | opened _ _ _ _ ht =>
    cases ho
    obtain rfl | rfl := ht <;> cases hp
  | acquire | checkReorg | unsigned | readPolicy | prepare | persist | post | readResult | fails
  | failsLater | markFailed | release =>
    cases ho
    all_goals cases hp

theorem readBatch_next {id adminId : Id} {c' : ApproveCall}
    (h : stepApprove rt w (.readBatch id adminId) a = .ok (w', some c')) :
    asserted w.db (.approve c') := by
  simp only [stepApprove, bind_eq_ok, orThrow_eq_ok] at h
  obtain ⟨b, hb, h⟩ := h
  split at h
  · cases h
  simp only [bind_eq_ok, pure_eq_ok] at h
  obtain ⟨_, _, he⟩ := h
  cases he
  obtain ⟨hm, hid⟩ := Table.find?_mem hb
  by_cases hs : b.state = .failed ∧ (truthy b.signedPayload).isSome
  · refine .inr ⟨by rw [if_pos hs], b, hm, by simpa using hid, ?_⟩
    rw [hs.1]
    decide
  · exact .inl (by rw [if_neg hs])

theorem executable_signed {s : PayoutState} (h : Executable s) :
    canTransitionPayout s .signed = true := by
  obtain rfl | rfl | rfl := h <;> rfl

/-- One resolved effect leaves its call where its assertion holds. -/
theorem effect_asserted {r r' : Call} (h : effect rt w r a = .ok (w', some r'))
    (hl : asserted w.db r) : asserted w'.db r' := by
  have hact := effect_acted h
  generalize ho : some r' = o at hact
  cases hact with
  | execute hx =>
    obtain ⟨c', hc', rfl⟩ := Option.map_eq_some_iff.mp ho.symm
    have hpost : ∀ {held ids}, c'.point = .post held ids →
        canTransitionPayout held.batch.state .broadcast = true := by
      intro held ids hp
      obtain ⟨⟨w₁, o₁⟩, hs, he⟩ := map_eq_ok.mp h
      simp only [Prod.mk.injEq, Option.map_eq_some_iff] at he
      obtain ⟨_, c₁, rfl, hcc⟩ := he
      cases hcc
      exact step_post hs hp
    cases hx with
    | unsigned _ _ hs =>
      cases hc'
      exact executable_signed hs
    | readPolicy hp | prepare hp =>
      cases hc'
      simp only [asserted, hp] at hl
      exact hl
    | known =>
      cases hc'
      exact hpost rfl
    | broadcast _ ht =>
      cases hc'
      obtain rfl | ⟨e, rfl⟩ := ht
      · exact hpost rfl
      · trivial
    | opened _ _ _ _ ht =>
      cases hc'
      obtain rfl | rfl := ht <;> trivial
    | acquire | checkReorg | persist | unknown | post | readResult | fails | failsLater
    | markFailed | release =>
      cases hc'
      all_goals trivial
  | approve hx =>
    obtain ⟨c', hc', rfl⟩ := Option.map_eq_some_iff.mp ho.symm
    obtain ⟨⟨w₁, o₁⟩, hs, he⟩ := map_eq_ok.mp h
    simp only [Prod.mk.injEq, Option.map_eq_some_iff] at he
    obtain ⟨rfl, c₁, rfl, hcc⟩ := he
    cases hcc
    cases hx with
    | assertTotp => cases hc'; trivial
    | readBatch => exact readBatch_next hs
    | write => cases hc'
  | reconcile hx =>
    obtain ⟨c', hc', rfl⟩ := Option.map_eq_some_iff.mp ho.symm
    have hnext : ∀ {db : Database} {l : List PayoutBatch}, (∀ b ∈ l, b.state = .broadcast) →
        queryNext l = some c' → asserted db (.reconcile c') := by
      intro db l hall hq
      exact queryNext_all (Q := fun c => asserted db (.reconcile c)) (fun _ _ hrest => hrest) hall c' hq
    cases hx with
    | list hm => exact hnext (fun b hb => (hm b hb).2) hc'
    | pass => exact hnext (fun b hb => hl b (by simp [hb])) hc'
    | enough =>
      cases hc'
      exact hl
    | write => exact hnext (fun b hb => hl b (by simp [hb])) hc'
  | allocate | plans | plansOperator => cases ho
  | scan | share | prepares | preparesOperator =>
    obtain ⟨c', _, rfl⟩ := Option.map_eq_some_iff.mp ho.symm
    trivial

theorem acted_progress {r : Call} {o : Option Call} (h : Acted rt w a r w' o)
    (hl : asserted w.db r) : Progress w.db w'.db := by
  have hnext : ∀ b, written r b = .approvalRequired → b.state = .approvalRequired := by
    intro b hb
    rw [written] at hb
    split at hb
    · rename_i id next hw
      split at hb
      · -- no call writes `APPROVAL_REQUIRED`
        subst hb
        cases r with
        | approve c =>
          cases c with
          | write id adminId next =>
            cases hw
            obtain hl | ⟨hl, _⟩ := hl <;> cases hl
          | assertTotp | readBatch => cases hw
        | reconcile c => cases c <;> cases hw
        | execute c =>
          obtain ⟨next, hp, he⟩ := Option.map_eq_some_iff.mp hw
          cases he
          unfold pointWrite at hp
          split at hp <;> cases hp
        | allocate | scan | share | plan | planOperator => cases hw
      · exact hb
    · exact hb
  refine ⟨?_, fun b' hb' hs b hb hid => ?_⟩
  · obtain ⟨f, hf, hr⟩ | ⟨_, _, _, _, _, _, hplan⟩ := DailyLimit.acted_batches h
    · intro b hb
      exact ⟨f b, by rw [hr]; exact List.mem_map_of_mem hb, (hf b).id⟩
    · intro b hb
      exact ⟨b, by simp [hplan.created.batches, hb], rfl⟩
  · obtain ⟨b₀, hb₀, hid₀, hs₀⟩ | hnew := acted_moves h b' hb'
    · rw [w.db.payoutBatches.eq_of_id hb hb₀ (hid.trans hid₀)]
      exact hnext b₀ (hs₀ ▸ hs)
    · exact absurd hid (hnew b hb)

theorem handler_asserted {db : Database} {r r' : Call} {e : String} (h : handler r e = some r') :
    asserted db r' := by
  cases r with
  | execute c =>
    obtain ⟨c', hc, rfl⟩ := Option.map_eq_some_iff.mp h
    rw [Execute.handler] at hc
    split at hc <;> cases hc <;> trivial
  | scan c =>
    obtain ⟨c', _, rfl⟩ := Option.map_eq_some_iff.mp h
    trivial
  | allocate | share | plan | planOperator | approve | reconcile => cases h

theorem entry_asserted {db : Database} {r : Call} (h : r.entry = true) : asserted db r := by
  cases r with
  | execute c => simp only [asserted, entry_point h]
  | approve c => cases c <;> trivial
  | reconcile c => cases c <;> trivial
  | allocate | scan | share | plan | planOperator => trivial

theorem background_asserted {r : Call} (b : Bool) (h : asserted w.db r) :
    asserted w.db (background w r b) := by
  cases r with
  | execute c =>
    simp only [background, asserted, NoOvercommit.renew_point] at h ⊢
    exact h
  | allocate | scan | share | plan | planOperator | approve | reconcile => exact h

theorem outline (rt : Runtime) : Outline (system rt) (shared (ρ := Call))
    (fun w r _ => upToDate w r = true) (fun _ _ => True) (fun _ => True)
    (fun w r => asserted w.db r) (fun _ w w' => Progress w.db w'.db) where
  entry _ _ _ h := entry_asserted h
  effect _ _ _ _ _ _ hl _ he :=
    ⟨trivial, acted_progress (effect_acted he) hl,
      fun r' hr' => by cases hr'; exact effect_asserted he hl, fun _ _ hr' => handler_asserted hr'⟩
  handler _ _ _ _ _ _ h := handler_asserted h
  background _ _ b _ h := background_asserted b h
  event w e _ _ := by
    refine ⟨trivial, fun r hr => hr.progress ?_⟩
    have hb := (change_payouts w e).batches
    refine ⟨fun b hm => ⟨b, ?_, rfl⟩, fun b' hm' hs b hm hid => ?_⟩
    · show b ∈ (change w e).db.payoutBatches.rows
      rwa [hb]
    · have hm₂ : b' ∈ w.db.payoutBatches.rows := by rw [← hb]; exact hm'
      rwa [w.db.payoutBatches.eq_of_id hm hm₂ hid]
  stable _ _ _ _ _ hg _ hl := hl.progress hg

/-- A write that finds the batch as its call has found it follows the table. -/
theorem write_legal {r : Call} {id : Id} {next : PayoutState} (hw : stateWrite r = some (id, next))
    (hl : asserted w.db r) (hu : upToDate w r = true) {b : PayoutBatch}
    (hb : b ∈ w.db.payoutBatches.rows) (hid : b.id = id) (halive : b.state ≠ .cancelled) :
    canTransitionPayout b.state next = true := by
  cases r with
  | approve c =>
    cases c with
    | write id' adminId next' =>
      cases hw
      have hin := storedIn_iff.mp hu b hb hid
      simp only [List.mem_cons, List.not_mem_nil, or_false] at hin
      obtain rfl | ⟨rfl, b₀, hb₀, hid₀, hs₀⟩ := hl
      · obtain hs | hs | hs := hin <;> rw [hs] <;> rfl
      · rw [← w.db.payoutBatches.eq_of_id hb hb₀ (hid.trans hid₀.symm)] at hs₀
        obtain hs | hs | hs := hin
        · exact absurd hs hs₀
        · rw [hs]; rfl
        · rw [hs]; rfl
    | assertTotp | readBatch => cases hw
  | reconcile c =>
    cases c with
    | write batch rest =>
      cases hw
      have hin := storedIn_iff.mp hu b hb hid
      simp only [List.mem_cons, List.not_mem_nil, or_false, hl batch List.mem_cons_self] at hin
      obtain hs | hs := hin <;> rw [hs] <;> rfl
    | listBroadcast | query => cases hw
  | execute c =>
    obtain ⟨next, hp, he⟩ := Option.map_eq_some_iff.mp hw
    cases he
    unfold pointWrite at hp
    split at hp
    · rename_i held prepared hpoint
      cases hp
      simp only [upToDate, hpoint] at hu
      simp only [asserted, hpoint] at hl
      have hin := storedIn_iff.mp hu b hb hid
      simp only [List.mem_cons, List.not_mem_nil, or_false] at hin
      obtain hs | hs := hin <;> rw [hs]
      · exact hl
      · rfl
    · rename_i held ids hpoint
      cases hp
      simp only [upToDate, hpoint] at hu
      simp only [asserted, hpoint] at hl
      have hin := storedIn_iff.mp hu b hb hid
      simp only [List.mem_cons, List.not_mem_nil, or_false] at hin
      obtain hs | hs := hin <;> rw [hs]
      · exact hl
      · rfl
    · rename_i message hpoint
      cases hp
      simp only [upToDate, hpoint, List.all_eq_true, decide_eq_true_eq] at hu
      have hne := (hu b hb).resolve_left (fun h => h hid)
      cases hs : b.state with
      | confirmed => exact absurd hs hne
      | cancelled => exact absurd hs halive
      | planned | approvalRequired | autoApproved | signed | broadcast | failed => rfl
    · cases hp
  | allocate | scan | share | plan | planOperator => cases hw

theorem moves_legal {r : Call} (hm : Moves r w.db w'.db) (hl : asserted w.db r)
    (hu : upToDate w r = true) (halive : ∀ b ∈ w.db.payoutBatches.rows, b.state ≠ .cancelled) :
    Legal w.db w'.db := by
  intro b hb b' hb' hid
  obtain ⟨b₀, hb₀, hid₀, hs⟩ | hnew := hm b' hb'
  · rw [← w.db.payoutBatches.eq_of_id hb hb₀ (hid.symm.trans hid₀)] at hs
    rw [hs, written]
    split
    · rename_i id next hw
      split
      · exact write_legal hw hl hu hb ‹_› (halive b hb)
      · simp [canTransitionPayout]
    · simp [canTransitionPayout]
  · exact absurd hid.symm (hnew b hb)

theorem Legal.of_eq {db db' : Database} (h : db'.payoutBatches = db.payoutBatches) :
    Legal db db' := by
  intro b hb b' hb' hid
  rw [h] at hb'
  rw [db.payoutBatches.eq_of_id hb' hb hid]
  simp [canTransitionPayout]

end Assertions

/-- In a run whose writes all find their batch as its call has found it, every
committed change of a state is in the table. -/
theorem transitions_legal {rt : Runtime} {w : World} (hw : w.db.Fresh)
    {c d : Config World Call} {act : Action Call Answer Change}
    (h : (system rt).Run (Allowed (shared (ρ := Call)) (fun w r _ => upToDate w r = true)
      (fun _ _ => True)) (.idle w) c)
    (ha : Allowed (shared (ρ := Call)) (fun w r _ => upToDate w r = true) (fun _ _ => True) c act)
    (hn : (system rt).next c act = some d) : Legal c.shared.db d.shared.db := by
  have hc := (outline rt).run (keyed_shared _) (Outline.idle trivial) h
  have halive := (reaches_covered hw h.reaches).alive
  obtain ⟨e, rfl, rfl⟩ | ⟨pid, r, rfl, _, _, rfl⟩ | ⟨pid, r, a, s, o, hact, hr, he, hd⟩ |
    ⟨pid, r, e, _, rfl⟩ | ⟨pid, r, b, rfl, _, rfl⟩ | ⟨pid, rfl, rfl⟩ := Machine.next_cases hn
  · exact .of_eq (change_payouts c.shared e).batches
  · exact .of_eq rfl
  · have hu : upToDate c.shared r = true := by
      obtain rfl | ⟨e, rfl⟩ := hact <;> exact ha r hr
    have hlegal := moves_legal (acted_moves (effect_acted he)) (hc.loc pid r hr) hu halive
    obtain rfl | ⟨e, rfl⟩ := hd <;> exact hlegal
  · exact .of_eq rfl
  · exact .of_eq rfl
  · exact .of_eq rfl

section Sample

def states (c : Config World Call) (id : Id) : List PayoutState :=
  (c.shared.db.payoutBatches.rows.filter (fun b => b.id = id)).map PayoutBatch.state

theorem mem_of_states {c : Config World Call} {id : Id} {s : PayoutState} (h : states c id = [s]) :
    ∃ b ∈ c.shared.db.payoutBatches.rows, b.id = id ∧ b.state = s := by
  have hs : s ∈ states c id := by simp [h]
  obtain ⟨b, hb, rfl⟩ := List.mem_map.mp hs
  obtain ⟨hm, hid⟩ := List.mem_filter.mp hb
  exact ⟨b, hm, by simpa using hid, rfl⟩

theorem transitions_legal_sample : ∃ c d act, (system sampleRuntime).Run
    (Allowed (shared (ρ := Call)) (fun w r _ => upToDate w r = true) (fun _ _ => True))
      (.idle sampleWorld) c ∧
    (system sampleRuntime).next c act = some d ∧ states c 10 = [.signed] ∧
      states d 10 = [.broadcast] ∧ Legal c.shared.db d.shared.db := by
  have h : (((system sampleRuntime).execAlone (fun w r _ => upToDate w r) (.idle sampleWorld)
      (sampleCredit ++ samplePayout.take 14)).bind (fun c =>
        ((system sampleRuntime).nextAlone (fun w r _ => upToDate w r) c
          (.resolve 0 { now := 6, newId := fun _ => 30 })).map
            (fun d => (states c 10, states d 10)))) = some ([.signed], [.broadcast]) := by
    decide +kernel
  obtain ⟨c, hc, h⟩ := Option.bind_eq_some_iff.mp h
  obtain ⟨d, hd, hv⟩ := Option.map_eq_some_iff.mp h
  obtain ⟨hrun, hcalls⟩ := Machine.execAlone_run (shared (ρ := Call))
    (P := fun w r _ => upToDate w r = true) (Q := fun _ _ => True) (fun _ _ _ ht => ht)
    (fun _ _ => rfl) hc
  obtain ⟨ha, hn, _⟩ := Machine.nextAlone_allowed (fun _ _ _ ht => ht) hcalls hd
  obtain ⟨hs, hs'⟩ := Prod.mk.inj hv
  exact ⟨c, d, _, hrun, hn, hs, hs', transitions_legal sampleWorld_fresh hrun ha hn⟩

/-- The batch of the operator waits for an approval; two administrators approve
it, and the write of the second one is delayed until it has been paid. -/
def staleApproval : List (Action Call Answer Change) :=
  sampleCredit ++ samplePayout.take 21 ++
  [.call 1 (.approve (.assertTotp 20 1 "901063")), .resolve 1 { now := 100000 }, .resolve 1 {}] ++
  perform (.approve (.assertTotp 20 1 "901063")) [{ now := 100000 }, {}, { now := 8 }] ++
  perform (.execute ⟨20, 2, false, .acquire⟩)
    [{}, {}, {}, {}, { prepared := ⟨"raw", ["tx2"], 2, [⟨21, 2, 198⟩]⟩ }, { iv := "iv" }, {}, {},
      { relayed := ["tx2"] }, { now := 9, newId := fun _ => 40 }, {}, {}]

theorem stale_approval_reopens : ∃ c d act,
    (system sampleRuntime).Reaches (.idle sampleWorld) c ∧
    (system sampleRuntime).next c act = some d ∧ states c 20 = [.broadcast] ∧
      states d 20 = [.autoApproved] ∧ ¬ Legal c.shared.db d.shared.db := by
  obtain ⟨c, hr, hv⟩ := exec_sample staleApproval (f := fun c => (states c 20,
    ((system sampleRuntime).next c (.resolve 1 { now := 10 })).map (fun d => states d 20)))
    (v := ([.broadcast], some [.autoApproved])) (by decide +kernel)
  obtain ⟨hs, hn⟩ := Prod.mk.inj hv
  obtain ⟨d, hd, hs'⟩ := Option.map_eq_some_iff.mp hn
  refine ⟨c, d, _, hr, hd, hs, hs', fun hlegal => ?_⟩
  obtain ⟨b, hb, hid, hst⟩ := mem_of_states hs
  obtain ⟨b', hb', hid', hst'⟩ := mem_of_states hs'
  have := hlegal b hb b' hb' (hid'.trans hid.symm)
  rw [hst, hst'] at this
  cases this

end Sample

end Bitmine.StateChanges
