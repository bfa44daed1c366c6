import Bitmine.WorkAccounts

namespace Bitmine.Verdicts

open Bitmine.Lib.UniqueTable Bitmine.Lib.Throwing Bitmine.Lib.Await
open Bitmine.Schema Bitmine.Deployment Bitmine.Shares Bitmine.Payouts Bitmine.System Bitmine.Income
open Bitmine.WorkAccounts

def Final (s s' : ShareEvent) : Prop := s.status ≠ .pending → s'.status = s.status

theorem Final.refl (s : ShareEvent) : Final s s := fun _ => rfl

theorem Final.trans (s t u : ShareEvent) (h : Final s t) (h' : Final t u) : Final s u := by
  intro hs
  have ht : t.status = s.status := h hs
  exact (h' (ht ▸ hs)).trans ht

def Stands (db db' : Database) : Prop :=
  Descends shareKey Final db.shareEvents.rows db'.shareEvents.rows

theorem Stands.refl (db : Database) : Stands db db := Descends.refl Final.refl

theorem Stands.trans {db₁ db₂ db₃ : Database} (h : Stands db₁ db₂) (h' : Stands db₂ db₃) :
    Stands db₁ db₃ := Descends.trans Final.trans h h'

def verdictStatus (accepted : Bool) : ShareStatus := if accepted then .accepted else .rejected

/-- An answer of the upstream is recorded for a share that is still PENDING, or has
that verdict already. -/
def FirstVerdict (db : Database) : Call → Prop
  | .share (.resolve reference accepted _ _) => ∀ s ∈ db.shareEvents.rows,
      matchesReference reference s = true → s.status = .pending ∨ s.status = verdictStatus accepted
  | _ => True

section Steps

variable {db db' : Database} {a : Answer}

theorem giveUp_final (p : ShareEvent → Prop) [DecidablePred p] (hp : ∀ s, p s → s.status = .pending)
    (now : Instant) (reason : String) {l : List ShareEvent} : Descends shareKey Final l
      (l.map (fun s => if p s then giveUp now reason s else s)) := by
  refine .of_map (f := fun s => if p s then giveUp now reason s else s) (fun s => ?_)
    (fun s hs => ?_) rfl
  · split <;> rfl
  · rw [if_neg (fun h => hs (hp s h))]

theorem unknown_final (now : Instant) (reason : String) (references : List ShareReference)
    (db : Database) : Stands db (Shares.unknown db now references reason) := by
  induction references generalizing db with
  | nil => exact .refl _
  | cons r references ih =>
    refine Descends.trans Final.trans ?_ (ih _)
    exact giveUp_final (fun s => decide (matchesReference r s ∧ s.status = .pending) = true)
      (fun s hs => (of_decide_eq_true hs).2) now _

theorem resolve_final {reference : ShareReference} {accepted : Bool} {latencyMs : ℤ}
    {reason : Option String} (hP : FirstVerdict db (.share (.resolve reference accepted latencyMs reason)))
    (now : Instant) : Descends shareKey Final db.shareEvents.rows
      (db.shareEvents.rows.map (fun s => if matchesReference reference s then
        verdict now accepted latencyMs reason s else s)) := by
  have hkey : ∀ s, shareKey (if matchesReference reference s then
      verdict now accepted latencyMs reason s else s) = shareKey s := fun s => by split <;> rfl
  refine ⟨fun s' hs' => ?_, fun s hs => ⟨_, List.mem_map_of_mem hs, (hkey s).symm⟩⟩
  obtain ⟨s, hs, rfl⟩ := List.mem_map.mp hs'
  refine .inl ⟨s, hs, (hkey s).symm, fun hopen => ?_⟩
  split
  · rename_i hm
    exact ((hP s hs hm).resolve_left hopen).symm
  · rfl

theorem step_final {call : ShareCall} {o : Option ShareCall} (hP : FirstVerdict db (.share call))
    (h : Shares.step db call a = .ok (db', o)) : Stands db db' := by
  cases call with
  | readPolicy input =>
    simp only [Shares.step, bind_eq_ok, pure_eq_ok] at h
    obtain ⟨_, _, he⟩ := h
    cases he
    exact .refl _
  | create input splitPolicyId =>
    simp only [Shares.step, bind_eq_ok, orThrow_eq_ok, pure_eq_ok] at h
    obtain ⟨shares, hi, he⟩ := h
    cases he
    obtain ⟨hrows, hnew⟩ := Table.insert_eq_some hi
    exact .of_append .refl (fun s hs he => hnew s hs (.inl he)) hrows
  | resolve reference accepted latencyMs reason =>
    simp only [Shares.step, Shares.resolve, bind_eq_ok, orThrow_eq_ok, pure_eq_ok] at h
    obtain ⟨_, ⟨_, _, _, _, rfl⟩, he⟩ := h
    cases he
    exact resolve_final hP a.now
  | unknown references reason =>
    cases h
    exact unknown_final a.now reason references db
  | reconcilePending =>
    cases h
    exact giveUp_final
      (fun s => decide (s.status = .pending ∧ s.submittedAt < a.now - 600000) = true)
      (fun s hs => (of_decide_eq_true hs).1) a.now _

theorem effect_final {rt : Runtime} {w w' : World} {r : Call} {o : Option Call}
    (hP : FirstVerdict w.db r) (h : System.effect rt w r a = .ok (w', o)) : Stands w.db w'.db := by
  have hsame : ∀ {db : Database}, db.shareEvents = w.db.shareEvents → Stands w.db db := by
    intro db he
    rw [Stands, he]
    exact .refl .refl
  by_cases hr : ∃ c, r = .share c
  · obtain ⟨c, rfl⟩ := hr
    obtain ⟨⟨db, o'⟩, hs, he⟩ := map_eq_ok.mp h
    cases he
    exact step_final hP hs
  · cases acted_flow (effect_acted h) with
    | pays hp => exact hsame hp.shareEvents
    | share => exact absurd ⟨_, rfl⟩ hr
    | reorg | upsert => exact hsame rfl
    | @allocates _ db _ endpointIds _ hc =>
      exact .of_update (p := fun s => AllocateDeposit.openShare endpointIds s = true)
        (ShareEvent.stamp (Deposits.allocationIds a).batchId) .refl (fun s => ⟨rfl, fun _ => rfl⟩)
        (hc.shares : db.shareEvents.rows = _)

theorem change_final (w : World) (e : Change) : Stands w.db (change w e).db := by
  cases e with
  | lockVanishes | configure => exact .refl _
  | addSplitPolicy p =>
    simp only [change]
    split <;> exact .refl _

end Steps

variable {rt : Runtime}

theorem next_final {c d : Config World Call} {act : Action Call Answer Change}
    (ha : Admits (fun _ _ => True) (fun w r _ => FirstVerdict w.db r) (fun _ _ => True) c act)
    (h : (system rt).next c act = some d) : Stands c.shared.db d.shared.db := by
  obtain ⟨e, rfl, rfl⟩ | ⟨pid, r, rfl, _, _, rfl⟩ | ⟨pid, r, a, s, o, hact, hr, he, hd⟩ |
    ⟨pid, r, e, _, rfl⟩ | ⟨pid, r, b, rfl, _, rfl⟩ | ⟨pid, rfl, rfl⟩ := Machine.next_cases h
  · exact change_final c.shared e
  · exact .refl _
  · have hP : FirstVerdict c.shared.db r := by
      obtain rfl | ⟨e, rfl⟩ := hact <;> exact ha r hr
    obtain rfl | ⟨e, rfl⟩ := hd <;> exact effect_final hP he
  · exact .refl _
  · exact .refl _
  · exact .refl _

/-- Where the answers of the upstreams are recorded for open shares only, whatever
runs beside: a share that has left PENDING stays, with its verdict. -/
theorem verdict_is_final {c d : Config World Call}
    (h : (system rt).Run (Admits (fun _ _ => True) (fun w r _ => FirstVerdict w.db r)
      (fun _ _ => True)) c d) {s : ShareEvent} (hs : s ∈ c.shared.db.shareEvents.rows)
    (hfinal : s.status ≠ .pending) :
    (∃ s' ∈ d.shared.db.shareEvents.rows, shareKey s' = shareKey s) ∧
    ∀ s' ∈ d.shared.db.shareEvents.rows, shareKey s' = shareKey s → s'.status = s.status := by
  have hstands : Stands c.shared.db d.shared.db :=
    h.invariant (I := fun d => Stands c.shared.db d.shared.db)
      (fun _ _ _ hd ha hn => Stands.trans hd (next_final ha hn)) (Stands.refl c.shared.db)
  refine ⟨?_, fun s' hs' hkey => ?_⟩
  · obtain ⟨s', hs', hk⟩ := hstands.kept s hs
    exact ⟨s', hs', hk.symm⟩
  · obtain ⟨x, hx, hk, hfin⟩ | hnew := hstands.origin s' hs'
    · obtain rfl : x = s := Table.eq_of_id _ hx hs (hk.trans hkey)
      exact hfin hfinal
    · exact absurd hkey.symm (hnew s hs)

theorem late_verdict_replaces {c : Config World Call} {reference : ShareReference}
    {accepted : Bool} {latencyMs : ℤ} {reason : Option String} {a : Answer} {w : World}
    {o : Option Call} (h : System.effect rt c.shared
      (.share (.resolve reference accepted latencyMs reason)) a = .ok (w, o)) {s : ShareEvent}
    (hs : s ∈ c.shared.db.shareEvents.rows) (hm : matchesReference reference s = true) :
    ∃ s' ∈ w.db.shareEvents.rows, shareKey s' = shareKey s ∧ s'.status = verdictStatus accepted := by
  obtain ⟨⟨db, o'⟩, hstep, he⟩ := map_eq_ok.mp h
  cases he
  simp only [Shares.step, Shares.resolve, bind_eq_ok, orThrow_eq_ok, pure_eq_ok] at hstep
  obtain ⟨_, ⟨_, _, _, _, rfl⟩, he⟩ := hstep
  cases he
  refine ⟨verdict a.now accepted latencyMs reason s, ?_, rfl, rfl⟩
  exact List.mem_map.mpr ⟨s, hs, by rw [if_pos hm]⟩

section Sample

def statuses (c : Config World Call) : List ((Id × Instant) × ShareStatus) :=
  c.shared.db.shareEvents.rows.map (fun s => (shareKey s, s.status))

def submission : List (Action Call Answer Change) :=
  perform (.share (.readPolicy ⟨.btc, 1, 1, 1, 1, "job", 5⟩))
    [{ now := 1 }, { newId := fun _ => 1, createdAt := 1 }]

def timeout : List (Action Call Answer Change) :=
  perform (.share .reconcilePending) [{ now := 600002 }]

def disconnection : List (Action Call Answer Change) :=
  perform (.share (.unknown [⟨1, 1⟩] "upstream-disconnected")) [{ now := 600003 }]

def answer : List (Action Call Answer Change) :=
  perform (.share (.resolve ⟨1, 1⟩ true 20 none)) [{ now := 600004 }]

def testStep (w : World) (r : Call) (_ : Answer) : Bool :=
  match r with
  | .share (.resolve reference accepted _ _) => w.db.shareEvents.rows.all (fun s =>
      !matchesReference reference s || s.status = .pending || s.status = verdictStatus accepted)
  | _ => true

theorem testStep_first {w : World} {r : Call} {a : Answer} (h : testStep w r a = true) :
    FirstVerdict w.db r := by
  unfold FirstVerdict
  split
  · intro s hs hm
    simpa [testStep, hm] using List.all_eq_true.mp h s hs
  · trivial

theorem eq_of_statuses {c : Config World Call} {key : Id × Instant} {status : ShareStatus}
    (h : statuses c = [(key, status)]) : ∃ s, c.shared.db.shareEvents.rows = [s] ∧
      shareKey s = key ∧ s.status = status := by
  obtain ⟨s, hrows, hs⟩ := List.map_eq_singleton_iff.mp h
  obtain ⟨hkey, hstatus⟩ := Prod.mk.inj hs
  exact ⟨s, hrows, hkey, hstatus⟩

theorem verdict_is_final_sample : ∃ c d, (system sampleRuntime).Run (Admits (fun _ _ => True)
      (fun w r _ => FirstVerdict w.db r) (fun _ _ => True)) c d ∧
    statuses c = [((1, 1), .unknown)] ∧ ∀ s ∈ c.shared.db.shareEvents.rows,
      ∀ s' ∈ d.shared.db.shareEvents.rows, shareKey s' = shareKey s → s'.status = s.status := by
  have hexec : ((system sampleRuntime).exec (.idle sampleWorld) (submission ++ timeout)).map
      (fun c => (statuses c, ((system sampleRuntime).execChecked (testing testStep) c
        disconnection).isSome)) = some ([((1, 1), .unknown)], true) := by
    decide +kernel
  obtain ⟨c, _, hv⟩ := Option.map_eq_some_iff.mp hexec
  obtain ⟨hstatus, hsome⟩ := Prod.mk.inj hv
  obtain ⟨d, hd⟩ := Option.isSome_iff_exists.mp hsome
  have hrun := Machine.execChecked_run (testing_admits (fun _ _ _ => testStep_first)) hd
  refine ⟨c, d, hrun, hstatus, fun s hs => ?_⟩
  obtain ⟨t, hrows, _, hunknown⟩ := eq_of_statuses hstatus
  obtain rfl : s = t := by simpa [hrows] using hs
  exact (verdict_is_final hrun hs (by rw [hunknown]; decide)).2

/-- The share is given up, and the upstream's answer still turns it into an
accepted one. -/
theorem late_answer_changes_verdict : ¬ ∀ (rt : Runtime) (w : World) (c d : Config World Call),
    w.db.Fresh → (system rt).Reaches (.idle w) c → (system rt).Reaches c d →
    ∀ s ∈ c.shared.db.shareEvents.rows, s.status ≠ .pending →
      ∀ s' ∈ d.shared.db.shareEvents.rows, shareKey s' = shareKey s → s'.status = s.status := by
  intro h
  have hexec : ((system sampleRuntime).exec (.idle sampleWorld) (submission ++ timeout)).map
      (fun c => (statuses c, ((system sampleRuntime).exec c answer).map statuses)) =
      some ([((1, 1), .unknown)], some [((1, 1), .accepted)]) := by
    decide +kernel
  obtain ⟨c, hc, hv⟩ := Option.map_eq_some_iff.mp hexec
  obtain ⟨hstatus, hv⟩ := Prod.mk.inj hv
  obtain ⟨d, hd, hstatus'⟩ := Option.map_eq_some_iff.mp hv
  obtain ⟨s, hrows, hkey, hunknown⟩ := eq_of_statuses hstatus
  obtain ⟨s', hrows', hkey', haccepted⟩ := eq_of_statuses hstatus'
  have hsame := h sampleRuntime sampleWorld c d sampleWorld_fresh (Machine.exec_reaches hc)
    (Machine.exec_reaches hd) s (by simp [hrows]) (by rw [hunknown]; decide) s' (by simp [hrows'])
    (hkey'.trans hkey.symm)
  rw [hunknown, haccepted] at hsame
  cases hsame

end Sample

end Bitmine.Verdicts
