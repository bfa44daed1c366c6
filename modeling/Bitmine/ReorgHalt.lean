import Bitmine.Income
import Bitmine.NoOvercommit

namespace Bitmine.ReorgHalt

open Bitmine.Lib.UniqueTable Bitmine.Lib.Throwing Bitmine.Lib.Await
open Bitmine.Schema Bitmine.Deployment Bitmine.AllocationSpec Bitmine.Deposits Bitmine.Shares
open Bitmine.Execute Bitmine.System Bitmine.Income Bitmine.NoOvercommit

/-- A call that is about to write down a receipt for the output of a deposit. -/
def Reports (d : Deposit) : Call → Prop
  | .scan (.upsert scan receipt _ _) => sameOutput scan.asset receipt d = true
  | _ => False

def Halting (db : Database) (d : Deposit) : Prop :=
  ∃ d' ∈ db.deposits.rows, SameDeposit d d' ∧ d'.status = .reorged

/-- Only a report of its own output can lift the mark of a deposit. -/
theorem flow_halting {w w' : World} {a : Answer} {r : Call} {d : Deposit} (hf : Flow w a r w')
    (hr : ¬ Reports d r) (h : Halting w.db d) : Halting w'.db d := by
  obtain ⟨d', hm, hsame, hs⟩ := h
  have hself : ∀ {db : Database}, db.deposits = w.db.deposits → Halting db d :=
    fun he => ⟨d', he ▸ hm, hsame, hs⟩
  cases hf with
  | pays hp => exact hself hp.deposits
  | share hj => exact hself (journals_deposits hj).1
  | @reorg scan receipt existing _ hd =>
    refine ⟨if d'.id = existing.id then markReorged receipt d' else d', ?_, ?_⟩
    · subst hd
      simp only [World.store_db, withDeposits]
      exact List.mem_map.mpr ⟨d', hm, by simp only [decide_eq_true_eq]⟩
    · split
      · exact ⟨hsame.trans ⟨rfl, rfl, rfl, rfl, rfl⟩, rfl⟩
      · exact ⟨hsame, hs⟩
  | @upsert scan receipt _ _ _ hd =>
    have hne : sameOutput scan.asset receipt d' = false := by
      rw [hsame.sameOutput]
      exact Bool.eq_false_iff.mpr hr
    exact ⟨d', Table.mem_upsert_of_mem hd hm hne, hsame, hs⟩
  | allocates hc =>
    refine ⟨d', ?_, hsame, hs⟩
    rw [World.store_db, hc.deposits]
    refine List.mem_map.mpr ⟨d', hm, if_neg (fun hid => ?_)⟩
    -- an allocation starts from a confirmed deposit
    have he := w.db.deposits.eq_of_id hm hc.found hid
    rw [he, hc.confirmed] at hs
    cases hs

theorem change_deposits (w : World) (e : Change) : (change w e).db.deposits = w.db.deposits := by
  cases e with
  | lockVanishes | configure c => rfl
  | addSplitPolicy p =>
    simp only [change]
    split <;> rfl

def haltMessage : String := "Payouts are halted because an allocated deposit was reorged"

theorem halting_refuses {rt : Runtime} {w : World} {d : Deposit} (h : Halting w.db d)
    {x : ExecuteCall} (hp : x.point = .checkReorg) (a : Answer) :
    effect rt w (.execute x) a = .error haltMessage := by
  obtain ⟨d', hm, _, hs⟩ := h
  have hany : w.db.deposits.rows.any (fun d => d.status = .reorged) = true :=
    List.any_eq_true.mpr ⟨d', hm, by simpa using hs⟩
  simp only [effect, Execute.step, hp, hany]
  rfl

/-- An execution that has not passed the check: it waits for the lock, or for
the check, or it is on its way out. -/
def Refused (x : ExecuteCall) : Prop :=
  x.point = .acquire ∨ x.point = .checkReorg ∨ x.point = .release

def refused : Option Call → Prop
  | some (.execute x) => Refused x
  | _ => True

theorem effect_refused {rt : Runtime} {w w' : World} {d : Deposit} {r : Call} {a : Answer}
    {o : Option Call} (h : Halting w.db d) (hr : refused (some r))
    (he : effect rt w r a = .ok (w', o)) : refused o := by
  cases r with
  | execute x =>
    obtain hp | hp | hp := hr
    · cases effect_acted he with
      | execute hx => cases hx <;> simp_all [refused, Refused]
    · rw [halting_refuses h hp] at he
      cases he
    · cases effect_acted he with
      | execute hx => cases hx <;> simp_all [refused]
  | allocate | scan | share | plan | planOperator | approve | reconcile =>
    cases o with
    | none => trivial
    | some r' =>
      have hk := (effect_acted he).executing_eq
      cases r' <;> trivial

theorem handler_refused {r : Call} {e : String} (hr : refused (some r)) :
    refused (System.handler r e) := by
  cases r with
  | execute x =>
    simp only [System.handler, Execute.handler]
    obtain hp | hp | hp := hr <;> simp [hp, refused, Refused]
  | scan c =>
    cases hc : Deposits.handler c <;> simp [System.handler, hc, refused]
  | allocate | share | plan | planOperator | approve | reconcile => trivial

theorem background_refused {w : World} {r : Call} (hr : refused (some r)) (b : Bool) :
    refused (some (background w r b)) := by
  cases r with
  | execute x =>
    simp only [background, refused, Refused, renew_point] at hr ⊢
    exact hr
  | allocate | scan | share | plan | planOperator | approve | reconcile => trivial

theorem entry_refused {r : Call} (h : r.entry = true) : refused (some r) := by
  cases r with
  | execute x => exact .inl (entry_point h)
  | allocate | scan | share | plan | planOperator | approve | reconcile => trivial

theorem next_halting {rt : Runtime} {c c' : Config World Call} {d : Deposit}
    {act : Action Call Answer Change} (h : Halting c.shared.db d)
    (hok : Allowed shared (fun _ r _ => ¬ Reports d r) (fun _ _ => True) c act)
    (hn : (system rt).next c act = some c') :
    Halting c'.shared.db d ∧ ∀ pid, refused (c.calls pid) → refused (c'.calls pid) := by
  have hput : ∀ {s pid o}, (refused (c.calls pid) → refused o) →
      ∀ q, refused (c.calls q) → refused ((c.put s pid o).calls q) := by
    intro s pid o ho q hq
    by_cases hqp : q = pid
    · subst q
      simpa only [Config.put, Function.update_self] using ho hq
    · simpa only [Config.put, Function.update_of_ne hqp] using hq
  obtain ⟨x, rfl, rfl⟩ | ⟨pid, r, rfl, he, _, rfl⟩ | ⟨pid, r, a, s, o, hact, hr, he, hd⟩ |
    ⟨pid, r, x, hr, rfl⟩ | ⟨pid, r, b, rfl, hr, rfl⟩ | ⟨pid, rfl, rfl⟩ := Machine.next_cases hn
  · refine ⟨?_, fun _ hr => hr⟩
    rw [Halting] at h ⊢
    rwa [← change_deposits c.shared x] at h
  · exact ⟨h, hput (fun _ => entry_refused he)⟩
  · have hnot : ¬ Reports d r := by
      obtain rfl | ⟨_, rfl⟩ := hact <;> exact hok r hr
    have hs : Halting s.db d := flow_halting (acted_flow (effect_acted he)) hnot h
    obtain rfl | ⟨x, rfl⟩ := hd
    · exact ⟨hs, hput (fun hc => effect_refused h (hr ▸ hc) he)⟩
    · exact ⟨hs, hput (fun hc => handler_refused (hr ▸ hc))⟩
  · exact ⟨h, hput (fun hc => handler_refused (hr ▸ hc))⟩
  · exact ⟨h, hput (fun hc => background_refused (hr ▸ hc) b)⟩
  · exact ⟨h, hput (fun _ => trivial)⟩

/-- In a run without reports of a marked deposit the mark stays. Every check
of an execution throws, and no execution gets past it that was not past it
before. -/
theorem halted_until_reported {rt : Runtime} {c c' : Config World Call} {d : Deposit}
    (hd : d ∈ c.shared.db.deposits.rows) (hs : d.status = .reorged)
    (h : (system rt).Run (Allowed shared (fun _ r _ => ¬ Reports d r) (fun _ _ => True)) c c') :
    (∃ d' ∈ c'.shared.db.deposits.rows, d'.id = d.id ∧ d'.status = .reorged) ∧
    (∀ pid x a, c'.calls pid = some (.execute x) → x.point = .checkReorg →
      effect rt c'.shared (.execute x) a = .error haltMessage) ∧
    ∀ pid, refused (c.calls pid) → refused (c'.calls pid) := by
  obtain ⟨hhalt, hcalls⟩ := h.invariant (I := fun e => Halting e.shared.db d ∧
      ∀ pid, refused (c.calls pid) → refused (e.calls pid))
    (fun e act e' hi hok hn =>
      ⟨(next_halting hi.1 hok hn).1, fun pid hr => (next_halting hi.1 hok hn).2 pid (hi.2 pid hr)⟩)
    ⟨⟨d, hd, .refl d, hs⟩, fun _ hr => hr⟩
  obtain ⟨d', hm, hsame, hst⟩ := id hhalt
  exact ⟨⟨d', hm, hsame.id, hst⟩, fun _ x a _ hp => halting_refuses hhalt hp a, hcalls⟩

section Sample

def sampleScan (confirmations : ℤ) : List (Action Call Answer Change) :=
  perform (.scan (.readUpstreams .btc))
    [{}, { receipts := [⟨"txid", "0", "address", 1000, confirmations, true⟩] }, {}, { now := 9 }]

def sampleExecution : List (Action Call Answer Change) :=
  perform (.execute ⟨10, 1, false, .acquire⟩) [{}]

def passesCheck (c : Config World Call) : Option Bool :=
  match c.calls 0 with
  | some (.execute ⟨id, token, lockLost, .checkReorg⟩) =>
    some (effect sampleRuntime c.shared (.execute ⟨id, token, lockLost, .checkReorg⟩) {}).isOk
  | _ => none

theorem passesCheck_some {c : Config World Call} {b : Bool} (h : passesCheck c = some b) :
    ∃ x, c.calls 0 = some (.execute x) ∧ x.point = .checkReorg ∧
      (effect sampleRuntime c.shared (.execute x) {}).isOk = b := by
  rw [passesCheck] at h
  split at h
  · rename_i hc
    exact ⟨_, hc, rfl, Option.some.inj h⟩
  · cases h

def statuses (w : World) : List DepositStatus := w.db.deposits.rows.map Deposit.status

theorem mem_of_statuses {w : World} (h : statuses w = [.reorged]) :
    ∃ d ∈ w.db.deposits.rows, d.status = .reorged := by
  have hm : DepositStatus.reorged ∈ statuses w := by simp [h]
  exact List.mem_map.mp hm

def StaysLocked (d : Deposit) (_ : World) (r : Call) (_ : Answer) : Prop :=
  ∀ scan receipt upstream existing, r = .scan (.upsert scan receipt upstream existing) →
    sameOutput scan.asset receipt d = true → receipt.locked = true

def lockedOnly (_ : World) (r : Call) (_ : Answer) : Bool :=
  match r with
  | .scan (.upsert _ receipt _ _) => receipt.locked
  | _ => true

theorem lockedOnly_sound (w : World) (r : Call) (a : Answer) (h : lockedOnly w r a = true)
    (d : Deposit) : StaysLocked d w r a := by
  rintro scan receipt upstream existing rfl _
  exact h

def reportsNothing (_ : World) (r : Call) (_ : Answer) : Bool :=
  match r with
  | .scan (.upsert _ _ _ _) => false
  | _ => true

theorem reportsNothing_sound (w : World) (r : Call) (a : Answer) (h : reportsNothing w r a = true)
    (d : Deposit) : ¬ Reports d r := by
  unfold Reports
  split
  · cases h
  · exact id

theorem execAlone_twice {test : World → Call → Answer → Bool} {P : World → Call → Answer → Prop}
    (htest : ∀ w r a, test w r a = true → P w r a) (acts acts' : List (Action Call Answer Change))
    {β : Type} {f : Config World Call → Config World Call → β} {v : β}
    (h : ((system sampleRuntime).execAlone (fun _ _ _ => true) (.idle sampleWorld) acts).bind
      (fun c => ((system sampleRuntime).execAlone test c acts').map (f c)) = some v) :
    ∃ c c', (system sampleRuntime).Reaches (.idle sampleWorld) c ∧
      (system sampleRuntime).Run (Allowed shared P (fun _ _ => True)) c c' ∧ f c c' = v := by
  obtain ⟨c, hc, h⟩ := Option.bind_eq_some_iff.mp h
  obtain ⟨c', hc', hf⟩ := Option.map_eq_some_iff.mp h
  obtain ⟨hrun, hcalls⟩ := Machine.execAlone_run shared (P := fun _ _ _ => True)
    (Q := fun _ _ => True) (fun _ _ _ _ => trivial) (fun _ _ => rfl) hc
  exact ⟨c, c', hrun.reaches, (Machine.execAlone_run shared htest hcalls hc').1, hf⟩

theorem halted_until_reported_sample : ∃ c c' d,
    (system sampleRuntime).Reaches (.idle sampleWorld) c ∧ d ∈ c.shared.db.deposits.rows ∧
    d.status = .reorged ∧ (system sampleRuntime).Run
      (Allowed shared (fun _ r _ => ¬ Reports d r) (fun _ _ => True)) c c' ∧
    ∃ x, c'.calls 0 = some (.execute x) ∧
      effect sampleRuntime c'.shared (.execute x) {} = .error haltMessage := by
  obtain ⟨c, c', hc, hr, hv⟩ := execAlone_twice
    (P := fun _ r _ => ∀ d, ¬ Reports d r) reportsNothing_sound
    (sampleCredit ++ sampleScan 0) (perform (.plan (.listDue .btc)) [{}, {}, {}] ++ sampleExecution)
    (f := fun c c' => (statuses c.shared, passesCheck c')) (v := ([.reorged], some false))
    (by decide +kernel)
  obtain ⟨hst, hpass⟩ := Prod.mk.inj hv
  obtain ⟨d, hd, hs⟩ := mem_of_statuses hst
  obtain ⟨x, hx, hp, _⟩ := passesCheck_some hpass
  have hrun : (system sampleRuntime).Run
      (Allowed shared (fun _ r _ => ¬ Reports d r) (fun _ _ => True)) c c' :=
    hr.mono (fun _ _ => Allowed.imp (fun _ _ _ hn => hn d))
  exact ⟨c, c', d, hc, hd, hs, hrun, x, hx, (halted_until_reported hd hs hrun).2.1 0 x {} hx hp⟩

/-- A second scan that still finds the output locked resets the mark, and the
next execution passes the check. -/
theorem locked_report_lifts_halt : ¬ ∀ (rt : Runtime) (w : World) (c c' : Config World Call)
    (d : Deposit), w.db.Fresh → (system rt).Reaches (.idle w) c → d ∈ c.shared.db.deposits.rows →
    d.status = .reorged →
    (system rt).Run (Allowed shared (StaysLocked d) (fun _ _ => True)) c c' →
    ∀ pid x a, c'.calls pid = some (.execute x) → x.point = .checkReorg →
      effect rt c'.shared (.execute x) a = .error haltMessage := by
  intro h
  obtain ⟨c, c', hc, hr, hv⟩ := execAlone_twice
    (P := fun w r a => ∀ d, StaysLocked d w r a) lockedOnly_sound
    (sampleCredit ++ sampleScan 0) (sampleScan 1 ++ sampleExecution)
    (f := fun c c' => (statuses c.shared, passesCheck c')) (v := ([.reorged], some true))
    (by decide +kernel)
  obtain ⟨hst, hpass⟩ := Prod.mk.inj hv
  obtain ⟨d, hd, hs⟩ := mem_of_statuses hst
  obtain ⟨x, hx, hp, hok⟩ := passesCheck_some hpass
  have hrun : (system sampleRuntime).Run (Allowed shared (StaysLocked d) (fun _ _ => True)) c c' :=
    hr.mono (fun _ _ => Allowed.imp (fun _ _ _ hl => hl d))
  rw [h _ _ c c' d sampleWorld_fresh hc hd hs hrun 0 x {} hx hp] at hok
  cases hok

end Sample

end Bitmine.ReorgHalt
