import Bitmine.SingleCredit
import Bitmine.ReorgHalt

namespace Bitmine.StaleScan

open Bitmine.Lib.UniqueTable Bitmine.Lib.Await
open Bitmine.Schema Bitmine.Deployment Bitmine.Deposits Bitmine.System Bitmine.Income

def Allocated (db : Database) (d : Deposit) : Prop :=
  ∃ d' ∈ db.deposits.rows, SameDeposit d d' ∧ d'.status = .allocated

/-- No receipt of the wallet reports the output of a deposit as locked. -/
def NeverLocked (d : Deposit) (_ : World) (r : Call) (a : Answer) : Prop :=
  ∀ asset byAddress, r = .scan (.scanReceipts asset byAddress) →
    ∀ receipt ∈ a.receipts, sameOutput asset receipt d = true → receipt.locked = false

/-- A scan that writes down a receipt for an allocated deposit has read the
deposit as allocated: it was not allocated between the read and the upsert. -/
def ReadsCurrent (d : Deposit) (w : World) (r : Call) : Prop :=
  ∀ scan receipt upstream existing, r = .scan (.upsert scan receipt upstream existing) →
    sameOutput scan.asset receipt d = true → Allocated w.db d →
    existing.map Deposit.status = some .allocated

def Clear (d : Deposit) (asset : AssetCode) (receipts : List WalletReceipt) : Prop :=
  ∀ receipt ∈ receipts, sameOutput asset receipt d = true → receipt.locked = false

/-- What holds at each point of a scan: its receipts are clear, and a deposit
it is about to mark as reorged is the row of a locked receipt. -/
def Loc (d : Deposit) (w : World) : Call → Prop
  | .scan (.readDeposit scan receipt _) => Clear d scan.asset (receipt :: scan.receipts)
  | .scan (.reorg scan receipt existing) => Clear d scan.asset (receipt :: scan.receipts) ∧
      receipt.locked = true ∧
      ∃ e ∈ w.db.deposits.rows, e.id = existing.id ∧ sameOutput scan.asset receipt e = true
  | .scan (.upsert scan receipt _ _) => Clear d scan.asset (receipt :: scan.receipts)
  | .scan (.allocate scan _) => Clear d scan.asset scan.receipts
  | _ => True

theorem Clear.tail {d : Deposit} {asset : AssetCode} {receipt : WalletReceipt}
    {receipts : List WalletReceipt} (h : Clear d asset (receipt :: receipts)) :
    Clear d asset receipts := fun r hr => h r (List.mem_cons_of_mem _ hr)

theorem proceed_loc {d : Deposit} {w : World} {asset : AssetCode} {byAddress : AddressMap}
    {receipts : List WalletReceipt} (h : Clear d asset receipts) :
    ∀ r ∈ (proceed asset byAddress receipts).map Call.scan, Loc d w r := by
  induction receipts with
  | nil =>
    intro r hr
    cases hr
  | cons receipt receipts ih =>
    intro r hr
    rw [proceed] at hr
    split at hr
    · cases hr
      exact h
    · exact ih h.tail r hr

theorem Loc.stable {d : Deposit} {w w' : World} {r : Call} (hg : DepositsGrow w w')
    (h : Loc d w r) : Loc d w' r := by
  cases r with
  | scan c =>
    cases c with
    | reorg scan receipt existing =>
      obtain ⟨hclear, hlocked, e, he, hid, hout⟩ := h
      obtain ⟨e', he', hsame⟩ := hg.kept e he
      exact ⟨hclear, hlocked, e', he', hsame.id.trans hid, (hsame.sameOutput _ _).trans hout⟩
    | readUpstreams | scanReceipts | readDeposit | upsert | allocate => exact h
  | allocate | share | plan | planOperator | approve | execute | reconcile => trivial

section Step

variable {rt : Runtime} {d : Deposit} {w w' : World} {a : Answer} {r : Call} {o : Option Call}

theorem acted_loc (h : Loc d w r) (hl : NeverLocked d w r a) (hx : Acted rt w a r w' o) :
    ∀ r' ∈ o, Loc d w' r' := by
  have hother : ∀ {α : Type} {f : α → Call} {o : Option α}, (∀ x w, Loc d w (f x)) →
      ∀ r' ∈ o.map f, Loc d w' r' := by
    intro α f o hf r' hr'
    obtain ⟨x, _, rfl⟩ := Option.map_eq_some_iff.mp hr'
    exact hf x w'
  cases hx with
  | scan hs =>
    cases hs with
    | readUpstreams =>
      intro r' hr'
      cases hr'
      trivial
    | scanReceipts => exact proceed_loc (hl _ _ rfl)
    | locked hm hk hs hlocked =>
      intro r' hr'
      cases hr'
      exact ⟨h, hlocked, _, hm, rfl, hk⟩
    | read =>
      intro r' hr'
      cases hr'
      exact h
    | reorg => exact proceed_loc h.1.tail
    | upsert hd ho =>
      obtain rfl | ⟨id, rfl⟩ := ho
      · exact proceed_loc (Clear.tail h)
      · intro r' hr'
        cases hr'
        exact Clear.tail h
    | allocate => exact proceed_loc h
  | allocate | plans | plansOperator =>
    intro r' hr'
    cases hr'
  | share | prepares | preparesOperator | approve | execute | reconcile =>
    exact hother (fun _ _ => trivial)

theorem handler_loc (e : String) (h : Loc d w r) : ∀ r' ∈ System.handler r e, Loc d w r' := by
  intro r' hr'
  cases r with
  | scan c =>
    cases c with
    | allocate scan id => exact proceed_loc h r' hr'
    | readUpstreams | scanReceipts | readDeposit | reorg | upsert => cases hr'
  | execute c =>
    obtain ⟨c', _, rfl⟩ := Option.map_eq_some_iff.mp hr'
    trivial
  | allocate | share | plan | planOperator | approve | reconcile => cases hr'

/-- Only an upsert that works from an outdated row takes the mark away. -/
theorem flow_allocated (hf : Flow w a r w') (hloc : Loc d w r) (hread : ReadsCurrent d w r)
    (h : Allocated w.db d) : Allocated w'.db d := by
  obtain ⟨d', hm, hsame, hs⟩ := id h
  have hself : ∀ {db : Database}, db.deposits = w.db.deposits → Allocated db d :=
    fun he => ⟨d', he ▸ hm, hsame, hs⟩
  cases hf with
  | pays hp => exact hself hp.deposits
  | share hj => exact hself (journals_deposits hj).1
  | @reorg scan receipt existing _ hd =>
    obtain ⟨hclear, hlocked, e, he, hid, hout⟩ := hloc
    have hne : d'.id ≠ existing.id := by
      intro heq
      rw [w.db.deposits.eq_of_id he hm (hid.trans heq.symm), hsame.sameOutput] at hout
      rw [hclear receipt List.mem_cons_self hout] at hlocked
      cases hlocked
    refine ⟨d', ?_, hsame, hs⟩
    subst hd
    simp only [World.store_db, withDeposits]
    exact List.mem_map.mpr ⟨d', hm, if_neg (by simpa using hne)⟩
  | @upsert scan receipt _ existing deposits hd =>
    by_cases hout : sameOutput scan.asset receipt d' = true
    · have hstatus : existing.map Deposit.status = some .allocated :=
        hread _ _ _ _ rfl (hsame.sameOutput _ _ ▸ hout) h
      refine ⟨refresh a.now receipt existing d', ?_, hsame.trans ⟨rfl, rfl, rfl, rfl, rfl⟩,
        if_pos hstatus⟩
      have hany : w.db.deposits.rows.any (sameOutput scan.asset receipt) = true :=
        List.any_eq_true.mpr ⟨d', hm, hout⟩
      unfold Table.upsert at hd
      rw [if_pos hany] at hd
      cases hd
      exact List.mem_map.mpr ⟨d', hm, if_pos hout⟩
    · exact ⟨d', Table.mem_upsert_of_mem hd hm (Bool.eq_false_iff.mpr hout), hsame, hs⟩
  | @allocates _ db deposit _ _ hc =>
    refine ⟨if d'.id = deposit.id then d'.allocate a.now else d', ?_, ?_⟩
    · rw [World.store_db, hc.deposits]
      exact List.mem_map_of_mem hm
    · split
      · exact ⟨hsame.trans ⟨rfl, rfl, rfl, rfl, rfl⟩, rfl⟩
      · exact ⟨hsame, hs⟩

end Step

/-- The condition on the effects of a run. -/
def Timely (d : Deposit) (w : World) (r : Call) (a : Answer) : Prop :=
  NeverLocked d w r a ∧ ReadsCurrent d w r

theorem outline (rt : Runtime) (d : Deposit) : Outline (system rt) shared (Timely d)
    (fun _ _ => True) (fun _ => True) (Loc d) (fun _ => DepositsGrow) where
  entry s r _ he := by
    cases r with
    | scan c =>
      cases c with
      | readUpstreams => trivial
      | scanReceipts | readDeposit | reorg | upsert | allocate => cases he
    | allocate | share | plan | planOperator | approve | execute | reconcile => trivial
  effect s r a s' o _ hloc hP he := by
    have hx := effect_acted he
    have hg := (acted_flow hx).deposits
    exact ⟨trivial, hg, acted_loc hloc hP.1 hx, fun e => handler_loc e (hloc.stable hg)⟩
  handler s r e r' _ hloc hr' := handler_loc e hloc r' hr'
  background s r b _ hloc := by
    cases r with
    | execute c => trivial
    | allocate | scan | share | plan | planOperator | approve | reconcile => exact hloc
  event s e _ _ :=
    ⟨trivial, fun r hr => hr.stable (.of_eq (ReorgHalt.change_deposits s e))⟩
  stable s s' r r' _ hg _ hloc := hloc.stable hg

/-- Once allocated, a deposit stays so in every later state of a run in which
no receipt reports it as locked and no scan writes it down from a row that was
read before the allocation. -/
theorem allocated_stays {rt : Runtime} {w : World} {c c' : Config World Call} {d : Deposit}
    (h : (system rt).Run (Allowed shared (Timely d) (fun _ _ => True)) (.idle w) c)
    (hd : d ∈ c.shared.db.deposits.rows) (hs : d.status = .allocated)
    (h' : (system rt).Run (Allowed shared (Timely d) (fun _ _ => True)) c c') :
    ∃ d' ∈ c'.shared.db.deposits.rows, d'.id = d.id ∧ d'.status = .allocated := by
  have hkeyed := keyed_shared (system rt)
  have hc := (outline rt d).run hkeyed (Outline.idle trivial) h
  have hstays : Allocated c.shared.db d → Allocated c'.shared.db d :=
    (outline rt d).run_rel hkeyed (G := fun s s' => Allocated s.db d → Allocated s'.db d)
      (fun _ hs => hs) (fun _ _ _ hs hs' => hs' ∘ hs)
      (fun s r a s' o _ hloc hP he =>
        flow_allocated (acted_flow (effect_acted he)) hloc hP.2)
      (fun s e _ _ => by
        rintro ⟨d', hm, hd'⟩
        exact ⟨d', (ReorgHalt.change_deposits s e).symm ▸ hm, hd'⟩)
      hc h'
  obtain ⟨d', hm, hsame, hst⟩ := hstays ⟨d, hd, .refl d, hs⟩
  exact ⟨d', hm, hsame.id, hst⟩

section Sample

def unlockedOnly (_ : World) (r : Call) (a : Answer) : Bool :=
  match r with
  | .scan (.scanReceipts _ _) => a.receipts.all (fun receipt => !receipt.locked)
  | _ => true

theorem unlockedOnly_sound (w : World) (r : Call) (a : Answer) (h : unlockedOnly w r a = true)
    (d : Deposit) : NeverLocked d w r a := by
  rintro asset byAddress rfl receipt hm _
  simpa using List.all_eq_true.mp h receipt hm

def timely (w : World) (r : Call) (a : Answer) : Bool :=
  unlockedOnly w r a && match r with
  | .scan (.upsert _ _ _ existing) => existing.map Deposit.status = some .allocated ||
      w.db.deposits.rows.all (fun d => d.status ≠ .allocated)
  | _ => true

theorem timely_sound (w : World) (r : Call) (a : Answer) (h : timely w r a = true)
    (d : Deposit) : Timely d w r a := by
  obtain ⟨hl, hu⟩ := Bool.and_eq_true_iff.mp h
  refine ⟨unlockedOnly_sound w r a hl d, ?_⟩
  rintro scan receipt upstream existing rfl _ ⟨d', hm, _, hs⟩
  obtain hu | hu := Bool.or_eq_true_iff.mp hu
  · exact of_decide_eq_true hu
  · exact absurd hs (of_decide_eq_true (List.all_eq_true.mp hu d' hm))

theorem execChecked_twice {test : World → Call → Answer → Bool}
    {P : World → Call → Answer → Prop} (htest : ∀ w r a, test w r a = true → P w r a)
    (acts acts' : List (Action Call Answer Change)) {β : Type}
    {f : Config World Call → Config World Call → β} {v : β}
    (h : ((system sampleRuntime).execChecked (testing test) (.idle sampleWorld) acts).bind
      (fun c => ((system sampleRuntime).execChecked (testing test) c acts').map (f c)) = some v) :
    ∃ c c', (system sampleRuntime).Run (Allowed shared P (fun _ _ => True)) (.idle sampleWorld) c ∧
      (system sampleRuntime).Run (Allowed shared P (fun _ _ => True)) c c' ∧ f c c' = v := by
  obtain ⟨c, hc, h⟩ := Option.bind_eq_some_iff.mp h
  obtain ⟨c', hc', hf⟩ := Option.map_eq_some_iff.mp h
  exact ⟨c, c', Machine.execChecked_run (testing_allowed htest) hc,
    Machine.execChecked_run (testing_allowed htest) hc', hf⟩

def sampleScan (pid : ℕ) (answers : List Answer) : List (Action Call Answer Change) :=
  .call pid (.scan (.readUpstreams .btc)) ::
    ({} :: { receipts := [⟨"txid", "0", "address", 1000, 7, false⟩] } :: answers).map (.resolve pid)

def sampleStatuses (c c' : Config World Call) : List DepositStatus × List DepositStatus :=
  (ReorgHalt.statuses c.shared, ReorgHalt.statuses c'.shared)

theorem mem_of_statuses {w : World} {s : DepositStatus} (h : ReorgHalt.statuses w = [s]) :
    ∃ d, w.db.deposits.rows = [d] ∧ d.status = s := by
  rw [ReorgHalt.statuses] at h
  obtain ⟨d, hd, hs⟩ := List.map_eq_singleton_iff.mp h
  exact ⟨d, hd, hs⟩

theorem allocated_stays_sample : ∃ c c' d d',
    (system sampleRuntime).Run (Allowed shared (Timely d) (fun _ _ => True)) (.idle sampleWorld) c ∧
    c.shared.db.deposits.rows = [d] ∧ d.status = .allocated ∧
    (system sampleRuntime).Run (Allowed shared (Timely d) (fun _ _ => True)) c c' ∧
    d' ∈ c'.shared.db.deposits.rows ∧ d'.id = d.id ∧ d'.status = .allocated := by
  obtain ⟨c, c', hr, hr', hv⟩ := execChecked_twice (P := fun w r a => ∀ d, Timely d w r a)
    timely_sound sampleCredit (sampleScan 1 [{}, { now := 9 }])
    (f := sampleStatuses) (v := ([.allocated], [.allocated])) (by decide +kernel)
  obtain ⟨d, hd, hs⟩ := mem_of_statuses (Prod.mk.inj hv).1
  have hmono : ∀ {c c'}, (system sampleRuntime).Run (Allowed shared
      (fun w r a => ∀ d, Timely d w r a) (fun _ _ => True)) c c' →
      (system sampleRuntime).Run (Allowed shared (Timely d) (fun _ _ => True)) c c' :=
    fun h => h.mono (fun _ _ => Allowed.imp (fun _ _ _ hn => hn d))
  obtain ⟨d', hm, hid, hst⟩ := allocated_stays (hmono hr) (by simp [hd]) hs (hmono hr')
  exact ⟨c, c', d, d', hmono hr, hd, hs, hmono hr', hm, hid, hst⟩

/-- The first scan fails to allocate. The second reads the deposit as confirmed,
the deposit is allocated on request, and the scan writes down what it read. -/
theorem stale_scan_reverts : ¬ ∀ (rt : Runtime) (w : World) (c c' : Config World Call)
    (d : Deposit), w.db.Fresh →
    (system rt).Run (Allowed shared (NeverLocked d) (fun _ _ => True)) (.idle w) c →
    d ∈ c.shared.db.deposits.rows → d.status = .allocated →
    (system rt).Run (Allowed shared (NeverLocked d) (fun _ _ => True)) c c' →
    ∀ d' ∈ c'.shared.db.deposits.rows, d'.id = d.id →
      d'.status ≠ .confirmed ∧ d'.status ≠ .observed := by
  intro h
  obtain ⟨c, c', hr, hr', hv⟩ := execChecked_twice (P := fun w r a => ∀ d, NeverLocked d w r a)
    unlockedOnly_sound
    (sampleCredit.dropLast ++ [.reject 0 "timeout"] ++ sampleScan 1 [{}] ++
      [.call 2 (.allocate 1), .resolve 2 { now := 4, newId := fun n => n + 1 }])
    [.resolve 1 { now := 9 }]
    (f := fun c c' => (sampleStatuses c c', c'.shared.db.deposits.rows.map Deposit.id,
      c.shared.db.deposits.rows.map Deposit.id))
    (v := (([.allocated], [.confirmed]), [1], [1])) (by decide +kernel)
  obtain ⟨hst, hids⟩ := Prod.mk.inj hv
  obtain ⟨d, hd, hs⟩ := mem_of_statuses (Prod.mk.inj hst).1
  obtain ⟨d', hd', hs'⟩ := mem_of_statuses (Prod.mk.inj hst).2
  have hmono : ∀ {c c'}, (system sampleRuntime).Run (Allowed shared
      (fun w r a => ∀ d, NeverLocked d w r a) (fun _ _ => True)) c c' →
      (system sampleRuntime).Run (Allowed shared (NeverLocked d) (fun _ _ => True)) c c' :=
    fun h => h.mono (fun _ _ => Allowed.imp (fun _ _ _ hn => hn d))
  have hid : d'.id = d.id := by
    simp only [hd, hd', List.map_cons, List.map_nil, Prod.mk.injEq, List.cons.injEq, and_true] at hids
    exact hids.1.trans hids.2.symm
  exact (h _ _ c c' d sampleWorld_fresh (hmono hr) (by simp [hd]) hs (hmono hr') d' (by simp [hd'])
    hid).1 hs'

end Sample

end Bitmine.StaleScan
