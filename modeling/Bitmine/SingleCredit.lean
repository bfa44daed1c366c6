import Bitmine.Income

namespace Bitmine.SingleCredit

open Bitmine.Lib.UniqueTable Bitmine.Lib.GroupSum Bitmine.Lib.Throwing Bitmine.Lib.Await
open Bitmine.Schema Bitmine.Deployment Bitmine.Ledger Bitmine.AllocateDeposit
open Bitmine.AllocationSpec Bitmine.Deposits Bitmine.System Bitmine.Income

structure Output where
  asset : AssetCode
  txid : String
  outputRef : String
  deriving DecidableEq

def output (d : Deposit) : Output := ⟨d.asset, d.txid, d.outputRef⟩

def receiptOutput (e : AssetCode × WalletReceipt) : Output := ⟨e.1, e.2.txid, e.2.outputRef⟩

def firstReceived (log : List Observation) (o : Output) : Option (AssetCode × WalletReceipt) :=
  (received log).find? (fun e => receiptOutput e = o)

def standsFor (db : Database) (o : Output) (depositId : Id) : Bool :=
  db.deposits.rows.any (fun d => d.id = depositId ∧ output d = o)

def allocationsOf (db : Database) (o : Output) : List AllocationBatch :=
  db.allocationBatches.rows.filter (fun b => standsFor db o b.depositId)

def isDepositJournal (db : Database) (o : Output) (t : JournalTransaction) : Bool :=
  match t.type, t.reference with
  | .deposit, .deposit depositId => standsFor db o depositId
  | _, _ => false

def isAllocationJournal (db : Database) (o : Output) (t : JournalTransaction) : Bool :=
  match t.type, t.reference with
  | .allocation, .allocationBatch batchId => (allocationsOf db o).any (fun b => b.id = batchId)
  | _, _ => false

def depositJournalsOf (db : Database) (o : Output) : List JournalTransaction :=
  db.journalTransactions.rows.filter (isDepositJournal db o)

def allocationJournalsOf (db : Database) (o : Output) : List JournalTransaction :=
  db.journalTransactions.rows.filter (isAllocationJournal db o)

/-- Both sides of a journal transaction come to an amount. -/
def Carries (t : JournalTransaction) (amount : ℤ) : Prop :=
  debitTotal t.entries = amount ∧ creditTotal t.entries = amount

/-- Batches and journals go back to deposits, deposits to first receipts. -/
structure Credited (w : World) : Prop where
  batch : ∀ b ∈ w.db.allocationBatches.rows, ∃ d ∈ w.db.deposits.rows,
    d.id = b.depositId ∧ d.asset = b.asset ∧ d.amountAtomic = b.totalAtomic
  depositJournal : ∀ t ∈ w.db.journalTransactions.rows, t.type = .deposit →
    ∃ d ∈ w.db.deposits.rows, t.reference = .deposit d.id ∧ t.asset = d.asset ∧
      Carries t d.amountAtomic
  allocationJournal : ∀ t ∈ w.db.journalTransactions.rows, t.type = .allocation →
    ∃ b ∈ w.db.allocationBatches.rows, t.reference = .allocationBatch b.id ∧ t.asset = b.asset ∧
      Carries t b.totalAtomic
  observed : ∀ d ∈ w.db.deposits.rows, ∃ e, firstReceived w.log (output d) = some e ∧
    e.2.amountAtomic = d.amountAtomic
  recorded : ∀ e ∈ received w.log, ∃ d ∈ w.db.deposits.rows, output d = receiptOutput e

theorem sameOutput_iff {asset : AssetCode} {receipt : WalletReceipt} {d : Deposit} :
    sameOutput asset receipt d = true ↔ output d = receiptOutput (asset, receipt) := by
  simp [sameOutput, output, receiptOutput]

theorem output_same {d d' : Deposit} (h : SameDeposit d d') : output d' = output d := by
  simp only [output, h.asset, h.txid, h.outputRef]

section Step

variable {w w' : World} {a : Answer} {r : Call}

theorem firstReceived_append {log log' : List Observation} {es : List (AssetCode × WalletReceipt)}
    (h : received log' = received log ++ es) {o : Output} {e : AssetCode × WalletReceipt}
    (he : firstReceived log o = some e) : firstReceived log' o = some e := by
  rw [firstReceived] at he
  rw [firstReceived, h, List.find?_append, he]
  rfl

theorem flow_observed (h : Credited w) (hf : Flow w a r w') :
    ∀ d' ∈ w'.db.deposits.rows, ∃ e, firstReceived w'.log (output d') = some e ∧
      e.2.amountAtomic = d'.amountAtomic := by
  intro d' hd'
  obtain ⟨d, hd, hsame⟩ | ⟨asset, receipt, hout, ham, he, hnew⟩ := hf.deposits.origin d' hd'
  · obtain ⟨e, he, ham⟩ := h.observed d hd
    refine ⟨e, ?_, ham.trans hsame.amountAtomic.symm⟩
    rw [output_same hsame]
    obtain hlog | ⟨asset, receipt, hlog, _⟩ := hf.received
    · exact firstReceived_append (by rw [hlog, List.append_nil]) he
    · exact firstReceived_append hlog he
  · refine ⟨(asset, receipt), ?_, ham.symm⟩
    rw [sameOutput_iff.mp hout, firstReceived, he, List.find?_append]
    have hnone : (received w.log).find?
        (fun e => receiptOutput e = receiptOutput (asset, receipt)) = none := by
      refine List.find?_eq_none.mpr (fun e hem hee => ?_)
      obtain ⟨d, hd, hde⟩ := h.recorded e hem
      have hsame := sameOutput_iff.mpr (hde.trans (of_decide_eq_true hee))
      rw [hnew d hd] at hsame
      cases hsame
    rw [hnone]
    simp

theorem flow_recorded (h : Credited w) (hf : Flow w a r w') :
    ∀ e ∈ received w'.log, ∃ d ∈ w'.db.deposits.rows, output d = receiptOutput e := by
  have hold : ∀ e ∈ received w.log, ∃ d ∈ w'.db.deposits.rows, output d = receiptOutput e := by
    intro e he
    obtain ⟨d, hd, hde⟩ := h.recorded e he
    obtain ⟨d', hd', hsame⟩ := hf.deposits.kept d hd
    exact ⟨d', hd', (output_same hsame).trans hde⟩
  intro e he
  obtain hlog | ⟨asset, receipt, hlog, d, hd, hout⟩ := hf.received
  · exact hold e (hlog ▸ he)
  · rw [hlog, List.mem_append, List.mem_singleton] at he
    obtain he | rfl := he
    · exact hold e he
    · exact ⟨d, hd, sameOutput_iff.mp hout⟩

theorem flow_credited (h : Credited w) (hf : Flow w a r w') : Credited w' := by
  have hkept := hf.deposits.kept
  have hbatch : ∀ b ∈ w.db.allocationBatches.rows, ∃ d ∈ w'.db.deposits.rows,
      d.id = b.depositId ∧ d.asset = b.asset ∧ d.amountAtomic = b.totalAtomic := by
    intro b hb
    obtain ⟨d, hd, hid, has, ham⟩ := h.batch b hb
    obtain ⟨d', hd', hs⟩ := hkept d hd
    exact ⟨d', hd', hs.id.trans hid, hs.asset.trans has, hs.amountAtomic.trans ham⟩
  have hdeposit : ∀ t ∈ w.db.journalTransactions.rows, t.type = .deposit →
      ∃ d ∈ w'.db.deposits.rows, t.reference = .deposit d.id ∧ t.asset = d.asset ∧
        Carries t d.amountAtomic := by
    intro t ht htype
    obtain ⟨d, hd, href, has, ham⟩ := h.depositJournal t ht htype
    obtain ⟨d', hd', hs⟩ := hkept d hd
    exact ⟨d', hd', hs.id ▸ href, hs.asset ▸ has, hs.amountAtomic ▸ ham⟩
  obtain ⟨hb, ts, hts, hpay⟩ | ⟨deposit, endpointIds, items, hc⟩ := hf.ledger
  · refine ⟨by rwa [hb], ?_, ?_, flow_observed h hf, flow_recorded h hf⟩
    · intro t ht htype
      rw [hts, List.mem_append] at ht
      obtain ht | ht := ht
      · exact hdeposit t ht htype
      · rw [hpay t ht] at htype
        cases htype
    · intro t ht htype
      rw [hts, List.mem_append] at ht
      obtain ht | ht := ht
      · rw [hb]
        exact h.allocationJournal t ht htype
      · rw [hpay t ht] at htype
        cases htype
  · obtain ⟨d', hd', hs⟩ := hkept deposit hc.found
    obtain ⟨hfair, _, _, hsum⟩ := allocationItems_ok hc.computed
    refine ⟨?_, ?_, ?_, flow_observed h hf, flow_recorded h hf⟩
    · intro b hb
      rw [hc.batches, List.mem_append, List.mem_singleton] at hb
      obtain hb | rfl := hb
      · exact hbatch b hb
      · exact ⟨d', hd', hs.id, hs.asset, hs.amountAtomic⟩
    · intro t ht htype
      rw [hc.ledger.journal, List.mem_append, List.mem_cons, List.mem_singleton] at ht
      obtain ht | rfl | rfl := ht
      · exact hdeposit t ht htype
      · refine ⟨d', hd', by rw [hs.id]; rfl, by rw [hs.asset]; rfl, ?_⟩
        rw [hs.amountAtomic]
        exact depositEntries_total deposit
      · cases htype
    · intro t ht htype
      rw [hc.ledger.journal, List.mem_append, List.mem_cons, List.mem_singleton] at ht
      obtain ht | rfl | rfl := ht
      · obtain ⟨b, hb, href⟩ := h.allocationJournal t ht htype
        exact ⟨b, by rw [hc.batches]; exact List.mem_append_left _ hb, href⟩
      · cases htype
      · exact ⟨allocationBatch (allocationIds a) deposit items, by simp [hc.batches], rfl, rfl,
          allocationEntries_total hfair hsum⟩

end Step

theorem change_credited {w : World} (h : Credited w) (e : Change) : Credited (change w e) := by
  cases e with
  | lockVanishes | configure c => exact ⟨h.batch, h.depositJournal, h.allocationJournal, h.observed, h.recorded⟩
  | addSplitPolicy p =>
    simp only [change]
    split
    · exact ⟨h.batch, h.depositJournal, h.allocationJournal, h.observed, h.recorded⟩
    · exact h

theorem fresh_credited {w : World} (hw : w.db.Fresh) (hlog : w.log = []) : Credited w := by
  constructor <;> simp [hw.allocationBatches, hw.deposits, hw.journalTransactions, hlog, received]

theorem outline (rt : Runtime) : Outline (system rt) shared (fun _ _ _ => True) (fun _ _ => True)
    Credited (fun _ _ => True) (fun _ _ _ => True) :=
  .of_invariant (fun _ _ _ _ _ h he => flow_credited h (acted_flow (effect_acted he)))
    (fun _ e h => change_credited h e)

theorem reaches_credited {rt : Runtime} {w : World} {c : Config World Call} (hw : w.db.Fresh)
    (hlog : w.log = []) (h : (system rt).Reaches (.idle w) c) : Credited c.shared :=
  ((outline rt).run (keyed_shared _) (Outline.idle (fresh_credited hw hlog)) h.allowed).inv

section Uniqueness

variable {db : Database} {o : Output}

theorem deposit_eq {d d' : Deposit} (hd : d ∈ db.deposits.rows) (hd' : d' ∈ db.deposits.rows)
    (h : output d = output d') : d = d' := by
  refine db.deposits.eq_of_clash hd hd' (.inr ⟨?_, rfl⟩)
  obtain ⟨ha, ht, hr⟩ := Output.mk.inj h
  show some (d.asset, d.txid, d.outputRef) = some (d'.asset, d'.txid, d'.outputRef)
  rw [ha, ht, hr]

theorem standsFor_iff {id : Id} :
    standsFor db o id = true ↔ ∃ d ∈ db.deposits.rows, d.id = id ∧ output d = o := by
  simp [standsFor]

theorem standsFor_unique {id id' : Id} (h : standsFor db o id = true)
    (h' : standsFor db o id' = true) : id = id' := by
  obtain ⟨d, hd, hid, ho⟩ := standsFor_iff.mp h
  obtain ⟨d', hd', hid', ho'⟩ := standsFor_iff.mp h'
  rw [← hid, ← hid', deposit_eq hd hd' (ho.trans ho'.symm)]

theorem batch_eq {b b' : AllocationBatch} (hb : b ∈ allocationsOf db o)
    (hb' : b' ∈ allocationsOf db o) : b = b' := by
  obtain ⟨hm, hs⟩ := List.mem_filter.mp hb
  obtain ⟨hm', hs'⟩ := List.mem_filter.mp hb'
  exact db.allocationBatches.eq_of_clash hm hm'
    (.inr ⟨congrArg some (standsFor_unique hs hs'), rfl⟩)

theorem isDepositJournal_iff {t : JournalTransaction} : isDepositJournal db o t = true ↔
    t.type = .deposit ∧ ∃ id, t.reference = .deposit id ∧ standsFor db o id = true := by
  rw [isDepositJournal]
  split <;> simp_all

theorem isAllocationJournal_iff {t : JournalTransaction} : isAllocationJournal db o t = true ↔
    t.type = .allocation ∧ ∃ b ∈ allocationsOf db o, t.reference = .allocationBatch b.id := by
  rw [isAllocationJournal]
  split
  · rename_i id ht hr
    simp only [List.any_eq_true, decide_eq_true_eq, ht, true_and, hr,
      Reference.allocationBatch.injEq]
    exact ⟨fun ⟨b, hb, he⟩ => ⟨b, hb, he.symm⟩, fun ⟨b, hb, he⟩ => ⟨b, hb, he.symm⟩⟩
  · rename_i hne
    refine ⟨fun h => (by cases h), fun ⟨ht, b, _, hr⟩ => (hne _ ht hr).elim⟩

theorem journal_eq {t t' : JournalTransaction} (hasset : t.asset = t'.asset)
    (htype : t.type = t'.type) (href : t.reference = t'.reference) : Clash t t' := by
  refine .inr ⟨?_, rfl⟩
  show some (t.asset, t.type, t.reference) = some (t'.asset, t'.type, t'.reference)
  rw [hasset, htype, href]

end Uniqueness

section Bounds

variable {w : World} {o : Output}

theorem allocationsOf_length (db : Database) (o : Output) : (allocationsOf db o).length ≤ 1 := by
  refine db.allocationBatches.filter_length_le_one (fun b hb b' hb' hs hs' => ?_)
  exact .inr ⟨congrArg some (standsFor_unique hs hs'), rfl⟩

theorem Credited.deposit_of_journal (h : Credited w) {t : JournalTransaction}
    (ht : t ∈ depositJournalsOf w.db o) : t.type = .deposit ∧ ∃ d ∈ w.db.deposits.rows,
      output d = o ∧ t.reference = .deposit d.id ∧ t.asset = d.asset ∧ Carries t d.amountAtomic := by
  obtain ⟨hm, hj⟩ := List.mem_filter.mp ht
  obtain ⟨htype, id, href, hs⟩ := isDepositJournal_iff.mp hj
  obtain ⟨d, hd, href', hasset, hc⟩ := h.depositJournal t hm htype
  obtain ⟨d', hd', hid, ho⟩ := standsFor_iff.mp hs
  rw [href] at href'
  cases href'
  rw [w.db.deposits.eq_of_id hd' hd hid] at ho
  exact ⟨htype, d, hd, ho, href, hasset, hc⟩

theorem Credited.batch_of_journal (h : Credited w) {t : JournalTransaction}
    (ht : t ∈ allocationJournalsOf w.db o) : t.type = .allocation ∧
      ∃ b ∈ allocationsOf w.db o, t.reference = .allocationBatch b.id ∧ t.asset = b.asset ∧
        Carries t b.totalAtomic := by
  obtain ⟨hm, hj⟩ := List.mem_filter.mp ht
  obtain ⟨htype, b, hb, href⟩ := isAllocationJournal_iff.mp hj
  obtain ⟨b', hb', href', hasset, hc⟩ := h.allocationJournal t hm htype
  rw [href] at href'
  have hid : b.id = b'.id := Reference.allocationBatch.inj href'
  rw [← w.db.allocationBatches.eq_of_id (List.mem_filter.mp hb).1 hb' hid] at hasset hc
  exact ⟨htype, b, hb, href, hasset, hc⟩

theorem Credited.depositJournals_length (h : Credited w) (o : Output) :
    (depositJournalsOf w.db o).length ≤ 1 := by
  refine w.db.journalTransactions.filter_length_le_one (fun t ht t' ht' hj hj' => ?_)
  obtain ⟨htype, d, hd, ho, href, hasset, _⟩ :=
    h.deposit_of_journal (List.mem_filter.mpr ⟨ht, hj⟩)
  obtain ⟨htype', d', hd', ho', href', hasset', _⟩ :=
    h.deposit_of_journal (List.mem_filter.mpr ⟨ht', hj'⟩)
  cases deposit_eq hd hd' (ho.trans ho'.symm)
  exact journal_eq (hasset.trans hasset'.symm) (htype.trans htype'.symm) (href.trans href'.symm)

theorem Credited.allocationJournals_length (h : Credited w) (o : Output) :
    (allocationJournalsOf w.db o).length ≤ 1 := by
  refine w.db.journalTransactions.filter_length_le_one (fun t ht t' ht' hj hj' => ?_)
  obtain ⟨htype, b, hb, href, hasset, _⟩ := h.batch_of_journal (List.mem_filter.mpr ⟨ht, hj⟩)
  obtain ⟨htype', b', hb', href', hasset', _⟩ :=
    h.batch_of_journal (List.mem_filter.mpr ⟨ht', hj'⟩)
  cases batch_eq hb hb'
  exact journal_eq (hasset.trans hasset'.symm) (htype.trans htype'.symm) (href.trans href'.symm)

theorem Credited.batch_amount (h : Credited w) {b : AllocationBatch}
    (hb : b ∈ allocationsOf w.db o) :
    ∃ e, firstReceived w.log o = some e ∧ b.totalAtomic = e.2.amountAtomic := by
  obtain ⟨hm, hs⟩ := List.mem_filter.mp hb
  obtain ⟨d, hd, hid, _, ham⟩ := h.batch b hm
  obtain ⟨d', hd', hid', ho⟩ := standsFor_iff.mp hs
  rw [w.db.deposits.eq_of_id hd' hd (hid'.trans hid.symm)] at ho
  obtain ⟨e, he, hea⟩ := h.observed d hd
  exact ⟨e, ho ▸ he, (hea.trans ham).symm⟩

theorem Credited.journal_amount (h : Credited w) {t : JournalTransaction}
    (ht : t ∈ depositJournalsOf w.db o ∨ t ∈ allocationJournalsOf w.db o) :
    ∃ e, firstReceived w.log o = some e ∧ Carries t e.2.amountAtomic := by
  obtain ht | ht := ht
  · obtain ⟨_, d, hd, ho, _, _, hc⟩ := h.deposit_of_journal ht
    obtain ⟨e, he, hea⟩ := h.observed d hd
    exact ⟨e, ho ▸ he, hea ▸ hc⟩
  · obtain ⟨_, b, hb, _, _, hc⟩ := h.batch_of_journal ht
    obtain ⟨e, he, hea⟩ := h.batch_amount hb
    exact ⟨e, he, hea ▸ hc⟩

/-- Every batch and every deposit or allocation journal belongs to an output. -/
def Accounted (db : Database) : Prop :=
  (∀ b ∈ db.allocationBatches.rows, ∃ o, b ∈ allocationsOf db o) ∧
  (∀ t ∈ db.journalTransactions.rows, t.type = .deposit → ∃ o, t ∈ depositJournalsOf db o) ∧
  ∀ t ∈ db.journalTransactions.rows, t.type = .allocation → ∃ o, t ∈ allocationJournalsOf db o

theorem Credited.accounted (h : Credited w) : Accounted w.db := by
  have hbatch : ∀ b ∈ w.db.allocationBatches.rows, ∃ o, b ∈ allocationsOf w.db o := by
    intro b hb
    obtain ⟨d, hd, hid, _⟩ := h.batch b hb
    exact ⟨output d, List.mem_filter.mpr ⟨hb, standsFor_iff.mpr ⟨d, hd, hid, rfl⟩⟩⟩
  refine ⟨hbatch, fun t ht htype => ?_, fun t ht htype => ?_⟩
  · obtain ⟨d, hd, href, _⟩ := h.depositJournal t ht htype
    exact ⟨output d, List.mem_filter.mpr ⟨ht, isDepositJournal_iff.mpr
      ⟨htype, d.id, href, standsFor_iff.mpr ⟨d, hd, rfl, rfl⟩⟩⟩⟩
  · obtain ⟨b, hb, href, _⟩ := h.allocationJournal t ht htype
    obtain ⟨o, ho⟩ := hbatch b hb
    exact ⟨o, List.mem_filter.mpr ⟨ht, isAllocationJournal_iff.mpr ⟨htype, b, ho, href⟩⟩⟩

end Bounds

def allocating : Call → Option Id
  | .allocate depositId => some depositId
  | .scan (.allocate _ depositId) => some depositId
  | _ => none

/-- In every reachable state an output has been credited at most once, with
the amount first observed, and a failing allocation leaves no trace. -/
theorem output_credited_once {rt : Runtime} {w : World} {c : Config World Call} (hw : w.db.Fresh)
    (hlog : w.log = []) (h : (system rt).Reaches (.idle w) c) (o : Output) :
    ((allocationsOf c.shared.db o).length ≤ 1 ∧ (depositJournalsOf c.shared.db o).length ≤ 1 ∧
      (allocationJournalsOf c.shared.db o).length ≤ 1) ∧
    ((∀ b ∈ allocationsOf c.shared.db o, ∃ e, firstReceived c.shared.log o = some e ∧
        b.totalAtomic = e.2.amountAtomic) ∧
      ∀ t, t ∈ depositJournalsOf c.shared.db o ∨ t ∈ allocationJournalsOf c.shared.db o →
        ∃ e, firstReceived c.shared.log o = some e ∧ Carries t e.2.amountAtomic) ∧
    Accounted c.shared.db ∧
    ∀ pid r id a message, c.calls pid = some r → allocating r = some id →
      effect rt c.shared r a = .error message →
      ∃ c', (system rt).next c (.resolve pid a) = some c' ∧ c'.shared = c.shared := by
  have hc := reaches_credited hw hlog h
  refine ⟨⟨allocationsOf_length _ o, hc.depositJournals_length o, hc.allocationJournals_length o⟩,
    ⟨fun b hb => hc.batch_amount hb, fun t ht => hc.journal_amount ht⟩, hc.accounted, ?_⟩
  intro pid r id a message hcall _ he
  refine ⟨c.put c.shared pid ((system rt).handler r message), ?_, rfl⟩
  have he' : (system rt).effect c.shared r a = .error message := he
  simp only [Machine.next, hcall, Option.map_some, he']

def sampleReturn : List (Action Call Answer Change) :=
  perform (.scan (.readUpstreams .btc))
    [{}, { receipts := [⟨"txid", "0", "address", 1000, 0, true⟩] }, {}, { now := 9 }] ++
  perform (.scan (.readUpstreams .btc))
    [{}, { receipts := [⟨"txid", "0", "address", 1000, 6, false⟩] }, {}, { now := 10 },
      { newId := fun n => n + 90 }]

theorem output_credited_once_sample : ∃ c, (system sampleRuntime).Reaches (.idle sampleWorld) c ∧
    (allocationsOf c.shared.db ⟨.btc, "txid", "0"⟩).map AllocationBatch.totalAtomic = [1000] ∧
    (depositJournalsOf c.shared.db ⟨.btc, "txid", "0"⟩).length ≤ 1 := by
  obtain ⟨c, hr, hv⟩ := exec_sample (sampleCredit ++ sampleReturn)
    (f := fun c => (allocationsOf c.shared.db ⟨.btc, "txid", "0"⟩).map AllocationBatch.totalAtomic)
    (v := [1000]) (by decide +kernel)
  exact ⟨c, hr, hv, (output_credited_once sampleWorld_fresh rfl hr _).1.2.1⟩

end Bitmine.SingleCredit
