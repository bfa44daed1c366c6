import Bitmine.Commitments

namespace Bitmine.Income

open Bitmine.Lib.UniqueTable Bitmine.Lib.GroupSum Bitmine.Lib.Throwing
open Bitmine.Schema Bitmine.Deployment Bitmine.Ledger Bitmine.LedgerPosting
open Bitmine.AllocateDeposit Bitmine.AllocationSpec Bitmine.Deposits Bitmine.Shares
open Bitmine.Payouts Bitmine.Execute Bitmine.PayoutHistory Bitmine.System Bitmine.Commitments

def received (log : List Observation) : List (AssetCode × WalletReceipt) :=
  log.filterMap (fun o => match o with
    | .received asset receipt => some (asset, receipt)
    | _ => none)

/-- The payout side of the system only adds payouts to the journal. -/
structure PostsOnly (db db' : Database) : Prop where
  shareEvents : db'.shareEvents = db.shareEvents
  deposits : db'.deposits = db.deposits
  allocationBatches : db'.allocationBatches = db.allocationBatches
  splitPolicies : db'.splitPolicies = db.splitPolicies
  payoutPolicy : db'.payoutPolicy = db.payoutPolicy
  journal : ∃ ts, db'.journalTransactions.rows = db.journalTransactions.rows ++ ts ∧
    ∀ t ∈ ts, t.type = .payout

structure PaysOnly (w w' : World) : Prop extends PostsOnly w.db w'.db where
  received : received w'.log = received w.log

theorem PostsOnly.of_journal {db db' : Database} (hs : db'.shareEvents = db.shareEvents)
    (hd : db'.deposits = db.deposits) (hb : db'.allocationBatches = db.allocationBatches)
    (hp : db'.splitPolicies = db.splitPolicies) (hs' : db'.payoutPolicy = db.payoutPolicy)
    (hj : db'.journalTransactions = db.journalTransactions) : PostsOnly db db' :=
  ⟨hs, hd, hb, hp, hs', [], by rw [hj, List.append_nil], by simp⟩

theorem PostsOnly.refl (db : Database) : PostsOnly db db := .of_journal rfl rfl rfl rfl rfl rfl

theorem PostsOnly.trans {db db₁ db₂ : Database} (h : PostsOnly db db₁) (h' : PostsOnly db₁ db₂) :
    PostsOnly db db₂ := by
  obtain ⟨ts, hts, htype⟩ := h.journal
  obtain ⟨ts', hts', htype'⟩ := h'.journal
  refine ⟨h'.shareEvents.trans h.shareEvents, h'.deposits.trans h.deposits,
    h'.allocationBatches.trans h.allocationBatches, h'.splitPolicies.trans h.splitPolicies,
    h'.payoutPolicy.trans h.payoutPolicy, ts ++ ts', by rw [hts', hts, List.append_assoc], fun t ht => ?_⟩
  obtain ht | ht := List.mem_append.mp ht
  · exact htype t ht
  · exact htype' t ht

theorem PaysOnly.refl (w : World) : PaysOnly w w := ⟨.refl _, rfl⟩

theorem PaysOnly.of_payouts {w : World} {batches : Table PayoutBatch} {items : Table PayoutItem} :
    PaysOnly w (w.store (withPayouts w.db batches items)) :=
  ⟨.of_journal rfl rfl rfl rfl rfl rfl, rfl⟩

/-- What a resolved effect does to shares, deposits, allocations and the journal. -/
inductive Flow (w : World) (a : Answer) : Call → World → Prop where
  | pays {r : Call} {w' : World} (h : PaysOnly w w') : Flow w a r w'
  | share {c : ShareCall} {db : Database} (h : Journals a w.db db) : Flow w a (.share c) (w.store db)
  | reorg {scan : Scan} {receipt : WalletReceipt} {existing : Deposit} {deposits : Table Deposit}
      (hd : deposits = w.db.deposits.update (fun d => d.id = existing.id) (markReorged receipt)
        (fun _ => ⟨rfl, rfl⟩)) :
      Flow w a (.scan (.reorg scan receipt existing)) (w.store (withDeposits w.db deposits))
  | upsert {scan : Scan} {receipt : WalletReceipt} {upstream : Upstream} {existing : Option Deposit}
      {deposits : Table Deposit}
      (hd : w.db.deposits.upsert (sameOutput scan.asset receipt)
        (createDeposit a scan.asset receipt upstream) (refresh a.now receipt existing)
        (fun _ => ⟨rfl, rfl⟩) = some deposits) :
      Flow w a (.scan (.upsert scan receipt upstream existing))
        ((w.store (withDeposits w.db deposits)).observe (.received scan.asset receipt))
  | allocates {r : Call} {db : Database} {deposit : Deposit} {endpointIds : List Id}
      {items : List AllocationItem}
      (h : Committed a.groupOrder (allocationIds a) a.now w.db db deposit endpointIds items) :
      Flow w a r (w.store db)

section Payouts

variable {a : Answer} {db db' : Database} {b : PayoutBatch}

theorem itemTransaction_type (journalId : Id) (b : PayoutBatch) (i : PayoutItem) :
    (itemTransaction journalId b i).type = .payout := by
  rw [itemTransaction]
  split <;> rfl

theorem postItem_postsOnly {i : PayoutItem} (h : postItem a b db i = .ok db') :
    PostsOnly db db' := by
  rw [postItem] at h
  split at h
  · cases h
    exact .refl _
  · simp only [bind_eq_ok] at h
    obtain ⟨mid, hj, hu⟩ := h
    obtain ⟨happ, _, hframe⟩ := postJournal_ok hj
    obtain ⟨_, hframe'⟩ := updateItem_ok hu
    have hall : db' = withPayouts (db.withLedger mid.ledgerAccounts mid.journalTransactions)
        mid.payoutBatches db'.payoutItems := hframe'.trans (by rw [hframe]; rfl)
    refine ⟨by rw [hall]; rfl, by rw [hall]; rfl, by rw [hall]; rfl, by rw [hall]; rfl,
      by rw [hall]; rfl, [itemTransaction (a.newId i.id) b i], by rw [hall]; exact happ.journal, ?_⟩
    intro t ht
    rw [List.mem_singleton.mp ht]
    exact itemTransaction_type _ _ _

theorem postTransaction_postsOnly {id : Id} {held : Held} {ids : List String}
    (h : postTransaction a db id held ids = .ok db') : PostsOnly db db' := by
  simp only [postTransaction, bind_eq_ok] at h
  obtain ⟨mid, hl, hu⟩ := h
  have hmid : PostsOnly db mid :=
    foldlM_invariant (fun d => PostsOnly db d) held.items
      (fun i _ d d' hd hp => hd.trans (postItem_postsOnly hp)) (.refl db) hl
  apply hmid.trans
  rw [(updateBatch_ok hu).2.2]
  exact .of_journal rfl rfl rfl rfl rfl rfl

theorem PaysOnly.observe {w w' : World} (h : PaysOnly w w') {o : Observation}
    (ho : Income.received [o] = []) : PaysOnly w (w'.observe o) := by
  refine ⟨h.toPostsOnly, ?_⟩
  rw [World.observe_log, Income.received, List.filterMap_append]
  show Income.received w'.log ++ Income.received [o] = Income.received w.log
  rw [ho, List.append_nil, h.received]

theorem executed_pays {rt : Runtime} {w w' : World} {c : ExecuteCall} {o : Option ExecuteCall}
    (h : Executed rt w c a w' o) : PaysOnly w w' := by
  cases h with
  | acquire | checkReorg | unsigned | opened | readPolicy | prepare | known | unknown | readResult
  | fails | failsLater | release => exact ⟨.refl _, rfl⟩
  | broadcast => exact (PaysOnly.refl w).observe rfl
  | persist hp hs hd =>
    refine PaysOnly.observe ?_ rfl
    rw [(persistTransaction_ok hd).2.2.2]
    exact .of_payouts
  | post hp hd => exact ⟨postTransaction_postsOnly hd, rfl⟩
  | markFailed hp hd =>
    rw [(updateBatch_ok hd).2.2]
    exact .of_payouts

end Payouts

theorem acted_flow {rt : Runtime} {w w' : World} {r : Call} {a : Answer} {o : Option Call}
    (h : Acted rt w a r w' o) : Flow w a r w' := by
  have halloc : ∀ {r db depositId batch}, allocateDeposit a.groupOrder (allocationIds a) a.now w.db
      depositId = .ok (batch, db) → Flow w a r (w.store db) := by
    intro r db depositId batch hd
    obtain ⟨rfl, _, _⟩ | ⟨_, _, _, _, _, _, hc⟩ := allocateDeposit_ok hd
    · exact .pays (.refl _)
    · exact .allocates hc
  cases h with
  | allocate hd => exact halloc hd
  | scan hs =>
    cases hs with
    | readUpstreams | scanReceipts | locked | read => exact .pays (.refl _)
    | reorg hd => exact .reorg hd
    | upsert hd => exact .upsert hd
    | allocate hd => exact halloc hd
  | share hs => exact .share hs
  | prepares => exact .pays ⟨.of_journal rfl rfl rfl rfl rfl rfl, rfl⟩
  | preparesOperator => exact .pays (.refl _)
  | plans hp | plansOperator hp =>
    rw [hp.created.frame]
    exact .pays .of_payouts
  | approve hx =>
    cases hx with
    | assertTotp => exact .pays ((PaysOnly.refl w).observe rfl)
    | readBatch => exact .pays (.refl _)
    | write hd =>
      rw [(updateBatch_ok hd).2.2]
      exact .pays .of_payouts
  | execute hx => exact .pays (executed_pays hx)
  | reconcile hx =>
    cases hx with
    | list | pass | enough => exact .pays (.refl _)
    | write hd =>
      rw [(updateBatch_ok hd).2.2]
      exact .pays .of_payouts

theorem Flow.payoutPolicy {w w' : World} {a : Answer} {r : Call} (h : Flow w a r w') :
    w'.db.payoutPolicy = w.db.payoutPolicy := by
  cases h with
  | pays h => exact h.payoutPolicy
  | share h =>
    cases h with
    | idle h => rw [World.store_db, h]
    | inserts _ hf => rw [World.store_db, hf]; rfl
    | judges _ _ hf => rw [World.store_db, hf]; rfl
  | reorg | upsert => rfl
  | allocates hc =>
    rw [World.store_db, hc.frame]
    rfl

section Deposits

structure SameDeposit (d d' : Deposit) : Prop where
  id : d'.id = d.id
  asset : d'.asset = d.asset
  txid : d'.txid = d.txid
  outputRef : d'.outputRef = d.outputRef
  amountAtomic : d'.amountAtomic = d.amountAtomic

theorem SameDeposit.refl (d : Deposit) : SameDeposit d d := ⟨rfl, rfl, rfl, rfl, rfl⟩

theorem SameDeposit.trans {d e f : Deposit} (h : SameDeposit d e) (h' : SameDeposit e f) :
    SameDeposit d f :=
  ⟨h'.id.trans h.id, h'.asset.trans h.asset, h'.txid.trans h.txid, h'.outputRef.trans h.outputRef,
    h'.amountAtomic.trans h.amountAtomic⟩

theorem SameDeposit.sameOutput {d d' : Deposit} (h : SameDeposit d d') (asset : AssetCode)
    (receipt : WalletReceipt) : sameOutput asset receipt d' = sameOutput asset receipt d := by
  simp only [Deposits.sameOutput, h.asset, h.txid, h.outputRef]

/-- Deposits are never removed; a new one comes from the report of an output
that no deposit stands for. -/
structure DepositsGrow (w w' : World) : Prop where
  kept : ∀ d ∈ w.db.deposits.rows, ∃ d' ∈ w'.db.deposits.rows, SameDeposit d d'
  origin : ∀ d' ∈ w'.db.deposits.rows, (∃ d ∈ w.db.deposits.rows, SameDeposit d d') ∨
    ∃ asset receipt, sameOutput asset receipt d' = true ∧
      d'.amountAtomic = receipt.amountAtomic ∧
      received w'.log = received w.log ++ [(asset, receipt)] ∧
      ∀ d ∈ w.db.deposits.rows, sameOutput asset receipt d = false

theorem DepositsGrow.of_map {w w' : World} {f : Deposit → Deposit}
    (h : w'.db.deposits.rows = w.db.deposits.rows.map f) (hf : ∀ d, SameDeposit d (f d)) :
    DepositsGrow w w' := by
  refine ⟨fun d hd => ⟨f d, ?_, hf d⟩, fun d' hd' => .inl ?_⟩
  · rw [h]
    exact List.mem_map_of_mem hd
  · rw [h] at hd'
    obtain ⟨d, hd, rfl⟩ := List.mem_map.mp hd'
    exact ⟨d, hd, hf d⟩

theorem DepositsGrow.of_eq {w w' : World} (h : w'.db.deposits = w.db.deposits) :
    DepositsGrow w w' :=
  .of_map (f := fun d => d) (by rw [h, List.map_id']) .refl

theorem journals_deposits {a : Answer} {db db' : Database} (h : Journals a db db') :
    db'.deposits = db.deposits ∧ db'.allocationBatches = db.allocationBatches ∧
      db'.splitPolicies = db.splitPolicies ∧ db'.journalTransactions = db.journalTransactions := by
  cases h with
  | idle h => exact h ▸ ⟨rfl, rfl, rfl, rfl⟩
  | inserts _ hf => rw [hf]; exact ⟨rfl, rfl, rfl, rfl⟩
  | judges _ _ hf => rw [hf]; exact ⟨rfl, rfl, rfl, rfl⟩

theorem received_append (log log' : List Observation) :
    received (log ++ log') = received log ++ received log' := List.filterMap_append

theorem Flow.deposits {w w' : World} {a : Answer} {r : Call} (h : Flow w a r w') :
    DepositsGrow w w' := by
  cases h with
  | pays h => exact .of_eq h.deposits
  | share h => exact .of_eq (journals_deposits h).1
  | @reorg _ receipt existing _ hd =>
    subst hd
    exact .of_map (f := fun d => if decide (d.id = existing.id) then markReorged receipt d else d)
      rfl (fun d => by split <;> exact ⟨rfl, rfl, rfl, rfl, rfl⟩)
  | @upsert scan receipt _ existing deposits hd =>
    unfold Table.upsert at hd
    split at hd
    · cases hd
      exact .of_map (f := fun d => if sameOutput scan.asset receipt d then
        refresh a.now receipt existing d else d) rfl
          (fun d => by split <;> exact ⟨rfl, rfl, rfl, rfl, rfl⟩)
    · rename_i hnone
      obtain ⟨hrows, _⟩ := Table.insert_eq_some hd
      refine ⟨fun d hm => ⟨d, ?_, .refl d⟩, fun d' hd' => ?_⟩
      · show d ∈ deposits.rows
        rw [hrows]
        exact List.mem_append_left _ hm
      · change d' ∈ deposits.rows at hd'
        rw [hrows, List.mem_append, List.mem_singleton] at hd'
        obtain hd' | rfl := hd'
        · exact .inl ⟨d', hd', .refl d'⟩
        · refine .inr ⟨scan.asset, receipt, by simp [sameOutput, createDeposit], rfl,
            received_append _ _, fun d hm => ?_⟩
          exact Bool.eq_false_iff.mpr (fun hs => hnone (List.any_eq_true.mpr ⟨d, hm, hs⟩))
  | allocates hc =>
    exact .of_map hc.deposits (fun d => by split <;> exact ⟨rfl, rfl, rfl, rfl, rfl⟩)

theorem Flow.ledger {w w' : World} {a : Answer} {r : Call} (h : Flow w a r w') :
    (w'.db.allocationBatches = w.db.allocationBatches ∧
      ∃ ts, w'.db.journalTransactions.rows = w.db.journalTransactions.rows ++ ts ∧
        ∀ t ∈ ts, t.type = .payout) ∨
    ∃ deposit endpointIds items, Committed a.groupOrder (allocationIds a) a.now w.db w'.db deposit
      endpointIds items := by
  cases h with
  | pays h => exact .inl ⟨h.allocationBatches, h.journal⟩
  | share h =>
    obtain ⟨_, hb, _, hj⟩ := journals_deposits h
    exact .inl ⟨hb, [], by rw [World.store_db, hj, List.append_nil], by simp⟩
  | reorg | upsert => exact .inl ⟨rfl, [], by simp [withDeposits], by simp⟩
  | allocates hc => exact .inr ⟨_, _, _, hc⟩

theorem Flow.received {w w' : World} {a : Answer} {r : Call} (h : Flow w a r w') :
    Income.received w'.log = Income.received w.log ∨
    ∃ asset receipt, Income.received w'.log = Income.received w.log ++ [(asset, receipt)] ∧
      ∃ d ∈ w'.db.deposits.rows, sameOutput asset receipt d = true := by
  cases h with
  | pays h => exact .inl h.received
  | share | reorg | allocates => exact .inl rfl
  | @upsert scan receipt upstream existing deposits hd =>
    refine .inr ⟨scan.asset, receipt, received_append _ _, ?_⟩
    show ∃ d ∈ deposits.rows, _
    unfold Table.upsert at hd
    split at hd
    · rename_i hany
      cases hd
      obtain ⟨d, hm, hs⟩ := List.any_eq_true.mp hany
      refine ⟨_, Table.mem_update_of_mem hm, ?_⟩
      rw [if_pos hs]
      exact hs
    · refine ⟨createDeposit a scan.asset receipt upstream, ?_, by simp [sameOutput, createDeposit]⟩
      rw [(Table.insert_eq_some hd).1]
      simp

end Deposits

end Bitmine.Income
