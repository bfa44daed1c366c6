import Bitmine.Lib.Reservation
import Bitmine.Statements

namespace Bitmine.AccountRefinement

open Bitmine.Lib.UniqueTable Bitmine.Lib.GroupSum Bitmine.Lib.Throwing Bitmine.Lib.Await
open Bitmine.Lib.Reservation (Account)
open Bitmine.Lib.Reservation.Account (Run Sound Rises sound_zero)
open Bitmine.Schema Bitmine.Deployment Bitmine.Ledger Bitmine.LedgerPosting Bitmine.AllocateDeposit
open Bitmine.AllocationSpec Bitmine.Payouts Bitmine.Execute Bitmine.PayoutHistory Bitmine.System
open Bitmine.Commitments Bitmine.NoOvercommit Bitmine.OperatorCommitments Bitmine.Statements

def heldBy (db : Database) (asset : AssetCode) (payee : Option Id) (i : PayoutItem) : ℤ :=
  if i.customerId = payee ∧ i.journalTransactionId = none ∧ hasAsset db asset i.batchId
  then i.grossAtomic else 0

def held (db : Database) (asset : AssetCode) (payee : Option Id) : ℤ :=
  (db.payoutItems.rows.map (heldBy db asset payee)).sum

def account (db : Database) (asset : AssetCode) (payee : Option Id) : Account ℤ :=
  ⟨earned db asset payee, held db asset payee, taken db asset payee⟩

/-- What keeps the books of all payees. -/
structure Kept (db : Database) : Prop where
  covered : Covered db
  operator : OperatorCovered db
  stated : Stated none db

section Reading

variable {db db' : Database}

theorem held_nonneg (h : Covered db) (asset : AssetCode) (payee : Option Id) : 0 ≤ held db asset payee := by
  cases payee with
  | some c => exact owed_nonneg h c asset
  | none => exact operatorOwed_nonneg h asset

theorem held_le_balance (h : Kept db) (asset : AssetCode) (payee : Option Id) :
    held db asset payee ≤ creditBalance db (accountOf asset payee) := by
  cases payee with
  | some c => exact h.covered.covered c asset
  | none => exact h.operator.covered asset

theorem free_nonneg (h : Kept db) (asset : AssetCode) (payee : Option Id) :
    0 ≤ (account db asset payee).free := by
  have hle := held_le_balance h asset payee
  rw [h.stated.payees] at hle
  exact sub_nonneg.mpr hle

theorem taken_congr (h : Stated none db) (h' : Stated none db')
    (hj : db'.journalTransactions = db.journalTransactions)
    (ha : db'.allocationBatches = db.allocationBatches) (asset : AssetCode) (payee : Option Id) :
    taken db' asset payee = taken db asset payee := by
  have hbefore := h.payees asset payee
  have hafter := h'.payees asset payee
  rw [creditBalance_congr hj, earned_congr ha] at hafter
  omega

end Reading

section Rewriting

variable {db db' : Database}

theorem held_map {f : PayoutBatch → PayoutBatch} {g : PayoutItem → PayoutItem} (hf : ∀ b, SameBatch b (f b))
    (hg : ∀ i, SameItem i (g i) ∧ (g i).journalTransactionId = i.journalTransactionId)
    (hb : db'.payoutBatches.rows = db.payoutBatches.rows.map f)
    (hi : db'.payoutItems.rows = db.payoutItems.rows.map g) (asset : AssetCode) (payee : Option Id) :
    held db' asset payee = held db asset payee := by
  rw [held, hi, List.map_map, held]
  apply congrArg List.sum
  apply List.map_congr_left
  intro i _
  simp only [Function.comp, heldBy, (hg i).1.customerId, (hg i).2, (hg i).1.batchId, (hg i).1.grossAtomic,
    hasAsset_map hf hb]

theorem taken_map {f : PayoutBatch → PayoutBatch} {g : PayoutItem → PayoutItem} (hf : ∀ b, SameBatch b (f b))
    (hg : ∀ i, SameItem i (g i) ∧ (g i).journalTransactionId = i.journalTransactionId)
    (hb : db'.payoutBatches.rows = db.payoutBatches.rows.map f)
    (hi : db'.payoutItems.rows = db.payoutItems.rows.map g) (asset : AssetCode) (payee : Option Id) :
    taken db' asset payee = taken db asset payee := by
  rw [taken, hi, List.map_map, taken]
  apply congrArg List.sum
  apply List.map_congr_left
  intro i _
  simp only [Function.comp, takenBy, (hg i).1.customerId, (hg i).2, (hg i).1.batchId, (hg i).1.grossAtomic,
    hasAsset_map hf hb]

end Rewriting

section Moving

variable {db db' : Database} {a : Answer} {batch : PayoutBatch} {items : List NewItem}

/-- Every account of the records moves as an account may. -/
def Moves (db db' : Database) : Prop :=
  ∀ asset payee, Run (account db asset payee) (account db' asset payee)

theorem Moves.refl (db : Database) : Moves db db := fun _ _ => .refl

theorem Moves.trans {db'' : Database} (h : Moves db db') (h' : Moves db' db'') : Moves db db'' :=
  fun asset payee => (h asset payee).trans (h' asset payee)

theorem Moves.of_map {f : PayoutBatch → PayoutBatch} {g : PayoutItem → PayoutItem}
    (hf : ∀ b, SameBatch b (f b))
    (hg : ∀ i, SameItem i (g i) ∧ (g i).journalTransactionId = i.journalTransactionId)
    (hb : db'.payoutBatches.rows = db.payoutBatches.rows.map f)
    (hi : db'.payoutItems.rows = db.payoutItems.rows.map g)
    (ha : db'.allocationBatches = db.allocationBatches) : Moves db db' := by
  intro asset payee
  have heq : account db' asset payee = account db asset payee := by
    rw [account, earned_congr ha, held_map hf hg hb hi, taken_map hf hg hb hi, account]
  rw [heq]

theorem Moves.of_same (hs : SamePayouts db db') (ha : db'.allocationBatches = db.allocationBatches) :
    Moves db db' := by
  apply Moves.of_map (fun b => .refl b) (fun i => ⟨.refl i, rfl⟩) _ _ ha
  · rw [hs.batches, List.map_id']
  · rw [hs.items, List.map_id']

theorem Moves.updateBatch {id : Id} {f : PayoutBatch → PayoutBatch} {hf : KeepsKeys f}
    (hs : ∀ b, SameBatch b (f b)) (hu : updateBatch db id f hf = .ok db') : Moves db db' := by
  obtain ⟨_, hrows, hframe⟩ := updateBatch_ok hu
  apply Moves.of_map _ (fun i => ⟨.refl i, rfl⟩) hrows
  · rw [hframe, List.map_id']
    rfl
  · rw [hframe]
    rfl
  · intro b
    split
    · exact hs b
    · exact .refl b

theorem Moves.persist {id : Id} {stored : String} {prepared : PreparedPayout}
    (hp : persistTransaction db id stored prepared = .ok db') : Moves db db' := by
  obtain ⟨_, hi, hb, hframe⟩ := persistTransaction_ok hp
  apply Moves.of_map _ (chargeItems_same prepared.items) hb hi
  · rw [hframe]
    rfl
  · intro b
    split
    · exact sameBatch_sign _ _ b
    · exact .refl b

theorem held_created (h : Covered db) (h' : Covered db') (hc : Created a db db' batch items)
    (asset : AssetCode) (payee : Option Id) : held db asset payee ≤ held db' asset payee := by
  have hold : (db.payoutItems.rows.map (heldBy db' asset payee)).sum = held db asset payee := by
    apply congrArg List.sum
    apply List.map_congr_left
    intro i hi
    have hne : i.batchId ≠ batch.id := by
      intro he
      obtain ⟨b, hb, hbi⟩ := h.owned i hi
      exact hc.fresh b hb (.inl (hbi.trans he))
    rw [heldBy, heldBy, hasAsset_created hc hne]
  have hnew : 0 ≤ ((items.mapIdx (newItem a)).map (heldBy db' asset payee)).sum := by
    apply List.sum_nonneg
    intro x hx
    obtain ⟨i, hi, rfl⟩ := List.mem_map.mp hx
    rw [heldBy]
    split
    · exact h'.gross i (by rw [hc.items]; exact List.mem_append_right _ hi)
    · exact le_rfl
  have hsplit : held db' asset payee = held db asset payee +
      ((items.mapIdx (newItem a)).map (heldBy db' asset payee)).sum := by
    rw [held, hc.items, List.map_append, List.sum_append, hold]
  omega

theorem Moves.create (h : Kept db) (h' : Kept db') (hc : Created a db db' batch items) : Moves db db' := by
  have hj : db'.journalTransactions = db.journalTransactions := by
    rw [hc.frame]
    rfl
  have ha : db'.allocationBatches = db.allocationBatches := by
    rw [hc.frame]
    rfl
  intro asset payee
  apply Run.of_setAside
  · exact earned_congr ha asset payee
  · exact held_created h.covered h'.covered hc asset payee
  · exact taken_congr h.stated h'.stated hj ha asset payee
  · exact free_nonneg h' asset payee

theorem share_nonneg {i : AllocationItem} (hf : FairItem db i) (payee : Option Id) : 0 ≤ share payee i := by
  cases payee with
  | some c =>
    rw [share]
    split
    · exact hf.customer_nonneg
    · exact le_rfl
  | none => exact hf.operator_nonneg

theorem Moves.allocated {order : Order ((Id × Id) × ℚ)} {ids : AllocationIds} {now : Instant}
    {deposit : Deposit} {endpointIds : List Id} {items : List AllocationItem}
    (hc : Committed order ids now db db' deposit endpointIds items) : Moves db db' := by
  obtain ⟨hfair, _⟩ := allocationItems_ok hc.computed
  have hb : db'.payoutBatches.rows = db.payoutBatches.rows.map (fun b => b) := by
    rw [hc.frame, List.map_id']
    rfl
  have hi : db'.payoutItems.rows = db.payoutItems.rows.map (fun i => i) := by
    rw [hc.frame, List.map_id']
    rfl
  intro asset payee
  apply Run.of_earn
  · show earned db asset payee ≤ earned db' asset payee
    have hshares : 0 ≤ (items.map (share payee)).sum := by
      apply List.sum_nonneg
      intro x hx
      obtain ⟨i, hmem, rfl⟩ := List.mem_map.mp hx
      exact share_nonneg (hfair i hmem) payee
    rw [earned, earned, allocationsOf_append hc.batches]
    apply le_add_of_nonneg_right
    split
    · exact hshares
    · exact le_rfl
  · exact held_map (fun b => .refl b) (fun i => ⟨.refl i, rfl⟩) hb hi asset payee
  · exact taken_map (fun b => .refl b) (fun i => ⟨.refl i, rfl⟩) hb hi asset payee

end Moving

section Posting

variable {db db' : Database} {a : Answer} {b : PayoutBatch} {i i₀ : PayoutItem} {journalId : Id}

theorem posts_held (hp : Posts journalId b i db db') (h : Covered db) (ht : Tracks db b i)
    (hi₀ : i₀ ∈ db.payoutItems.rows) (hs : SameItem i i₀) (asset : AssetCode) (payee : Option Id) :
    held db' asset payee = held db asset payee -
      if i.customerId = payee ∧ b.asset = asset then i.grossAtomic else 0 := by
  cases payee with
  | some c => exact hp.owed h ht hi₀ hs c asset
  | none => exact posts_operatorOwed hp h ht hi₀ hs asset

theorem Moves.posts (hp : Posts journalId b i db db') (h : Covered db) (h' : Covered db')
    (ht : Tracks db b i) (ha : db'.allocationBatches = db.allocationBatches) : Moves db db' := by
  obtain ⟨i₀, hi₀, hlater⟩ := ht.item
  have hnone := hp.unposted h ht hi₀ hlater.same
  intro asset payee
  have hamount : 0 ≤ if i.customerId = payee ∧ b.asset = asset then i.grossAtomic else 0 := by
    split
    · rw [← hlater.same.grossAtomic]
      exact h.gross i₀ hi₀
    · exact le_rfl
  apply Run.of_pay hamount
  · exact earned_congr ha asset payee
  · exact posts_held hp h ht hi₀ hlater.same asset payee
  · exact posts_taken hp ht hi₀ hlater.same hnone asset payee
  · exact held_nonneg h' asset payee

theorem Moves.postItems (items : List PayoutItem) (h : Covered db) (ht : ∀ i ∈ items, Tracks db b i)
    (hp : items.foldlM (postItem a b) db = .ok db') : Moves db db' := by
  induction items generalizing db with
  | nil =>
    rw [List.foldlM_nil, pure_eq_ok] at hp
    subst hp
    exact .refl db
  | cons i items ih =>
    rw [List.foldlM_cons, bind_eq_ok] at hp
    obtain ⟨mid, hone, hp⟩ := hp
    have hfirst := ht i List.mem_cons_self
    obtain ⟨hmid, hgrows, _⟩ := h.postItem_step hfirst hone
    have hrest : Moves mid db' := by
      apply ih hmid _ hp
      intro j hj
      exact (ht j (List.mem_cons_of_mem i hj)).grow hgrows
    obtain ⟨_, rfl⟩ | hposts := postItem_ok hone
    · exact hrest
    · exact (Moves.posts hposts h hmid hfirst (Income.postItem_postsOnly hone).allocationBatches).trans hrest

theorem Moves.post (h : Covered db) {id : Id} {held : Held} {ids : List String} (hcopy : Copy db held)
    (hp : postTransaction a db id held ids = .ok db') : Moves db db' := by
  simp only [postTransaction, bind_eq_ok] at hp
  obtain ⟨mid, hl, hu⟩ := hp
  exact (Moves.postItems held.items h hcopy.items hl).trans (.updateBatch (sameBatch_broadcast _ _) hu)

end Posting

section Steps

variable {rt : Runtime} {w w' : World} {a : Answer}

theorem executed_moves {c : ExecuteCall} {o : Option ExecuteCall} (hx : Executed rt w c a w' o)
    (h : Covered w.db) (hl : executeLoc w.db c) : Moves w.db w'.db := by
  cases hx with
  | acquire | checkReorg | unsigned | opened | readPolicy | prepare | known | unknown | broadcast |
    readResult | fails | failsLater | release => exact .refl w.db
  | persist hp hs hd => exact .persist hd
  | post hp hd =>
    simp only [executeLoc, hp] at hl
    exact .post h hl.1 hd
  | markFailed hp hd => exact .updateBatch (sameBatch_fail _) hd

theorem allocate_moves {db db' : Database} {depositId : Id} {batch : AllocationBatch}
    (hd : allocateDeposit a.groupOrder (Deposits.allocationIds a) a.now db depositId = .ok (batch, db')) :
    Moves db db' := by
  obtain ⟨rfl, _, _⟩ | ⟨_, _, _, _, _, _, hc⟩ := allocateDeposit_ok hd
  · exact .refl _
  · exact .allocated hc

theorem acted_moves {r : System.Call} {o : Option System.Call} (h : Kept w.db) (h' : Kept w'.db)
    (hl : loc w r) (ha : Acted rt w a r w' o) : Moves w.db w'.db := by
  cases ha with
  | allocate hd => exact allocate_moves hd
  | scan hs =>
    cases hs with
    | readUpstreams | scanReceipts | locked | read => exact .refl w.db
    | reorg | upsert => exact .of_same ⟨rfl, rfl, rfl⟩ rfl
    | allocate hd => exact allocate_moves hd
  | share hs => exact .of_same (journals_payouts hs) (Income.journals_deposits hs).2.1
  | prepares => exact .of_same ⟨rfl, rfl, rfl⟩ rfl
  | preparesOperator => exact .refl w.db
  | plans hp | plansOperator hp => exact .create h h' hp.created
  | approve hx =>
    cases hx with
    | assertTotp | readBatch => exact .refl w.db
    | write hd => exact .updateBatch (sameBatch_approve _ _ _) hd
  | execute hx => exact executed_moves hx h.covered hl
  | reconcile hx =>
    cases hx with
    | list | pass | enough => exact .refl w.db
    | write hd => exact .updateBatch (sameBatch_confirm _) hd

theorem effect_kept {r : System.Call} {o : Option System.Call} (h : Kept w.db) (hl : loc w r)
    (he : effect rt w r a = .ok (w', o)) : Kept w'.db :=
  ⟨(acted_covered h.covered hl (effect_acted he)).1, effect_operator h.covered h.operator hl he,
    acted_stated h.covered h.stated hl (effect_acted he)⟩

theorem kept_outline (rt : Runtime) : Outline (system rt) (shared (ρ := System.Call)) (fun _ _ _ => True)
    (fun _ _ => True) (fun w => Covered w.db ∧ Kept w.db) loc (fun _ w w' => Grows w.db w'.db) := by
  refine covered_outline rt (fun _ h hl he => effect_kept h hl he) (fun w e h => ?_)
  have hsame := change_payouts w e
  exact ⟨hsame.covered h.covered, h.operator.of_same hsame, change_stated h.stated e⟩

theorem fresh_kept {db : Database} (h : db.Fresh) : Kept db :=
  ⟨fresh_covered h, fresh_operator h, fresh_stated h⟩

theorem account_fresh {db : Database} (h : db.Fresh) (asset : AssetCode) (payee : Option Id) :
    account db asset payee = 0 := by
  show Account.mk _ _ _ = Account.mk 0 0 0
  simp [earned, allocationsOf, h.allocationBatches, held, h.payoutItems, taken]

end Steps

section Run

variable {rt : Runtime} {w : World} {c d : Config World System.Call}

theorem run_moves (hc : Holds (shared (ρ := System.Call)) (fun w => Covered w.db ∧ Kept w.db) loc c)
    (h : (system rt).Reaches c d) : Moves c.shared.db d.shared.db := by
  refine (kept_outline rt).run_rel (keyed_shared _) (G := fun w w' => Moves w.db w'.db)
    (fun w => .refl w.db) (fun _ _ _ h h' => h.trans h') ?_ ?_ hc h.allowed
  · intro w r a w' o hinv hl _ he
    exact acted_moves hinv.2 (effect_kept hinv.2 hl he) hl (effect_acted he)
  · intro w e hinv _
    exact .of_same (change_payouts w e) (change_allocations w e)

/-- The payouts of every payee, of a customer or of the operator, refine an account that
sets amounts aside before it pays them: from the empty books to any state, and between any
two states of a run, whatever runs beside each other, the records of the payee move as
such an account does. The journal holds what was earned and not paid. -/
theorem payees_refine_accounts (hw : w.db.Fresh) (h : (system rt).Reaches (.idle w) c)
    (h' : (system rt).Reaches c d) (asset : AssetCode) (payee : Option Id) :
    Account.Run 0 (account c.shared.db asset payee) ∧
      Account.Run (account c.shared.db asset payee) (account d.shared.db asset payee) ∧
      creditBalance d.shared.db (accountOf asset payee) =
        (account d.shared.db asset payee).earned - (account d.shared.db asset payee).paid ∧
      Sound (account d.shared.db asset payee) ∧
      Rises (account c.shared.db asset payee) (account d.shared.db asset payee) := by
  have hidle : Holds (shared (ρ := System.Call)) (fun w => Covered w.db ∧ Kept w.db) loc (.idle w) :=
    Outline.idle ⟨fresh_covered hw, fresh_kept hw⟩
  have hc := (kept_outline rt).run (keyed_shared _) hidle h.allowed
  have hd := (kept_outline rt).run (keyed_shared _) hc h'.allowed
  have hfirst : Account.Run (account w.db asset payee) (account c.shared.db asset payee) :=
    run_moves hidle h asset payee
  have hsecond := run_moves hc h' asset payee
  rw [account_fresh hw] at hfirst
  exact ⟨hfirst, hsecond, hd.inv.2.stated.payees asset payee, Run.sound (hfirst.trans hsecond) sound_zero,
    Run.rises hsecond⟩

def amounts (c : Config World System.Call) : ℤ × ℤ × ℤ :=
  let a := account c.shared.db .btc (some 1)
  (a.earned, a.held, a.paid)

theorem payees_refine_accounts_sample : ∃ c d, (system sampleRuntime).Reaches (.idle sampleWorld) c ∧
    (system sampleRuntime).Reaches c d ∧ amounts c = (800, 0, 0) ∧ amounts d = (800, 0, 800) ∧
    Account.Run (account c.shared.db .btc (some 1)) (account d.shared.db .btc (some 1)) := by
  have h : ((system sampleRuntime).exec (.idle sampleWorld) sampleCredit).bind (fun c =>
      ((system sampleRuntime).exec c samplePayout).map (fun d => (amounts c, amounts d))) =
      some ((800, 0, 0), (800, 0, 800)) := by decide +kernel
  obtain ⟨c, hc, h⟩ := Option.bind_eq_some_iff.mp h
  obtain ⟨d, hd, hv⟩ := Option.map_eq_some_iff.mp h
  have hfirst := Machine.exec_reaches hc
  have hsecond := Machine.exec_reaches hd
  obtain ⟨hbefore, hafter⟩ := Prod.mk.injEq .. ▸ hv
  exact ⟨c, d, hfirst, hsecond, hbefore, hafter,
    (payees_refine_accounts sampleWorld_fresh hfirst hsecond .btc (some 1)).2.1⟩

end Run

end Bitmine.AccountRefinement
