import Bitmine.Distribution

namespace Bitmine.PolicyInForce

open Bitmine.Lib.UniqueTable Bitmine.Lib.GroupSum Bitmine.Lib.Throwing Bitmine.Lib.Await
open Bitmine.Schema Bitmine.Deployment Bitmine.AllocateDeposit Bitmine.AllocationSpec
open Bitmine.Shares Bitmine.System Bitmine.Income Bitmine.Distribution

structure PolicyRead where
  customerId : Id
  asset : AssetCode
  readAt : Instant
  versions : List SplitPolicyVersion

/-- Among the versions there were, the last one to have come into effect. -/
structure InForce (r : PolicyRead) (p : SplitPolicyVersion) : Prop where
  known : p ∈ r.versions
  customer : p.customerId = r.customerId
  asset : p.asset = r.asset
  effective : p.effectiveAt ≤ r.readAt
  latest : ∀ q ∈ r.versions, q.customerId = r.customerId → q.asset = r.asset →
    q.effectiveAt ≤ r.readAt → q.effectiveAt ≤ p.effectiveAt

structure Quote where
  share : ShareReference
  read : PolicyRead

/-- The world, the time of its last step, and the quotes of all shares so far. No effect
looks at the quotes. -/
structure Dated where
  world : World
  clock : Instant
  quotes : List Quote

structure Reader where
  call : Call
  read : Option PolicyRead := none

def reading (db : Database) (a : Answer) : Call → Option PolicyRead
  | .share (.readPolicy input) => some ⟨input.customerId, input.asset, a.now, db.splitPolicies.rows⟩
  | _ => none

def quoted (a : Answer) : Reader → List Quote
  | ⟨.share (.create _ _), some read⟩ => [⟨⟨a.newId 0, a.createdAt⟩, read⟩]
  | _ => []

def Dated.record (k : Dated) (r : Reader) (a : Answer) (w : World) : Dated :=
  ⟨w, a.createdAt, k.quotes ++ quoted a r⟩

def dated (rt : Runtime) : Machine Dated Reader Answer Change where
  entry r := r.call.entry && r.read.isNone
  effect k r a := (effect rt k.world r.call a).map (fun p =>
    (k.record r a p.1, p.2.map (fun c => ⟨c, reading k.world.db a r.call⟩)))
  handler r message := (handler r.call message).map (fun c => ⟨c, none⟩)
  background k r b := ⟨background k.world r.call b, r.read⟩
  event k e := { k with world := change k.world e }

/-- The clock does not go back: it stands between the reading and the commit. -/
def Ticks (k : Dated) (_ : Reader) (a : Answer) : Prop := k.clock ≤ a.now ∧ a.now ≤ a.createdAt

structure SameOrigin (s s' : ShareEvent) : Prop where
  id : s'.id = s.id
  asset : s'.asset = s.asset
  customerId : s'.customerId = s.customerId
  splitPolicyId : s'.splitPolicyId = s.splitPolicyId
  submittedAt : s'.submittedAt = s.submittedAt

theorem SameOrigin.refl (s : ShareEvent) : SameOrigin s s := ⟨rfl, rfl, rfl, rfl, rfl⟩

theorem SameOrigin.trans {s t u : ShareEvent} (h : SameOrigin s t) (h' : SameOrigin t u) :
    SameOrigin s u :=
  ⟨h'.id.trans h.id, h'.asset.trans h.asset, h'.customerId.trans h.customerId,
    h'.splitPolicyId.trans h.splitPolicyId, h'.submittedAt.trans h.submittedAt⟩

def Originate (db db' : Database) : Prop :=
  ∀ s' ∈ db'.shareEvents.rows, ∃ s ∈ db.shareEvents.rows, SameOrigin s s'

theorem Originate.of_eq {db db' : Database} (h : db'.shareEvents = db.shareEvents) :
    Originate db db' := by
  intro s hs
  rw [h] at hs
  exact ⟨s, hs, .refl s⟩

theorem Originate.of_map {db db' : Database} {f : ShareEvent → ShareEvent}
    (h : db'.shareEvents.rows = db.shareEvents.rows.map f) (hf : ∀ s, SameOrigin s (f s)) :
    Originate db db' := by
  intro s' hs'
  rw [h] at hs'
  obtain ⟨s, hs, rfl⟩ := List.mem_map.mp hs'
  exact ⟨s, hs, hf s⟩

theorem ite_sameOrigin (p : ShareEvent → Bool) {f : ShareEvent → ShareEvent}
    (hf : ∀ s, SameOrigin s (f s)) (s : ShareEvent) : SameOrigin s (if p s then f s else s) := by
  by_cases hp : p s
  · rw [if_pos hp]
    exact hf s
  · rw [if_neg hp]
    exact .refl s

theorem unknown_originate (now : Instant) (reason : String) (references : List ShareReference)
    (db : Database) : Originate db (unknown db now references reason) := by
  induction references generalizing db with
  | nil => exact .of_eq rfl
  | cons r references ih =>
    intro s' hs'
    obtain ⟨t, ht, hts⟩ := ih _ s' hs'
    have hstep : Originate db (withShares db (db.shareEvents.update
        (fun s => matchesReference r s ∧ s.status = .pending) (giveUp now (slice 1000 reason))
          (fun _ => ⟨rfl, rfl⟩))) :=
      .of_map rfl (ite_sameOrigin _ (fun _ => ⟨rfl, rfl, rfl, rfl, rfl⟩))
    obtain ⟨s, hs, hst⟩ := hstep t ht
    exact ⟨s, hs, hst.trans hts⟩

/-- A step of the journal: a reading, the share that follows a reading, or neither. -/
inductive Takes (a : Answer) (db : Database) : Call → Database → Option Call → Prop where
  | reads {input : PendingInput} {p : SplitPolicyVersion}
      (h : activePolicy a db input.customerId input.asset = .ok p) :
      Takes a db (.share (.readPolicy input)) db (some (.share (.create input p.id)))
  | inserts {input : PendingInput} {policyId : Id} {db' : Database}
      (h : db'.shareEvents.rows = db.shareEvents.rows ++ [pendingShare a input policyId]) :
      Takes a db (.share (.create input policyId)) db' none
  | keeps {r : Call} {db' : Database} {o : Option Call} (h : Originate db db')
      (ho : ∀ input policyId, o ≠ some (.share (.create input policyId))) : Takes a db r db' o

section Steps

variable {rt : Runtime} {w w' : World} {a : Answer} {r : Call} {o : Option Call}

theorem share_takes {db db' : Database} {c : ShareCall} {next : Option ShareCall}
    (h : Shares.step db c a = .ok (db', next)) : Takes a db (.share c) db' (next.map .share) := by
  cases c with
  | readPolicy input =>
    simp only [Shares.step, bind_eq_ok, pure_eq_ok] at h
    obtain ⟨p, hp, he⟩ := h
    cases he
    exact .reads hp
  | create input policyId =>
    simp only [Shares.step, bind_eq_ok, orThrow_eq_ok, pure_eq_ok] at h
    obtain ⟨shares, hi, he⟩ := h
    cases he
    exact .inserts (Table.insert_eq_some hi).1
  | resolve reference accepted latencyMs reason =>
    simp only [Shares.step, resolve, bind_eq_ok, orThrow_eq_ok, pure_eq_ok] at h
    obtain ⟨_, ⟨_, _, _, _, rfl⟩, he⟩ := h
    cases he
    refine .keeps (.of_map rfl (ite_sameOrigin (matchesReference reference) ?_)) ?_
    · exact fun _ => ⟨rfl, rfl, rfl, rfl, rfl⟩
    · simp
  | unknown references reason =>
    cases h
    exact .keeps (unknown_originate a.now reason references db) (by simp)
  | reconcilePending =>
    cases h
    refine .keeps (.of_map rfl (ite_sameOrigin (fun s => s.status = .pending ∧
      s.submittedAt < a.now - 600000) ?_)) ?_
    · exact fun _ => ⟨rfl, rfl, rfl, rfl, rfl⟩
    · simp

theorem flow_originate (h : Flow w a r w') (hr : ∀ c, r ≠ .share c) : Originate w.db w'.db := by
  cases h with
  | pays hp => exact .of_eq hp.shareEvents
  | share => exact absurd rfl (hr _)
  | reorg | upsert => exact .of_eq rfl
  | allocates hc =>
    apply Originate.of_map hc.shares
    intro s
    split
    · exact ⟨rfl, rfl, rfl, rfl, rfl⟩
    · exact .refl s

theorem effect_takes (h : effect rt w r a = .ok (w', o)) : Takes a w.db r w'.db o := by
  have hacted := effect_acted h
  cases r with
  | share c =>
    obtain ⟨⟨db, next⟩, hs, he⟩ := map_eq_ok.mp h
    cases he
    exact share_takes hs
  | allocate | scan | plan | planOperator | approve | execute | reconcile =>
    refine .keeps (flow_originate (acted_flow hacted) (by simp)) ?_
    intro input policyId ho
    rw [ho] at h
    obtain ⟨⟨x, next⟩, _, he⟩ := map_eq_ok.mp h
    cases next <;> cases he

/-- Versions of policies and batches stay. -/
structure Retains (db db' : Database) : Prop where
  policies : ∀ p ∈ db.splitPolicies.rows, p ∈ db'.splitPolicies.rows
  batches : ∀ b ∈ db.allocationBatches.rows, b ∈ db'.allocationBatches.rows

theorem Retains.refl (db : Database) : Retains db db := ⟨fun _ h => h, fun _ h => h⟩

theorem Retains.trans {db db₁ db₂ : Database} (h : Retains db db₁) (h' : Retains db₁ db₂) :
    Retains db db₂ :=
  ⟨fun p hp => h'.policies p (h.policies p hp), fun b hb => h'.batches b (h.batches b hb)⟩

theorem Retains.of_eq {db db' : Database} (hp : db'.splitPolicies = db.splitPolicies)
    (hb : db'.allocationBatches = db.allocationBatches) : Retains db db' :=
  ⟨fun _ h => hp ▸ h, fun _ h => hb ▸ h⟩

theorem flow_retains (h : Flow w a r w') : Retains w.db w'.db := by
  cases h with
  | pays hp => exact .of_eq hp.splitPolicies hp.allocationBatches
  | share hj =>
    obtain ⟨_, hb, hp, _⟩ := journals_deposits hj
    exact .of_eq hp hb
  | reorg | upsert => exact .of_eq rfl rfl
  | allocates hc =>
    refine ⟨(committed_preserves hc).policies, ?_⟩
    intro b hb
    rw [World.store_db, hc.batches]
    exact List.mem_append_left _ hb

theorem change_retains (w : World) (e : Change) : Retains w.db (change w e).db := by
  cases e with
  | lockVanishes | configure c => exact .of_eq rfl rfl
  | addSplitPolicy p =>
    simp only [change]
    split
    · rename_i policies hi
      refine ⟨?_, fun _ h => h⟩
      intro q hq
      show q ∈ policies.rows
      rw [(Table.insert_eq_some hi).1]
      exact List.mem_append_left _ hq
    · exact .refl _

theorem change_shares (w : World) (e : Change) :
    (change w e).db.shareEvents = w.db.shareEvents := by
  cases e with
  | lockVanishes | configure c => rfl
  | addSplitPolicy p =>
    simp only [change]
    split <;> rfl

end Steps

/-- The query answers the version in force. -/
theorem activePolicy_inForce {a : Answer} {db : Database} {customerId : Id} {asset : AssetCode}
    {p : SplitPolicyVersion} (h : activePolicy a db customerId asset = .ok p) :
    InForce ⟨customerId, asset, a.now, db.splitPolicies.rows⟩ p := by
  let le : SplitPolicyVersion → SplitPolicyVersion → Prop := fun p q => q.effectiveAt ≤ p.effectiveAt
  have : IsTrans SplitPolicyVersion le := ⟨fun _ _ _ hpq hqr => le_trans hqr hpq⟩
  have : Std.Total le := ⟨fun p q => le_total q.effectiveAt p.effectiveAt⟩
  have hperm := a.policyOrder.perm db.splitPolicies.rows
  simp only [activePolicy, orThrow_eq_ok] at h
  generalize hm : ((a.policyOrder.arrange db.splitPolicies.rows).filter (fun p =>
    p.customerId = customerId ∧ p.asset = asset ∧ p.effectiveAt ≤ a.now)) = matching at h
  have hmem : ∀ q, q ∈ matching ↔ q ∈ db.splitPolicies.rows ∧ q.customerId = customerId ∧
      q.asset = asset ∧ q.effectiveAt ≤ a.now := by
    intro q
    rw [← hm, List.mem_filter, hperm.mem_iff, decide_eq_true_eq]
  obtain ⟨rest, hrest⟩ := List.head?_eq_some_iff.mp h
  have hsorted := List.pairwise_insertionSort le matching
  have hin : ∀ q, q ∈ p :: rest ↔ q ∈ matching := by
    intro q
    rw [← hrest]
    exact List.mem_insertionSort _
  obtain ⟨hknown, hcustomer, hasset, heffective⟩ := (hmem p).mp ((hin p).mp List.mem_cons_self)
  refine ⟨hknown, hcustomer, hasset, heffective, ?_⟩
  intro q hq hqc hqa hqe
  have hq' := (hin q).mpr ((hmem q).mpr ⟨hq, hqc, hqa, hqe⟩)
  obtain rfl | hq' := List.mem_cons.mp hq'
  · exact le_refl _
  · have hcons : (p :: rest).Pairwise le := hrest ▸ hsorted
    exact (List.pairwise_cons.mp hcons).1 q hq'

/-- A reading made for the customer by the given time found this version in force. -/
structure Found (k : Dated) (r : PolicyRead) (customerId : Id) (asset : AssetCode) (policyId : Id)
    (t : Instant) : Prop where
  customer : r.customerId = customerId
  asset : r.asset = asset
  readAt : r.readAt ≤ t
  version : ∃ p ∈ k.world.db.splitPolicies.rows, p.id = policyId ∧ InForce r p

structure Later (k k' : Dated) : Prop where
  clock : k.clock ≤ k'.clock
  quotes : ∀ q ∈ k.quotes, q ∈ k'.quotes
  retains : Retains k.world.db k'.world.db

theorem Found.later {k k' : Dated} (hk : Later k k') {r : PolicyRead} {customerId policyId : Id}
    {asset : AssetCode} {t t' : Instant} (h : Found k r customerId asset policyId t) (ht : t ≤ t') :
    Found k' r customerId asset policyId t' := by
  obtain ⟨p, hp, hid, hforce⟩ := h.version
  exact ⟨h.customer, h.asset, h.readAt.trans ht, p, hk.retains.policies p hp, hid, hforce⟩

def Priced (k : Dated) (s : ShareEvent) (r : PolicyRead) : Prop :=
  ⟨⟨s.id, s.submittedAt⟩, r⟩ ∈ k.quotes ∧
    Found k r s.customerId s.asset s.splitPolicyId s.submittedAt

structure AllPriced (k : Dated) : Prop where
  priced : ∀ s ∈ k.world.db.shareEvents.rows, ∃ r, Priced k s r
  exclusive : Exclusive k.world.db

/-- A share about to be created carries the policy that its submission found in force. -/
def Informed (k : Dated) : Reader → Prop
  | ⟨.share (.create input policyId), read⟩ =>
    ∃ r, read = some r ∧ Found k r input.customerId input.asset policyId k.clock
  | _ => True

theorem Informed.later {k k' : Dated} (hk : Later k k') {r : Reader} (h : Informed k r) :
    Informed k' r := by
  unfold Informed at h ⊢
  split
  · obtain ⟨r, hr, hf⟩ := h
    exact ⟨r, hr, hf.later hk hk.clock⟩
  · trivial

theorem informed_of_ne {k : Dated} {r : Reader}
    (h : ∀ input policyId, r.call ≠ .share (.create input policyId)) : Informed k r := by
  unfold Informed
  split
  · exact absurd rfl (h _ _)
  · trivial

theorem AllPriced.originate {k k' : Dated} (h : AllPriced k) (hk : Later k k')
    (ho : Originate k.world.db k'.world.db) (he : Exclusive k'.world.db) : AllPriced k' := by
  refine ⟨?_, he⟩
  intro s' hs'
  obtain ⟨s, hs, hsame⟩ := ho s' hs'
  obtain ⟨r, hq, hf⟩ := h.priced s hs
  refine ⟨r, ?_, ?_⟩
  · rw [hsame.id, hsame.submittedAt]
    exact hk.quotes _ hq
  · rw [hsame.customerId, hsame.asset, hsame.splitPolicyId, hsame.submittedAt]
    exact hf.later hk (le_refl _)

section Runs

variable {rt : Runtime} {k k' : Dated} {r r' : Reader} {a : Answer} {o : Option Reader}

theorem effect_later (ht : Ticks k r a) (he : (dated rt).effect k r a = .ok (k', o)) : Later k k' := by
  obtain ⟨⟨w, o'⟩, hw, hk⟩ := map_eq_ok.mp he
  cases hk
  refine ⟨ht.1.trans ht.2, ?_, flow_retains (acted_flow (effect_acted hw))⟩
  exact fun q hq => List.mem_append_left _ hq

theorem effect_priced (h : AllPriced k) (hq : Informed k r) (ht : Ticks k r a)
    (he : (dated rt).effect k r a = .ok (k', o)) : AllPriced k' ∧ ∀ r' ∈ o, Informed k' r' := by
  have hlater := effect_later ht he
  obtain ⟨⟨w, next⟩, hw, hk⟩ := map_eq_ok.mp he
  have hex := (flow_exclusive h.exclusive (acted_flow (effect_acted hw))).1
  cases hk
  obtain ⟨call, read⟩ := r
  have htakes := effect_takes hw
  generalize hdb : w.db = db at htakes
  cases htakes with
  | @reads input p hp =>
    refine ⟨h.originate hlater (.of_eq (by rw [← hdb]; rfl)) hex, ?_⟩
    intro r' hr'
    cases hr'
    have hforce := activePolicy_inForce hp
    exact ⟨_, rfl, rfl, rfl, ht.2, p, hlater.retains.policies p hforce.known, rfl, hforce⟩
  | @inserts input policyId _ hrows =>
    refine ⟨⟨?_, hex⟩, fun _ hr' => by cases hr'⟩
    intro s hs
    change s ∈ w.db.shareEvents.rows at hs
    rw [hdb, hrows, List.mem_append, List.mem_singleton] at hs
    obtain hs | rfl := hs
    · obtain ⟨r, hquote, hf⟩ := h.priced s hs
      exact ⟨r, hlater.quotes _ hquote, hf.later hlater (le_refl _)⟩
    · obtain ⟨r, rfl, hf⟩ := hq
      exact ⟨r, List.mem_append_right _ List.mem_cons_self, hf.later hlater (ht.1.trans ht.2)⟩
  | keeps horigin ho =>
    refine ⟨h.originate hlater (by rw [← hdb] at horigin; exact horigin) hex, ?_⟩
    intro r' hr'
    obtain ⟨c, hc, rfl⟩ := Option.map_eq_some_iff.mp hr'
    apply informed_of_ne
    intro input policyId hne
    exact ho input policyId (hc.trans (congrArg some hne))

theorem handler_informed {message : String} (h : (dated rt).handler r message = some r') :
    Informed k r' := by
  obtain ⟨c, hc, rfl⟩ := Option.map_eq_some_iff.mp h
  apply informed_of_ne
  rintro input policyId rfl
  obtain ⟨call, read⟩ := r
  cases call with
  | scan c | execute c =>
    obtain ⟨_, _, hc⟩ := Option.map_eq_some_iff.mp hc
    cases hc
  | allocate | share | plan | planOperator | approve | reconcile => cases hc

theorem outline (rt : Runtime) : Outline (dated rt) shared Ticks (fun _ _ => True) AllPriced Informed
    (fun _ => Later) where
  entry k r _ he := by
    obtain ⟨call, read⟩ := r
    apply informed_of_ne
    rintro input policyId rfl
    cases he
  effect k r a k' o h hq ht he := by
    obtain ⟨hi, ho⟩ := effect_priced h hq ht he
    exact ⟨hi, effect_later ht he, ho, fun e r' hr' => handler_informed hr'⟩
  handler k r e r' _ _ hr' := handler_informed hr'
  background k r b _ hq := by
    obtain ⟨call, read⟩ := r
    cases call with
    | execute c => trivial
    | allocate | scan | share | plan | planOperator | approve | reconcile => exact hq
  event k e h _ := by
    have hlater : Later k ((dated rt).event k e) :=
      ⟨le_refl _, fun _ hq => hq, change_retains k.world e⟩
    refine ⟨h.originate hlater (.of_eq (change_shares k.world e))
      (change_exclusive h.exclusive e).1, ?_⟩
    exact fun r hq => hq.later hlater
  stable k k' r r' _ hg _ hq := hq.later hg

/-- The submission of the share found this version in force, at the latest when the share
was created. -/
def SubmittedUnder (k : Dated) (p : SplitPolicyVersion) (s : ShareEvent) : Prop :=
  ∃ r, ⟨⟨s.id, s.submittedAt⟩, r⟩ ∈ k.quotes ∧ r.customerId = s.customerId ∧ r.asset = s.asset ∧
    r.readAt ≤ s.submittedAt ∧ InForce r p

structure PaidByPolicy (k : Dated) (b : AllocationBatch) (i : AllocationItem) (p : SplitPolicyVersion) :
    Prop where
  stored : p ∈ k.world.db.splitPolicies.rows
  id : p.id = i.splitPolicyId
  customer : p.customerId = i.customerId
  split : i.customerAtomic = i.grossAtomic * p.customerBps / 10000
  share : ∃ s ∈ stampedShares k.world.db b.id,
    s.customerId = i.customerId ∧ s.splitPolicyId = i.splitPolicyId
  submitted : ∀ s ∈ stampedShares k.world.db b.id, s.customerId = i.customerId →
    s.splitPolicyId = i.splitPolicyId → SubmittedUnder k p s

theorem AllPriced.submittedUnder (h : AllPriced k) {s : ShareEvent} {p : SplitPolicyVersion}
    (hs : s ∈ k.world.db.shareEvents.rows) (hp : p ∈ k.world.db.splitPolicies.rows)
    (hid : p.id = s.splitPolicyId) : SubmittedUnder k p s := by
  obtain ⟨r, hquote, hf⟩ := h.priced s hs
  obtain ⟨q, hq, hqid, hforce⟩ := hf.version
  have hpq : p = q := Table.eq_of_id _ hp hq (hid.trans hqid.symm)
  rw [hpq]
  exact ⟨r, hquote, hf.customer, hf.asset, hf.readAt, hforce⟩

theorem item_share {db : Database} {b : AllocationBatch} {i : AllocationItem} (h : Distributed db b)
    (hi : i ∈ b.items) : ∃ s ∈ stampedShares db b.id,
      s.customerId = i.customerId ∧ s.splitPolicyId = i.splitPolicyId := by
  have hmem := h.groups.mem_iff.mp (List.mem_map_of_mem hi)
  obtain ⟨g, hg, he⟩ := List.mem_map.mp hmem
  simp only [Prod.mk.injEq] at he
  have hkey : g.1 ∈ (shareGroups (stampedShares db b.id)).map Prod.fst :=
    List.mem_map_of_mem (List.mem_filter.mp hg).1
  have hkeys := (foldl_bump (fun s : ShareEvent => (s.customerId, s.splitPolicyId))
    ShareEvent.normalizedWork (stampedShares db b.id) [] (by simp)).2.1
  obtain ⟨s, hs, hsg⟩ := (hkeys g.1).mp hkey |>.resolve_left (by simp)
  refine ⟨s, hs, ?_, ?_⟩
  · rw [← he.1, ← hsg]
  · rw [← he.2.1, ← hsg]

theorem AllPriced.paid (h : AllPriced k) {b : AllocationBatch} {i : AllocationItem}
    (hb : b ∈ k.world.db.allocationBatches.rows) (hi : i ∈ b.items) : ∃ p, PaidByPolicy k b i p := by
  have hd := h.exclusive.distributed b hb
  obtain ⟨p, hp, hid, hsplit⟩ := (hd.fair i hi).policy
  have hsubmitted : ∀ s ∈ stampedShares k.world.db b.id, s.splitPolicyId = i.splitPolicyId →
      SubmittedUnder k p s := by
    intro s hs hpolicy
    exact h.submittedUnder (List.mem_filter.mp hs).1 hp (hid.trans hpolicy.symm)
  obtain ⟨s, hs, hcustomer, hpolicy⟩ := item_share hd hi
  obtain ⟨r, _, hrc, _, _, hforce⟩ := hsubmitted s hs hpolicy
  refine ⟨p, hp, hid, ?_, hsplit, ⟨s, hs, hcustomer, hpolicy⟩, fun s hs _ => hsubmitted s hs⟩
  exact hforce.customer.trans (hrc.trans hcustomer)

end Runs

/-- Work is paid by the split in force when it was submitted, whatever versions are added
at whatever time with whatever date of effect: in every state every share carries the
version that its own submission found in force, every item of every batch splits its
amount by the version under which all its shares were submitted, and neither the version
nor the batch is ever changed again. -/
theorem paid_by_policy_in_force {rt : Runtime} {w : World} {t : Instant} {c : Config Dated Reader}
    (hw : w.db.Fresh)
    (h : (dated rt).Run (Allowed shared Ticks (fun _ _ => True)) (.idle ⟨w, t, []⟩) c) :
    (∀ s ∈ c.shared.world.db.shareEvents.rows, ∃ p ∈ c.shared.world.db.splitPolicies.rows,
      p.id = s.splitPolicyId ∧ SubmittedUnder c.shared p s) ∧
    (∀ b ∈ c.shared.world.db.allocationBatches.rows, ∀ i ∈ b.items, ∃ p,
      PaidByPolicy c.shared b i p) ∧
    ∀ c', (dated rt).Run (Allowed shared Ticks (fun _ _ => True)) c c' →
      Retains c.shared.world.db c'.shared.world.db := by
  have hstart : AllPriced ⟨w, t, []⟩ := by
    refine ⟨?_, fresh_exclusive hw⟩
    intro s hs
    change s ∈ w.db.shareEvents.rows at hs
    rw [hw.shareEvents] at hs
    cases hs
  have hc := (outline rt).run (keyed_shared _) (Outline.idle hstart) h
  refine ⟨?_, fun b hb i hi => hc.inv.paid hb hi, ?_⟩
  · intro s hs
    obtain ⟨r, _, hf⟩ := hc.inv.priced s hs
    obtain ⟨p, hp, hid, _⟩ := hf.version
    exact ⟨p, hp, hid, hc.inv.submittedUnder hs hp hid⟩
  · intro c' h'
    refine (outline rt).run_rel (keyed_shared _)
      (G := fun k k' => Retains k.world.db k'.world.db) ?_ ?_ ?_ ?_ hc h'
    · exact fun k => .refl _
    · exact fun _ _ _ => Retains.trans
    · exact fun _ _ _ _ _ _ _ ht he => (effect_later ht he).retains
    · exact fun k e _ _ => change_retains k.world e

section Sample

def answerAt (t : Instant) : Action Reader Answer Change :=
  .resolve 0 {
    now := t
    createdAt := t
    newId := fun n => n + 1
    receipts := [⟨"txid", "0", "address", 1000, 6, false⟩] }

def repriced : List (Action Reader Answer Change) :=
  .call 0 { call := .share (.readPolicy ⟨.btc, 1, 1, 1, 1, "job", 5⟩) } :: [1, 2].map answerAt ++
  .event (.addSplitPolicy ⟨2, 1, .btc, 100, 1⟩) ::
    .call 0 { call := .share (.resolve ⟨1, 2⟩ true 20 none) } :: [answerAt 3] ++
  .call 0 { call := .scan (.readUpstreams .btc) } :: [4, 5, 6, 7, 8].map answerAt

def itemsPaid (c : Config Dated Reader) : List (ℤ × ℤ) :=
  c.shared.world.db.allocationBatches.rows.flatMap (fun b =>
    b.items.map (fun i => (i.grossAtomic, i.customerAtomic)))

theorem paid_by_policy_in_force_sample : ∃ c, (dated sampleRuntime).Run
    (Allowed shared Ticks (fun _ _ => True)) (.idle ⟨sampleWorld, 0, []⟩) c ∧
    itemsPaid c = [(1000, 800)] ∧
    ∀ b ∈ c.shared.world.db.allocationBatches.rows, ∀ i ∈ b.items, ∃ p,
      PaidByPolicy c.shared b i p := by
  have h : ((dated sampleRuntime).execChecked (testing (fun k _ a => k.clock ≤ a.now ∧
      a.now ≤ a.createdAt)) (.idle ⟨sampleWorld, 0, []⟩) repriced).map itemsPaid =
      some [(1000, 800)] := by decide +kernel
  obtain ⟨c, hc, hv⟩ := Option.map_eq_some_iff.mp h
  have hrun := Machine.execChecked_run (testing_allowed (P := Ticks)
    (fun _ _ _ ht => by simpa [Ticks] using ht)) hc
  exact ⟨c, hrun, hv, (paid_by_policy_in_force sampleWorld_fresh hrun).2.1⟩

end Sample

end Bitmine.PolicyInForce
