import Bitmine.Lib.Alone
import Bitmine.DestinationCycle

namespace Bitmine.LatestDue

open Bitmine.Lib.UniqueTable Bitmine.Lib.Throwing Bitmine.Lib.Await
open Bitmine.Schema Bitmine.Deployment Bitmine.Payouts Bitmine.Destinations
open Bitmine.DestinationCycle

section Fold

def SamePayee (d e : PayoutDestination) : Prop := e.customerId = d.customerId ∧ e.asset = d.asset

instance (d e : PayoutDestination) : Decidable (SamePayee d e) :=
  inferInstanceAs (Decidable (_ ∧ _))

def activatedBy (xs : List (PayoutDestination × Instant)) (d : PayoutDestination) :
    PayoutDestination :=
  xs.foldl (fun d x => activated x.2 x.1 d) d

def lastOf (l : List PayoutDestination) (d : PayoutDestination) : Option PayoutDestination :=
  (l.filter (SamePayee d ·)).getLast?

variable {xs : List (PayoutDestination × Instant)} {x : PayoutDestination × Instant}
  {d e : PayoutDestination} {l : List PayoutDestination}

theorem activatedBy_append : activatedBy (xs ++ [x]) d = activated x.2 x.1 (activatedBy xs d) :=
  List.foldl_append

theorem activatedBy_keeps (xs : List (PayoutDestination × Instant)) (d : PayoutDestination) :
    (activatedBy xs d).id = d.id ∧ SamePayee d (activatedBy xs d) := by
  induction xs using List.reverseRecOn with
  | nil => exact ⟨rfl, rfl, rfl⟩
  | append_singleton xs x ih =>
    rw [activatedBy_append]
    exact ⟨activated_id.trans ih.1, activated_customerId.trans ih.2.1, activated_asset.trans ih.2.2⟩

theorem activatedBy_terms (xs : List (PayoutDestination × Instant)) (d : PayoutDestination) :
    (activatedBy xs d).effectiveAt = d.effectiveAt ∧
      (activatedBy xs d).minPayoutAtomic = d.minPayoutAtomic := by
  induction xs using List.reverseRecOn with
  | nil => exact ⟨rfl, rfl⟩
  | append_singleton xs x ih =>
    rw [activatedBy_append, ← ih.1, ← ih.2]
    rw [activated]
    split <;> split <;> exact ⟨rfl, rfl⟩

theorem lastOf_append : lastOf (l ++ [e]) d = if SamePayee d e then some e else lastOf l d := by
  by_cases h : SamePayee d e <;> simp [lastOf, h]

theorem lastOf_mem (h : lastOf l d = some e) : e ∈ l ∧ SamePayee d e := by
  have hm := List.mem_filter.mp (List.mem_of_getLast? h)
  exact ⟨hm.1, of_decide_eq_true hm.2⟩

theorem lastOf_isSome (he : e ∈ l) (hs : SamePayee d e) : (lastOf l d).isSome := by
  rw [lastOf, List.getLast?_isSome]
  exact List.ne_nil_of_mem (List.mem_filter.mpr ⟨he, decide_eq_true hs⟩)

theorem lastOf_congr (h : SamePayee d e) : lastOf l e = lastOf l d := by
  have hsame : ∀ x, decide (SamePayee e x) = decide (SamePayee d x) := by
    intro x
    exact decide_eq_decide.mpr (by rw [SamePayee, SamePayee, h.1, h.2])
  simp only [lastOf, hsame]

theorem activated_beside {now : Instant} {due : PayoutDestination} (h : d.id ≠ due.id)
    (hs : SamePayee d due) : (activated now due d).status =
      if d.status = .active then .revoked else d.status := by
  simp only [activated, h, ↓reduceIte, hs.1, hs.2, true_and]
  split <;> rfl

theorem activated_elsewhere {now : Instant} {due : PayoutDestination} (h : d.id ≠ due.id)
    (hs : ¬ SamePayee d due) : activated now due d = d := by
  have hc : ¬ (d.customerId = due.customerId ∧ d.asset = due.asset ∧ d.status = .active) :=
    fun hc => hs ⟨hc.1.symm, hc.2.1.symm⟩
  simp only [activated, h, hc, ↓reduceIte]

/-- The last listed row of its customer and asset is active, what was active or
listed beside it is revoked. -/
theorem activatedBy_status (hown : ∀ y ∈ xs, y.1.id = d.id → SamePayee d y.1) :
    (activatedBy xs d).status =
      match lastOf (xs.map Prod.fst) d with
      | none => d.status
      | some e =>
        if e.id = d.id then .active
        else if d.status = .pending ∧ ∀ y ∈ xs, y.1.id ≠ d.id then .pending
        else .revoked := by
  induction xs using List.reverseRecOn with
  | nil => rfl
  | append_singleton xs x ih =>
    have hih := ih (fun y hy => hown y (List.mem_append_left _ hy))
    obtain ⟨hid, hsame⟩ := activatedBy_keeps xs d
    rw [activatedBy_append, List.map_append, List.map_singleton, lastOf_append]
    by_cases hx : x.1.id = d.id
    · have hs : SamePayee d x.1 := hown x (by simp) hx
      simp only [hs, hx, if_true]
      exact activated_of_eq (hid.trans hx.symm)
    · have hbeside : (activatedBy xs d).id ≠ x.1.id := by
        rw [hid]
        exact Ne.symm hx
      have hall : (∀ y ∈ xs ++ [x], y.1.id ≠ d.id) ↔ ∀ y ∈ xs, y.1.id ≠ d.id := by
        simp [or_imp, forall_and, hx]
      by_cases hs : SamePayee d x.1
      · have hs' : SamePayee (activatedBy xs d) x.1 :=
          ⟨hs.1.trans hsame.1.symm, hs.2.trans hsame.2.symm⟩
        rw [activated_beside hbeside hs', hih, if_pos hs]
        simp only [hx, hall, ↓reduceIte]
        cases hl : lastOf (xs.map Prod.fst) d with
        | none =>
          -- no row of this customer and asset has been listed before
          have hnone : ∀ y ∈ xs, y.1.id ≠ d.id := by
            intro y hy hyid
            have hsome := lastOf_isSome (List.mem_map_of_mem (f := Prod.fst) hy)
              (hown y (List.mem_append_left _ hy) hyid)
            rw [hl] at hsome
            cases hsome
          cases hst : d.status <;> simp
          exact fun a b hm => hnone (a, b) hm
        | some e =>
          by_cases he : e.id = d.id
          · obtain ⟨y, hy, rfl⟩ := List.mem_map.mp (lastOf_mem hl).1
            have hlisted : ¬ ∀ y ∈ xs, y.1.id ≠ d.id := fun hno => hno y hy he
            simp only [he, hlisted, and_false, ↓reduceIte]
          · simp only [he, ↓reduceIte]
            by_cases hp : d.status = .pending ∧ ∀ y ∈ xs, y.1.id ≠ d.id
            · rw [if_pos hp]
              rfl
            · rw [if_neg hp]
              rfl
      · have hs' : ¬ SamePayee (activatedBy xs d) x.1 :=
          fun h => hs ⟨h.1.trans hsame.1, h.2.trans hsame.2⟩
        rw [activated_elsewhere hbeside hs', hih, if_neg hs]
        simp only [hall]

end Fold

section Activation

variable {rt : Runtime} {minimum : AssetCode → ℕ} {s s' : Office} {a : Reply}
  {due : PayoutDestination} {rest l : List PayoutDestination} {answers : List Reply}
  {x : Answer} {t t' : Table PayoutDestination}

def Due (now : Instant) (d : PayoutDestination) : Prop := d.status = .pending ∧ d.effectiveAt ≤ now

def dueRows (x : Answer) (t : Table PayoutDestination) : List PayoutDestination :=
  (x.destinationOrder.arrange t.rows).filter (fun d => d.status = .pending ∧ d.effectiveAt ≤ x.now)

def remaining (l : List PayoutDestination) : Option Call :=
  (activateRest l).map .activateDueDestinations

theorem mem_dueRows {d : PayoutDestination} : d ∈ dueRows x t ↔ d ∈ t.rows ∧ Due x.now d := by
  rw [dueRows, List.mem_filter, (x.destinationOrder.perm _).mem_iff, decide_eq_true_eq]
  rfl

theorem effect_listDue : effect rt minimum s (.activateDueDestinations .listDue) a =
    .ok (s.tick a.createdAt, remaining (dueRows a.toAnswer s.db.payoutDestinations)) := rfl

theorem activateDestination_finds {db : Database} (now : Instant)
    (hmem : ∃ d ∈ db.payoutDestinations.rows, d.id = due.id) :
    ∃ db', activateDestination db now due = .ok db' := by
  obtain ⟨d, hd, hid⟩ := hmem
  unfold activateDestination
  dsimp only
  generalize hf : @Table.find? PayoutDestination _ _ _ = found
  cases found with
  | some e => exact ⟨_, rfl⟩
  | none =>
    have hno := Table.find?_none hf (Table.mem_update_of_mem hd)
    split at hno <;> exact absurd hid (of_decide_eq_false hno)

theorem effect_activate {o : Option Call}
    (h : effect rt minimum s (.activateDueDestinations (.activate due rest)) a = .ok (s', o)) :
    o = remaining rest ∧
      s'.db.payoutDestinations.rows = s.db.payoutDestinations.rows.map (activated a.now due) := by
  obtain ⟨⟨s₁, o₁⟩, hserve, he⟩ := map_eq_ok.mp h
  obtain ⟨⟨s₂, o₂⟩, hs, he'⟩ := map_eq_ok.mp hserve
  simp only [activateDueDestinations, bind_eq_ok, pure_eq_ok] at hs
  obtain ⟨db, hdb, hs⟩ := hs
  cases hs
  cases he'
  cases he
  exact ⟨rfl, (activateDestination_ok hdb).2⟩

theorem alone_activates (h : alone (effect rt minimum) s (remaining l) answers = some s') :
    answers.length = l.length ∧ s'.db.payoutDestinations.rows =
      s.db.payoutDestinations.rows.map (activatedBy (l.zip (answers.map (·.now)))) := by
  induction l generalizing s answers with
  | nil =>
    obtain ⟨rfl, rfl⟩ := alone_none h
    exact ⟨rfl, (List.map_id _).symm⟩
  | cons due rest ih =>
    obtain ⟨a, as, s₁, o, rfl, he, hrest⟩ := alone_some h
    obtain ⟨rfl, hrows⟩ := effect_activate he
    obtain ⟨hlen, hrows'⟩ := ih hrest
    refine ⟨congrArg (· + 1) hlen, ?_⟩
    rw [hrows', hrows, List.map_map]
    rfl

variable (rt minimum) in
theorem alone_completes (hl : ∀ due ∈ l, ∃ d ∈ s.db.payoutDestinations.rows, d.id = due.id)
    (hlen : answers.length = l.length) :
    ∃ s', alone (effect rt minimum) s (remaining l) answers = some s' := by
  induction l generalizing s answers with
  | nil =>
    rw [List.length_eq_zero_iff.mp hlen]
    exact ⟨s, rfl⟩
  | cons due rest ih =>
    obtain ⟨a, as, rfl⟩ := List.exists_cons_of_length_eq_add_one hlen
    obtain ⟨hdue, hrest⟩ := List.forall_mem_cons.mp hl
    obtain ⟨db, hdb⟩ := activateDestination_finds a.now hdue
    have he : effect rt minimum s (.activateDueDestinations (.activate due rest)) a =
        .ok ((s.store db).tick a.createdAt, remaining rest) := by
      simp only [effect, serve, activateDueDestinations, hdb]
      rfl
    have hkept : ∀ x ∈ rest, ∃ d ∈ ((s.store db).tick a.createdAt).db.payoutDestinations.rows,
        d.id = x.id := by
      intro x hx
      obtain ⟨d, hd, hid⟩ := hrest x hx
      rw [(effect_activate he).2]
      exact ⟨_, List.mem_map_of_mem hd, activated_id.trans hid⟩
    obtain ⟨s', hs'⟩ := ih hkept (Nat.succ_injective hlen)
    exact ⟨s', (alone_cons he).trans hs'⟩

/-- In every state and with the rows in every order, an activation that runs alone
completes. -/
theorem activation_completes
    (hlen : answers.length = (dueRows a.toAnswer s.db.payoutDestinations).length) :
    ∃ s', alone (effect rt minimum) s (some (.activateDueDestinations .listDue)) (a :: answers) =
      some s' := by
  obtain ⟨s', hs'⟩ := alone_completes rt minimum (s := s.tick a.createdAt)
    (fun due hdue => ⟨due, (mem_dueRows.mp hdue).1, rfl⟩) hlen
  exact ⟨s', (alone_cons effect_listDue).trans hs'⟩

/-- Where rows of a customer and asset were due, the one of them that took effect last
is the only one that is active; the others that were due or active are revoked. -/
def LatestWins (now : Instant) (rows rows' : List PayoutDestination) : Prop :=
  ∀ d ∈ rows, Due now d → ∃ w ∈ rows, Due now w ∧ SamePayee d w ∧
    (∀ e ∈ rows, Due now e → SamePayee d e → e.effectiveAt ≤ w.effectiveAt) ∧
    (∃ e ∈ rows', e.id = w.id ∧ e.status = .active) ∧
    (∀ e ∈ rows', SamePayee d e → e.status = .active → e.id = w.id) ∧
    ∀ e ∈ rows, SamePayee d e → Due now e ∨ e.status = .active → e.id ≠ w.id →
      ∀ e' ∈ rows', e'.id = e.id → e'.status = .revoked

/-- The last row of its customer and asset that is listed took effect last. -/
def LastIsLatest (l : List PayoutDestination) : Prop :=
  ∀ d ∈ l, ∀ e ∈ lastOf l d, d.effectiveAt ≤ e.effectiveAt

def Completed (x : Answer) (t t' : Table PayoutDestination) : Prop :=
  ∃ nows : List Instant, nows.length = (dueRows x t).length ∧
    t'.rows = t.rows.map (activatedBy ((dueRows x t).zip nows))

theorem alone_completed (h : alone (effect rt minimum) s
    (some (.activateDueDestinations .listDue)) (a :: answers) = some s') :
    Completed a.toAnswer s.db.payoutDestinations s'.db.payoutDestinations := by
  rw [alone_cons effect_listDue] at h
  obtain ⟨hlen, hrows⟩ := alone_activates h
  exact ⟨answers.map (·.now), (List.length_map _).trans hlen, hrows⟩

/-- What becomes of a row: its status comes from the last row listed for its payee. -/
theorem Completed.row (h : Completed x t t') {e : PayoutDestination} (he : e ∈ t.rows) :
    ∃ xs, activatedBy xs e ∈ t'.rows ∧ (activatedBy xs e).status =
      match lastOf (dueRows x t) e with
        | none => e.status
        | some w =>
          if w.id = e.id then .active
          else if e.status = .pending ∧ ¬ e.effectiveAt ≤ x.now then .pending
          else .revoked := by
  obtain ⟨nows, hlen, hrows⟩ := h
  have hfst : ((dueRows x t).zip nows).map Prod.fst = dueRows x t := List.map_fst_zip hlen.ge
  have hsame : ∀ y ∈ dueRows x t, y.id = e.id → y = e :=
    fun y hy => t.eq_of_id (mem_dueRows.mp hy).1 he
  have hlisted : ∀ {P : PayoutDestination → Prop},
      (∀ y ∈ (dueRows x t).zip nows, P y.1) ↔ ∀ y ∈ dueRows x t, P y := by
    intro P
    conv_rhs => rw [← hfst]
    exact List.forall_mem_map.symm
  have hstatus := @activatedBy_status ((dueRows x t).zip nows) e
    (hlisted (P := fun y => y.id = e.id → SamePayee e y) |>.mpr (fun y hy hid => by
      rw [hsame y hy hid]
      exact ⟨rfl, rfl⟩))
  have hout : (e.status = .pending ∧ ∀ y ∈ (dueRows x t).zip nows, y.1.id ≠ e.id) ↔
      e.status = .pending ∧ ¬ e.effectiveAt ≤ x.now := by
    rw [hlisted (P := fun y => y.id ≠ e.id)]
    constructor
    · rintro ⟨hp, hno⟩
      exact ⟨hp, fun hle => hno e (mem_dueRows.mpr ⟨he, hp, hle⟩) rfl⟩
    · rintro ⟨hp, hlt⟩
      exact ⟨hp, fun y hy hid => hlt (mem_dueRows.mp (hsame y hy hid ▸ hy)).2.2⟩
  rw [hfst] at hstatus
  simp only [hout] at hstatus
  refine ⟨(dueRows x t).zip nows, ?_, hstatus⟩
  rw [hrows]
  exact List.mem_map_of_mem he

theorem Completed.status (h : Completed x t t') {e' : PayoutDestination} (he' : e' ∈ t'.rows) :
    ∃ e ∈ t.rows, ∃ xs, e' = activatedBy xs e ∧
      e'.status = match lastOf (dueRows x t) e with
        | none => e.status
        | some w =>
          if w.id = e.id then .active
          else if e.status = .pending ∧ ¬ e.effectiveAt ≤ x.now then .pending
          else .revoked := by
  have hcompleted := h
  obtain ⟨nows, _, hrows⟩ := h
  rw [hrows] at he'
  obtain ⟨e, he, rfl⟩ := List.mem_map.mp he'
  obtain ⟨xs, hmem, hstatus⟩ := hcompleted.row he
  have hsame : activatedBy xs e = activatedBy ((dueRows x t).zip nows) e :=
    t'.eq_of_id hmem (hrows ▸ List.mem_map_of_mem he)
      ((activatedBy_keeps _ e).1.trans (activatedBy_keeps _ e).1.symm)
  exact ⟨e, he, _, rfl, hsame ▸ hstatus⟩

theorem Completed.last (h : Completed x t t') {d w : PayoutDestination}
    (hw : lastOf (dueRows x t) d = some w) :
    ∃ xs, activatedBy xs w ∈ t'.rows ∧ SamePayee d w ∧ (activatedBy xs w).status = .active := by
  obtain ⟨hwl, hdw⟩ := lastOf_mem hw
  obtain ⟨xs, hmem, hstatus⟩ := h.row (mem_dueRows.mp hwl).1
  rw [lastOf_congr hdw, hw] at hstatus
  exact ⟨xs, hmem, hdw, hstatus.trans (if_pos rfl)⟩

theorem Completed.singleActive (h : Completed x t t') (hsingle : SingleActive t.rows) :
    SingleActive t'.rows := by
  intro d' hd' e' he' hda hea hcustomer hasset
  obtain ⟨d, hd, xs, rfl, hds⟩ := h.status hd'
  obtain ⟨e, he, ys, rfl, hes⟩ := h.status he'
  obtain ⟨hdid, hdd⟩ := activatedBy_keeps xs d
  obtain ⟨heid, hee⟩ := activatedBy_keeps ys e
  have hde : SamePayee d e := ⟨hee.1.symm.trans (hcustomer.symm.trans hdd.1),
    hee.2.symm.trans (hasset.symm.trans hdd.2)⟩
  rw [hda] at hds
  rw [hea, lastOf_congr hde] at hes
  rw [hdid, heid]
  cases hl : lastOf (dueRows x t) d with
  | none =>
    rw [hl] at hds hes
    exact hsingle d hd e he hds.symm hes.symm hde.1.symm hde.2.symm
  | some w =>
    -- only the last one listed ends up active
    have hlast : ∀ {f : PayoutDestination}, DestinationStatus.active =
        (if w.id = f.id then .active
          else if f.status = .pending ∧ ¬ f.effectiveAt ≤ x.now then .pending else .revoked) →
        w.id = f.id := by
      intro f hf
      by_contra hne
      rw [if_neg hne] at hf
      split at hf <;> cases hf
    rw [hl] at hds hes
    exact (hlast hds).symm.trans (hlast hes)

/-- Alone, an activation leaves the latest of the due destinations active exactly when
the database returns it after the others of its customer and asset. -/
theorem latestWins_iff (h : alone (effect rt minimum) s
    (some (.activateDueDestinations .listDue)) (a :: answers) = some s') :
    LatestWins a.now s.db.payoutDestinations.rows s'.db.payoutDestinations.rows ↔
      LastIsLatest (dueRows a.toAnswer s.db.payoutDestinations) := by
  have hcompleted := alone_completed h
  constructor
  · intro hwins d hd e he
    obtain ⟨hdrow, hdue⟩ := mem_dueRows.mp hd
    obtain ⟨herow, hedue⟩ := mem_dueRows.mp (lastOf_mem he).1
    obtain ⟨w, hw, _, _, hlatest, _, honly, _⟩ := hwins d hdrow hdue
    -- the last one is active in the end, so it is the one that wins
    obtain ⟨xs, he', hde, hactive⟩ := hcompleted.last he
    obtain ⟨hid, hsame⟩ := activatedBy_keeps xs e
    have hew : e = w := s.db.payoutDestinations.eq_of_id herow hw (hid.symm.trans
      (honly _ he' ⟨hsame.1.trans hde.1, hsame.2.trans hde.2⟩ hactive))
    rw [hew]
    exact hlatest d hdrow hdue ⟨rfl, rfl⟩
  · intro hlast d hd hdue
    have hdl : d ∈ dueRows a.toAnswer s.db.payoutDestinations := mem_dueRows.mpr ⟨hd, hdue⟩
    obtain ⟨w, hw⟩ := Option.isSome_iff_exists.mp (lastOf_isSome hdl (d := d) ⟨rfl, rfl⟩)
    obtain ⟨hwl, hdw⟩ := lastOf_mem hw
    obtain ⟨hwrow, hwdue⟩ := mem_dueRows.mp hwl
    have hlastOf : ∀ e, SamePayee d e → lastOf (dueRows a.toAnswer s.db.payoutDestinations) e = some w :=
      fun e he => (lastOf_congr he).trans hw
    obtain ⟨ws, hw', _, hactive⟩ := hcompleted.last hw
    refine ⟨w, hwrow, hwdue, hdw, fun e he hedue hde => ?_,
      ⟨_, hw', (activatedBy_keeps ws w).1, hactive⟩, ?_, ?_⟩
    · exact hlast e (mem_dueRows.mpr ⟨he, hedue⟩) w (hlastOf e hde)
    · intro e' he' hde hactive'
      obtain ⟨e, _, xs, rfl, hstatus⟩ := hcompleted.status he'
      obtain ⟨heid, hee⟩ := activatedBy_keeps xs e
      rw [hlastOf e ⟨hee.1.symm.trans hde.1, hee.2.symm.trans hde.2⟩] at hstatus
      by_contra hne
      have hwe : w.id ≠ e.id := fun hwe => hne (heid.trans hwe.symm)
      simp only [hwe, ↓reduceIte] at hstatus
      rw [hstatus] at hactive'
      split at hactive' <;> cases hactive'
    · intro e he hde hbefore hne e' he' hid'
      obtain ⟨y, hy, xs, rfl, hstatus⟩ := hcompleted.status he'
      obtain rfl : y = e := s.db.payoutDestinations.eq_of_id hy he
        ((activatedBy_keeps xs y).1.symm.trans hid')
      rw [hlastOf y hde] at hstatus
      have hpast : ¬ (y.status = .pending ∧ ¬ y.effectiveAt ≤ a.now) := by
        rintro ⟨hp, hlt⟩
        obtain hydue | hyactive := hbefore
        · exact hlt hydue.2
        · rw [hp] at hyactive
          cases hyactive
      simp only [Ne.symm hne, hpast, ↓reduceIte] at hstatus
      exact hstatus

end Activation

section Sample

def earlier : PayoutDestination := ⟨1, 1, .btc, "bc1qold", .pending, 100, 1, 0, none⟩

def later : PayoutDestination := ⟨2, 1, .btc, "bc1qnew", .pending, 200, 1, 0, none⟩

def bothDue : Office := sampleOffice.store (withDestinations sampleOffice.db ⟨[earlier, later], by decide⟩)

theorem latestWins_sample : ∃ s', alone (effect sampleOfficeRuntime (fun _ => 1)) bothDue
      (some (.activateDueDestinations .listDue)) [{ now := 300 }, { now := 301 }, { now := 302 }] =
        some s' ∧
    LatestWins 300 bothDue.db.payoutDestinations.rows s'.db.payoutDestinations.rows := by
  have hsome : (alone (effect sampleOfficeRuntime (fun _ => 1)) bothDue
      (some (.activateDueDestinations .listDue))
        [{ now := 300 }, { now := 301 }, { now := 302 }]).isSome = true := by decide +kernel
  obtain ⟨s', hs'⟩ := Option.isSome_iff_exists.mp hsome
  refine ⟨s', hs', (latestWins_iff hs').mpr ?_⟩
  have hdue : dueRows { now := 300 } bothDue.db.payoutDestinations = [earlier, later] := rfl
  have hlast : ∀ d ∈ [earlier, later], lastOf [earlier, later] d = some later := by
    intro d hd
    fin_cases hd <;> rfl
  rw [hdue]
  intro d hd e he
  rw [hlast d hd] at he
  cases he
  fin_cases hd <;> decide

/-- The database returns the later of two due destinations first. -/
theorem earlier_destination_wins : ¬ ∀ (s s' : Office) (a : Reply) (answers : List Reply),
    alone (effect sampleOfficeRuntime (fun _ => 1)) s (some (.activateDueDestinations .listDue))
        (a :: answers) = some s' →
      LatestWins a.now s.db.payoutDestinations.rows s'.db.payoutDestinations.rows := by
  intro h
  have hview : (alone (effect sampleOfficeRuntime (fun _ => 1)) bothDue
      (some (.activateDueDestinations .listDue))
        [{ now := 300, destinationOrder := ⟨List.reverse, List.reverse_perm⟩ }, { now := 301 },
          { now := 302 }]).map (fun s => s.db.payoutDestinations.rows.map (fun d => (d.id, d.status))) =
      some [(1, .active), (2, .revoked)] := by decide +kernel
  obtain ⟨s', hs', hrows⟩ := Option.map_eq_some_iff.mp hview
  obtain ⟨w, hw, _, _, hlatest, ⟨e, he, hid, hactive⟩, _⟩ :=
    h _ _ _ _ hs' earlier (List.mem_cons_self ..) ⟨rfl, by decide⟩
  have hactive' : (e.id, e.status) ∈ [(1, DestinationStatus.active), (2, .revoked)] := by
    rw [← hrows]
    exact List.mem_map_of_mem he
  have hlater : later.effectiveAt ≤ w.effectiveAt :=
    hlatest later (List.mem_cons_of_mem _ (List.mem_cons_self ..)) ⟨rfl, by decide⟩ ⟨rfl, rfl⟩
  rw [hactive, hid] at hactive'
  fin_cases hw
  · exact absurd hlater (by decide)
  · exact absurd hactive' (by decide)

end Sample

end Bitmine.LatestDue
