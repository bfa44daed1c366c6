import Bitmine.RollUps
import Bitmine.ShareRetention

namespace Bitmine.PrunedRollUps

open Bitmine.Lib.UniqueTable Bitmine.Schema Bitmine.Aggregates Bitmine.RollUps
open Bitmine.ShareRetention

/-- The scheduled jobs that read or delete resolved shares. Which accepted shares have
been allocated when the retention job runs is not up to the job. -/
inductive Job where
  | aggregate (r : AggregateRun)
  | pruneRawShares (now : Instant) (allocated : ShareEvent → Option Id)

theorem owned_filter (h : History) (p : ShareEvent → Bool) :
    ∀ s ∈ h.shares.filter p, ∀ s' ∈ h.shares.filter p, s.workerId = s'.workerId →
      s.asset = s'.asset ∧ s.customerId = s'.customerId :=
  fun s hs s' hs' => h.owned s (List.mem_filter.mp hs).1 s' (List.mem_filter.mp hs').1

def History.only (h : History) (p : ShareEvent → Bool) : History :=
  ⟨h.shares.filter p, owned_filter h p⟩

def deleted (days : ℕ) (now : Instant) (allocated : ShareEvent → Option Id) (s : ShareEvent) : Bool :=
  resolvedBy now s &&
    prunable (retentionCutoff now days) { s with allocationBatchId := allocated s }

def perform (days : ℕ) (state : History × Table ShareAggregate) :
    Job → History × Table ShareAggregate
  | .aggregate r => (state.1, aggregate state.1 state.2 r)
  | .pruneRawShares now allocated =>
    (History.only state.1 (fun s => !deleted days now allocated s), state.2)

def rollUpPruned (days : ℕ) (h : History) (jobs : List Job) : Table ShareAggregate :=
  (jobs.foldl (perform days) (h, .empty)).2

def Job.run? : Job → Option AggregateRun
  | .aggregate r => some r
  | .pruneRawShares _ _ => none

/-- The clock of a run is not behind that of a deletion before it. -/
def Job.InOrder (j j' : Job) : Prop :=
  ∀ now allocated r, j = .pruneRawShares now allocated → j' = .aggregate r → ∀ σ, now ≤ r.now σ

def Sees (h h' : History) (r : AggregateRun) : Prop :=
  ∀ σ, h'.shares.filter (fun s => r.cutoff σ ≤ s.submittedAt) =
    h.shares.filter (fun s => r.cutoff σ ≤ s.submittedAt)

section Runs

variable {h h' : History} {r : AggregateRun} {days : ℕ}

theorem grouped_eq (hs : Sees h h' r) (σ : Stride) : grouped σ (r.cutoff σ) (h'.resolved (r.readAt σ)) =
    grouped σ (r.cutoff σ) (h.resolved (r.readAt σ)) := by
  have hsel : ∀ g : History, (g.resolved (r.readAt σ)).filter (fun s => r.cutoff σ ≤ s.submittedAt ∧
        (s.status = .accepted ∨ s.status = .rejected)) =
      (g.shares.filter (fun s => r.cutoff σ ≤ s.submittedAt)).filter (fun s =>
        resolvedBy (r.readAt σ) s ∧ (s.status = .accepted ∨ s.status = .rejected)) := by
    intro g
    simp only [History.resolved, List.filter_filter]
    apply List.filter_congr
    intro s _
    by_cases hc : r.cutoff σ ≤ s.submittedAt <;> by_cases hr : resolvedBy (r.readAt σ) s = true <;>
      simp [hc, hr]
  simp only [grouped, hsel, hs σ]

theorem aggregate_eq (hs : Sees h h' r) (t : Table ShareAggregate) :
    aggregate h' t r = aggregate h t r := by
  have hattempt : ∀ strides t, attempt h' r strides t = attempt h r strides t := by
    intro strides
    induction strides with
    | nil => exact fun _ => rfl
    | cons σ strides ih =>
      intro t
      have hupsert : upsertBuckets σ (r.cutoff σ) (h'.resolved (r.readAt σ)) t =
          upsertBuckets σ (r.cutoff σ) (h.resolved (r.readAt σ)) t := by
        simp only [upsertBuckets, grouped_eq hs σ]
      rw [attempt, attempt, hupsert]
      split
      · exact ih _
      · rfl
  exact hattempt _ t

/-- What is three days old at a deletion is out of sight of every later run. -/
theorem Sees.prune (hs : Sees h h' r) (hdays : 3 ≤ days) {now : Instant}
    (hnow : ∀ σ, now ≤ r.now σ) (allocated : ShareEvent → Option Id) :
    Sees h (History.only h' (fun s => !deleted days now allocated s)) r := by
  intro σ
  rw [← hs σ, History.only, List.filter_filter]
  apply List.filter_congr
  intro s _
  by_cases hc : r.cutoff σ ≤ s.submittedAt
  · have hw : σ.window ≤ 3 * (24 * 60 * 60000) := by cases σ <;> decide
    have hold : ¬ s.submittedAt < retentionCutoff now days := by
      have hd : (3 : ℤ) ≤ days := by exact_mod_cast hdays
      rw [AggregateRun.cutoff] at hc
      rw [retentionCutoff, not_lt]
      linarith [hnow σ]
    simp [deleted, prunable, hold, hc]
  · simp [hc]

theorem foldl_perform (hdays : 3 ≤ days) (jobs : List Job) (hord : jobs.Pairwise Job.InOrder)
    (hs : ∀ r ∈ jobs.filterMap Job.run?, Sees h h' r) (t : Table ShareAggregate) :
    (jobs.foldl (perform days) (h', t)).2 =
      (jobs.filterMap Job.run?).foldl (aggregate h) t := by
  induction jobs generalizing h' t with
  | nil => rfl
  | cons j jobs ih =>
    obtain ⟨hj, hrest⟩ := List.pairwise_cons.mp hord
    cases j with
    | aggregate r =>
      have hruns : (Job.aggregate r :: jobs).filterMap Job.run? = r :: jobs.filterMap Job.run? := rfl
      rw [hruns] at hs ⊢
      rw [List.foldl_cons, List.foldl_cons, perform, aggregate_eq (hs r (by simp))]
      apply ih hrest
      intro r' hr'
      exact hs r' (List.mem_cons_of_mem _ hr')
    | pruneRawShares now allocated =>
      have hruns : (Job.pruneRawShares now allocated :: jobs).filterMap Job.run? =
          jobs.filterMap Job.run? := rfl
      rw [hruns] at hs ⊢
      rw [List.foldl_cons, perform]
      apply ih hrest
      intro r hr
      obtain ⟨j', hj', hrun⟩ := List.mem_filterMap.mp hr
      have he : j' = .aggregate r := by
        cases j' <;> simp_all [Job.run?]
      apply (hs r hr).prune hdays
      exact hj j' hj' now allocated r rfl he

end Runs

/-- Two accepted shares of one day, of which the first is allocated and deleted before
the day is rolled up. -/
def lossyJobs (days : ℕ) : List Job :=
  [.pruneRawShares (days * 86400000 + 7200000) (fun _ => some 1),
    .aggregate ⟨fun _ => 183600000, fun _ => 183600000, fun _ => le_rfl⟩]

theorem lossyJobs_inOrder {days : ℕ} (hdays : days < 3) : (lossyJobs days).Pairwise Job.InOrder := by
  apply List.pairwise_pair.mpr
  rintro now allocated r ⟨⟩ ⟨⟩ σ
  have hd : (days : ℤ) < 3 := by exact_mod_cast hdays
  show (days : ℤ) * 86400000 + 7200000 ≤ 183600000
  omega

/-- Deleting old shares is invisible in the aggregates exactly when shares are kept for
at least three days. -/
theorem pruning_invisible_iff (days : ℕ) :
    (∀ (h : History) (jobs : List Job), jobs.Pairwise Job.InOrder →
      rollUpPruned days h jobs = rollUp h (jobs.filterMap Job.run?)) ↔ 3 ≤ days := by
  constructor
  · intro hall
    by_contra hdays
    have hlt : days < 3 := by omega
    have he := congrArg (fun t => held t ⟨0, 86400, 1⟩)
      (hall (sampleHistory [0, 43200000]) (lossyJobs days) (lossyJobs_inOrder hlt))
    revert he
    obtain rfl | rfl | rfl : days = 0 ∨ days = 1 ∨ days = 2 := by omega
    · decide +kernel
    · decide +kernel
    · decide +kernel
  · intro hdays h jobs hord
    apply foldl_perform hdays jobs hord
    exact fun r _ σ => rfl

end Bitmine.PrunedRollUps
