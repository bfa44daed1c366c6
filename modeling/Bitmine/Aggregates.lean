import Bitmine.Schema
import Bitmine.Lib.Rounding

namespace Bitmine.Aggregates

open Bitmine.Lib.UniqueTable Bitmine.Lib.Throwing Bitmine.Lib.Rounding Bitmine.Schema

inductive Stride where
  | minute | hour | day
  deriving DecidableEq

def Stride.bucketSeconds : Stride → ℕ
  | .minute => 60
  | .hour => 3600
  | .day => 86400

def Stride.window : Stride → ℤ
  | .minute => 5 * 60000
  | .hour => 3 * 60 * 60000
  | .day => 3 * 24 * 60 * 60000

def Stride.length (σ : Stride) : ℤ := σ.bucketSeconds * 1000

structure AggregateKey where
  bucketStart : Instant
  bucketSeconds : ℕ
  workerId : Id
  deriving DecidableEq

structure Totals where
  acceptedCount : ℕ
  rejectedCount : ℕ
  acceptedWork : ℚ
  rejectedWork : ℚ
  deriving DecidableEq

structure ShareAggregate where
  key : AggregateKey
  asset : AssetCode
  customerId : Id
  totals : Totals
  avgLatencyMs : Option ℤ

instance : Row ShareAggregate := ⟨AggregateKey, Unit, ShareAggregate.key, fun _ => none⟩

def dateBin (stride : ℤ) (time : Instant) : Instant := time / stride * stride

structure GroupKey where
  bucket : Instant
  asset : AssetCode
  customerId : Id
  workerId : Id
  deriving DecidableEq

def groupKey (σ : Stride) (s : ShareEvent) : GroupKey :=
  ⟨dateBin σ.length s.submittedAt, s.asset, s.customerId, s.workerId⟩

def totals (l : List ShareEvent) : Totals :=
  let accepted := l.filter (fun s => s.status = .accepted)
  let rejected := l.filter (fun s => s.status = .rejected)
  ⟨accepted.length, rejected.length, (accepted.map ShareEvent.normalizedWork).sum,
    (rejected.map ShareEvent.normalizedWork).sum⟩

def avgLatency (l : List ShareEvent) : Option ℤ :=
  let latencies := l.filterMap ShareEvent.upstreamLatencyMs
  if latencies.isEmpty then none
  else some (roundHalfUp ((latencies.sum : ℚ) / latencies.length))

def aggregateOf (σ : Stride) (k : GroupKey) (l : List ShareEvent) : ShareAggregate :=
  ⟨⟨k.bucket, σ.bucketSeconds, k.workerId⟩, k.asset, k.customerId, totals l, avgLatency l⟩

def grouped (σ : Stride) (cutoff : Instant) (shares : List ShareEvent) : List ShareAggregate :=
  let selected := shares.filter (fun s =>
    cutoff ≤ s.submittedAt ∧ (s.status = .accepted ∨ s.status = .rejected))
  (selected.map (groupKey σ)).dedup.map (fun k =>
    aggregateOf σ k (selected.filter (fun s => groupKey σ s = k)))

/-- `DO UPDATE SET`: asset and customer stay. -/
def ShareAggregate.overwrite (g x : ShareAggregate) : ShareAggregate :=
  { x with totals := g.totals, avgLatencyMs := g.avgLatencyMs }

theorem ShareAggregate.overwrite_keepsKeys (g : ShareAggregate) : KeepsKeys g.overwrite :=
  fun _ => ⟨rfl, rfl⟩

/-- `INSERT … ON CONFLICT … DO UPDATE` of one row. -/
def upsertRow (t : Table ShareAggregate) (g : ShareAggregate) :
    Except String (Table ShareAggregate) :=
  orThrow uniqueViolation (t.upsert (fun x => x.key = g.key) g g.overwrite g.overwrite_keepsKeys)

def upsertBuckets (σ : Stride) (cutoff : Instant) (shares : List ShareEvent)
    (t : Table ShareAggregate) : Except String (Table ShareAggregate) :=
  let rows := grouped σ cutoff shares
  if (rows.map ShareAggregate.key).Nodup then rows.foldlM upsertRow t
  else .error "ON CONFLICT DO UPDATE command cannot affect row a second time"

/-- All shares of a history, each as it is once resolved. A worker belongs to one
customer and mines one asset. -/
structure History where
  shares : List ShareEvent
  owned : ∀ s ∈ shares, ∀ s' ∈ shares, s.workerId = s'.workerId →
    s.asset = s'.asset ∧ s.customerId = s'.customerId

def resolvedBy (time : Instant) (s : ShareEvent) : Bool := s.resolvedAt.any (· ≤ time)

def History.resolved (h : History) (time : Instant) : List ShareEvent :=
  h.shares.filter (resolvedBy time)

/-- One run: for each stride the clock it reads its cutoff from, and the later
time at which its statement runs. -/
structure AggregateRun where
  now : Stride → Instant
  readAt : Stride → Instant
  ordered : ∀ σ, now σ ≤ readAt σ

def AggregateRun.cutoff (r : AggregateRun) (σ : Stride) : Instant := r.now σ - σ.window

/-- The strides one after the other, until one of them throws. -/
def attempt (h : History) (r : AggregateRun) : List Stride → Table ShareAggregate →
    Table ShareAggregate
  | [], t => t
  | σ :: rest, t =>
    match upsertBuckets σ (r.cutoff σ) (h.resolved (r.readAt σ)) t with
    | .ok t' => attempt h r rest t'
    | .error _ => t

def aggregate (h : History) (t : Table ShareAggregate) (r : AggregateRun) : Table ShareAggregate :=
  attempt h r [.minute, .hour, .day] t

def held (t : Table ShareAggregate) (k : AggregateKey) : Option Totals :=
  (t.find? (fun x => x.key = k)).map ShareAggregate.totals

def History.bucket (h : History) (σ : Stride) (start : Instant) (workerId : Id) : List ShareEvent :=
  h.shares.filter (fun s => dateBin σ.length s.submittedAt = start ∧ s.workerId = workerId ∧
    (s.status = .accepted ∨ s.status = .rejected))

def expected : List ShareEvent → Option Totals
  | [] => none
  | s :: l => some (totals (s :: l))

section Upsert

theorem upsertRow_ok (t : Table ShareAggregate) (g : ShareAggregate) :
    ∃ t', upsertRow t g = .ok t' ∧
      ∀ k, held t' k = if g.key = k then some g.totals else held t k := by
  unfold upsertRow Table.upsert
  split
  · rename_i hany
    refine ⟨_, rfl, fun k => ?_⟩
    rw [held, Table.find?_update (f := g.overwrite) (fun _ => rfl)]
    cases hf : t.find? (fun x => decide (x.key = k)) with
    | none =>
      have hne : g.key ≠ k := by
        rintro rfl
        obtain ⟨x, hx, hxk⟩ := List.any_eq_true.mp hany
        simp [Table.find?_none hf hx] at hxk
      simp [held, hf, hne]
    | some x =>
      have hx : x.key = k := by simpa using (Table.find?_mem hf).2
      subst k
      by_cases hk : g.key = x.key
      · simp [hk, ShareAggregate.overwrite]
      · simp [held, hf, hk, Ne.symm hk]
  · rename_i hany
    have hnone : ∀ x ∈ t.rows, x.key ≠ g.key := by simpa using hany
    obtain ⟨t', ht⟩ : ∃ t', t.insert g = some t' := by
      refine ⟨_, dif_pos (fun x hx hc => ?_)⟩
      obtain hid | ⟨_, hs⟩ := hc
      · exact hnone x hx hid
      · cases hs
    refine ⟨t', by rw [ht]; rfl, fun k => ?_⟩
    rw [held, Table.find?_insert ht]
    by_cases hk : g.key = k
    · subst k
      have hf : t.find? (fun x => decide (x.key = g.key)) = none := by
        refine List.find?_eq_none.mpr (fun x hx => ?_)
        simpa using hnone x hx
      simp [hf]
    · simp [hk, held]

theorem foldlM_upsertRow (rows : List ShareAggregate) (t : Table ShareAggregate)
    (hn : (rows.map ShareAggregate.key).Nodup) :
    ∃ t', rows.foldlM upsertRow t = .ok t' ∧
      ∀ k, held t' k = ((rows.find? (fun g => g.key = k)).map ShareAggregate.totals).or (held t k) := by
  induction rows generalizing t with
  | nil => exact ⟨t, rfl, fun k => rfl⟩
  | cons g rows ih =>
    obtain ⟨hg, hn⟩ := List.nodup_cons.mp (by simpa using hn :
      (g.key :: rows.map ShareAggregate.key).Nodup)
    obtain ⟨t₁, h₁, hk₁⟩ := upsertRow_ok t g
    obtain ⟨t', h', hk'⟩ := ih t₁ hn
    refine ⟨t', by rw [List.foldlM_cons, h₁]; exact h', fun k => ?_⟩
    rw [hk', hk₁, List.find?_cons]
    by_cases hk : g.key = k
    · subst k
      have hf : rows.find? (fun x => decide (x.key = g.key)) = none := by
        refine List.find?_eq_none.mpr (fun x hx hxk => hg ?_)
        rw [← of_decide_eq_true hxk]
        exact List.mem_map_of_mem hx
      simp [hf]
    · simp [hk]

end Upsert

section Grouped

variable {h : History} {σ : Stride} {r : AggregateRun} {start : Instant} {workerId : Id}

def AggregateRun.selected (r : AggregateRun) (σ : Stride) (b : List ShareEvent) :
    List ShareEvent :=
  b.filter (fun s => resolvedBy (r.readAt σ) s ∧ r.cutoff σ ≤ s.submittedAt)

theorem mem_grouped {cutoff : Instant} {shares : List ShareEvent} {g : ShareAggregate} :
    g ∈ grouped σ cutoff shares ↔ ∃ s ∈ shares.filter (fun s => cutoff ≤ s.submittedAt ∧
        (s.status = .accepted ∨ s.status = .rejected)),
      aggregateOf σ (groupKey σ s) ((shares.filter (fun s => cutoff ≤ s.submittedAt ∧
        (s.status = .accepted ∨ s.status = .rejected))).filter
          (fun s' => groupKey σ s' = groupKey σ s)) = g := by
  simp only [grouped, List.mem_map, List.mem_dedup, exists_exists_and_eq_and]

theorem groupKey_eq_iff {s s' : ShareEvent} (hs : s ∈ h.shares) (hs' : s' ∈ h.shares) :
    groupKey σ s = groupKey σ s' ↔ dateBin σ.length s.submittedAt = dateBin σ.length s'.submittedAt ∧
      s.workerId = s'.workerId := by
  simp only [groupKey, GroupKey.mk.injEq]
  constructor
  · exact fun ⟨hb, _, _, hw⟩ => ⟨hb, hw⟩
  · intro ⟨hb, hw⟩
    obtain ⟨ha, hc⟩ := h.owned s hs s' hs' hw
    exact ⟨hb, ha, hc, hw⟩

theorem grouped_keys_nodup (cutoff time : Instant) :
    ((grouped σ cutoff (h.resolved time)).map ShareAggregate.key).Nodup := by
  simp only [grouped, List.map_map]
  refine List.Nodup.map_on ?_ (List.nodup_dedup _)
  intro k hk k' hk' he
  simp only [List.mem_dedup, List.mem_map, List.mem_filter, History.resolved] at hk hk'
  obtain ⟨s, ⟨⟨hs, _⟩, _⟩, rfl⟩ := hk
  obtain ⟨s', ⟨⟨hs', _⟩, _⟩, rfl⟩ := hk'
  simp only [Function.comp_apply, aggregateOf, AggregateKey.mk.injEq] at he
  exact (groupKey_eq_iff hs hs').mpr ⟨he.1, he.2.2⟩

theorem mem_selected {s : ShareEvent} : s ∈ r.selected σ (h.bucket σ start workerId) ↔
    s ∈ (h.resolved (r.readAt σ)).filter (fun s => r.cutoff σ ≤ s.submittedAt ∧
        (s.status = .accepted ∨ s.status = .rejected)) ∧
      dateBin σ.length s.submittedAt = start ∧ s.workerId = workerId := by
  simp only [AggregateRun.selected, History.bucket, History.resolved, List.mem_filter,
    decide_eq_true_eq]
  tauto

theorem totals_grouped {s : ShareEvent} (hs : s ∈ r.selected σ (h.bucket σ start workerId)) :
    ((h.resolved (r.readAt σ)).filter (fun s => r.cutoff σ ≤ s.submittedAt ∧
        (s.status = .accepted ∨ s.status = .rejected))).filter
          (fun s' => groupKey σ s' = groupKey σ s) =
      r.selected σ (h.bucket σ start workerId) := by
  obtain ⟨hm, hb, hw⟩ := mem_selected.mp hs
  have hm := (List.mem_filter.mp (List.mem_filter.mp hm).1).1
  simp only [History.resolved, AggregateRun.selected, History.bucket, List.filter_filter]
  refine List.filter_congr (fun x hx => ?_)
  have hkey := groupKey_eq_iff (σ := σ) hx hm
  rw [hb, hw] at hkey
  simp only [hkey, Bool.decide_and, Bool.decide_or, Bool.decide_coe]
  grind

theorem expected_of_mem {l : List ShareEvent} {s : ShareEvent} (hs : s ∈ l) :
    expected l = some (totals l) := by
  cases l with
  | nil => cases hs
  | cons x l => rfl

theorem find?_grouped : ((grouped σ (r.cutoff σ) (h.resolved (r.readAt σ))).find? (fun g =>
      g.key = ⟨start, σ.bucketSeconds, workerId⟩)).map ShareAggregate.totals =
    expected (r.selected σ (h.bucket σ start workerId)) := by
  cases hf : (grouped σ (r.cutoff σ) (h.resolved (r.readAt σ))).find? (fun g =>
      g.key = ⟨start, σ.bucketSeconds, workerId⟩) with
  | none =>
    cases hsel : r.selected σ (h.bucket σ start workerId) with
    | nil => rfl
    | cons s l =>
      obtain ⟨hm, hb, hw⟩ := mem_selected.mp (hsel ▸ List.mem_cons_self)
      have hg := List.find?_eq_none.mp hf _ (mem_grouped.mpr ⟨s, hm, rfl⟩)
      simp [aggregateOf, groupKey, hb, hw] at hg
  | some g =>
    obtain ⟨s, hm, rfl⟩ := mem_grouped.mp (List.mem_of_find?_eq_some hf)
    have hk := List.find?_some hf
    simp only [aggregateOf, groupKey, AggregateKey.mk.injEq, true_and, decide_eq_true_eq] at hk
    have hs := mem_selected.mpr ⟨hm, hk⟩
    rw [expected_of_mem hs, Option.map_some, ← totals_grouped hs]
    rfl

theorem find?_grouped_of_ne {τ : Stride} (hτ : τ ≠ σ) {cutoff : Instant}
    {shares : List ShareEvent} : (grouped τ cutoff shares).find? (fun g =>
      g.key = ⟨start, σ.bucketSeconds, workerId⟩) = none := by
  refine List.find?_eq_none.mpr (fun g hg hk => ?_)
  obtain ⟨s, _, rfl⟩ := mem_grouped.mp hg
  simp only [aggregateOf, AggregateKey.mk.injEq, decide_eq_true_eq] at hk
  cases τ <;> cases σ <;> first | exact hτ rfl | exact absurd hk.2.1 (by decide)

theorem upsertBuckets_ok (h : History) (r : AggregateRun) (τ : Stride) (t : Table ShareAggregate) :
    ∃ t', upsertBuckets τ (r.cutoff τ) (h.resolved (r.readAt τ)) t = .ok t' ∧
      ∀ σ start workerId, held t' ⟨start, Stride.bucketSeconds σ, workerId⟩ =
        if τ = σ then (expected (r.selected σ (h.bucket σ start workerId))).or
          (held t ⟨start, Stride.bucketSeconds σ, workerId⟩)
        else held t ⟨start, Stride.bucketSeconds σ, workerId⟩ := by
  have hn := grouped_keys_nodup (h := h) (σ := τ) (r.cutoff τ) (r.readAt τ)
  obtain ⟨t', ht, hk⟩ := foldlM_upsertRow _ t hn
  refine ⟨t', by rw [upsertBuckets, if_pos hn, ht], fun σ start workerId => ?_⟩
  rw [hk]
  by_cases hτ : τ = σ
  · subst hτ
    rw [if_pos rfl, find?_grouped]
  · rw [if_neg hτ, find?_grouped_of_ne hτ]
    rfl

theorem held_aggregate (h : History) (r : AggregateRun) (t : Table ShareAggregate) (σ : Stride)
    (start : Instant) (workerId : Id) :
    held (aggregate h t r) ⟨start, σ.bucketSeconds, workerId⟩ =
      (expected (r.selected σ (h.bucket σ start workerId))).or
        (held t ⟨start, σ.bucketSeconds, workerId⟩) := by
  obtain ⟨t₁, h₁, hk₁⟩ := upsertBuckets_ok h r .minute t
  obtain ⟨t₂, h₂, hk₂⟩ := upsertBuckets_ok h r .hour t₁
  obtain ⟨t₃, h₃, hk₃⟩ := upsertBuckets_ok h r .day t₂
  have hrun : aggregate h t r = t₃ := by simp only [aggregate, attempt, h₁, h₂, h₃]
  rw [hrun, hk₃, hk₂, hk₁]
  cases σ <;> rfl

end Grouped

end Bitmine.Aggregates
