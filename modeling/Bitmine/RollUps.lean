import Bitmine.Aggregates

namespace Bitmine.RollUps

open Bitmine.Lib.UniqueTable Bitmine.Schema Bitmine.Aggregates

def rollUp (h : History) (runs : List AggregateRun) : Table ShareAggregate :=
  runs.foldl (aggregate h) .empty

/-- Runs in the order of their clocks. Those that happen once a minute read the
clock of a stride less than two minutes apart, however long a statement takes
within its minute. -/
def Paced (σ : Stride) (runs : List AggregateRun) : Prop :=
  runs.IsChain (fun r r' => r.now σ ≤ r'.now σ ∧ r'.now σ ≤ r.now σ + 120000)

def separates (cutoff : Instant) (b : List ShareEvent) : Bool :=
  b.any (fun s => s.submittedAt < cutoff) && b.any (fun s => cutoff ≤ s.submittedAt)

section Overwrite

def since (cutoff : Instant) (b : List ShareEvent) : List ShareEvent :=
  b.filter (fun s => cutoff ≤ s.submittedAt)

variable {b : List ShareEvent} {c : Instant} {v : Option Totals}

theorem length_of_totals (hb : ∀ s ∈ b, s.status = .accepted ∨ s.status = .rejected) :
    (totals b).acceptedCount + (totals b).rejectedCount = b.length := by
  induction b with
  | nil => rfl
  | cons s b ih =>
    have hi := ih (fun x hx => hb x (by simp [hx]))
    simp only [totals] at hi ⊢
    obtain hs | hs := hb s (by simp) <;> simp [hs] <;> omega

theorem separates_eq_false_iff : separates c b = false ↔
    (∀ s ∈ b, c ≤ s.submittedAt) ∨ ∀ s ∈ b, s.submittedAt < c := by
  simp only [separates, Bool.and_eq_false_iff, List.any_eq_false, decide_eq_true_eq, not_lt, not_le]

theorem since_eq_self (h : ∀ s ∈ b, c ≤ s.submittedAt) : since c b = b :=
  List.filter_eq_self.mpr (fun s hs => by simpa using h s hs)

theorem since_eq_nil (h : ∀ s ∈ b, s.submittedAt < c) : since c b = [] :=
  List.filter_eq_nil_iff.mpr (fun s hs => by simpa using h s hs)

theorem totals_since_ne (hb : ∀ s ∈ b, s.status = .accepted ∨ s.status = .rejected)
    (h : ∃ s ∈ b, s.submittedAt < c) : totals (since c b) ≠ totals b := by
  intro he
  obtain ⟨s, hs, hlt⟩ := h
  have hall := length_of_totals hb
  have hsince := length_of_totals (b := since c b) (fun x hx => hb x (List.mem_filter.mp hx).1)
  have hless : (since c b).length < b.length := by
    refine List.length_filter_lt_length_iff_exists.mpr ⟨s, hs, ?_⟩
    simpa using hlt
  rw [he] at hsince
  omega

theorem foldl_incomplete (hb : ∀ s ∈ b, s.status = .accepted ∨ s.status = .rejected)
    (cs : List Instant) (hc : (c :: cs).Pairwise (· ≤ ·)) (h : ∃ s ∈ b, s.submittedAt < c)
    (hv : v = some (totals (since c b))) :
    cs.foldl (fun v c => (expected (since c b)).or v) v ≠ some (totals b) := by
  induction cs generalizing c v with
  | nil =>
    intro he
    rw [List.foldl_nil, hv, Option.some.injEq] at he
    exact totals_since_ne hb h he
  | cons c' cs ih =>
    obtain ⟨hle, hcs⟩ := List.pairwise_cons.mp hc
    obtain ⟨s, hs, hlt⟩ := h
    rw [List.foldl_cons]
    cases hsince : since c' b with
    | nil =>
      refine ih (c := c) ?_ ⟨s, hs, hlt⟩ (by simpa [expected] using hv)
      exact List.pairwise_cons.mpr ⟨fun x hx => hle x (by simp [hx]), (List.pairwise_cons.mp hcs).2⟩
    | cons x l =>
      apply ih hcs ⟨s, hs, hlt.trans_le (hle c' (by simp))⟩
      rw [hsince]
      rfl

/-- A complete row stays complete exactly when no cutoff lies between two shares. -/
theorem foldl_complete_iff (hb : ∀ s ∈ b, s.status = .accepted ∨ s.status = .rejected)
    (cs : List Instant) (hc : cs.Pairwise (· ≤ ·)) :
    cs.foldl (fun v c => (expected (since c b)).or v) (some (totals b)) = some (totals b) ↔
      ∀ c ∈ cs, separates c b = false := by
  induction cs with
  | nil => simp
  | cons c cs ih =>
    obtain ⟨_, hcs⟩ := List.pairwise_cons.mp hc
    rw [List.foldl_cons]
    cases hsep : separates c b with
    | true =>
      have hboth := hsep
      simp only [separates, Bool.and_eq_true, List.any_eq_true, decide_eq_true_eq] at hboth
      obtain ⟨hlt, s, hs, hle⟩ := hboth
      have hs : s ∈ since c b := List.mem_filter.mpr ⟨hs, by simpa using hle⟩
      have hv : (expected (since c b)).or (some (totals b)) = some (totals (since c b)) := by
        rw [expected_of_mem hs]
        rfl
      constructor
      · intro he
        exact absurd he (foldl_incomplete hb cs hc hlt hv)
      · intro hall
        cases hsep.symm.trans (hall c (by simp))
    | false =>
      have hv : (expected (since c b)).or (some (totals b)) = some (totals b) := by
        obtain hall | hall := separates_eq_false_iff.mp hsep
        · rw [since_eq_self hall]
          cases b <;> rfl
        · rw [since_eq_nil hall]
          rfl
      rw [hv, ih hcs]
      simp only [List.mem_cons, forall_eq_or_imp, hsep, true_and]

end Overwrite

section Runs

variable {h : History} {σ : Stride} {start : Instant} {workerId : Id} {runs : List AggregateRun}

theorem held_foldl (h : History) (σ : Stride) (start : Instant) (workerId : Id)
    (runs : List AggregateRun) (t : Table ShareAggregate) :
    held (runs.foldl (aggregate h) t) ⟨start, σ.bucketSeconds, workerId⟩ =
      runs.foldl (fun v r => (expected (r.selected σ (h.bucket σ start workerId))).or v)
        (held t ⟨start, σ.bucketSeconds, workerId⟩) := by
  induction runs generalizing t with
  | nil => rfl
  | cons r runs ih => rw [List.foldl_cons, ih, held_aggregate, List.foldl_cons]

theorem mem_bucket {s : ShareEvent} (hs : s ∈ h.bucket σ start workerId) :
    start ≤ s.submittedAt ∧ (s.status = .accepted ∨ s.status = .rejected) := by
  obtain ⟨hbin, _, hstatus⟩ := of_decide_eq_true (List.mem_filter.mp hs).2
  have hpos : 0 < σ.length := by cases σ <;> decide
  exact ⟨hbin ▸ Int.ediv_mul_le _ hpos.ne', hstatus⟩

/-- While the bucket is open, and within two minutes of its end, a cutoff lies
before all of its shares. -/
theorem cutoff_le_start {r : AggregateRun} (hr : r.now σ ≤ start + σ.length + 120000) :
    r.cutoff σ ≤ start := by
  have hw : σ.length + 120000 ≤ σ.window := by cases σ <;> decide
  rw [AggregateRun.cutoff]
  linarith

theorem separates_of_le {c : Instant} (hc : c ≤ start) :
    separates c (h.bucket σ start workerId) = false :=
  separates_eq_false_iff.mpr (.inl (fun _ hs => hc.trans (mem_bucket hs).1))

theorem selected_eq_since {r : AggregateRun} {b : List ShareEvent}
    (hb : ∀ s ∈ b, resolvedBy (r.now σ) s = true) : r.selected σ b = since (r.cutoff σ) b := by
  refine List.filter_congr (fun s hs => ?_)
  have hread : resolvedBy (r.readAt σ) s = true := by
    obtain ⟨t, ht, hle⟩ := (Option.any_eq_true _ _).mp (hb s hs)
    refine (Option.any_eq_true _ _).mpr ⟨t, ht, ?_⟩
    simp only [decide_eq_true_eq] at hle ⊢
    exact hle.trans (r.ordered σ)
  simp [hread]

theorem foldl_selected {b : List ShareEvent}
    (hb : ∀ s ∈ b, ∀ r ∈ runs, resolvedBy (r.now σ) s = true) (v : Option Totals) :
    runs.foldl (fun v r => (expected (r.selected σ b)).or v) v =
      (runs.map (fun r => r.cutoff σ)).foldl (fun v c => (expected (since c b)).or v) v := by
  rw [List.foldl_map]
  refine List.foldl_ext _ _ _ (fun v r hr => ?_)
  rw [selected_eq_since (fun s hs => hb s hs r hr)]

/-- The first run after the end of a bucket comes within two minutes. -/
theorem exists_first (hpaced : Paced σ runs)
    (hfirst : ∀ r ∈ runs.head?, r.now σ ≤ start + σ.length + 120000)
    (hafter : ∃ r ∈ runs, start + σ.length ≤ r.now σ) :
    ∃ before first rest, runs = before ++ first :: rest ∧
      (∀ r ∈ before, r.now σ < start + σ.length) ∧ start + σ.length ≤ first.now σ ∧
      first.now σ ≤ start + σ.length + 120000 := by
  induction runs with
  | nil => simp at hafter
  | cons r runs ih =>
    by_cases hr : start + σ.length ≤ r.now σ
    · exact ⟨[], r, runs, rfl, by simp, hr, hfirst r rfl⟩
    · rw [not_le] at hr
      obtain ⟨x, hx, hxe⟩ := hafter
      have hx : x ∈ runs := (List.mem_cons.mp hx).resolve_left (fun he => by
        subst he
        linarith)
      have hnext : ∀ r' ∈ runs.head?, r'.now σ ≤ start + σ.length + 120000 := by
        intro r' hr'
        have hstep := (List.isChain_cons.mp hpaced).1 r' hr'
        linarith [hstep.2]
      obtain ⟨before, first, rest, rfl, hb, hf⟩ :=
        ih (List.isChain_cons.mp hpaced).2 hnext ⟨x, hx, hxe⟩
      refine ⟨r :: before, first, rest, rfl, ?_, hf⟩
      simpa [hr] using hb

theorem Paced.cutoffs (hpaced : Paced σ runs) :
    (runs.map (fun r => r.cutoff σ)).Pairwise (· ≤ ·) := by
  refine List.isChain_iff_pairwise.mp ((List.isChain_map _).mpr (hpaced.imp (fun r r' hr => ?_)))
  exact sub_le_sub_right hr.1 _

theorem foldl_selected_nil (runs : List AggregateRun) :
    runs.foldl (fun v r => (expected (r.selected σ [])).or v) none = none := by
  induction runs with
  | nil => rfl
  | cons r runs ih => exact ih

/-- The row of a bucket that the cutoff has passed is complete exactly when no
run had its cutoff between two shares of the bucket. -/
theorem rollup_complete_iff (h : History) (σ : Stride) (start : Instant) (workerId : Id)
    {runs : List AggregateRun} (hpaced : Paced σ runs)
    (hfirst : ∀ r ∈ runs.head?, r.now σ ≤ start + σ.length + 120000)
    (hpassed : ∃ r ∈ runs, start + σ.length ≤ r.cutoff σ)
    (hresolved : ∀ s ∈ h.bucket σ start workerId, ∀ r ∈ runs, start + σ.length ≤ r.now σ →
      resolvedBy (r.now σ) s = true) :
    held (rollUp h runs) ⟨start, σ.bucketSeconds, workerId⟩ =
        expected (h.bucket σ start workerId) ↔
      ∀ r ∈ runs, separates (r.cutoff σ) (h.bucket σ start workerId) = false := by
  have hafter : ∃ r ∈ runs, start + σ.length ≤ r.now σ := by
    obtain ⟨r, hr, hc⟩ := hpassed
    have hw : 0 ≤ σ.window := by cases σ <;> decide
    rw [AggregateRun.cutoff] at hc
    exact ⟨r, hr, by linarith⟩
  obtain ⟨before, first, rest, rfl, hbefore, hend, hnear⟩ := exists_first hpaced hfirst hafter
  have hcut := hpaced.cutoffs
  rw [List.map_append, List.map_cons, List.pairwise_append] at hcut
  have hcut := hcut.2.1
  have hlate : ∀ r ∈ first :: rest, start + σ.length ≤ r.now σ := by
    intro r hr
    obtain rfl | hr := List.mem_cons.mp hr
    · exact hend
    · have hle := (List.pairwise_cons.mp hcut).1 _ (List.mem_map_of_mem hr)
      unfold AggregateRun.cutoff at hle
      linarith
  have hearly : ∀ r ∈ before, separates (r.cutoff σ) (h.bucket σ start workerId) = false :=
    fun r hr => separates_of_le (cutoff_le_start (by linarith [hbefore r hr]))
  have hat : separates (first.cutoff σ) (h.bucket σ start workerId) = false :=
    separates_of_le (cutoff_le_start hnear)
  have hright : (∀ r ∈ before ++ first :: rest,
        separates (r.cutoff σ) (h.bucket σ start workerId) = false) ↔
      ∀ c ∈ rest.map (fun r => r.cutoff σ), separates c (h.bucket σ start workerId) = false := by
    simp only [List.mem_append, List.mem_cons, List.mem_map, or_imp, forall_and, forall_eq,
      forall_exists_index, and_imp, forall_apply_eq_imp_iff₂, hat, true_and]
    exact ⟨fun hall => hall.2, fun hall => ⟨hearly, hall⟩⟩
  rw [hright, rollUp, held_foldl, List.foldl_append]
  by_cases hnil : h.bucket σ start workerId = []
  · rw [hnil, ← List.foldl_append]
    exact iff_of_true (foldl_selected_nil _) (fun _ _ => rfl)
  · obtain ⟨s, hs⟩ := List.exists_mem_of_ne_nil _ hnil
    -- the first run after the end writes the whole bucket, whatever was there
    rw [foldl_selected (fun s hs r hr => hresolved s hs r (by simp_all) (hlate r hr)), List.map_cons,
      List.foldl_cons, since_eq_self (fun s hs => (cutoff_le_start hnear).trans (mem_bucket hs).1),
      expected_of_mem hs]
    exact foldl_complete_iff (fun s hs => (mem_bucket hs).2) _ (List.pairwise_cons.mp hcut).2

end Runs

section Sample

def sampleShare (time : Instant) : ShareEvent :=
  ⟨time.toNat, .btc, 1, 1, 1, 1, 1, "job", .accepted, 5, 5, time, some (time + 20), some 20, none, none⟩

def sampleHistory (times : List Instant) : History :=
  ⟨times.map sampleShare, by
    intro s hs s' hs' _
    obtain ⟨t, _, rfl⟩ := List.mem_map.mp hs
    obtain ⟨t', _, rfl⟩ := List.mem_map.mp hs'
    exact ⟨rfl, rfl⟩⟩

def sampleRuns : List AggregateRun :=
  (List.range 7).map (fun i => ⟨fun _ => 20000 + 60000 * i, fun _ => 20050 + 60000 * i,
    fun _ => by linarith⟩)

theorem sampleRuns_paced : Paced .minute sampleRuns := by
  rw [Paced]
  decide

theorem rollup_complete_iff_sample :
    held (rollUp (sampleHistory [30000, 40000]) sampleRuns) ⟨0, 60, 1⟩ = some ⟨2, 0, 10, 0⟩ := by
  have h := rollup_complete_iff (sampleHistory [30000, 40000]) .minute 0 1 sampleRuns_paced
    (by decide) (by decide) (by decide)
  exact (h.mpr (by decide)).trans (by decide +kernel)

/-- The run at 320 s counts from 20 s on, and overwrites the row of a bucket
with a share at 10 s. -/
theorem bucket_overwritten_in_part :
    Paced .minute sampleRuns ∧ (∀ r ∈ sampleRuns.head?, r.now .minute ≤ 60000) ∧
    (∃ r ∈ sampleRuns, 60000 ≤ r.cutoff .minute) ∧
    (∀ s ∈ (sampleHistory [10000, 40000]).bucket .minute 0 1, ∀ r ∈ sampleRuns,
      60000 ≤ r.now .minute → resolvedBy (r.now .minute) s = true) ∧
    expected ((sampleHistory [10000, 40000]).bucket .minute 0 1) = some ⟨2, 0, 10, 0⟩ ∧
    held (rollUp (sampleHistory [10000, 40000]) sampleRuns) ⟨0, 60, 1⟩ = some ⟨1, 0, 5, 0⟩ :=
  ⟨sampleRuns_paced, by decide, by decide, by decide, by decide +kernel, by decide +kernel⟩

end Sample

end Bitmine.RollUps
