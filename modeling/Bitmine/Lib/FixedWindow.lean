import Mathlib

/-! Counters that expire, and how many counts of a key can fall into one window. -/

namespace Bitmine.Lib.FixedWindow

variable {κ : Type}

/-- A counter, when it expires if that has been set, and when it was created. No command
reads when it was created. -/
structure Counter where
  value : ℕ
  expiresAt : Option ℕ
  createdAt : ℕ

structure Count (κ : Type) where
  key : κ
  time : ℕ
  value : ℕ
  createdAt : ℕ

structure Counters (κ : Type) where
  stored : κ → Option Counter
  clock : ℕ
  counted : List (Count κ)

namespace Counters

def start (clock : ℕ) : Counters κ := ⟨fun _ => none, clock, []⟩

variable (s : Counters κ)

def live (key : κ) : Option Counter :=
  (s.stored key).filter (fun c => c.expiresAt.all (fun x => s.clock < x))

def bumped (key : κ) : Counter :=
  match s.live key with
  | some c => { c with value := c.value + 1 }
  | none => ⟨1, none, s.clock⟩

def tick (ms : ℕ) : Counters κ := { s with clock := s.clock + ms }

variable [DecidableEq κ]

def put (key : κ) (c : Counter) : Counters κ :=
  { s with stored := Function.update s.stored key (some c) }

def incr (key : κ) : Counters κ :=
  { s.put key (s.bumped key) with
    counted := s.counted ++ [⟨key, s.clock, (s.bumped key).value, (s.bumped key).createdAt⟩] }

def expire (key : κ) (ms : ℕ) : Counters κ :=
  match s.live key with
  | some c => s.put key { c with expiresAt := some (s.clock + ms) }
  | none => s

end Counters

structure Apart (window : κ → ℕ) (e f : Count κ) : Prop where
  time : e.time ≤ f.createdAt
  window : e.createdAt + window e.key ≤ f.createdAt

/-- The counts of a key, and its counter if it has been counted. -/
structure Separated (window : κ → ℕ) (s : Counters κ) : Prop where
  past : ∀ e ∈ s.counted, e.createdAt ≤ e.time ∧ e.time ≤ s.clock ∧ 0 < e.value
  distinct : s.counted.Pairwise (fun e f => e.key = f.key → e.createdAt = f.createdAt → e.value < f.value)
  apart : ∀ e ∈ s.counted, ∀ f ∈ s.counted, e.key = f.key → e.createdAt < f.createdAt →
    Apart window e f
  current : ∀ e ∈ s.counted, ∃ c, s.stored e.key = some c ∧ e.createdAt ≤ c.createdAt ∧
    (e.createdAt = c.createdAt → e.value ≤ c.value) ∧
    (e.createdAt < c.createdAt → e.time ≤ c.createdAt ∧ e.createdAt + window e.key ≤ c.createdAt)
  expiry : ∀ key c, s.stored key = some c → c.createdAt ≤ s.clock ∧
    ∀ x ∈ c.expiresAt, c.createdAt + window key ≤ x

section Store

variable {s : Counters κ} {key : κ} {c : Counter}

theorem live_eq_some : s.live key = some c ↔
    s.stored key = some c ∧ ∀ x ∈ c.expiresAt, s.clock < x := by
  simp [Counters.live, Option.filter_eq_some_iff, Option.all_eq_true]

theorem live_eq_none (h : s.live key = none) (hc : s.stored key = some c) :
    ∃ x ∈ c.expiresAt, x ≤ s.clock := by
  by_contra hx
  push Not at hx
  have := live_eq_some.mpr ⟨hc, hx⟩
  rw [h] at this
  cases this

theorem bumped_of_live (h : s.live key = some c) :
    s.bumped key = { c with value := c.value + 1 } := by
  rw [Counters.bumped, h]

theorem bumped_of_none (h : s.live key = none) : s.bumped key = ⟨1, none, s.clock⟩ := by
  rw [Counters.bumped, h]

theorem bumped_pos : 0 < (s.bumped key).value := by
  unfold Counters.bumped
  split <;> simp

end Store

section Invariant

variable {window : κ → ℕ} {s : Counters κ}

theorem start_separated (window : κ → ℕ) (clock : ℕ) : Separated window (Counters.start clock : Counters κ) := by
  constructor <;> simp [Counters.start]

theorem Separated.tick (h : Separated window s) (ms : ℕ) : Separated window (s.tick ms) where
  past e he := by
    obtain ⟨h₁, h₂, h₃⟩ := h.past e he
    exact ⟨h₁, h₂.trans (Nat.le_add_right _ _), h₃⟩
  distinct := h.distinct
  apart := h.apart
  current := h.current
  expiry key c hc := by
    obtain ⟨h₁, h₂⟩ := h.expiry key c hc
    exact ⟨h₁.trans (Nat.le_add_right _ _), h₂⟩

structure Bumps (window : κ → ℕ) (s : Counters κ) (key : κ) (c : Counter) : Prop where
  pos : 0 < c.value
  created : c.createdAt ≤ s.clock
  expiry : ∀ x ∈ c.expiresAt, c.createdAt + window key ≤ x
  earlier : ∀ e ∈ s.counted, e.key = key → e.createdAt ≤ c.createdAt ∧
    (e.createdAt = c.createdAt → e.value < c.value) ∧
    (e.createdAt < c.createdAt → e.time ≤ c.createdAt ∧ e.createdAt + window key ≤ c.createdAt)

/-- A counter goes on, or a new one starts after the old one has expired. -/
theorem Separated.bumps (h : Separated window s) (hw : ∀ key, 0 < window key) (key : κ) :
    Bumps window s key (s.bumped key) := by
  cases hl : s.live key with
  | some c =>
    obtain ⟨hstored, _⟩ := live_eq_some.mp hl
    obtain ⟨hcreated, hexpiry⟩ := h.expiry key c hstored
    rw [bumped_of_live hl]
    refine ⟨Nat.succ_pos _, hcreated, hexpiry, ?_⟩
    rintro e he rfl
    obtain ⟨c', hc', hle, hvalue, hapart⟩ := h.current e he
    cases hstored.symm.trans hc'
    exact ⟨hle, fun heq => Nat.lt_succ_of_le (hvalue heq), hapart⟩
  | none =>
    rw [bumped_of_none hl]
    refine ⟨Nat.one_pos, le_refl _, fun _ hx => (by cases hx), ?_⟩
    rintro e he rfl
    obtain ⟨c, hc, hle, hvalue, hapart⟩ := h.current e he
    obtain ⟨x, hx, hclock⟩ := live_eq_none hl hc
    obtain ⟨_, htime, _⟩ := h.past e he
    have hwindow := (h.expiry e.key c hc).2 x hx
    have hpos := hw e.key
    dsimp only
    refine ⟨by omega, fun heq => by omega, fun _ => ⟨htime, by omega⟩⟩

variable [DecidableEq κ]

theorem Separated.incr (h : Separated window s) (hw : ∀ key, 0 < window key) (key : κ) :
    Separated window (s.incr key) := by
  have hb := h.bumps hw key
  generalize hc : s.bumped key = c at hb
  have hincr : s.incr key = ⟨Function.update s.stored key (some c), s.clock,
      s.counted ++ [⟨key, s.clock, c.value, c.createdAt⟩]⟩ := by
    rw [Counters.incr, hc]
    rfl
  rw [hincr]
  refine ⟨?_, ?_, ?_, ?_, ?_⟩
  · intro e he
    obtain he | he := List.mem_append.mp he
    · exact h.past e he
    · rw [List.mem_singleton.mp he]
      exact ⟨hb.created, le_refl _, hb.pos⟩
  · refine List.pairwise_append.mpr ⟨h.distinct, List.pairwise_singleton _ _, ?_⟩
    intro e he f hf hkey hcreated
    rw [List.mem_singleton.mp hf] at hkey hcreated ⊢
    exact (hb.earlier e he hkey).2.1 hcreated
  · intro e he f hf hkey hlt
    obtain he | he := List.mem_append.mp he <;> obtain hf | hf := List.mem_append.mp hf
    · exact h.apart e he f hf hkey hlt
    · rw [List.mem_singleton.mp hf] at hkey hlt ⊢
      obtain ⟨htime, hwindow⟩ := (hb.earlier e he hkey).2.2 hlt
      exact ⟨htime, by rw [hkey]; exact hwindow⟩
    · rw [List.mem_singleton.mp he] at hkey hlt
      have hle := (hb.earlier f hf hkey.symm).1
      exact absurd hlt (not_lt.mpr hle)
    · rw [List.mem_singleton.mp he, List.mem_singleton.mp hf] at hlt
      exact absurd hlt (lt_irrefl _)
  · intro e he
    obtain he | he := List.mem_append.mp he
    · by_cases hkey : e.key = key
      · obtain ⟨hle, hvalue, hapart⟩ := hb.earlier e he hkey
        refine ⟨c, by rw [hkey]; exact Function.update_self .., hle, fun heq => (hvalue heq).le, ?_⟩
        rw [hkey]
        exact hapart
      · obtain ⟨c', hc', hrest⟩ := h.current e he
        refine ⟨c', ?_, hrest⟩
        rw [← hc']
        exact Function.update_of_ne hkey _ _
    · rw [List.mem_singleton.mp he]
      exact ⟨c, Function.update_self .., le_refl _, fun _ => le_refl _, fun hlt => absurd hlt (lt_irrefl _)⟩
  · intro k c' hc'
    change Function.update s.stored key (some c) k = some c' at hc'
    by_cases hkey : k = key
    · subst hkey
      rw [Function.update_self] at hc'
      cases hc'
      exact ⟨hb.created, hb.expiry⟩
    · rw [Function.update_of_ne hkey] at hc'
      exact h.expiry k c' hc'

/-- Setting the expiry, with the window of the key or a longer one, at any time. -/
theorem Separated.expire (h : Separated window s) {key : κ} {ms : ℕ} (hms : window key ≤ ms) :
    Separated window (s.expire key ms) := by
  unfold Counters.expire
  split
  · rename_i c hl
    obtain ⟨hstored, _⟩ := live_eq_some.mp hl
    obtain ⟨hcreated, _⟩ := h.expiry key c hstored
    refine ⟨h.past, h.distinct, h.apart, ?_, ?_⟩
    · intro e he
      obtain ⟨c', hc', hrest⟩ := h.current e he
      by_cases hkey : e.key = key
      · rw [hkey] at hc'
        cases hstored.symm.trans hc'
        refine ⟨{ c with expiresAt := some (s.clock + ms) }, ?_, hrest⟩
        rw [hkey]
        exact Function.update_self ..
      · refine ⟨c', ?_, hrest⟩
        rw [← hc']
        exact Function.update_of_ne hkey _ _
    · intro k c' hc'
      change Function.update s.stored key _ k = some c' at hc'
      by_cases hkey : k = key
      · subst hkey
        rw [Function.update_self] at hc'
        cases hc'
        refine ⟨hcreated, ?_⟩
        rintro x ⟨⟩
        exact Nat.add_le_add hcreated hms
      · rw [Function.update_of_ne hkey] at hc'
        exact h.expiry k c' hc'
  · exact h

end Invariant

section Window

variable {window : κ → ℕ} {s : Counters κ}

/-- The counts of a key in one window come from at most two counters. -/
theorem createdAt_card_le_two {l : List (Count κ)} {key : κ} {t : ℕ}
    (happart : ∀ e ∈ l, ∀ f ∈ l, e.createdAt < f.createdAt → Apart window e f)
    (hpast : ∀ e ∈ l, e.createdAt ≤ e.time)
    (hin : ∀ e ∈ l, e.key = key ∧ t ≤ e.time ∧ e.time < t + window key) :
    (l.map Count.createdAt).toFinset.card ≤ 2 := by
  by_contra hcard
  push Not at hcard
  obtain ⟨x, y, z, hx, hy, hz, hxy, hxz, hyz⟩ := Finset.two_lt_card_iff.mp hcard
  have hmem : ∀ {u}, u ∈ (l.map Count.createdAt).toFinset → ∃ e ∈ l, e.createdAt = u := by
    intro u hu
    exact List.mem_map.mp (List.mem_toFinset.mp hu)
  -- of three counters the middle one starts within a window of the last, after the counts
  -- of the first
  have hthree : ∀ u ∈ (l.map Count.createdAt).toFinset, ∀ v ∈ (l.map Count.createdAt).toFinset,
      ∀ w ∈ (l.map Count.createdAt).toFinset, u < v → v < w → False := by
    intro u hu v hv w hw huv hvw
    obtain ⟨e, he, rfl⟩ := hmem hu
    obtain ⟨f, hf, rfl⟩ := hmem hv
    obtain ⟨g, hg, rfl⟩ := hmem hw
    have hfirst := (happart e he f hf huv).time
    have hlast := (happart f hf g hg hvw).window
    obtain ⟨_, hstart, _⟩ := hin e he
    obtain ⟨hkey, _, _⟩ := hin f hf
    obtain ⟨_, _, hend⟩ := hin g hg
    have hcreated := hpast g hg
    rw [hkey] at hlast
    omega
  obtain hlt₁ | hlt₁ := lt_or_gt_of_ne hxy <;> obtain hlt₂ | hlt₂ := lt_or_gt_of_ne hyz <;>
    obtain hlt₃ | hlt₃ := lt_or_gt_of_ne hxz
  · exact hthree x hx y hy z hz hlt₁ hlt₂
  · omega
  · exact hthree x hx z hz y hy hlt₃ hlt₂
  · exact hthree z hz x hx y hy hlt₃ hlt₁
  · exact hthree y hy x hx z hz hlt₁ hlt₃
  · exact hthree y hy z hz x hx hlt₂ hlt₃
  · omega
  · exact hthree z hz y hy x hx hlt₂ hlt₁

/-- In a window of a key at most twice the limit of its counts stay within the limit. -/
theorem Separated.within [DecidableEq κ] (h : Separated window s) (key : κ) (limit t : ℕ) :
    (s.counted.filter (fun e => e.key = key ∧ (t ≤ e.time ∧ e.time < t + window key) ∧
      e.value ≤ limit)).length ≤ 2 * limit := by
  generalize hl : s.counted.filter (fun e => e.key = key ∧ (t ≤ e.time ∧ e.time < t + window key) ∧
    e.value ≤ limit) = l
  have hmem : ∀ e ∈ l, e ∈ s.counted ∧ e.key = key ∧ (t ≤ e.time ∧ e.time < t + window key) ∧
      e.value ≤ limit := by
    intro e he
    rw [← hl, List.mem_filter, decide_eq_true_eq] at he
    exact he
  have hcard : (l.map Count.createdAt).toFinset.card ≤ 2 := by
    apply createdAt_card_le_two (t := t)
    · intro e he f hf hlt
      exact h.apart e (hmem e he).1 f (hmem f hf).1 ((hmem e he).2.1.trans (hmem f hf).2.1.symm) hlt
    · exact fun e he => (h.past e (hmem e he).1).1
    · exact fun e he => ⟨(hmem e he).2.1, (hmem e he).2.2.1⟩
  have hdistinct : l.Pairwise (fun e f => e.key = f.key → e.createdAt = f.createdAt →
      e.value < f.value) := by
    rw [← hl]
    exact h.distinct.filter _
  have hnodup : (l.map (fun e => (e.createdAt, e.value))).Nodup := by
    rw [List.nodup_iff_pairwise_ne, List.pairwise_map]
    refine hdistinct.imp_of_mem ?_
    intro e f he hf hlt heq
    obtain ⟨hcreated, hvalue⟩ := Prod.mk.injEq .. ▸ heq
    have hkey := (hmem e he).2.1.trans (hmem f hf).2.1.symm
    exact absurd hvalue (hlt hkey hcreated).ne
  have hsub : (l.map (fun e => (e.createdAt, e.value))).toFinset ⊆
      (l.map Count.createdAt).toFinset ×ˢ Finset.Icc 1 limit := by
    intro p hp
    obtain ⟨e, he, rfl⟩ := List.mem_map.mp (List.mem_toFinset.mp hp)
    refine Finset.mem_product.mpr ⟨List.mem_toFinset.mpr (List.mem_map_of_mem he), ?_⟩
    exact Finset.mem_Icc.mpr ⟨(h.past e (hmem e he).1).2.2, (hmem e he).2.2.2⟩
  calc l.length = (l.map (fun e => (e.createdAt, e.value))).toFinset.card := by
        rw [List.toFinset_card_of_nodup hnodup, List.length_map]
    _ ≤ ((l.map Count.createdAt).toFinset ×ˢ Finset.Icc 1 limit).card := Finset.card_le_card hsub
    _ = (l.map Count.createdAt).toFinset.card * limit := by
        rw [Finset.card_product, Nat.card_Icc, Nat.add_sub_cancel]
    _ ≤ 2 * limit := Nat.mul_le_mul_right limit hcard

end Window

end Bitmine.Lib.FixedWindow
