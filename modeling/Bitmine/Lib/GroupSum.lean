import Mathlib

namespace Bitmine.Lib.GroupSum

variable {α κ V : Type} [DecidableEq κ]

structure Order (α : Type) where
  arrange : List α → List α
  perm : ∀ l, (arrange l).Perm l

def Order.asStored : Order α := ⟨id, fun l => List.Perm.refl l⟩

section Definitions

variable [Add V]

def bump : List (κ × V) → κ → V → List (κ × V)
  | [], k, v => [(k, v)]
  | (k', v') :: m, k, v => if k' = k then (k', v' + v) :: m else (k', v') :: bump m k v

def groupSum (key : α → κ) (val : α → V) (rows : List α) : List (κ × V) :=
  rows.foldl (fun m r => bump m (key r) (val r)) []

theorem groupSum_map {key : α → κ} {val : α → V} {f : α → α} {rows : List α}
    (hk : ∀ r ∈ rows, key (f r) = key r) (hv : ∀ r ∈ rows, val (f r) = val r) :
    groupSum key val (rows.map f) = groupSum key val rows := by
  rw [groupSum]
  rw [List.foldl_map]
  refine List.foldl_ext _ _ _ (fun m r hr => ?_)
  rw [hk r hr, hv r hr]

end Definitions

variable [AddCommMonoid V]

def sumAt (key : α → κ) (val : α → V) (k : κ) (rows : List α) : V :=
  ((rows.filter (fun r => key r = k)).map val).sum

@[simp] theorem sumAt_nil (key : α → κ) (val : α → V) (k : κ) : sumAt key val k [] = 0 := rfl

theorem sumAt_append (key : α → κ) (val : α → V) (k : κ) (xs ys : List α) :
    sumAt key val k (xs ++ ys) = sumAt key val k xs + sumAt key val k ys := by
  simp [sumAt]

theorem sumAt_cons (key : α → κ) (val : α → V) (k : κ) (r : α) (rows : List α) :
    sumAt key val k (r :: rows) = (if key r = k then val r else 0) + sumAt key val k rows := by
  by_cases h : key r = k <;> simp [sumAt, h]

theorem sumAt_eq_zero (key : α → κ) (val : α → V) (k : κ) {rows : List α}
    (h : ∀ r ∈ rows, key r ≠ k) : sumAt key val k rows = 0 := by
  have hf : rows.filter (fun r => key r = k) = [] :=
    List.filter_eq_nil_iff.mpr (fun r hr => by simpa using h r hr)
  simp [sumAt, hf]

theorem bump_keys (m : List (κ × V)) (k : κ) (v : V) :
    (bump m k v).map Prod.fst = if k ∈ m.map Prod.fst then m.map Prod.fst else m.map Prod.fst ++ [k] := by
  induction m with
  | nil => simp [bump]
  | cons e m ih =>
    obtain ⟨k', v'⟩ := e
    by_cases hk : k' = k
    · simp [bump, hk]
    · have hk' : ¬ k = k' := fun h => hk h.symm
      simp only [bump, hk, ↓reduceIte, List.map_cons, ih, List.mem_cons, hk', false_or]
      split <;> simp

theorem bump_nodup (m : List (κ × V)) (k : κ) (v : V) (h : (m.map Prod.fst).Nodup) :
    ((bump m k v).map Prod.fst).Nodup := by
  rw [bump_keys]
  split
  · exact h
  · rename_i hk
    exact List.nodup_append.mpr ⟨h, by simp, by simpa using fun a x hx he => hk (by
      rw [← he]; exact List.mem_map_of_mem (f := Prod.fst) hx)⟩

theorem sumAt_bump (m : List (κ × V)) (k k₀ : κ) (v : V) :
    sumAt Prod.fst Prod.snd k₀ (bump m k v) =
      sumAt Prod.fst Prod.snd k₀ m + if k = k₀ then v else 0 := by
  induction m with
  | nil => simp [bump, sumAt_cons]
  | cons e m ih =>
    obtain ⟨k', v'⟩ := e
    by_cases hk : k' = k
    · subst k'
      by_cases h0 : k = k₀ <;> simp [bump, sumAt_cons, h0, add_assoc, add_comm]
    · simp [bump, hk, sumAt_cons, ih, add_assoc]

theorem sum_bump {W : Type} [AddCommMonoid W] (φ : κ → V →+ W) (m : List (κ × V)) (k : κ) (v : V) :
    ((bump m k v).map (fun e => φ e.1 e.2)).sum = (m.map (fun e => φ e.1 e.2)).sum + φ k v := by
  induction m with
  | nil => simp [bump]
  | cons e m ih =>
    obtain ⟨k', v'⟩ := e
    by_cases hk : k' = k
    · subst k'
      simp [bump, add_assoc, add_comm (φ k v)]
    · simp [bump, hk, ih, add_assoc]

/-- Keys stay distinct and every key keeps its own total. The accumulator
carries the groups opened so far. -/
theorem foldl_bump (key : α → κ) (val : α → V) (rows : List α) (m : List (κ × V))
    (hm : (m.map Prod.fst).Nodup) :
    let g := rows.foldl (fun m r => bump m (key r) (val r)) m
    (g.map Prod.fst).Nodup ∧
    (∀ k, k ∈ g.map Prod.fst ↔ k ∈ m.map Prod.fst ∨ ∃ r ∈ rows, key r = k) ∧
    (∀ k, sumAt Prod.fst Prod.snd k g = sumAt Prod.fst Prod.snd k m + sumAt key val k rows) := by
  induction rows generalizing m with
  | nil => simp [hm]
  | cons r rows ih =>
    obtain ⟨hn, hk, hs⟩ := ih (bump m (key r) (val r)) (bump_nodup m _ _ hm)
    refine ⟨hn, fun k => ?_, fun k => ?_⟩
    · rw [List.foldl_cons, hk k, bump_keys]
      by_cases hr : key r ∈ m.map Prod.fst
      · rw [if_pos hr]
        constructor
        · rintro (h | ⟨x, hx, he⟩)
          · exact .inl h
          · exact .inr ⟨x, by simp [hx], he⟩
        · rintro (h | ⟨x, hx, he⟩)
          · exact .inl h
          · rcases List.mem_cons.mp hx with rfl | hx
            · exact .inl (he ▸ hr)
            · exact .inr ⟨x, hx, he⟩
      · rw [if_neg hr, List.mem_append, List.mem_singleton]
        constructor
        · rintro ((h | rfl) | ⟨x, hx, he⟩)
          · exact .inl h
          · exact .inr ⟨r, by simp, rfl⟩
          · exact .inr ⟨x, by simp [hx], he⟩
        · rintro (h | ⟨x, hx, he⟩)
          · exact .inl (.inl h)
          · rcases List.mem_cons.mp hx with rfl | hx
            · exact .inl (.inr he.symm)
            · exact .inr ⟨x, hx, he⟩
    · rw [List.foldl_cons, hs k, sumAt_bump, sumAt_cons, add_assoc]

variable (key : α → κ) (val : α → V) (rows : List α)

theorem groupSum_nodup : ((groupSum key val rows).map Prod.fst).Nodup :=
  (foldl_bump key val rows [] (by simp)).1

theorem sum_groupSum {W : Type} [AddCommMonoid W] (φ : κ → V →+ W) :
    ((groupSum key val rows).map (fun e => φ e.1 e.2)).sum =
      (rows.map (fun r => φ (key r) (val r))).sum := by
  have h : ∀ m : List (κ × V),
      ((rows.foldl (fun m r => bump m (key r) (val r)) m).map (fun e => φ e.1 e.2)).sum =
        (m.map (fun e => φ e.1 e.2)).sum + (rows.map (fun r => φ (key r) (val r))).sum := by
    induction rows with
    | nil => simp
    | cons r rows ih =>
      intro m
      rw [List.foldl_cons, ih, sum_bump, List.map_cons, List.sum_cons, add_assoc]
  simpa [groupSum] using h []

theorem sumAt_groupSum (k : κ) :
    sumAt Prod.fst Prod.snd k (groupSum key val rows) = sumAt key val k rows := by
  have h := (foldl_bump key val rows [] (by simp)).2.2 k
  simpa [groupSum] using h

theorem sumAt_of_mem {m : List (κ × V)} (hm : (m.map Prod.fst).Nodup) {e : κ × V} (he : e ∈ m) :
    sumAt Prod.fst Prod.snd e.1 m = e.2 := by
  induction m with
  | nil => simp at he
  | cons x m ih =>
    obtain ⟨hx, hn⟩ := List.nodup_cons.mp (by simpa using hm : (x.1 :: m.map Prod.fst).Nodup)
    rcases List.mem_cons.mp he with rfl | he
    · have hz : sumAt Prod.fst Prod.snd e.1 m = 0 := by
        refine sumAt_eq_zero _ _ _ (fun r hr h => hx ?_)
        rw [← h]; exact List.mem_map_of_mem hr
      rw [sumAt_cons, if_pos rfl, hz, add_zero]
    · have hne : x.1 ≠ e.1 := fun h => hx (by rw [h]; exact List.mem_map_of_mem he)
      rw [sumAt_cons, if_neg hne, zero_add, ih hn he]

theorem groupSum_total {e : κ × V} (he : e ∈ groupSum key val rows) :
    e.2 = sumAt key val e.1 rows := by
  rw [← sumAt_groupSum, sumAt_of_mem (groupSum_nodup key val rows) he]

theorem find?_groupSum (k : κ) :
    (((groupSum key val rows).find? (fun e => e.1 = k)).map Prod.snd).getD 0 =
      sumAt key val k rows := by
  cases hf : (groupSum key val rows).find? (fun e => e.1 = k) with
  | none =>
    rw [← sumAt_groupSum, sumAt_eq_zero]
    · rfl
    · intro e he
      simpa using List.find?_eq_none.mp hf e he
  | some e =>
    have hk : e.1 = k := by simpa using List.find?_some hf
    subst hk
    exact groupSum_total key val rows (List.mem_of_find?_eq_some hf)

theorem sum_indicator {keys : List κ} (hn : keys.Nodup) (k : κ) (v : V) :
    (keys.map (fun x => if k = x then v else 0)).sum = if k ∈ keys then v else 0 := by
  induction keys with
  | nil => simp
  | cons x keys ih =>
    obtain ⟨hx, ht⟩ := List.nodup_cons.mp hn
    by_cases he : k = x
    · subst x
      simp [ih ht, hx]
    · simp [he, ih ht]

/-- Totals over a duplicate-free list of keys that covers the rows add up to the grand total. -/
theorem sum_sumAt (keys : List κ) (hn : keys.Nodup) (hc : ∀ r ∈ rows, key r ∈ keys) :
    (keys.map (fun k => sumAt key val k rows)).sum = (rows.map val).sum := by
  induction rows with
  | nil => simp
  | cons r rows ih =>
    have hi := ih (fun x hx => hc x (by simp [hx]))
    have hone := (sum_indicator hn (key r) (val r)).trans (if_pos (hc r (by simp)))
    simp only [sumAt_cons, List.sum_map_add, hi, hone, List.map_cons, List.sum_cons]

theorem sum_filter (p : α → Bool) (g : α → V) (l : List α) :
    ((l.filter p).map g).sum = (l.map (fun x => if p x then g x else 0)).sum := by
  induction l with
  | nil => rfl
  | cons x l ih => by_cases hp : p x <;> simp [hp, ih]

/-- Two lists over the same distinct keys have the same sum when they agree at every key. -/
theorem sum_eq_of_keys {β : Type} {key : α → κ} {key' : β → κ} {f : α → V} {g : β → V}
    {xs : List α} {ys : List β} (hperm : (xs.map key).Perm (ys.map key'))
    (hnodup : (ys.map key').Nodup)
    (hfg : ∀ x ∈ xs, ∀ y ∈ ys, key x = key' y → f x = g y) :
    (xs.map f).sum = (ys.map g).sum := by
  let φ : κ → V := fun k => ((ys.find? (fun y => key' y = k)).map g).getD 0
  have hys : ∀ y ∈ ys, φ (key' y) = g y := by
    intro y hy
    cases hfind : ys.find? (fun z => key' z = key' y) with
    | none => exact absurd rfl (of_decide_eq_false (Bool.eq_false_of_not_eq_true
        (List.find?_eq_none.mp hfind y hy)))
    | some z =>
      have hkey : key' z = key' y := by simpa using List.find?_some hfind
      have hz := List.inj_on_of_nodup_map hnodup (List.mem_of_find?_eq_some hfind) hy hkey
      simp only [φ, hfind, hz, Option.map_some, Option.getD_some]
  have hxs : ∀ x ∈ xs, φ (key x) = f x := by
    intro x hx
    obtain ⟨y, hy, hkey⟩ := List.mem_map.mp (hperm.mem_iff.mp (List.mem_map_of_mem hx))
    rw [hfg x hx y hy hkey.symm, ← hkey, hys y hy]
  calc (xs.map f).sum = ((xs.map key).map φ).sum := by
        rw [List.map_map]
        exact congrArg List.sum (List.map_congr_left (fun x hx => (hxs x hx).symm))
    _ = ((ys.map key').map φ).sum := (hperm.map φ).sum_eq
    _ = (ys.map g).sum := by
        rw [List.map_map]
        exact congrArg List.sum (List.map_congr_left hys)

end Bitmine.Lib.GroupSum
