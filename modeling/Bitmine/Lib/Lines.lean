import Mathlib.Data.List.Basic

namespace Bitmine.Lib.Lines

variable {α : Type} [DecidableEq α] (sep : α)

def split : List α → List (List α) × List α
  | [] => ([], [])
  | a :: as =>
    if a = sep then ([] :: (split as).1, (split as).2)
    else
      match split as with
      | ([], tail) => ([], a :: tail)
      | (line :: lines, tail) => ((a :: line) :: lines, tail)

variable {a b line tail : List α} {lines : List (List α)}

def join (lines : List (List α)) (tail : List α) : List α := lines.flatMap (· ++ [sep]) ++ tail

variable {sep}

omit [DecidableEq α] in
@[simp] theorem join_cons : join sep (line :: lines) tail = line ++ sep :: join sep lines tail := by
  simp [join]

variable (sep) in
theorem join_split (s : List α) : join sep (split sep s).1 (split sep s).2 = s := by
  induction s with
  | nil => rfl
  | cons x s ih =>
    rw [split]
    by_cases hx : x = sep
    · subst hx
      rw [if_pos rfl, join_cons, ih]
      rfl
    · rw [if_neg hx]
      cases h : split sep s with
      | mk ls t =>
        rw [h] at ih
        cases ls with
        | nil => simpa [join] using ih
        | cons l ls => simpa using ih

variable (sep) in
theorem split_free (s : List α) :
    (∀ l ∈ (split sep s).1, sep ∉ l) ∧ sep ∉ (split sep s).2 := by
  induction s with
  | nil => simp [split]
  | cons x s ih =>
    obtain ⟨hlines, htail⟩ := ih
    rw [split]
    by_cases hx : x = sep
    · rw [if_pos hx]
      exact ⟨List.forall_mem_cons.mpr ⟨by simp, hlines⟩, htail⟩
    · rw [if_neg hx]
      cases h : split sep s with
      | mk ls t =>
        rw [h] at hlines htail
        cases ls with
        | nil => exact ⟨by simp, by simpa [Ne.symm hx] using htail⟩
        | cons l ls =>
          obtain ⟨hl, hls⟩ := List.forall_mem_cons.mp hlines
          exact ⟨List.forall_mem_cons.mpr ⟨by simpa [Ne.symm hx] using hl, hls⟩, htail⟩

theorem split_of_free (h : sep ∉ tail) : split sep tail = ([], tail) := by
  induction tail with
  | nil => rfl
  | cons x t ih =>
    obtain ⟨hx, ht⟩ := not_or.mp (fun hm => h (List.mem_cons.mpr hm))
    rw [split, if_neg (Ne.symm hx), ih ht]

theorem split_line (h : sep ∉ line) (s : List α) :
    split sep (line ++ sep :: s) = (line :: (split sep s).1, (split sep s).2) := by
  induction line with
  | nil => simp [split]
  | cons x l ih =>
    obtain ⟨hx, hl⟩ := not_or.mp (fun hm => h (List.mem_cons.mpr hm))
    rw [List.cons_append, split, if_neg (Ne.symm hx), ih hl]

theorem split_join (hlines : ∀ l ∈ lines, sep ∉ l) (htail : sep ∉ tail) :
    split sep (join sep lines tail) = (lines, tail) := by
  induction lines with
  | nil => exact split_of_free htail
  | cons l ls ih =>
    obtain ⟨hl, hls⟩ := List.forall_mem_cons.mp hlines
    rw [join_cons, split_line hl, ih hls]

omit [DecidableEq α] in
theorem join_append (ls ls' : List (List α)) (t : List α) :
    join sep (ls ++ ls') t = join sep ls (join sep ls' t) := by
  simp [join, List.flatMap_append]

variable (sep) in
theorem split_append (a b : List α) : split sep (a ++ b) =
    ((split sep a).1 ++ (split sep ((split sep a).2 ++ b)).1,
      (split sep ((split sep a).2 ++ b)).2) := by
  obtain ⟨hlines, _⟩ := split_free sep a
  obtain ⟨hlines', htail'⟩ := split_free sep ((split sep a).2 ++ b)
  have hjoin : a ++ b = join sep ((split sep a).1 ++ (split sep ((split sep a).2 ++ b)).1)
      (split sep ((split sep a).2 ++ b)).2 := by
    rw [join_append, join_split, join, ← List.append_assoc]
    exact congrArg (· ++ b) (join_split sep a).symm
  conv_lhs => rw [hjoin]
  refine split_join (fun l hl => ?_) htail'
  exact (List.mem_append.mp hl).elim (hlines l) (hlines' l)

/-- An unfinished part is where the next one, or the unfinished part at the end, begins. -/
theorem split_open (h : sep ∉ a) (b : List α) :
    (∃ l ls, (split sep (a ++ b)).1 = l :: ls ∧ a <+: l) ∨
      (split sep (a ++ b)).1 = [] ∧ a <+: (split sep (a ++ b)).2 := by
  have hjoin := join_split sep (a ++ b)
  have hfree := split_free sep (a ++ b)
  cases hs : split sep (a ++ b) with
  | mk ls t =>
    rw [hs] at hjoin
    cases ls with
    | nil => exact .inr ⟨rfl, b, by simpa [join] using hjoin.symm⟩
    | cons l ls =>
      refine .inl ⟨l, ls, rfl, ?_⟩
      have hpre : a <+: l ++ sep :: join sep ls t := ⟨b, by rw [← hjoin, join_cons]⟩
      obtain hle | hle := Nat.le_total a.length l.length
      · exact List.prefix_of_prefix_length_le hpre (List.prefix_append _ _) hle
      · -- the separator after the line would stand in the unfinished part
        obtain heq | hlt := Nat.eq_or_lt_of_le hle
        · exact List.prefix_of_prefix_length_le hpre (List.prefix_append _ _) (Nat.le_of_eq heq.symm)
        · exfalso
          have hline : l ++ [sep] <+: a := by
            refine List.prefix_of_prefix_length_le ?_ hpre ?_
            · exact ⟨join sep ls t, by simp⟩
            · simpa using Nat.succ_le_of_lt hlt
          exact h (hline.subset (by simp))

end Bitmine.Lib.Lines
