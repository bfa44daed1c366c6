import Mathlib.Data.List.Infix
import Mathlib.Data.Nat.Find

namespace Bitmine.Lib.IndexOf

variable {α : Type} [DecidableEq α]

def indexOf (pat : List α) : List α → Option ℕ
  | [] => if pat = [] then some 0 else none
  | a :: as => if pat.isPrefixOf (a :: as) then some 0 else (indexOf pat as).map (· + 1)

/-- The first occurrence of a pattern, with what stands before and behind it. -/
structure FirstAt (pat l front back : List α) : Prop where
  split : l = front ++ (pat ++ back)
  first : ∀ b a, l = b ++ (pat ++ a) → front.length ≤ b.length

variable {pat l m front back : List α} {i : ℕ}

theorem indexOf_length (h : indexOf pat l = some i) : i + pat.length ≤ l.length := by
  induction l generalizing i with
  | nil =>
    simp only [indexOf] at h
    split at h
    · rename_i hpat
      cases h
      simp [hpat]
    · cases h
  | cons a as ih =>
    simp only [indexOf] at h
    split at h
    · rename_i hpat
      cases h
      rw [Nat.zero_add]
      exact (List.isPrefixOf_iff_prefix.mp hpat).length_le
    · obtain ⟨j, hj, rfl⟩ := Option.map_eq_some_iff.mp h
      have hlen := ih hj
      rw [List.length_cons]
      omega

theorem isInfix_of_indexOf (h : indexOf pat l = some i) : pat <:+: l := by
  induction l generalizing i with
  | nil =>
    simp only [indexOf] at h
    split at h
    · rename_i hpat
      rw [hpat]
    · cases h
  | cons a as ih =>
    simp only [indexOf] at h
    split at h
    · rename_i hpat
      exact (List.isPrefixOf_iff_prefix.mp hpat).isInfix
    · obtain ⟨j, hj, rfl⟩ := Option.map_eq_some_iff.mp h
      exact (ih hj).trans (List.suffix_cons a as).isInfix

/-- What is found stays where it is when the list goes on. -/
theorem indexOf_append (h : indexOf pat l = some i) (m : List α) : indexOf pat (l ++ m) = some i := by
  induction l generalizing i with
  | nil =>
    simp only [indexOf] at h
    split at h
    · rename_i hpat
      cases h
      cases m <;> simp [indexOf, hpat]
    · cases h
  | cons a as ih =>
    have hlen := indexOf_length h
    simp only [indexOf] at h
    simp only [List.cons_append, indexOf]
    split at h
    · rename_i hpat
      cases h
      have hlong : pat.isPrefixOf (a :: (as ++ m)) = true :=
        List.isPrefixOf_iff_prefix.mpr ((List.isPrefixOf_iff_prefix.mp hpat).trans (List.prefix_append _ m))
      rw [if_pos hlong]
    · rename_i hpat
      obtain ⟨j, hj, rfl⟩ := Option.map_eq_some_iff.mp h
      have hlong : ¬ pat.isPrefixOf (a :: (as ++ m)) = true := by
        intro hpre
        apply hpat
        apply List.isPrefixOf_iff_prefix.mpr
        exact List.prefix_of_prefix_length_le (List.isPrefixOf_iff_prefix.mp hpre)
          (List.prefix_append (a :: as) m) (by omega)
      rw [if_neg hlong, ih hj]
      rfl

theorem indexOf_of_firstAt (h : FirstAt pat l front back) : indexOf pat l = some front.length := by
  obtain ⟨hsplit, hfirst⟩ := h
  induction front generalizing l with
  | nil =>
    have hpat : pat <+: l := ⟨back, by simpa using hsplit.symm⟩
    cases l with
    | nil => simp [indexOf, List.prefix_nil.mp hpat]
    | cons a as => rw [indexOf, if_pos (List.isPrefixOf_iff_prefix.mpr hpat)]; rfl
  | cons c front ih =>
    subst hsplit
    have hnot : ¬ pat.isPrefixOf (c :: (front ++ (pat ++ back))) = true := by
      intro hpre
      obtain ⟨rest, hrest⟩ := List.isPrefixOf_iff_prefix.mp hpre
      have hle := hfirst [] rest (by simpa using hrest.symm)
      simp at hle
    have hinner := ih rfl (fun b a hb => by
      have hle := hfirst (c :: b) a (by rw [List.cons_append, hb, List.cons_append])
      simpa using hle)
    rw [List.cons_append, indexOf, if_neg hnot, hinner]
    rfl

omit [DecidableEq α] in
theorem exists_firstAt (h : pat <:+: l) : ∃ front back, FirstAt pat l front back := by
  obtain ⟨b, a, hba⟩ := h
  let occurs := fun n => ∃ b a, l = b ++ (pat ++ a) ∧ b.length = n
  have hexists : ∃ n, occurs n := ⟨b.length, b, a, by rw [← hba, List.append_assoc], rfl⟩
  classical
  obtain ⟨front, back, hsplit, hlen⟩ := Nat.find_spec hexists
  refine ⟨front, back, hsplit, fun b a hb => ?_⟩
  rw [hlen]
  exact Nat.find_min' hexists ⟨b, a, hb, rfl⟩

theorem firstAt_of_indexOf (h : indexOf pat l = some i) :
    FirstAt pat l (l.take i) (l.drop (i + pat.length)) := by
  obtain ⟨front, back, hfirst⟩ := exists_firstAt (isInfix_of_indexOf h)
  have hi : i = front.length := by
    rw [indexOf_of_firstAt hfirst] at h
    exact (Option.some.inj h).symm
  have hfront : l.take i = front := by
    rw [hfirst.split, hi, List.take_left]
  have hback : l.drop (i + pat.length) = back := by
    rw [hfirst.split, hi, ← List.append_assoc]
    exact List.drop_left' (by rw [List.length_append])
  rwa [hfront, hback]

theorem indexOf_map {β : Type} [DecidableEq β] {f : α → β} (hf : Function.Injective f) (pat l : List α) :
    indexOf (pat.map f) (l.map f) = indexOf pat l := by
  induction l with
  | nil => simp [indexOf]
  | cons a as ih =>
    have hpre : (pat.map f).isPrefixOf ((a :: as).map f) = pat.isPrefixOf (a :: as) := by
      rw [Bool.eq_iff_iff, List.isPrefixOf_iff_prefix, List.isPrefixOf_iff_prefix]
      exact List.prefix_map_iff_of_injective hf
    rw [List.map_cons] at hpre ⊢
    simp only [indexOf, hpre, ih]

end Bitmine.Lib.IndexOf
