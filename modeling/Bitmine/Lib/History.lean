import Mathlib

namespace Bitmine.Lib.History

variable {α : Type}

def Justified (Φ : List α → α → Prop) (l : List α) : Prop :=
  ∀ l₁ a l₂, l = l₁ ++ a :: l₂ → Φ l₁ a

theorem justified_nil (Φ : List α → α → Prop) : Justified Φ [] := by
  intro l₁ a l₂ h
  simp at h

theorem Justified.snoc {Φ : List α → α → Prop} {l : List α} {a : α} (h : Justified Φ l)
    (ha : Φ l a) : Justified Φ (l ++ [a]) := by
  intro l₁ b l₂ he
  obtain rfl | ⟨l₃, c, rfl⟩ := l₂.eq_nil_or_concat'
  · obtain ⟨rfl, hb⟩ := List.append_inj' he rfl
    cases hb
    exact ha
  · have he' : l ++ [a] = (l₁ ++ b :: l₃) ++ [c] := by simpa using he
    obtain ⟨hl, _⟩ := List.append_inj' he' rfl
    exact h l₁ b l₃ hl

theorem Justified.of_append {Φ : List α → α → Prop} {l l' : List α} (h : Justified Φ (l ++ l')) :
    Justified Φ l := by
  rintro l₁ a l₂ rfl
  exact h l₁ a (l₂ ++ l') (by simp)

theorem Justified.mem {Φ : List α → α → Prop} {l : List α} {a : α} (h : Justified Φ l)
    (ha : a ∈ l) : ∃ l₁ l₂, l = l₁ ++ a :: l₂ ∧ Φ l₁ a := by
  obtain ⟨l₁, l₂, he⟩ := List.append_of_mem ha
  exact ⟨l₁, l₂, he, h l₁ a l₂ he⟩

theorem before_or_before {l : List α} {a b : α} (ha : a ∈ l) (hb : b ∈ l) (hne : a ≠ b) :
    (∃ l₁ l₂, l = l₁ ++ b :: l₂ ∧ a ∈ l₁) ∨ ∃ l₁ l₂, l = l₁ ++ a :: l₂ ∧ b ∈ l₁ := by
  obtain ⟨l₁, l₂, rfl⟩ := List.append_of_mem ha
  obtain hb | hb := List.mem_append.mp hb
  · exact .inr ⟨l₁, l₂, rfl, hb⟩
  · obtain ⟨l₃, l₄, rfl⟩ := List.append_of_mem ((List.mem_cons.mp hb).resolve_left (Ne.symm hne))
    exact .inl ⟨l₁ ++ a :: l₃, l₄, by simp, by simp⟩

theorem first_unique {P : α → Prop} {l₁ l₂ l₁' l₂' : List α} {a a' : α}
    (he : l₁ ++ a :: l₂ = l₁' ++ a' :: l₂') (ha : P a) (ha' : P a') (h : ∀ b ∈ l₁, ¬ P b)
    (h' : ∀ b ∈ l₁', ¬ P b) : l₁ = l₁' ∧ a = a' ∧ l₂ = l₂' := by
  induction l₁ generalizing l₁' with
  | nil =>
    cases l₁' with
    | nil =>
      obtain ⟨rfl, rfl⟩ := List.cons.inj he
      exact ⟨rfl, rfl, rfl⟩
    | cons b l₁' =>
      obtain ⟨rfl, _⟩ := List.cons.inj he
      exact absurd ha (h' a (by simp))
  | cons b l₁ ih =>
    cases l₁' with
    | nil =>
      obtain ⟨rfl, _⟩ := List.cons.inj he
      exact absurd ha' (h b (by simp))
    | cons b' l₁' =>
      obtain ⟨rfl, ht⟩ := List.cons.inj he
      obtain ⟨rfl, ha, hl⟩ := ih ht (fun x hx => h x (by simp [hx])) (fun x hx => h' x (by simp [hx]))
      exact ⟨rfl, ha, hl⟩

/-- What occurs several times occurs in one stretch. -/
def Contiguous (l : List α) : Prop :=
  ∀ l₁ a l₂ l₃, l = l₁ ++ a :: (l₂ ++ a :: l₃) → ∀ b ∈ l₂, b = a

theorem contiguous_nil : Contiguous ([] : List α) := by
  intro l₁ a l₂ l₃ h
  simp at h

theorem Contiguous.of_cons {a : α} {l : List α} (h : Contiguous (a :: l)) : Contiguous l := by
  intro l₁ b l₂ l₃ he
  exact h (a :: l₁) b l₂ l₃ (by rw [he, List.cons_append])

theorem contiguous_cons_self {a : α} {l : List α} :
    Contiguous (a :: a :: l) ↔ Contiguous (a :: l) := by
  refine ⟨Contiguous.of_cons, fun h l₁ b l₂ l₃ he => ?_⟩
  cases l₁ with
  | cons c l₁ =>
    obtain ⟨_, he⟩ := List.cons.inj he
    exact h l₁ b l₂ l₃ he
  | nil =>
    obtain ⟨rfl, he⟩ := List.cons.inj he
    cases l₂ with
    | nil => simp
    | cons c l₂ =>
      obtain ⟨rfl, he⟩ := List.cons.inj he
      have hrest : ∀ b ∈ l₂, b = a := h [] a l₂ l₃ he
      intro b hb
      obtain rfl | hb := List.mem_cons.mp hb
      · rfl
      · exact hrest b hb

theorem contiguous_cons_of_ne {a : α} {l : List α} (hne : l.head? ≠ some a) :
    Contiguous (a :: l) ↔ a ∉ l ∧ Contiguous l := by
  refine ⟨fun h => ⟨fun ha => ?_, h.of_cons⟩, fun ⟨ha, h⟩ l₁ b l₂ l₃ he => ?_⟩
  · obtain ⟨l₂, l₃, rfl⟩ := List.append_of_mem ha
    cases l₂ with
    | nil => exact hne rfl
    | cons b l₂ =>
      have hb : b = a := h [] a (b :: l₂) l₃ rfl b List.mem_cons_self
      exact hne (congrArg some hb)
  · cases l₁ with
    | nil =>
      obtain ⟨rfl, rfl⟩ := List.cons.inj he
      exact absurd (by simp) ha
    | cons c l₁ =>
      obtain ⟨_, he⟩ := List.cons.inj he
      exact h l₁ b l₂ l₃ he

end Bitmine.Lib.History
