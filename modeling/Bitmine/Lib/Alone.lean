import Bitmine.Lib.Await

namespace Bitmine.Lib.Await

variable {σ ρ α ε : Type} {effect : σ → ρ → α → Except String (σ × Option ρ)}

/-- A call that runs alone, one awaited effect after the other, on the answers it
gets; `none` when an effect throws or the answers are not as many as the effects. -/
def alone (effect : σ → ρ → α → Except String (σ × Option ρ)) : σ → Option ρ → List α → Option σ
  | s, none, [] => some s
  | s, some r, a :: as =>
    match effect s r a with
    | .ok (s', o) => alone effect s' o as
    | .error _ => none
  | _, _, _ => none

theorem alone_none {s s' : σ} {as : List α} (h : alone effect s none as = some s') :
    as = [] ∧ s' = s := by
  cases as with
  | nil =>
    cases h
    exact ⟨rfl, rfl⟩
  | cons a as => cases h

theorem alone_some {s s' : σ} {r : ρ} {as : List α} (h : alone effect s (some r) as = some s') :
    ∃ a as' s₁ o, as = a :: as' ∧ effect s r a = .ok (s₁, o) ∧ alone effect s₁ o as' = some s' := by
  cases as with
  | nil => cases h
  | cons a as =>
    rw [alone] at h
    split at h
    · rename_i s₁ o he
      exact ⟨a, as, s₁, o, rfl, he, h⟩
    · cases h

theorem alone_cons {s s₁ : σ} {r : ρ} {o : Option ρ} {a : α} {as : List α}
    (h : effect s r a = .ok (s₁, o)) :
    alone effect s (some r) (a :: as) = alone effect s₁ o as := by
  rw [alone, h]

/-- A call that runs alone is a run in which nobody else takes a step. -/
theorem Machine.alone_exec {m : Machine σ ρ α ε} {pid : ℕ} {as : List α} {c : Config σ ρ} {s : σ}
    (h : alone m.effect c.shared (c.calls pid) as = some s) :
    m.exec c (as.map (.resolve pid)) = some (c.put s pid none) := by
  induction as generalizing c with
  | nil =>
    cases hr : c.calls pid with
    | none =>
      rw [hr] at h
      cases h
      have hcalls : Function.update c.calls pid none = c.calls := by
        rw [← hr, Function.update_eq_self]
      rw [Config.put, hcalls]
      rfl
    | some r =>
      rw [hr] at h
      cases h
  | cons a as ih =>
    cases hr : c.calls pid with
    | none =>
      rw [hr] at h
      cases h
    | some r =>
      rw [hr] at h
      obtain ⟨_, _, s₁, o, hcons, he, hrest⟩ := alone_some h
      cases hcons
      have hnext : m.next c (.resolve pid a) = some (c.put s₁ pid o) := by
        simp only [Machine.next, hr, Option.map_some, he]
      have hput : (c.put s₁ pid o).calls pid = o := Function.update_self _ _ _
      have hexec := ih (c := c.put s₁ pid o) (by rw [hput]; exact hrest)
      rw [List.map_cons, Machine.exec, List.foldlM_cons, hnext]
      apply hexec.trans
      simp only [Config.put, Function.update_idem]

end Bitmine.Lib.Await
