import Bitmine.Lib.Await

namespace Bitmine.Lib.Watch

open Bitmine.Lib.Await

variable {σ ρ α ε γ : Type}

/-- A machine that keeps notes of its effects beside its state. No effect reads them. -/
def watched (m : Machine σ ρ α ε) (note : σ → ρ → α → γ → γ) : Machine (σ × γ) ρ α ε where
  entry := m.entry
  effect s r a := (m.effect s.1 r a).map (fun p => ((p.1, note s.1 r a s.2), p.2))
  handler := m.handler
  background s := m.background s.1
  event s e := (m.event s.1 e, s.2)

def noted (c : Config σ ρ) (g : γ) : Config (σ × γ) ρ := ⟨(c.shared, g), c.calls⟩

def plain (c : Config (σ × γ) ρ) : Config σ ρ := ⟨c.shared.1, c.calls⟩

variable {m : Machine σ ρ α ε} {note : σ → ρ → α → γ → γ}

theorem watched_effect_ok {s s' : σ × γ} {r : ρ} {a : α} {o : Option ρ}
    (h : (watched m note).effect s r a = .ok (s', o)) :
    m.effect s.1 r a = .ok (s'.1, o) ∧ s'.2 = note s.1 r a s.2 := by
  simp only [watched] at h
  cases he : m.effect s.1 r a with
  | error e =>
    rw [he] at h
    cases h
  | ok p =>
    rw [he] at h
    cases h
    exact ⟨rfl, rfl⟩

/-- Whatever a machine does, it does with notes. -/
theorem next_noted {c d : Config σ ρ} {act : Action ρ α ε} (h : m.next c act = some d) (g : γ) :
    ∃ g', (watched m note).next (noted c g) act = some (noted d g') := by
  cases act with
  | event e =>
    cases h
    exact ⟨g, rfl⟩
  | call pid r =>
    simp only [Machine.next] at h
    split at h <;> cases h
    rename_i hc
    exact ⟨g, if_pos hc⟩
  | resolve pid a =>
    obtain ⟨r, hr, rfl⟩ := Option.map_eq_some_iff.mp h
    cases he : m.effect c.shared r a with
    | ok p =>
      refine ⟨note c.shared r a g, ?_⟩
      simp [Machine.next, noted, watched, Config.put, hr, he, Except.map]
    | error e =>
      refine ⟨g, ?_⟩
      simp [Machine.next, noted, watched, Config.put, hr, he, Except.map]
  | rejectAfter pid a e =>
    obtain ⟨r, hr, rfl⟩ := Option.map_eq_some_iff.mp h
    cases he : m.effect c.shared r a with
    | ok p =>
      refine ⟨note c.shared r a g, ?_⟩
      simp [Machine.next, noted, watched, Config.put, hr, he, Except.map]
    | error e =>
      refine ⟨g, ?_⟩
      simp [Machine.next, noted, watched, Config.put, hr, he, Except.map]
  | reject pid | background pid | stop pid =>
    obtain ⟨r, hr, rfl⟩ := Option.map_eq_some_iff.mp h
    refine ⟨g, ?_⟩
    simp [Machine.next, noted, watched, Config.put, hr]

theorem run_noted {ok : Config σ ρ → Action ρ α ε → Prop} {c d : Config σ ρ} (h : m.Run ok c d)
    (g : γ) : ∃ g', (watched m note).Run (fun c => ok (plain c)) (noted c g) (noted d g') := by
  induction h with
  | refl => exact ⟨g, .refl _⟩
  | step _ ha hn ih =>
    obtain ⟨g₁, hrun⟩ := ih
    obtain ⟨g₂, hnext⟩ := next_noted hn g₁
    exact ⟨g₂, hrun.step ha hnext⟩

end Bitmine.Lib.Watch
