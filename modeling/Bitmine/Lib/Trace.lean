import Mathlib

namespace Bitmine.Lib.Trace

variable {σ ε : Type} {next : σ → ε → σ} {ok : σ → ε → Prop} {s s' : σ}

def Step (next : σ → ε → σ) (ok : σ → ε → Prop) (s s' : σ) : Prop := ∃ e, ok s e ∧ s' = next s e

/-- Any finite sequence of events, each of which meets the condition. -/
def Reach (next : σ → ε → σ) (ok : σ → ε → Prop) : σ → σ → Prop :=
  Relation.ReflTransGen (Step next ok)

theorem Reach.invariant {I : σ → Prop} (hstep : ∀ s e, I s → ok s e → I (next s e))
    (h : Reach next ok s s') (hs : I s) : I s' := by
  induction h with
  | refl => exact hs
  | tail _ he ih =>
    obtain ⟨e, hok, rfl⟩ := he
    exact hstep _ e ih hok

def replay (next : σ → ε → σ) (test : σ → ε → Bool) (s : σ) (es : List ε) : Option σ :=
  es.foldlM (fun s e => if test s e then some (next s e) else none) s

theorem replay_reach {test : σ → ε → Bool} (htest : ∀ s e, test s e = true → ok s e) {es : List ε}
    (h : replay next test s es = some s') : Reach next ok s s' := by
  induction es generalizing s with
  | nil =>
    cases h
    exact .refl
  | cons e es ih =>
    simp only [replay, List.foldlM_cons, Option.bind_eq_bind, Option.bind_eq_some_iff] at h
    obtain ⟨mid, he, hrest⟩ := h
    split at he
    · rename_i ht
      cases he
      exact .head ⟨e, htest s e ht, rfl⟩ (ih hrest)
    · cases he

end Bitmine.Lib.Trace
