import Bitmine.Lib.Throwing

namespace Bitmine.Lib.Dialogue

/-- A program that talks to an environment. It keeps a record of what was said,
on which the answers may depend in any way, also when it fails. -/
def Talk (ε δ α : Type) : Type := List ε → List ε × Except δ α

variable {ε δ α β : Type}

namespace Talk

def attempt (x : Except δ α) : Talk ε δ α := fun log => (log, x)

def andThen (x : Talk ε δ α) (f : α → Talk ε δ β) : Talk ε δ β := fun log =>
  match x log with
  | (log, .ok a) => f a log
  | (log, .error e) => (log, .error e)

instance : Monad (Talk ε δ) where
  pure a := attempt (.ok a)
  bind := andThen

def fail (e : δ) : Talk ε δ α := attempt (.error e)

def ask (answer : List ε → Except δ α) (record : Except δ α → ε) : Talk ε δ α :=
  fun log => (log ++ [record (answer log)], answer log)

def andFinally (x : Talk ε δ α) (cleanup : Talk ε δ β) : Talk ε δ α := fun log =>
  ((cleanup (x log).1).1, (x log).2)

/-- A `catch` clause that passes over some errors. -/
def ignoring (x : Talk ε δ Unit) (ignored : δ → Bool) : Talk ε δ Unit := fun log =>
  match x log with
  | (log, .ok ()) => (log, .ok ())
  | (log, .error e) => (log, if ignored e then .ok () else .error e)

/-- The program succeeds from one record to another. -/
def Succeeds (x : Talk ε δ α) (log log' : List ε) (a : α) : Prop := x log = (log', .ok a)

section Rules

variable {x : Talk ε δ α} {f : α → Talk ε δ β} {log log' : List ε} {a a' : α} {b : β}

theorem succeeds_pure : Succeeds (pure a : Talk ε δ α) log log' a' ↔ log' = log ∧ a = a' := by
  simp [Succeeds, pure, attempt, Prod.ext_iff, eq_comm]

theorem succeeds_attempt {r : Except δ α} :
    Succeeds (attempt r : Talk ε δ α) log log' a ↔ log' = log ∧ r = .ok a := by
  simp [Succeeds, attempt, Prod.ext_iff, eq_comm]

theorem succeeds_fail {e : δ} : ¬ Succeeds (fail e : Talk ε δ α) log log' a := by
  simp [Succeeds, fail, attempt]

theorem succeeds_bind : Succeeds (x >>= f) log log' b ↔
    ∃ mid a, Succeeds x log mid a ∧ Succeeds (f a) mid log' b := by
  simp only [Succeeds, bind, andThen]
  cases hx : x log with
  | mk mid r =>
    cases r with
    | ok a =>
      constructor
      · exact fun h => ⟨mid, a, rfl, h⟩
      · rintro ⟨mid', a', h, h'⟩
        cases h
        exact h'
    | error e =>
      constructor
      · intro h
        cases h
      · rintro ⟨mid', a', h, _⟩
        cases h

theorem succeeds_ask {answer : List ε → Except δ α} {record : Except δ α → ε} :
    Succeeds (ask answer record) log log' a ↔
      answer log = .ok a ∧ log' = log ++ [record (.ok a)] := by
  simp only [Succeeds, ask, Prod.mk.injEq]
  constructor
  · rintro ⟨hlog, ha⟩
    exact ⟨ha, by rw [← hlog, ha]⟩
  · rintro ⟨ha, hlog⟩
    exact ⟨by rw [hlog, ha], ha⟩

theorem succeeds_andFinally {cleanup : Talk ε δ β} :
    Succeeds (x.andFinally cleanup) log log' a ↔
      ∃ mid, Succeeds x log mid a ∧ log' = (cleanup mid).1 := by
  simp only [Succeeds, andFinally, Prod.mk.injEq]
  constructor
  · rintro ⟨hlog, ha⟩
    exact ⟨(x log).1, Prod.ext rfl ha, hlog.symm⟩
  · rintro ⟨mid, hx, hlog⟩
    rw [hx]
    exact ⟨hlog.symm, rfl⟩

theorem ignoring_record {x : Talk ε δ Unit} {ignored : δ → Bool} :
    (x.ignoring ignored log).1 = (x log).1 := by
  rw [ignoring]
  split <;> simp_all

end Rules

end Talk

end Bitmine.Lib.Dialogue
