import Mathlib

namespace Bitmine.Lib.PromiseChain

variable {σ ρ τ β : Type}

inductive Stage (ρ τ : Type) where
  | awaiting (previous own : ℕ) (task : ρ)
  | running (own : ℕ) (point : τ)
  | settled

/-- Tasks that queue up by a chain of promises: each one appends a promise of its
own, awaits the one before it and resolves its own when it settles. -/
structure Queue (σ ρ τ : Type) where
  shared : σ
  tail : ℕ
  promises : List Bool
  calls : List (Stage ρ τ)
  arrived : List ρ

def Queue.start (s : σ) : Queue σ ρ τ := ⟨s, 0, [true], [], []⟩

inductive Event (ρ β : Type) where
  | call (task : ρ)
  | resume (i : ℕ)
  | act (i : ℕ) (b : β)

def Event.isCall : Event ρ β → Bool
  | .call _ => true
  | _ => false

def enqueue (q : Queue σ ρ τ) (task : ρ) : Queue σ ρ τ :=
  { q with
    tail := q.promises.length
    promises := q.promises ++ [false]
    calls := q.calls ++ [.awaiting q.tail q.promises.length task]
    arrived := q.arrived ++ [task] }

/-- The body that a task runs, from one await to the next; `none` stands for a body
that has settled. -/
structure Body (σ ρ τ β : Type) where
  start : ρ → τ
  step : σ → τ → β → σ × Option τ

def proceed (q : Queue σ ρ τ) (i own : ℕ) : σ × Option τ → Queue σ ρ τ
  | (s, some point) => { q with shared := s, calls := q.calls.set i (.running own point) }
  | (s, none) =>
    { q with shared := s, calls := q.calls.set i .settled, promises := q.promises.set own true }

def next (body : Body σ ρ τ β) (q : Queue σ ρ τ) : Event ρ β → Option (Queue σ ρ τ)
  | .call task => some (enqueue q task)
  | .resume i =>
    match q.calls[i]? with
    | some (.awaiting previous own task) =>
      if q.promises[previous]? = some true then
        some { q with calls := q.calls.set i (.running own (body.start task)) }
      else none
    | _ => none
  | .act i b =>
    match q.calls[i]? with
    | some (.running own point) => some (proceed q i own (body.step q.shared point b))
    | _ => none

def Reaches (body : Body σ ρ τ β) : Queue σ ρ τ → Queue σ ρ τ → Prop :=
  Relation.ReflTransGen (fun q q' => ∃ e, next body q e = some q')

def exec (body : Body σ ρ τ β) (q : Queue σ ρ τ) (es : List (Event ρ β)) : Option (Queue σ ρ τ) :=
  es.foldlM (next body) q

inductive Within (body : Body σ ρ τ β) (s : σ) (t : ρ) : σ → τ → Prop where
  | start : Within body s t s (body.start t)
  | step {s₁ s₂ : σ} {p p' : τ} {b : β} (hw : Within body s t s₁ p)
      (he : body.step s₁ p b = (s₂, some p')) : Within body s t s₂ p'

/-- The tasks one after the other, each from its beginning to its end. -/
inductive Serial (body : Body σ ρ τ β) (s : σ) : List ρ → σ → Prop where
  | nil : Serial body s [] s
  | snoc {ts : List ρ} {t : ρ} {p : τ} {s₁ s₂ s₃ : σ} {b : β} (hs : Serial body s ts s₁)
      (hw : Within body s₁ t s₂ p) (he : body.step s₂ p b = (s₃, none)) :
      Serial body s (ts ++ [t]) s₃

variable {body : Body σ ρ τ β} {s : σ} {q q' : Queue σ ρ τ} {k : ℕ}

theorem exec_reaches {q₀ : Queue σ ρ τ} {es : List (Event ρ β)} (hq : Reaches body q₀ q)
    (h : exec body q es = some q') : Reaches body q₀ q' := by
  induction es generalizing q with
  | nil =>
    cases h
    exact hq
  | cons e es ih =>
    obtain ⟨q₁, he, hrest⟩ := Option.bind_eq_some_iff.mp h
    exact ih (hq.tail ⟨e, he⟩) hrest

/-- The state is what the first `k` tasks made of it, or the next one is at work. -/
inductive Turn (body : Body σ ρ τ β) (s : σ) (q : Queue σ ρ τ) (k : ℕ) : Prop where
  | between (hs : Serial body s (q.arrived.take k) q.shared)
      (hc : ∀ t, q.arrived[k]? = some t → q.calls[k]? = some (.awaiting k (k + 1) t))
  | at {t : ρ} {p : τ} {s₁ : σ} (ht : q.arrived[k]? = some t)
      (hc : q.calls[k]? = some (.running (k + 1) p))
      (hs : Serial body s (q.arrived.take k) s₁) (hw : Within body s₁ t q.shared p)

/-- The first `k` tasks have settled, those after the next one wait. -/
structure Turns (body : Body σ ρ τ β) (s : σ) (q : Queue σ ρ τ) (k : ℕ) : Prop where
  served : k ≤ q.calls.length
  arrived : q.arrived.length = q.calls.length
  tail : q.tail = q.calls.length
  promises : q.promises.length = q.calls.length + 1
  resolved : ∀ p : ℕ, q.promises[p]? = some true ↔ p ≤ k
  settled : ∀ i, i < k → q.calls[i]? = some .settled
  waiting : ∀ i t, k < i → q.arrived[i]? = some t → q.calls[i]? = some (.awaiting i (i + 1) t)
  turn : Turn body s q k

namespace Turns

theorem start (body : Body σ ρ τ β) (s : σ) : Turns body s (.start s) 0 := by
  refine ⟨le_rfl, rfl, rfl, rfl, ?_, ?_, ?_, ?_⟩
  · intro p
    cases p <;> simp [Queue.start]
  · intro i hi
    omega
  · intro i t _ ht
    simp [Queue.start] at ht
  · apply Turn.between
    · exact Serial.nil
    · intro t ht
      simp [Queue.start] at ht

theorem eq_of_awaiting (h : Turns body s q k) {i p own : ℕ} {t : ρ}
    (hi : q.calls[i]? = some (.awaiting p own t)) (hp : q.promises[p]? = some true) :
    i = k ∧ own = k + 1 ∧ q.arrived[k]? = some t ∧ Serial body s (q.arrived.take k) q.shared := by
  have hlt : i < q.calls.length := (List.getElem?_eq_some_iff.mp hi).1
  obtain ⟨u, hu⟩ : ∃ u, q.arrived[i]? = some u :=
    ⟨_, List.getElem?_eq_getElem (by rw [h.arrived]; exact hlt)⟩
  obtain hik | rfl | hik := lt_trichotomy i k
  · rw [h.settled i hik] at hi
    cases hi
  · cases h.turn with
    | between hs hc =>
      rw [hc u hu] at hi
      cases hi
      exact ⟨rfl, rfl, hu, hs⟩
    | «at» _ hc _ _ =>
      rw [hc] at hi
      cases hi
  · rw [h.waiting i u hik hu] at hi
    cases hi
    have := (h.resolved i).mp hp
    omega

/-- Only the task whose turn it is runs. -/
theorem eq_of_running (h : Turns body s q k) {i own : ℕ} {p : τ}
    (hi : q.calls[i]? = some (.running own p)) :
    i = k ∧ own = k + 1 ∧ ∃ t s₁, q.arrived[k]? = some t ∧
      Serial body s (q.arrived.take k) s₁ ∧ Within body s₁ t q.shared p := by
  have hlt : i < q.calls.length := (List.getElem?_eq_some_iff.mp hi).1
  obtain ⟨u, hu⟩ : ∃ u, q.arrived[i]? = some u :=
    ⟨_, List.getElem?_eq_getElem (by rw [h.arrived]; exact hlt)⟩
  obtain hik | rfl | hik := lt_trichotomy i k
  · rw [h.settled i hik] at hi
    cases hi
  · cases h.turn with
    | between hs hc =>
      rw [hc u hu] at hi
      cases hi
    | «at» ht hc hs hw =>
      rw [hc] at hi
      cases hi
      exact ⟨rfl, rfl, _, _, ht, hs, hw⟩
  · rw [h.waiting i u hik hu] at hi
    cases hi

theorem call (h : Turns body s q k) (task : ρ) : Turns body s (enqueue q task) k := by
  have hlen : (q.arrived ++ [task]).length = (q.calls ++ [Stage.awaiting q.tail q.promises.length task]).length := by
    simp [h.arrived]
  have hnew : ∀ i t, k ≤ i → (q.arrived ++ [task])[i]? = some t →
      (∀ u, q.arrived[i]? = some u → q.calls[i]? = some (.awaiting i (i + 1) u)) →
      (q.calls ++ [Stage.awaiting q.tail q.promises.length task])[i]? =
        some (.awaiting i (i + 1) t) := by
    intro i t _ ht hold
    by_cases hi : i < q.calls.length
    · rw [List.getElem?_append_left (by rw [h.arrived]; exact hi)] at ht
      rw [List.getElem?_append_left hi]
      exact hold t ht
    · have hlast : i = q.calls.length := by
        have hb := (List.getElem?_eq_some_iff.mp ht).1
        simp only [List.length_append, List.length_singleton, h.arrived] at hb
        omega
      subst hlast
      rw [← h.arrived, List.getElem?_concat_length] at ht
      cases ht
      rw [List.getElem?_concat_length, h.tail, h.promises]
  refine ⟨?_, hlen, ?_, ?_, ?_, ?_, ?_, ?_⟩
  · simp only [enqueue, List.length_append, List.length_singleton]
    exact Nat.le_succ_of_le h.served
  · simp [enqueue, h.promises]
  · simp [enqueue, h.promises]
  · intro p
    by_cases hp : p < q.promises.length
    · simp only [enqueue, List.getElem?_append_left hp]
      exact h.resolved p
    · have hk : ¬ p ≤ k := by
        have := h.promises
        have := h.served
        omega
      simp only [enqueue, hk, iff_false]
      rw [List.getElem?_append_right (by omega)]
      cases hd : p - q.promises.length <;> simp
  · intro i hi
    have := h.served
    simp only [enqueue]
    rw [List.getElem?_append_left (by omega)]
    exact h.settled i hi
  · intro i t hi ht
    exact hnew i t hi.le ht (fun u hu => h.waiting i u hi hu)
  · have htake : (q.arrived ++ [task]).take k = q.arrived.take k := by
      apply List.take_append_of_le_length
      rw [h.arrived]
      exact h.served
    cases h.turn with
    | between hs hc =>
      apply Turn.between
      · simp only [enqueue, htake]
        exact hs
      · intro t ht
        exact hnew k t le_rfl ht hc
    | «at» ht hc hs hw =>
      have hk := (List.getElem?_eq_some_iff.mp ht).1
      have hk' := (List.getElem?_eq_some_iff.mp hc).1
      refine Turn.at (q := enqueue q task) ?_ ?_ ?_ hw
      · simp only [enqueue, List.getElem?_append_left hk]
        exact ht
      · simp only [enqueue, List.getElem?_append_left hk']
        exact hc
      · simp only [enqueue, htake]
        exact hs

theorem set (h : Turns body s q k) {s' : σ} {c : Stage ρ τ}
    (hturn : Turn body s { q with shared := s', calls := q.calls.set k c } k) :
    Turns body s { q with shared := s', calls := q.calls.set k c } k := by
  refine ⟨?_, ?_, ?_, ?_, h.resolved, ?_, ?_, hturn⟩
  · simpa using h.served
  · simpa using h.arrived
  · simpa using h.tail
  · simpa using h.promises
  · intro i hi
    simp only [List.getElem?_set_ne (show k ≠ i by omega)]
    exact h.settled i hi
  · intro i t hi ht
    simp only [List.getElem?_set_ne (show k ≠ i by omega)]
    exact h.waiting i t hi ht

/-- The turn passes to the next one. -/
theorem pass (h : Turns body s q k) (hk : k < q.calls.length) {s' : σ}
    (hs : Serial body s (q.arrived.take (k + 1)) s') :
    Turns body s (proceed q k (k + 1) (s', none)) (k + 1) := by
  refine ⟨?_, ?_, ?_, ?_, ?_, ?_, ?_, ?_⟩
  · simpa [proceed] using hk
  · simpa [proceed] using h.arrived
  · simpa [proceed] using h.tail
  · simpa [proceed] using h.promises
  · intro p
    by_cases hp : p = k + 1
    · subst p
      have := h.promises
      simp [proceed, List.getElem?_set_self (show k + 1 < q.promises.length by omega)]
    · simp only [proceed, List.getElem?_set_ne (Ne.symm hp), h.resolved p]
      omega
  · intro i hi
    by_cases hik : i = k
    · subst i
      simp only [proceed, List.getElem?_set_self hk]
    · simp only [proceed, List.getElem?_set_ne (Ne.symm hik)]
      exact h.settled i (by omega)
  · intro i t hi ht
    simp only [proceed, List.getElem?_set_ne (show k ≠ i by omega)]
    exact h.waiting i t (by omega) ht
  · apply Turn.between
    · exact hs
    · intro t ht
      simp only [proceed, List.getElem?_set_ne (show k ≠ k + 1 by omega)]
      exact h.waiting (k + 1) t (by omega) ht

theorem of_next (h : Turns body s q k) {e : Event ρ β} (he : next body q e = some q') :
    ∃ k', k ≤ k' ∧ Turns body s q' k' := by
  cases e with
  | call task =>
    cases he
    exact ⟨k, le_rfl, h.call task⟩
  | resume i =>
    rw [next] at he
    split at he
    · rename_i previous own task hi
      split at he
      · rename_i hp
        cases he
        obtain ⟨rfl, rfl, ht, hs⟩ := h.eq_of_awaiting hi hp
        have hk := (List.getElem?_eq_some_iff.mp hi).1
        refine ⟨i, le_rfl, h.set (Turn.at ht ?_ hs Within.start)⟩
        exact List.getElem?_set_self hk
      · cases he
    · cases he
  | act i b =>
    rw [next] at he
    split at he
    · rename_i own point hi
      cases he
      obtain ⟨rfl, rfl, t, s₁, ht, hs, hw⟩ := h.eq_of_running hi
      have hk := (List.getElem?_eq_some_iff.mp hi).1
      cases hb : body.step q.shared point b with
      | mk s' o =>
        cases o with
        | some point' =>
          refine ⟨i, le_rfl, h.set (Turn.at ht ?_ hs (Within.step hw hb))⟩
          exact List.getElem?_set_self hk
        | none =>
          refine ⟨i + 1, Nat.le_succ i, h.pass hk ?_⟩
          rw [List.take_add_one, ht]
          exact Serial.snoc hs hw hb
    · cases he

end Turns

/-- Whatever the order in which the tasks arrive and proceed, they have been served
one after the other in the order of their arrival. -/
theorem Reaches.turns (h : Reaches body (.start s) q) : ∃ k, Turns body s q k := by
  induction h with
  | refl => exact ⟨0, Turns.start body s⟩
  | tail _ he ih =>
    obtain ⟨k, hk⟩ := ih
    obtain ⟨e, he⟩ := he
    obtain ⟨k', _, hk'⟩ := hk.of_next he
    exact ⟨k', hk'⟩

section Progress

variable {rank : τ → ℕ}

def Stage.load (body : Body σ ρ τ β) (rank : τ → ℕ) : Stage ρ τ → ℕ
  | .awaiting _ _ t => rank (body.start t) + 2
  | .running _ p => rank p + 1
  | .settled => 0

def Queue.load (body : Body σ ρ τ β) (rank : τ → ℕ) (q : Queue σ ρ τ) : ℕ :=
  (q.calls.map (Stage.load body rank)).sum

theorem sum_map_set_lt {α : Type} {f : α → ℕ} {l : List α} {i : ℕ} {a b : α}
    (hi : l[i]? = some a) (hlt : f b < f a) : ((l.set i b).map f).sum < (l.map f).sum := by
  induction l generalizing i with
  | nil => simp at hi
  | cons c l ih =>
    cases i with
    | zero =>
      cases hi
      simp only [List.set_cons_zero, List.map_cons, List.sum_cons]
      omega
    | succ i =>
      have := ih (i := i) (by simpa using hi)
      simp only [List.set_cons_succ, List.map_cons, List.sum_cons]
      omega

/-- Every step but an arrival brings the end nearer. -/
theorem load_next (hrank : ∀ s p b s' p', body.step s p b = (s', some p') → rank p' < rank p)
    {e : Event ρ β} (hcall : e.isCall = false) (he : next body q e = some q') :
    q'.load body rank < q.load body rank := by
  cases e with
  | call task => cases hcall
  | resume i =>
    rw [next] at he
    split at he
    · rename_i previous own task hi
      split at he
      · cases he
        apply sum_map_set_lt hi
        simp [Stage.load]
      · cases he
    · cases he
  | act i b =>
    rw [next] at he
    split at he
    · rename_i own point hi
      cases he
      cases hb : body.step q.shared point b with
      | mk s' o =>
        cases o with
        | some point' =>
          apply sum_map_set_lt hi
          have := hrank _ _ _ _ _ hb
          simp only [Stage.load]
          omega
        | none =>
          apply sum_map_set_lt hi
          simp [Stage.load]
    · cases he

/-- Some steps in which no task arrives. -/
inductive Moves (body : Body σ ρ τ β) : ℕ → Queue σ ρ τ → Queue σ ρ τ → Prop where
  | refl (q : Queue σ ρ τ) : Moves body 0 q q
  | step {n : ℕ} {q₁ q₂ q₃ : Queue σ ρ τ} {e : Event ρ β} (h : Moves body n q₁ q₂)
      (hcall : e.isCall = false) (he : next body q₂ e = some q₃) : Moves body (n + 1) q₁ q₃

theorem exec_moves {q₀ : Queue σ ρ τ} {n : ℕ} {es : List (Event ρ β)} (hq : Moves body n q₀ q)
    (hcall : ∀ e ∈ es, e.isCall = false) (h : exec body q es = some q') :
    Moves body (n + es.length) q₀ q' := by
  induction es generalizing q n with
  | nil =>
    cases h
    exact hq
  | cons e es ih =>
    obtain ⟨q₁, he, hrest⟩ := Option.bind_eq_some_iff.mp h
    have hmoves := ih (hq.step (hcall e (by simp)) he) (fun e' he' => hcall e' (by simp [he'])) hrest
    rwa [show n + (e :: es).length = n + 1 + es.length by rw [List.length_cons]; omega]

theorem Moves.reaches {n : ℕ} {q₀ : Queue σ ρ τ} (h : Moves body n q q') (hq : Reaches body q₀ q) :
    Reaches body q₀ q' := by
  induction h with
  | refl => exact hq
  | step _ _ he ih => exact (ih hq).tail ⟨_, he⟩

theorem Moves.load_le {n : ℕ} (h : Moves body n q q')
    (hrank : ∀ s p b s' p', body.step s p b = (s', some p') → rank p' < rank p) :
    n + q'.load body rank ≤ q.load body rank := by
  induction h with
  | refl => omega
  | step _ hcall he ih =>
    have := load_next hrank hcall he
    omega

theorem Turns.enabled (h : Turns body s q k) (hk : k < q.calls.length) (b : β) :
    (next body q (.resume k)).isSome ∨ (next body q (.act k b)).isSome := by
  cases h.turn with
  | between hs hc =>
    left
    have hlt : k < q.arrived.length := by
      rw [h.arrived]
      exact hk
    have ht : q.arrived[k]? = some q.arrived[k] := List.getElem?_eq_getElem hlt
    rw [next, hc _ ht]
    simp [(h.resolved k).mpr le_rfl]
  | «at» ht hc hs hw =>
    right
    rw [next, hc]
    rfl

theorem Turns.all_settled (h : Turns body s q k)
    (hstuck : ∀ e : Event ρ β, e.isCall = false → next body q e = none) (b : β) :
    ∀ c ∈ q.calls, c = .settled := by
  have hk : ¬ k < q.calls.length := by
    intro hk
    obtain he | he := h.enabled hk b
    · simp [hstuck (.resume k) rfl] at he
    · simp [hstuck (.act k b) rfl] at he
  intro c hc
  obtain ⟨i, hi, rfl⟩ := List.mem_iff_getElem.mp hc
  have hsettled := h.settled i (by omega)
  rw [List.getElem?_eq_getElem hi] at hsettled
  exact Option.some.inj hsettled

end Progress

end Bitmine.Lib.PromiseChain
