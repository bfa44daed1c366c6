import Mathlib

namespace Bitmine.Lib.Await

/-- Asynchronous calls over a shared state. A call runs from one awaited effect
to the next; `effect` commits the awaited effect and runs the code up to the
following one, `none` standing for a call that has returned. `handler` is what
is left to run after a throw, `background` a timer that touches only the call. -/
structure Machine (σ ρ α ε : Type) where
  entry : ρ → Bool
  effect : σ → ρ → α → Except String (σ × Option ρ)
  handler : ρ → String → Option ρ
  background : σ → ρ → Bool → ρ
  event : σ → ε → σ

structure Config (σ ρ : Type) where
  shared : σ
  calls : ℕ → Option ρ

/-- One step of some schedule. A rejected await may or may not have taken effect
first, and a process may stop at any await. -/
inductive Action (ρ α ε : Type) where
  | event (e : ε)
  | call (pid : ℕ) (r : ρ)
  | resolve (pid : ℕ) (a : α)
  | reject (pid : ℕ) (message : String)
  | rejectAfter (pid : ℕ) (a : α) (message : String)
  | background (pid : ℕ) (b : Bool)
  | stop (pid : ℕ)

variable {σ ρ α ε : Type}

/-- The process that takes the step; an event is nobody's. -/
def Action.pid : Action ρ α ε → Option ℕ
  | .event _ => none
  | .call pid _ => some pid
  | .resolve pid _ => some pid
  | .reject pid _ => some pid
  | .rejectAfter pid _ _ => some pid
  | .background pid _ => some pid
  | .stop pid => some pid

def Config.put (c : Config σ ρ) (s : σ) (pid : ℕ) (o : Option ρ) : Config σ ρ :=
  ⟨s, Function.update c.calls pid o⟩

def Config.idle (s : σ) : Config σ ρ := ⟨s, fun _ => none⟩

namespace Machine

variable (m : Machine σ ρ α ε)

def next (c : Config σ ρ) : Action ρ α ε → Option (Config σ ρ)
  | .event e => some ⟨m.event c.shared e, c.calls⟩
  | .call pid r =>
    if m.entry r && (c.calls pid).isNone then some (c.put c.shared pid (some r)) else none
  | .resolve pid a =>
    (c.calls pid).map fun r =>
      match m.effect c.shared r a with
      | .ok (s, o) => c.put s pid o
      | .error e => c.put c.shared pid (m.handler r e)
  | .reject pid e => (c.calls pid).map fun r => c.put c.shared pid (m.handler r e)
  | .rejectAfter pid a e =>
    (c.calls pid).map fun r =>
      match m.effect c.shared r a with
      | .ok (s, _) => c.put s pid (m.handler r e)
      | .error e' => c.put c.shared pid (m.handler r e')
  | .background pid b => (c.calls pid).map fun r => c.put c.shared pid (some (m.background c.shared r b))
  | .stop pid => (c.calls pid).map fun _ => c.put c.shared pid none

/-- A finite run each of whose steps meets a condition on the state before it. -/
inductive Run (ok : Config σ ρ → Action ρ α ε → Prop) : Config σ ρ → Config σ ρ → Prop where
  | refl (c : Config σ ρ) : Run ok c c
  | step {c d e : Config σ ρ} {a : Action ρ α ε} :
      Run ok c d → ok d a → m.next d a = some e → Run ok c e

/-- Any run at all. -/
def Reaches : Config σ ρ → Config σ ρ → Prop := Run m (fun _ _ => True)

def exec (c : Config σ ρ) (acts : List (Action ρ α ε)) : Option (Config σ ρ) :=
  acts.foldlM m.next c

variable {m}

theorem Run.trans {ok : Config σ ρ → Action ρ α ε → Prop} {c d e : Config σ ρ}
    (h : Run m ok c d) (h' : Run m ok d e) : Run m ok c e := by
  induction h' with
  | refl => exact h
  | step _ ha hn ih => exact Run.step ih ha hn

theorem Run.mono {ok ok' : Config σ ρ → Action ρ α ε → Prop} (hok : ∀ c a, ok c a → ok' c a)
    {c d : Config σ ρ} (h : Run m ok c d) : Run m ok' c d := by
  induction h with
  | refl => exact Run.refl _
  | step _ ha hn ih => exact Run.step ih (hok _ _ ha) hn

theorem Run.invariant {ok : Config σ ρ → Action ρ α ε → Prop} {I : Config σ ρ → Prop}
    (hstep : ∀ c a d, I c → ok c a → m.next c a = some d → I d)
    {c d : Config σ ρ} (h : Run m ok c d) (hc : I c) : I d := by
  induction h with
  | refl => exact hc
  | step _ ha hn ih => exact hstep _ _ _ ih ha hn

theorem exec_reaches {c d : Config σ ρ} {acts : List (Action ρ α ε)} (h : m.exec c acts = some d) :
    m.Reaches c d := by
  induction acts generalizing c with
  | nil =>
    simp only [exec, List.foldlM_nil, Option.pure_def, Option.some.injEq] at h
    subst h
    exact Run.refl _
  | cons a acts ih =>
    simp only [exec, List.foldlM_cons, Option.bind_eq_bind, Option.bind_eq_some_iff] at h
    obtain ⟨e, he, hr⟩ := h
    exact (Run.step (Run.refl c) trivial he).trans (ih hr)

/-- What a single step can do, by the action that does it. -/
theorem next_inversion {c d : Config σ ρ} {act : Action ρ α ε} (h : m.next c act = some d) :
    (∃ e, act = .event e ∧ d = ⟨m.event c.shared e, c.calls⟩) ∨
    (∃ pid r, act = .call pid r ∧ m.entry r = true ∧ c.calls pid = none ∧
      d = c.put c.shared pid (some r)) ∨
    (∃ pid r a s o, act = .resolve pid a ∧ c.calls pid = some r ∧
      m.effect c.shared r a = .ok (s, o) ∧ d = c.put s pid o) ∨
    (∃ pid r a e s o, act = .rejectAfter pid a e ∧ c.calls pid = some r ∧
      m.effect c.shared r a = .ok (s, o) ∧ d = c.put s pid (m.handler r e)) ∨
    (∃ pid r e, (act = .reject pid e ∨ ∃ a, m.effect c.shared r a = .error e) ∧
      c.calls pid = some r ∧ d = c.put c.shared pid (m.handler r e)) ∨
    (∃ pid r b, act = .background pid b ∧ c.calls pid = some r ∧
      d = c.put c.shared pid (some (m.background c.shared r b))) ∨
    (∃ pid r, act = .stop pid ∧ c.calls pid = some r ∧ d = c.put c.shared pid none) := by
  cases act with
  | event e =>
    simp only [next, Option.some.injEq] at h
    exact .inl ⟨e, rfl, h.symm⟩
  | call pid r =>
    simp only [next, Bool.and_eq_true, Option.isNone_iff_eq_none] at h
    split at h
    · rename_i hc
      exact .inr (.inl ⟨pid, r, rfl, hc.1, hc.2, by simpa using h.symm⟩)
    · cases h
  | resolve pid a =>
    simp only [next, Option.map_eq_some_iff] at h
    obtain ⟨r, hr, hd⟩ := h
    cases he : m.effect c.shared r a with
    | ok so =>
      obtain ⟨s, o⟩ := so
      rw [he] at hd
      exact .inr (.inr (.inl ⟨pid, r, a, s, o, rfl, hr, he, hd.symm⟩))
    | error e =>
      rw [he] at hd
      exact .inr (.inr (.inr (.inr (.inl ⟨pid, r, e, .inr ⟨a, he⟩, hr, hd.symm⟩))))
  | reject pid e =>
    simp only [next, Option.map_eq_some_iff] at h
    obtain ⟨r, hr, hd⟩ := h
    exact .inr (.inr (.inr (.inr (.inl ⟨pid, r, e, .inl rfl, hr, hd.symm⟩))))
  | rejectAfter pid a e =>
    simp only [next, Option.map_eq_some_iff] at h
    obtain ⟨r, hr, hd⟩ := h
    cases he : m.effect c.shared r a with
    | ok so =>
      obtain ⟨s, o⟩ := so
      rw [he] at hd
      exact .inr (.inr (.inr (.inl ⟨pid, r, a, e, s, o, rfl, hr, he, hd.symm⟩)))
    | error e' =>
      rw [he] at hd
      exact .inr (.inr (.inr (.inr (.inl ⟨pid, r, e', .inr ⟨a, he⟩, hr, hd.symm⟩))))
  | background pid b =>
    simp only [next, Option.map_eq_some_iff] at h
    obtain ⟨r, hr, hd⟩ := h
    exact .inr (.inr (.inr (.inr (.inr (.inl ⟨pid, r, b, rfl, hr, hd.symm⟩)))))
  | stop pid =>
    simp only [next, Option.map_eq_some_iff] at h
    obtain ⟨r, hr, hd⟩ := h
    exact .inr (.inr (.inr (.inr (.inr (.inr ⟨pid, r, rfl, hr, hd.symm⟩)))))

theorem next_calls_ne {c d : Config σ ρ} {act : Action ρ α ε} (h : m.next c act = some d) {q : ℕ}
    (hq : act.pid ≠ some q) : d.calls q = c.calls q := by
  have hput : ∀ {pid s o}, act.pid = some pid → (c.put s pid o).calls q = c.calls q := by
    intro pid s o hp
    exact Function.update_of_ne (fun he => hq (by rw [hp, he])) _ _
  cases act with
  | event e =>
    cases h
    rfl
  | call pid r =>
    simp only [next] at h
    split at h <;> cases h
    exact hput rfl
  | resolve pid a =>
    obtain ⟨r, _, rfl⟩ := Option.map_eq_some_iff.mp h
    split <;> exact hput rfl
  | rejectAfter pid a e =>
    obtain ⟨r, _, rfl⟩ := Option.map_eq_some_iff.mp h
    split <;> exact hput rfl
  | reject pid | background pid | stop pid =>
    obtain ⟨r, _, rfl⟩ := Option.map_eq_some_iff.mp h
    exact hput rfl

theorem next_cases {c d : Config σ ρ} {act : Action ρ α ε} (h : m.next c act = some d) :
    (∃ e, act = .event e ∧ d = ⟨m.event c.shared e, c.calls⟩) ∨
    (∃ pid r, act = .call pid r ∧ m.entry r = true ∧ c.calls pid = none ∧
      d = c.put c.shared pid (some r)) ∨
    (∃ pid r a s o, (act = .resolve pid a ∨ ∃ e, act = .rejectAfter pid a e) ∧
      c.calls pid = some r ∧ m.effect c.shared r a = .ok (s, o) ∧
      (d = c.put s pid o ∨ ∃ e, d = c.put s pid (m.handler r e))) ∨
    (∃ pid r e, c.calls pid = some r ∧ d = c.put c.shared pid (m.handler r e)) ∨
    (∃ pid r b, act = .background pid b ∧ c.calls pid = some r ∧
      d = c.put c.shared pid (some (m.background c.shared r b))) ∨
    (∃ pid, act = .stop pid ∧ d = c.put c.shared pid none) := by
  obtain he | hc | ⟨pid, r, a, s, o, ha, hr, he, hd⟩ | ⟨pid, r, a, e, s, o, ha, hr, he, hd⟩ |
    ⟨pid, r, e, _, hr, hd⟩ | hb | ⟨pid, r, ha, _, hd⟩ := next_inversion h
  · exact .inl he
  · exact .inr (.inl hc)
  · exact .inr (.inr (.inl ⟨pid, r, a, s, o, .inl ha, hr, he, .inl hd⟩))
  · exact .inr (.inr (.inl ⟨pid, r, a, s, o, .inr ⟨e, ha⟩, hr, he, .inr ⟨e, hd⟩⟩))
  · exact .inr (.inr (.inr (.inl ⟨pid, r, e, hr, hd⟩)))
  · exact .inr (.inr (.inr (.inr (.inl hb))))
  · exact .inr (.inr (.inr (.inr (.inr ⟨pid, ha, hd⟩))))

def execChecked (m : Machine σ ρ α ε) (test : Config σ ρ → Action ρ α ε → Bool) (c : Config σ ρ)
    (acts : List (Action ρ α ε)) : Option (Config σ ρ) :=
  acts.foldlM (fun c a => if test c a then m.next c a else none) c

theorem execChecked_run {test : Config σ ρ → Action ρ α ε → Bool}
    {ok : Config σ ρ → Action ρ α ε → Prop} (htest : ∀ c a, test c a = true → ok c a)
    {acts : List (Action ρ α ε)} {c d : Config σ ρ} (h : m.execChecked test c acts = some d) :
    m.Run ok c d := by
  induction acts generalizing c with
  | nil =>
    simp only [execChecked, List.foldlM_nil, Option.pure_def, Option.some.injEq] at h
    subst h
    exact Run.refl _
  | cons a acts ih =>
    simp only [execChecked, List.foldlM_cons, Option.bind_eq_bind, Option.bind_eq_some_iff] at h
    obtain ⟨e, he, hr⟩ := h
    split at he
    · rename_i ht
      exact (Run.step (Run.refl c) (htest c a ht) he).trans (ih hr)
    · cases he

end Machine

section Exclusion

variable {κ : Type}

def Apart (key : ρ → Option κ) (r r' : ρ) : Prop := key r = none ∨ key r' ≠ key r

theorem Apart.symm {key : ρ → Option κ} {r r' : ρ} (h : Apart key r r') : Apart key r' r := by
  by_cases hk : key r' = none
  · exact .inl hk
  · exact .inr (fun he => h.elim (fun h => hk (he ▸ h)) (fun h => h he.symm))

/-- A condition on the steps of a schedule: on its effects, on its events, and
that a call starts only when no running call holds its key. -/
def Allowed (key : ρ → Option κ) (P : σ → ρ → α → Prop) (Q : σ → ε → Prop) (c : Config σ ρ) :
    Action ρ α ε → Prop
  | .event e => Q c.shared e
  | .call _ r => ∀ q r', c.calls q = some r' → Apart key r r'
  | .resolve pid a => ∀ r, c.calls pid = some r → P c.shared r a
  | .rejectAfter pid a _ => ∀ r, c.calls pid = some r → P c.shared r a
  | _ => True

theorem Allowed.imp {key : ρ → Option κ} {P P' : σ → ρ → α → Prop} {Q : σ → ε → Prop}
    (hP : ∀ s r a, P s r a → P' s r a) {c : Config σ ρ} {act : Action ρ α ε}
    (h : Allowed key P Q c act) : Allowed key P' Q c act := by
  cases act with
  | resolve pid a => exact fun r hr => hP _ _ _ (h r hr)
  | rejectAfter pid a e => exact fun r hr => hP _ _ _ (h r hr)
  | event | call | reject | background | stop => exact h

structure Keyed (m : Machine σ ρ α ε) (key : ρ → Option κ) : Prop where
  effect : ∀ s r a s' r', m.effect s r a = .ok (s', some r') → key r' = key r
  handler : ∀ r e r', m.handler r e = some r' → key r' = key r
  background : ∀ s r b, key (m.background s r b) = key r

def Exclusive (key : ρ → Option κ) (c : Config σ ρ) : Prop :=
  ∀ p q r r', p ≠ q → c.calls p = some r → c.calls q = some r' → Apart key r r'

theorem Exclusive.put {key : ρ → Option κ} {c : Config σ ρ} (h : Exclusive key c) (s : σ)
    (pid : ℕ) (o : Option ρ)
    (ho : ∀ r ∈ o, ∀ q r', q ≠ pid → c.calls q = some r' → Apart key r r') :
    Exclusive key (c.put s pid o) := by
  intro p q r r' hpq hp hq
  simp only [Config.put] at hp hq
  by_cases hpp : p = pid
  · subst p
    rw [Function.update_self] at hp
    rw [Function.update_of_ne (Ne.symm hpq)] at hq
    exact ho r hp q r' (Ne.symm hpq) hq
  · rw [Function.update_of_ne hpp] at hp
    by_cases hqp : q = pid
    · subst q
      rw [Function.update_self] at hq
      exact (ho r' hq p r hpp hp).symm
    · rw [Function.update_of_ne hqp] at hq
      exact h p q r r' hpq hp hq

theorem Keyed.next {m : Machine σ ρ α ε} {key : ρ → Option κ} (H : Keyed m key)
    {P : σ → ρ → α → Prop} {Q : σ → ε → Prop} {c d : Config σ ρ} {act : Action ρ α ε}
    (hc : Exclusive key c) (ha : Allowed key P Q c act) (h : m.next c act = some d) :
    Exclusive key d := by
  have hsame : ∀ {pid r r'}, c.calls pid = some r → key r' = key r →
      ∀ q r'', q ≠ pid → c.calls q = some r'' → Apart key r' r'' := by
    intro pid r r' hr hk q r'' hq hr''
    have := hc pid q r r'' (Ne.symm hq) hr hr''
    rwa [Apart, ← hk] at this
  obtain ⟨e, rfl, rfl⟩ | ⟨pid, r, rfl, _, _, rfl⟩ | ⟨pid, r, a, s, o, _, hr, he, hd⟩ |
    ⟨pid, r, e, hr, rfl⟩ | ⟨pid, r, b, rfl, hr, rfl⟩ | ⟨pid, rfl, rfl⟩ := Machine.next_cases h
  · exact hc
  · exact hc.put _ _ _ (fun r' hr' q r'' _ hq => by cases hr'; exact ha q r'' hq)
  · obtain rfl | ⟨e, rfl⟩ := hd
    · exact hc.put _ _ _ (fun r' hr' => by
        cases hr'
        exact hsame hr (H.effect _ _ _ _ _ he))
    · exact hc.put _ _ _ (fun r' hr' => hsame hr (H.handler _ _ _ hr'))
  · exact hc.put _ _ _ (fun r' hr' => hsame hr (H.handler _ _ _ hr'))
  · exact hc.put _ _ _ (fun r' hr' => by
      cases hr'
      exact hsame hr (H.background _ _ _))
  · exact hc.put _ _ _ (fun r' hr' => by cases hr')

end Exclusion

variable {κ : Type}

/-- Rely–guarantee reasoning. Each effect keeps the shared invariant, stays
within the guarantee of its call, and leaves the call where its assertion
holds, also when it throws afterwards; the assertions of the calls that may run
beside it are stable under that guarantee. -/
structure Outline (m : Machine σ ρ α ε) (key : ρ → Option κ) (P : σ → ρ → α → Prop)
    (Q : σ → ε → Prop) (Inv : σ → Prop) (Loc : σ → ρ → Prop) (Guar : ρ → σ → σ → Prop) :
    Prop where
  entry : ∀ s r, Inv s → m.entry r = true → Loc s r
  effect : ∀ s r a s' o, Inv s → Loc s r → P s r a → m.effect s r a = .ok (s', o) →
    Inv s' ∧ Guar r s s' ∧ (∀ r' ∈ o, Loc s' r') ∧ ∀ e, ∀ r' ∈ m.handler r e, Loc s' r'
  handler : ∀ s r e r', Inv s → Loc s r → m.handler r e = some r' → Loc s r'
  background : ∀ s r b, Inv s → Loc s r → Loc s (m.background s r b)
  event : ∀ s e, Inv s → Q s e → Inv (m.event s e) ∧ ∀ r, Loc s r → Loc (m.event s e) r
  stable : ∀ s s' r r', Inv s → Guar r s s' → Apart key r r' → Loc s r' → Loc s' r'

/-- The shared invariant together with the assertion of every running call. -/
structure Holds (key : ρ → Option κ) (Inv : σ → Prop) (Loc : σ → ρ → Prop) (c : Config σ ρ) :
    Prop where
  inv : Inv c.shared
  loc : ∀ pid r, c.calls pid = some r → Loc c.shared r
  exclusive : Exclusive key c

namespace Outline

variable {m : Machine σ ρ α ε} {key : ρ → Option κ} {P : σ → ρ → α → Prop} {Q : σ → ε → Prop}
  {Inv : σ → Prop} {Loc : σ → ρ → Prop} {Guar : ρ → σ → σ → Prop}

theorem loc_put {c : Config σ ρ} {s : σ} {pid : ℕ} {o : Option ρ} (ho : ∀ r ∈ o, Loc s r)
    (hc : ∀ q r, q ≠ pid → c.calls q = some r → Loc s r) :
    ∀ q r, (c.put s pid o).calls q = some r → Loc s r := by
  intro q r hq
  by_cases hqp : q = pid
  · subst q
    simp only [Config.put, Function.update_self] at hq
    exact ho r hq
  · simp only [Config.put, Function.update_of_ne hqp] at hq
    exact hc q r hqp hq

theorem next (H : Outline m key P Q Inv Loc Guar) (K : Keyed m key) {c d : Config σ ρ}
    {act : Action ρ α ε} (hc : Holds key Inv Loc c) (ha : Allowed key P Q c act)
    (h : m.next c act = some d) : Holds key Inv Loc d := by
  have hx := K.next hc.exclusive ha h
  obtain ⟨e, rfl, rfl⟩ | ⟨pid, r, rfl, he, _, rfl⟩ | ⟨pid, r, a, s, o, hact, hr, he, hd⟩ |
    ⟨pid, r, e, hr, rfl⟩ | ⟨pid, r, b, rfl, hr, rfl⟩ | ⟨pid, rfl, rfl⟩ := Machine.next_cases h
  · obtain ⟨hi, hst⟩ := H.event c.shared e hc.inv ha
    exact ⟨hi, fun pid r hr => hst r (hc.loc pid r hr), hx⟩
  · exact ⟨hc.inv, loc_put (fun r' hr' => by cases hr'; exact H.entry _ _ hc.inv he)
      (fun q r' _ => hc.loc q r'), hx⟩
  · have hP : P c.shared r a := by
      obtain rfl | ⟨e, rfl⟩ := hact <;> exact ha r hr
    obtain ⟨hi, hg, ho, hth⟩ := H.effect _ _ _ _ _ hc.inv (hc.loc pid r hr) hP he
    have hst : ∀ q r', q ≠ pid → c.calls q = some r' → Loc s r' := fun q r' hq hr' =>
      H.stable _ _ r r' hc.inv hg (hc.exclusive pid q r r' (Ne.symm hq) hr hr') (hc.loc q r' hr')
    obtain rfl | ⟨e, rfl⟩ := hd
    · exact ⟨hi, loc_put ho hst, hx⟩
    · exact ⟨hi, loc_put (hth e) hst, hx⟩
  · exact ⟨hc.inv, loc_put (fun r' hr' => H.handler _ _ _ _ hc.inv (hc.loc pid r hr) hr')
      (fun q r' _ => hc.loc q r'), hx⟩
  · exact ⟨hc.inv, loc_put (fun r' hr' => by
      cases hr'; exact H.background _ _ _ hc.inv (hc.loc pid r hr)) (fun q r' _ => hc.loc q r'), hx⟩
  · exact ⟨hc.inv, loc_put (fun r' hr' => by cases hr') (fun q r' _ => hc.loc q r'), hx⟩

theorem run (H : Outline m key P Q Inv Loc Guar) (K : Keyed m key) {c d : Config σ ρ}
    (hc : Holds key Inv Loc c) (h : m.Run (Allowed key P Q) c d) : Holds key Inv Loc d :=
  h.invariant (fun _ _ _ hi ha hn => H.next K hi ha hn) hc

/-- What no effect and no event undoes, no run undoes. -/
theorem run_rel (H : Outline m key P Q Inv Loc Guar) (K : Keyed m key) {G : σ → σ → Prop}
    (hrefl : ∀ s, G s s) (htrans : ∀ s s' s'', G s s' → G s' s'' → G s s'')
    (heffect : ∀ s r a s' o, Inv s → Loc s r → P s r a → m.effect s r a = .ok (s', o) → G s s')
    (hevent : ∀ s e, Inv s → Q s e → G s (m.event s e)) {c d : Config σ ρ}
    (hc : Holds key Inv Loc c) (h : m.Run (Allowed key P Q) c d) : G c.shared d.shared := by
  induction h with
  | refl => exact hrefl _
  | @step d e act hr ha hn ih =>
    have hd := H.run K hc hr
    apply htrans _ _ _ ih
    obtain ⟨x, rfl, rfl⟩ | ⟨pid, r, rfl, _, _, rfl⟩ | ⟨pid, r, a, s, o, hact, hcall, he, hd'⟩ |
      ⟨pid, r, x, _, rfl⟩ | ⟨pid, r, b, rfl, _, rfl⟩ | ⟨pid, rfl, rfl⟩ := Machine.next_cases hn
    · exact hevent _ _ hd.inv ha
    · exact hrefl _
    · have hP : P d.shared r a := by
        obtain rfl | ⟨e, rfl⟩ := hact <;> exact ha r hcall
      have hG := heffect _ _ _ _ _ hd.inv (hd.loc pid r hcall) hP he
      obtain rfl | ⟨e, rfl⟩ := hd' <;> exact hG
    · exact hrefl _
    · exact hrefl _
    · exact hrefl _

theorem idle {s : σ} (hs : Inv s) : Holds key Inv Loc (Config.idle s : Config σ ρ) :=
  ⟨hs, fun _ _ h => (by cases h), fun _ _ _ _ _ h => (by cases h)⟩

end Outline

def shared (_ : ρ) : Option Unit := none

theorem keyed_shared (m : Machine σ ρ α ε) : Keyed m (shared (ρ := ρ)) :=
  ⟨fun _ _ _ _ _ _ => rfl, fun _ _ _ _ => rfl, fun _ _ _ => rfl⟩

theorem Machine.Run.reaches {m : Machine σ ρ α ε} {ok : Config σ ρ → Action ρ α ε → Prop}
    {c d : Config σ ρ} (h : m.Run ok c d) : m.Reaches c d := h.mono (fun _ _ _ => trivial)

theorem Outline.of_invariant {m : Machine σ ρ α ε} {I : σ → Prop}
    (heffect : ∀ s r a s' o, I s → m.effect s r a = .ok (s', o) → I s')
    (hevent : ∀ s e, I s → I (m.event s e)) :
    Outline m shared (fun _ _ _ => True) (fun _ _ => True) I (fun _ _ => True)
      (fun _ _ _ => True) where
  entry _ _ _ _ := trivial
  effect s r a s' o h _ _ he :=
    ⟨heffect s r a s' o h he, trivial, fun _ _ => trivial, fun _ _ _ => trivial⟩
  handler _ _ _ _ _ _ _ := trivial
  background _ _ _ _ _ := trivial
  event s e h _ := ⟨hevent s e h, fun _ _ => trivial⟩
  stable _ _ _ _ _ _ _ _ := trivial

theorem Machine.Reaches.allowed {m : Machine σ ρ α ε} {c d : Config σ ρ} (h : m.Reaches c d) :
    m.Run (Allowed shared (fun _ _ _ => True) (fun _ _ => True)) c d := by
  refine Machine.Run.mono (fun c a _ => ?_) h
  cases a <;> simp [Allowed, Apart, shared]

/-- A condition on the steps of a schedule, with one on how a call starts. -/
def Admits (E : σ → ρ → Prop) (P : σ → ρ → α → Prop) (Q : σ → ε → Prop) (c : Config σ ρ) :
    Action ρ α ε → Prop
  | .event e => Q c.shared e
  | .call _ r => E c.shared r
  | .resolve pid a => ∀ r, c.calls pid = some r → P c.shared r a
  | .rejectAfter pid a _ => ∀ r, c.calls pid = some r → P c.shared r a
  | _ => True

/-- Assertions that every effect leaves intact, whoever performs it. The
assertion of a call holds when it starts as it may. -/
structure Annotation (m : Machine σ ρ α ε) (E : σ → ρ → Prop) (P : σ → ρ → α → Prop)
    (Q : σ → ε → Prop) (Inv : σ → Prop) (Loc : σ → ρ → Prop) : Prop where
  entry : ∀ s r, Inv s → m.entry r = true → E s r → Loc s r
  effect : ∀ s r a s' o, Inv s → Loc s r → P s r a → m.effect s r a = .ok (s', o) →
    Inv s' ∧ (∀ r' ∈ o, Loc s' r') ∧ (∀ e, ∀ r' ∈ m.handler r e, Loc s' r') ∧
      ∀ r', Loc s r' → Loc s' r'
  handler : ∀ s r e r', Inv s → Loc s r → m.handler r e = some r' → Loc s r'
  background : ∀ s r b, Inv s → Loc s r → Loc s (m.background s r b)
  event : ∀ s e, Inv s → Q s e → Inv (m.event s e) ∧ ∀ r, Loc s r → Loc (m.event s e) r

namespace Annotation

variable {m : Machine σ ρ α ε} {E : σ → ρ → Prop} {P : σ → ρ → α → Prop} {Q : σ → ε → Prop}
  {Inv : σ → Prop} {Loc : σ → ρ → Prop}

def Valid (Inv : σ → Prop) (Loc : σ → ρ → Prop) (c : Config σ ρ) : Prop :=
  Inv c.shared ∧ ∀ pid r, c.calls pid = some r → Loc c.shared r

theorem next (H : Annotation m E P Q Inv Loc) {c d : Config σ ρ} {act : Action ρ α ε}
    (hc : Valid Inv Loc c) (ha : Admits E P Q c act) (h : m.next c act = some d) :
    Valid Inv Loc d := by
  obtain ⟨hi, hloc⟩ := hc
  obtain ⟨e, rfl, rfl⟩ | ⟨pid, r, rfl, he, _, rfl⟩ | ⟨pid, r, a, s, o, hact, hr, he, hd⟩ |
    ⟨pid, r, e, hr, rfl⟩ | ⟨pid, r, b, rfl, hr, rfl⟩ | ⟨pid, rfl, rfl⟩ := Machine.next_cases h
  · obtain ⟨hi', hst⟩ := H.event c.shared e hi ha
    exact ⟨hi', fun pid r hr => hst r (hloc pid r hr)⟩
  · exact ⟨hi, Outline.loc_put (fun r' hr' => by cases hr'; exact H.entry _ _ hi he ha)
      (fun q r' _ => hloc q r')⟩
  · have hP : P c.shared r a := by
      obtain rfl | ⟨e, rfl⟩ := hact <;> exact ha r hr
    obtain ⟨hi', ho, hth, hst⟩ := H.effect _ _ _ _ _ hi (hloc pid r hr) hP he
    obtain rfl | ⟨e, rfl⟩ := hd
    · exact ⟨hi', Outline.loc_put ho (fun q r' _ hr' => hst r' (hloc q r' hr'))⟩
    · exact ⟨hi', Outline.loc_put (hth e) (fun q r' _ hr' => hst r' (hloc q r' hr'))⟩
  · exact ⟨hi, Outline.loc_put (fun r' hr' => H.handler _ _ _ _ hi (hloc pid r hr) hr')
      (fun q r' _ => hloc q r')⟩
  · exact ⟨hi, Outline.loc_put (fun r' hr' => by
      cases hr'; exact H.background _ _ _ hi (hloc pid r hr)) (fun q r' _ => hloc q r')⟩
  · exact ⟨hi, Outline.loc_put (fun r' hr' => by cases hr') (fun q r' _ => hloc q r')⟩

theorem run (H : Annotation m E P Q Inv Loc) {s : σ} {d : Config σ ρ} (hs : Inv s)
    (h : m.Run (Admits E P Q) (.idle s) d) : Inv d.shared ∧
      ∀ pid r, d.calls pid = some r → Loc d.shared r :=
  h.invariant (I := Valid Inv Loc) (fun _ _ _ hi ha hn => H.next hi ha hn)
    ⟨hs, fun _ _ hr => (by cases hr)⟩

end Annotation

def testing (test : σ → ρ → α → Bool) (c : Config σ ρ) : Action ρ α ε → Bool
  | .resolve pid a => (c.calls pid).all (fun r => test c.shared r a)
  | .rejectAfter pid a _ => (c.calls pid).all (fun r => test c.shared r a)
  | _ => true

theorem testing_allowed {test : σ → ρ → α → Bool} {P : σ → ρ → α → Prop}
    (htest : ∀ s r a, test s r a = true → P s r a) (c : Config σ ρ) (act : Action ρ α ε)
    (h : testing test c act = true) : Allowed shared P (fun _ _ => True) c act := by
  cases act with
  | resolve pid a | rejectAfter pid a _ =>
    intro r hr
    exact htest _ _ _ (by simpa [testing, hr] using h)
  | call pid r => exact fun q r' _ => .inl rfl
  | event | reject | background | stop => trivial

theorem testing_admits {test : σ → ρ → α → Bool} {P : σ → ρ → α → Prop}
    (htest : ∀ s r a, test s r a = true → P s r a) (c : Config σ ρ) (act : Action ρ α ε)
    (h : testing test c act = true) :
    Admits (fun _ _ => True) P (fun _ _ => True) c act := by
  cases act with
  | resolve pid a | rejectAfter pid a _ =>
    intro r hr
    exact htest _ _ _ (by simpa [testing, hr] using h)
  | call | event | reject | background | stop => trivial

namespace Machine

variable {m : Machine σ ρ α ε}

def nextAlone (m : Machine σ ρ α ε) (test : σ → ρ → α → Bool) (c : Config σ ρ)
    (act : Action ρ α ε) : Option (Config σ ρ) :=
  match act with
  | .call 0 _ => m.next c act
  | .resolve 0 a => if (c.calls 0).all (fun r => test c.shared r a) then m.next c act else none
  | _ => none

def execAlone (m : Machine σ ρ α ε) (test : σ → ρ → α → Bool) (c : Config σ ρ)
    (acts : List (Action ρ α ε)) : Option (Config σ ρ) :=
  acts.foldlM (m.nextAlone test) c

theorem nextAlone_allowed {test : σ → ρ → α → Bool} {key : ρ → Option κ} {P : σ → ρ → α → Prop}
    {Q : σ → ε → Prop} (htest : ∀ s r a, test s r a = true → P s r a) {c d : Config σ ρ}
    {act : Action ρ α ε} (hc : ∀ q, q ≠ 0 → c.calls q = none)
    (h : m.nextAlone test c act = some d) :
    Allowed key P Q c act ∧ m.next c act = some d ∧ ∀ q, q ≠ 0 → d.calls q = none := by
  have hput : ∀ s o, ∀ q, q ≠ 0 → (c.put s 0 o).calls q = none := by
    intro s o q hq
    simp only [Config.put, Function.update_of_ne hq]
    exact hc q hq
  unfold nextAlone at h
  split at h
  · rename_i r
    have hn : c.calls 0 = none ∧ d = c.put c.shared 0 (some r) := by
      simp only [next, Bool.and_eq_true, Option.isNone_iff_eq_none] at h
      split at h
      · rename_i hcall
        exact ⟨hcall.2, by simpa using h.symm⟩
      · cases h
    refine ⟨fun q r' hq => ?_, h, hn.2 ▸ hput _ _⟩
    by_cases h0 : q = 0
    · rw [h0, hn.1] at hq
      cases hq
    · rw [hc q h0] at hq
      cases hq
  · rename_i a
    split at h
    · rename_i ht
      refine ⟨fun r hr => htest _ _ _ (by simpa [hr] using ht), h, ?_⟩
      obtain ⟨r, _, hd⟩ := Option.map_eq_some_iff.mp h
      subst hd
      split <;> exact hput _ _
    · cases h
  · cases h

theorem execAlone_run {test : σ → ρ → α → Bool} (key : ρ → Option κ) {P : σ → ρ → α → Prop}
    {Q : σ → ε → Prop} (htest : ∀ s r a, test s r a = true → P s r a)
    {acts : List (Action ρ α ε)} {c d : Config σ ρ} (hc : ∀ q, q ≠ 0 → c.calls q = none)
    (h : m.execAlone test c acts = some d) :
    m.Run (Allowed key P Q) c d ∧ ∀ q, q ≠ 0 → d.calls q = none := by
  induction acts generalizing c with
  | nil =>
    simp only [execAlone, List.foldlM_nil, Option.pure_def, Option.some.injEq] at h
    subst h
    exact ⟨Run.refl _, hc⟩
  | cons a acts ih =>
    simp only [execAlone, List.foldlM_cons, Option.bind_eq_bind, Option.bind_eq_some_iff] at h
    obtain ⟨e, he, hr⟩ := h
    obtain ⟨hok, hn, hcalls⟩ := nextAlone_allowed htest hc he
    obtain ⟨hrun, hd⟩ := ih hcalls hr
    exact ⟨(Run.step (Run.refl c) hok hn).trans hrun, hd⟩

end Machine

end Bitmine.Lib.Await
