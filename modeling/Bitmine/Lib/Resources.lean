import Bitmine.Lib.Await

namespace Bitmine.Lib.Resources

open Bitmine.Lib.Await

variable {σ ρ α ε κ : Type}

/-- Resources that one call holds at a time: a lock, a ticket. What is held shows
in the shared state. An effect gets hold only of what nobody has taken, and leaves
alone what its call does not hold. -/
structure Holding (m : Machine σ ρ α ε) (holds : ρ → κ → Prop) (taken : σ → κ → Prop) : Prop where
  entry : ∀ r k, m.entry r = true → ¬ holds r k
  enters : ∀ s r a s' o, m.effect s r a = .ok (s', o) →
    ∀ r', (r' ∈ o ∨ ∃ e, r' ∈ m.handler r e) → ∀ k, holds r' k →
      (holds r k ∨ ¬ taken s k) ∧ ((holds r k → taken s k) → taken s' k)
  keeps : ∀ s r a s' o k, m.effect s r a = .ok (s', o) → ¬ holds r k → taken s k → taken s' k
  handler : ∀ r e r' k, m.handler r e = some r' → holds r' k → holds r k
  background : ∀ s r b k, holds (m.background s r b) k → holds r k

structure Exclusive (holds : ρ → κ → Prop) (taken : σ → κ → Prop) (c : Config σ ρ) : Prop where
  taken : ∀ pid r k, c.calls pid = some r → holds r k → taken c.shared k
  single : ∀ p q r r' k, c.calls p = some r → c.calls q = some r' → holds r k → holds r' k → p = q

/-- A condition on the effects of a schedule, and on its events: none of them frees
what a running call holds. -/
def Guarded (m : Machine σ ρ α ε) (holds : ρ → κ → Prop) (taken : σ → κ → Prop)
    (P : σ → ρ → α → Prop) (c : Config σ ρ) : Action ρ α ε → Prop
  | .event e => ∀ pid r k, c.calls pid = some r → holds r k → taken c.shared k →
      taken (m.event c.shared e) k
  | .resolve pid a => ∀ r, c.calls pid = some r → P c.shared r a
  | .rejectAfter pid a _ => ∀ r, c.calls pid = some r → P c.shared r a
  | _ => True

section Exclusion

variable {holds : ρ → κ → Prop} {taken : σ → κ → Prop}

theorem Exclusive.idle (s : σ) : Exclusive holds taken (Config.idle s : Config σ ρ) :=
  ⟨fun _ _ _ h => (by cases h), fun _ _ _ _ _ h => (by cases h)⟩

theorem Exclusive.put {c : Config σ ρ} {s : σ} {pid : ℕ} {o : Option ρ}
    (hc : Exclusive holds taken c)
    (hothers : ∀ q r k, q ≠ pid → c.calls q = some r → holds r k → taken s k)
    (hself : ∀ r ∈ o, ∀ k, holds r k → taken s k ∧
      ∀ q r', q ≠ pid → c.calls q = some r' → ¬ holds r' k) :
    Exclusive holds taken (c.put s pid o) := by
  have hcall : ∀ {q r}, (c.put s pid o).calls q = some r →
      (q = pid ∧ o = some r) ∨ (q ≠ pid ∧ c.calls q = some r) := by
    intro q r hq
    by_cases hp : q = pid
    · subst q
      simp only [Config.put, Function.update_self] at hq
      exact .inl ⟨rfl, hq⟩
    · simp only [Config.put, Function.update_of_ne hp] at hq
      exact .inr ⟨hp, hq⟩
  refine ⟨fun q r k hq hin => ?_, fun p q r r' k hp hq hin hin' => ?_⟩
  · obtain ⟨_, rfl⟩ | ⟨hne, hold⟩ := hcall hq
    · exact (hself r rfl k hin).1
    · exact hothers q r k hne hold hin
  · obtain ⟨rfl, rfl⟩ | ⟨hpne, hpold⟩ := hcall hp
    · obtain ⟨rfl, _⟩ | ⟨hqne, hqold⟩ := hcall hq
      · rfl
      · exact absurd hin' ((hself r rfl k hin).2 q r' hqne hqold)
    · obtain ⟨rfl, rfl⟩ | ⟨_, hqold⟩ := hcall hq
      · exact absurd hin ((hself r' rfl k hin').2 p r hpne hpold)
      · exact hc.single p q r r' k hpold hqold hin hin'

theorem Holding.next {m : Machine σ ρ α ε} (K : Holding m holds taken)
    {P : σ → ρ → α → Prop} {c d : Config σ ρ} {act : Action ρ α ε} (hc : Exclusive holds taken c)
    (ha : Guarded m holds taken P c act) (h : m.next c act = some d) :
    Exclusive holds taken d := by
  have hothers : ∀ {pid r k}, c.calls pid = some r → holds r k →
      ∀ q r', q ≠ pid → c.calls q = some r' → ¬ holds r' k := fun hr hin q r' hq hr' hin' =>
    hq (hc.single q _ r' _ _ hr' hr hin' hin)
  have hstay : ∀ {pid r r' k}, c.calls pid = some r → (holds r' k → holds r k) → holds r' k →
      taken c.shared k ∧ ∀ q r'', q ≠ pid → c.calls q = some r'' → ¬ holds r'' k :=
    fun hr hin hin' => ⟨hc.taken _ _ _ hr (hin hin'), hothers hr (hin hin')⟩
  obtain ⟨e, rfl, rfl⟩ | ⟨pid, r, rfl, he, _, rfl⟩ | ⟨pid, r, a, s, o, _, hr, he, hd⟩ |
    ⟨pid, r, e, hr, rfl⟩ | ⟨pid, r, b, rfl, hr, rfl⟩ | ⟨pid, rfl, rfl⟩ := Machine.next_cases h
  · exact ⟨fun pid r k hr hin => ha pid r k hr hin (hc.taken pid r k hr hin), hc.single⟩
  · apply hc.put (fun q r' k _ => hc.taken q r' k)
    rintro _ ⟨⟩ k hin
    exact absurd hin (K.entry r k he)
  · have hfree : ∀ q r' k, q ≠ pid → c.calls q = some r' → holds r' k → taken s k := by
      intro q r' k hq hr' hin
      exact K.keeps _ _ _ _ _ k he (fun hin' => hothers hr hin' q r' hq hr' hin)
        (hc.taken q r' k hr' hin)
    have hself : ∀ r', (r' ∈ o ∨ ∃ e, r' ∈ m.handler r e) → ∀ k, holds r' k →
        taken s k ∧ ∀ q r'', q ≠ pid → c.calls q = some r'' → ¬ holds r'' k := by
      intro r' hr' k hin
      obtain ⟨hold, htaken⟩ := K.enters _ _ _ _ _ he r' hr' k hin
      refine ⟨htaken (hc.taken pid r k hr), fun q r'' hq hr'' hin'' => ?_⟩
      obtain hin' | hnot := hold
      · exact hothers hr hin' q r'' hq hr'' hin''
      · exact hnot (hc.taken q r'' k hr'' hin'')
    obtain rfl | ⟨e, rfl⟩ := hd
    · exact hc.put hfree (fun r' hr' => hself r' (.inl hr'))
    · exact hc.put hfree (fun r' hr' => hself r' (.inr ⟨e, hr'⟩))
  · exact hc.put (fun q r' k _ => hc.taken q r' k) (fun r' hr' k => hstay hr (K.handler r e r' k hr'))
  · apply hc.put (fun q r' k _ => hc.taken q r' k)
    rintro _ ⟨⟩ k
    exact hstay hr (K.background _ _ _ k)
  · exact hc.put (fun q r' k _ => hc.taken q r' k) (fun _ hr' => (by cases hr'))

end Exclusion

/-- Rely–guarantee reasoning with held resources: the assertion of a call has to be
stable only under calls that hold nothing it holds. -/
structure HoldOutline (m : Machine σ ρ α ε) (holds : ρ → κ → Prop) (P : σ → ρ → α → Prop)
    (Inv : σ → Prop) (Loc : σ → ρ → Prop) (Guar : ρ → σ → σ → Prop) : Prop where
  entry : ∀ s r, Inv s → m.entry r = true → Loc s r
  effect : ∀ s r a s' o, Inv s → Loc s r → P s r a → m.effect s r a = .ok (s', o) →
    Inv s' ∧ Guar r s s' ∧ (∀ r' ∈ o, Loc s' r') ∧ ∀ e, ∀ r' ∈ m.handler r e, Loc s' r'
  handler : ∀ s r e r', Inv s → Loc s r → m.handler r e = some r' → Loc s r'
  background : ∀ s r b, Inv s → Loc s r → Loc s (m.background s r b)
  event : ∀ s e, Inv s → Inv (m.event s e) ∧ ∀ r, Loc s r → Loc (m.event s e) r
  stable : ∀ s s' r r', Inv s → Guar r s s' → (∀ k, holds r k → ¬ holds r' k) → Loc s r' → Loc s' r'

namespace HoldOutline

variable {m : Machine σ ρ α ε} {holds : ρ → κ → Prop} {taken : σ → κ → Prop}
  {P : σ → ρ → α → Prop} {Inv : σ → Prop} {Loc : σ → ρ → Prop} {Guar : ρ → σ → σ → Prop}

structure Holds (holds : ρ → κ → Prop) (taken : σ → κ → Prop) (Inv : σ → Prop)
    (Loc : σ → ρ → Prop) (c : Config σ ρ) : Prop where
  inv : Inv c.shared
  loc : ∀ pid r, c.calls pid = some r → Loc c.shared r
  exclusive : Exclusive holds taken c

theorem next (H : HoldOutline m holds P Inv Loc Guar) (K : Holding m holds taken)
    {c d : Config σ ρ} {act : Action ρ α ε} (hc : Holds holds taken Inv Loc c)
    (ha : Guarded m holds taken P c act) (h : m.next c act = some d) :
    Holds holds taken Inv Loc d := by
  have hx := K.next hc.exclusive ha h
  obtain ⟨e, rfl, rfl⟩ | ⟨pid, r, rfl, he, _, rfl⟩ | ⟨pid, r, a, s, o, hact, hr, he, hd⟩ |
    ⟨pid, r, e, hr, rfl⟩ | ⟨pid, r, b, rfl, hr, rfl⟩ | ⟨pid, rfl, rfl⟩ := Machine.next_cases h
  · obtain ⟨hi, hst⟩ := H.event c.shared e hc.inv
    exact ⟨hi, fun pid r hr => hst r (hc.loc pid r hr), hx⟩
  · refine ⟨hc.inv, Outline.loc_put ?_ (fun q r' _ => hc.loc q r'), hx⟩
    rintro _ ⟨⟩
    exact H.entry _ _ hc.inv he
  · have hP : P c.shared r a := by
      obtain rfl | ⟨e, rfl⟩ := hact <;> exact ha r hr
    obtain ⟨hi, hg, ho, hth⟩ := H.effect _ _ _ _ _ hc.inv (hc.loc pid r hr) hP he
    have hst : ∀ q r', q ≠ pid → c.calls q = some r' → Loc s r' := by
      intro q r' hq hr'
      refine H.stable _ _ r r' hc.inv hg (fun k hin hin' => ?_) (hc.loc q r' hr')
      exact hq (hc.exclusive.single q pid r' r k hr' hr hin' hin)
    obtain rfl | ⟨e, rfl⟩ := hd
    · exact ⟨hi, Outline.loc_put ho hst, hx⟩
    · exact ⟨hi, Outline.loc_put (hth e) hst, hx⟩
  · exact ⟨hc.inv, Outline.loc_put (fun r' hr' => H.handler _ _ _ _ hc.inv (hc.loc pid r hr) hr')
      (fun q r' _ => hc.loc q r'), hx⟩
  · refine ⟨hc.inv, Outline.loc_put ?_ (fun q r' _ => hc.loc q r'), hx⟩
    rintro _ ⟨⟩
    exact H.background _ _ _ hc.inv (hc.loc pid r hr)
  · exact ⟨hc.inv, Outline.loc_put (fun r' hr' => by cases hr') (fun q r' _ => hc.loc q r'), hx⟩

/-- The rule: as long as no event frees what is held, invariant and assertions hold
in every state. -/
theorem run (H : HoldOutline m holds P Inv Loc Guar) (K : Holding m holds taken) {s : σ}
    {d : Config σ ρ} (hs : Inv s) (h : m.Run (Guarded m holds taken P) (.idle s) d) :
    Holds holds taken Inv Loc d :=
  h.invariant (fun _ _ _ hc ha hn => H.next K hc ha hn)
    ⟨hs, fun _ _ hr => (by cases hr), .idle s⟩

end HoldOutline

end Bitmine.Lib.Resources
