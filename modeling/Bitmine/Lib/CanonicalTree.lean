import Mathlib

namespace Bitmine.Lib.CanonicalTree

inductive Tree (κ α : Type) where
  | leaf (a : α)
  | arr (items : List (Tree κ α))
  | obj (members : List (κ × Tree κ α))

variable {κ α β : Type}

inductive Tree.WellFormed (ok : α → Prop) : Tree κ α → Prop
  | leaf {a : α} : ok a → WellFormed ok (.leaf a)
  | arr {items : List (Tree κ α)} : (∀ t ∈ items, WellFormed ok t) → WellFormed ok (.arr items)
  | obj {members : List (κ × Tree κ α)} : (members.map Prod.fst).Nodup →
    (∀ m ∈ members, WellFormed ok m.2) → WellFormed ok (.obj members)

/-- The same data, with the members of its objects in another order. -/
inductive Reorder : Tree κ α → Tree κ α → Prop
  | refl (t : Tree κ α) : Reorder t t
  | trans {t u v : Tree κ α} : Reorder t u → Reorder u v → Reorder t v
  | perm {l l' : List (κ × Tree κ α)} : l.Perm l' → Reorder (.obj l) (.obj l')
  | item {t t' : Tree κ α} (before after : List (Tree κ α)) : Reorder t t' →
    Reorder (.arr (before ++ t :: after)) (.arr (before ++ t' :: after))
  | member {t t' : Tree κ α} (key : κ) (before after : List (κ × Tree κ α)) : Reorder t t' →
    Reorder (.obj (before ++ (key, t) :: after)) (.obj (before ++ (key, t') :: after))

namespace Reorder

theorem symm {t u : Tree κ α} (h : Reorder t u) : Reorder u t := by
  induction h with
  | refl t => exact .refl t
  | trans _ _ ih ih' => exact ih'.trans ih
  | perm hp => exact .perm hp.symm
  | item before after _ ih => exact .item before after ih
  | member key before after _ ih => exact .member key before after ih

theorem items {l l' : List (Tree κ α)} (h : List.Forall₂ Reorder l l') (before : List (Tree κ α)) :
    Reorder (.arr (before ++ l)) (.arr (before ++ l')) := by
  induction h generalizing before with
  | nil => exact .refl _
  | @cons t t' l l' hab _ ih =>
    apply (Reorder.item before l hab).trans
    simpa only [List.append_assoc, List.singleton_append] using ih (before ++ [t'])

theorem members {l l' : List (κ × Tree κ α)}
    (h : List.Forall₂ (fun m m' => m.1 = m'.1 ∧ Reorder m.2 m'.2) l l')
    (before : List (κ × Tree κ α)) : Reorder (.obj (before ++ l)) (.obj (before ++ l')) := by
  induction h generalizing before with
  | nil => exact .refl _
  | @cons m m' l l' hab _ ih =>
    obtain ⟨hkey, hval⟩ := hab
    apply (Reorder.member m.1 before l hval).trans
    have hm : (m.1, m'.2) = m' := Prod.ext hkey rfl
    rw [hm]
    simpa only [List.append_assoc, List.singleton_append] using ih (before ++ [m'])

theorem wellFormed {ok : α → Prop} {t u : Tree κ α} (h : Reorder t u) (ht : t.WellFormed ok) :
    u.WellFormed ok := by
  induction h with
  | refl => exact ht
  | trans _ _ ih ih' => exact ih' (ih ht)
  | perm hp =>
    obtain ⟨⟩ | ⟨⟩ | ⟨hk, hm⟩ := ht
    exact .obj ((hp.map Prod.fst).nodup_iff.mp hk) (fun m hm' => hm m (hp.mem_iff.mpr hm'))
  | item before after _ ih =>
    obtain ⟨⟩ | ⟨hl⟩ := ht
    refine .arr (fun t ht => ?_)
    simp only [List.mem_append, List.mem_cons] at ht hl
    obtain ht | rfl | ht := ht
    · exact hl t (.inl ht)
    · exact ih (hl _ (.inr (.inl rfl)))
    · exact hl t (.inr (.inr ht))
  | member key before after _ ih =>
    obtain ⟨⟩ | ⟨⟩ | ⟨hk, hl⟩ := ht
    refine .obj ?_ (fun m hm => ?_)
    · simpa only [List.map_append, List.map_cons] using hk
    · simp only [List.mem_append, List.mem_cons] at hm hl
      obtain hm | rfl | hm := hm
      · exact hl m (.inl hm)
      · exact ih (hl _ (.inr (.inl rfl)))
      · exact hl m (.inr (.inr hm))

theorem of_leaf {t u : Tree κ α} (h : Reorder t u) {a : α} (ht : t = .leaf a) : u = .leaf a := by
  induction h with
  | refl => exact ht
  | trans _ _ ih ih' => exact ih' (ih ht)
  | perm | item | member => cases ht

theorem leaf_inj {a b : α} (h : Reorder (.leaf a : Tree κ α) (.leaf b)) : a = b := by
  have hb := h.of_leaf rfl
  injection hb with hab
  exact hab.symm

end Reorder

theorem rel_refl (o : Option (Tree κ α)) : Option.Rel Reorder o o := by
  cases o with
  | none => exact .none
  | some t => exact .some (.refl t)

theorem rel_trans {x y z : Option (Tree κ α)} (h : Option.Rel Reorder x y)
    (h' : Option.Rel Reorder y z) : Option.Rel Reorder x z := by
  cases h with
  | none => exact h'
  | some h =>
    cases h' with
    | some h' => exact .some (h.trans h')

section Lookup

variable [DecidableEq κ]

def Tree.get? (key : κ) : Tree κ α → Option (Tree κ α)
  | .obj members => (members.find? (fun m => m.1 = key)).map Prod.snd
  | _ => none

theorem find?_perm {l l' : List (κ × β)} (hp : l.Perm l') (hk : (l.map Prod.fst).Nodup) (key : κ) :
    l.find? (fun m => m.1 = key) = l'.find? (fun m => m.1 = key) := by
  induction hp with
  | nil => rfl
  | cons m _ ih =>
    simp only [List.find?_cons]
    rw [ih (List.nodup_cons.mp hk).2]
  | swap m m' l =>
    simp only [List.map_cons, List.nodup_cons, List.mem_cons, not_or] at hk
    simp only [List.find?_cons]
    by_cases hm : m.1 = key
    · by_cases hm' : m'.1 = key
      · exact absurd (hm'.trans hm.symm) hk.1.1
      · simp [hm, hm']
    · simp [hm]
  | trans hp _ ih ih' => exact (ih hk).trans (ih' ((hp.map Prod.fst).nodup_iff.mp hk))

theorem Reorder.get? {ok : α → Prop} {t u : Tree κ α} (h : Reorder t u) (ht : t.WellFormed ok)
    (key : κ) : Option.Rel Reorder (t.get? key) (u.get? key) := by
  induction h with
  | refl => exact rel_refl _
  | trans h _ ih ih' => exact rel_trans (ih ht) (ih' (h.wellFormed ht))
  | perm hp =>
    obtain ⟨⟩ | ⟨⟩ | ⟨hk, _⟩ := ht
    rw [Tree.get?, Tree.get?, find?_perm hp hk]
    exact rel_refl _
  | item => exact .none
  | member k before after h _ =>
    simp only [Tree.get?, List.find?_append, List.find?_cons]
    cases before.find? (fun m => m.1 = key) with
    | some m => exact .some (.refl _)
    | none =>
      by_cases hkey : k = key
      · simp only [hkey, decide_true, Option.none_or, Option.map_some]
        exact .some h
      · simp only [hkey, decide_false, Option.none_or]
        exact rel_refl _

end Lookup

def Ends (r : List Char) : Prop := ∀ c ∈ r.head?, c = ',' ∨ c = ']' ∨ c = '\x7d'

theorem Ends.nil : Ends [] := by
  intro c hc
  cases hc

theorem Ends.cons {c : Char} (h : c = ',' ∨ c = ']' ∨ c = '\x7d') (r : List Char) : Ends (c :: r) := by
  intro d hd
  cases hd
  exact h

structure SelfDelimiting (text : κ → List Char) : Prop where
  head : ∀ k, ∃ c cs, text k = c :: cs ∧ c ≠ '\x7d'
  split : ∀ {k k' : κ} {r r' : List Char}, text k ++ r = text k' ++ r' → k = k' ∧ r = r'

structure Delimited (text : α → List Char) (ok : α → Prop) : Prop where
  head : ∀ a, ok a → ∃ c cs, text a = c :: cs ∧ c ≠ '[' ∧ c ≠ '\x7b' ∧ c ≠ ']'
  split : ∀ {a b : α} {r r' : List Char}, ok a → ok b → Ends r → Ends r' →
    text a ++ r = text b ++ r' → a = b ∧ r = r'

def commaTail : List (List Char) → List Char
  | [] => []
  | x :: l => ',' :: (x ++ commaTail l)

def commaJoin : List (List Char) → List Char
  | [] => []
  | x :: l => x ++ commaTail l

section Join

variable {f : β → List Char} {R : β → β → Prop} {close : Char} {l l' : List β} {r r' : List Char}

theorem commaTail_ends (hclose : close = ']' ∨ close = '\x7d') :
    Ends (commaTail (l.map f) ++ close :: r) := by
  cases l with
  | nil => exact .cons (.inr hclose) r
  | cons b l => exact .cons (.inl rfl) _

theorem commaTail_split (hclose : close = ']' ∨ close = '\x7d')
    (hsplit : ∀ b ∈ l, ∀ b' ∈ l', ∀ r r', Ends r → Ends r' → f b ++ r = f b' ++ r' →
      R b b' ∧ r = r')
    (h : commaTail (l.map f) ++ close :: r = commaTail (l'.map f) ++ close :: r') :
    List.Forall₂ R l l' ∧ r = r' := by
  have hcomma : close ≠ ',' := by
    obtain rfl | rfl := hclose <;> decide
  induction l generalizing l' with
  | nil =>
    cases l' with
    | nil =>
      injection h with _ hr
      exact ⟨.nil, hr⟩
    | cons b' l' =>
      injection h with hc
      exact absurd hc hcomma
  | cons b l ih =>
    cases l' with
    | nil =>
      injection h with hc
      exact absurd hc.symm hcomma
    | cons b' l' =>
      simp only [List.map_cons, commaTail, List.cons_append, List.cons.injEq, true_and,
        List.append_assoc] at h
      obtain ⟨hb, hrest⟩ := hsplit b (by simp) b' (by simp) _ _ (commaTail_ends hclose)
        (commaTail_ends hclose) h
      obtain ⟨hl, hr⟩ := ih (fun x hx x' hx' => hsplit x (by simp [hx]) x' (by simp [hx'])) hrest
      exact ⟨.cons hb hl, hr⟩

/-- A bracketed list of texts is read back in one way only. -/
theorem commaJoin_split (hclose : close = ']' ∨ close = '\x7d')
    (hhead : ∀ b, b ∈ l ∨ b ∈ l' → ∃ c cs, f b = c :: cs ∧ c ≠ close)
    (hsplit : ∀ b ∈ l, ∀ b' ∈ l', ∀ r r', Ends r → Ends r' → f b ++ r = f b' ++ r' →
      R b b' ∧ r = r')
    (h : commaJoin (l.map f) ++ close :: r = commaJoin (l'.map f) ++ close :: r') :
    List.Forall₂ R l l' ∧ r = r' := by
  cases l with
  | nil =>
    cases l' with
    | nil =>
      injection h with _ hr
      exact ⟨.nil, hr⟩
    | cons b' l' =>
      obtain ⟨c, cs, hc, hne⟩ := hhead b' (by simp)
      simp only [List.map_cons, commaJoin, hc, List.cons_append, List.map_nil, List.nil_append] at h
      injection h with hcc
      exact absurd hcc.symm hne
  | cons b l =>
    cases l' with
    | nil =>
      obtain ⟨c, cs, hc, hne⟩ := hhead b (by simp)
      simp only [List.map_cons, commaJoin, hc, List.cons_append, List.map_nil, List.nil_append] at h
      injection h with hcc
      exact absurd hcc hne
    | cons b' l' =>
      simp only [List.map_cons, commaJoin, List.append_assoc] at h
      obtain ⟨hb, hrest⟩ := hsplit b (by simp) b' (by simp) _ _ (commaTail_ends hclose)
        (commaTail_ends hclose) h
      obtain ⟨hl, hr⟩ := commaTail_split hclose
        (fun x hx x' hx' => hsplit x (by simp [hx]) x' (by simp [hx'])) hrest
      exact ⟨.cons hb hl, hr⟩

end Join

section Sorting

variable (cmp : κ → κ → Ordering)

def keyLe (m m' : κ × β) : Prop := (cmp m.1 m'.1).isLE = true

instance : DecidableRel (keyLe (β := β) cmp) := fun m m' =>
  inferInstanceAs (Decidable ((cmp m.1 m'.1).isLE = true))

def sortByKey (l : List (κ × β)) : List (κ × β) := l.insertionSort (keyLe cmp)

variable {cmp}

theorem sortByKey_perm (l : List (κ × β)) : (sortByKey cmp l).Perm l := List.perm_insertionSort _ l

theorem sortByKey_map {γ : Type} (f : κ × β → γ) (l : List (κ × β)) :
    sortByKey cmp (l.map (fun m => (m.1, f m))) = (sortByKey cmp l).map (fun m => (m.1, f m)) := by
  symm
  apply List.map_insertionSort
  exact fun _ _ _ _ => Iff.rfl

theorem sortByKey_eq_of_perm [Std.TransCmp cmp] [Std.LawfulEqCmp cmp] {l l' : List (κ × β)}
    (hp : l.Perm l') (hk : (l.map Prod.fst).Nodup) : sortByKey cmp l = sortByKey cmp l' := by
  have htotal : Std.Total (keyLe (β := β) cmp) := by
    refine ⟨fun m m' => ?_⟩
    simp only [keyLe]
    cases h : cmp m.1 m'.1 with
    | lt | eq => exact .inl rfl
    | gt =>
      right
      have hswap : cmp m'.1 m.1 = (cmp m.1 m'.1).swap := Std.OrientedCmp.eq_swap
      rw [hswap, h]
      rfl
  have htrans : IsTrans (κ × β) (keyLe (β := β) cmp) := ⟨fun _ _ _ => Std.TransCmp.isLE_trans⟩
  have hsorted : ∀ u : List (κ × β), (sortByKey cmp u).Pairwise (keyLe cmp) :=
    List.pairwise_insertionSort _
  refine List.Perm.eq_of_pairwise ?_ (hsorted l) (hsorted l') ((sortByKey_perm l).trans (hp.trans (sortByKey_perm l').symm))
  intro m m' hm hm' hle hge
  have hkey : m.1 = m'.1 := Std.LawfulEqCmp.eq_of_compare (Std.OrientedCmp.isLE_antisymm hle hge)
  have hml : m ∈ l := (sortByKey_perm l).mem_iff.mp hm
  have hml' : m' ∈ l := hp.mem_iff.mpr ((sortByKey_perm l').mem_iff.mp hm')
  exact List.inj_on_of_nodup_map hk hml hml' hkey

end Sorting

section Render

variable (keyText : κ → List Char) (leafText : α → List Char) (cmp : κ → κ → Ordering)

mutual

/-- The text of a tree. The members of an object stand in the order of their
keys; each is rendered before the sort, which looks at the key only. -/
def render : Tree κ α → List Char
  | .leaf a => leafText a
  | .arr items => '[' :: (commaJoin (renderItems items) ++ [']'])
  | .obj members => '\x7b' :: (commaJoin ((sortByKey cmp (renderMembers members)).map Prod.snd) ++ ['\x7d'])

def renderItems : List (Tree κ α) → List (List Char)
  | [] => []
  | t :: l => render t :: renderItems l

def renderMembers : List (κ × Tree κ α) → List (κ × List Char)
  | [] => []
  | (key, t) :: l => (key, keyText key ++ ':' :: render t) :: renderMembers l

end

variable {keyText leafText cmp}

def renderMember (keyText : κ → List Char) (leafText : α → List Char) (cmp : κ → κ → Ordering)
    (m : κ × Tree κ α) : List Char := keyText m.1 ++ ':' :: render keyText leafText cmp m.2

theorem renderItems_eq (l : List (Tree κ α)) :
    renderItems keyText leafText cmp l = l.map (render keyText leafText cmp) := by
  induction l with
  | nil => rw [renderItems, List.map_nil]
  | cons t l ih => rw [renderItems, List.map_cons, ih]

theorem renderMembers_eq (l : List (κ × Tree κ α)) : renderMembers keyText leafText cmp l =
    l.map (fun m => (m.1, renderMember keyText leafText cmp m)) := by
  induction l with
  | nil => rw [renderMembers, List.map_nil]
  | cons m l ih => rw [renderMembers, List.map_cons, ih, renderMember]

theorem render_arr (l : List (Tree κ α)) : render keyText leafText cmp (.arr l) =
    '[' :: (commaJoin (l.map (render keyText leafText cmp)) ++ [']']) := by
  rw [render, renderItems_eq]

theorem render_obj (l : List (κ × Tree κ α)) : render keyText leafText cmp (.obj l) =
    '\x7b' :: (commaJoin ((sortByKey cmp l).map (renderMember keyText leafText cmp)) ++ ['\x7d']) := by
  rw [render, renderMembers_eq, sortByKey_map, List.map_map]
  rfl

theorem Reorder.render_eq [Std.TransCmp cmp] [Std.LawfulEqCmp cmp] {ok : α → Prop} {t u : Tree κ α}
    (h : Reorder t u) (ht : t.WellFormed ok) :
    render keyText leafText cmp t = render keyText leafText cmp u := by
  induction h with
  | refl => rfl
  | trans h _ ih ih' => exact (ih ht).trans (ih' (h.wellFormed ht))
  | perm hp =>
    obtain ⟨⟩ | ⟨⟩ | ⟨hk, _⟩ := ht
    rw [render_obj, render_obj, sortByKey_eq_of_perm hp hk]
  | item before after _ ih =>
    obtain ⟨⟩ | ⟨hl⟩ := ht
    rw [render_arr, render_arr, List.map_append, List.map_cons, List.map_append, List.map_cons,
      ih (hl _ (by simp))]
  | member key before after _ ih =>
    obtain ⟨⟩ | ⟨⟩ | ⟨_, hl⟩ := ht
    rw [render, render, renderMembers_eq, renderMembers_eq, List.map_append, List.map_cons,
      List.map_append, List.map_cons, renderMember, renderMember, ih (hl (key, _) (by simp))]

variable {ok : α → Prop} (hkey : SelfDelimiting keyText) (hleaf : Delimited leafText ok)

include hleaf in
theorem render_head {t : Tree κ α} (ht : t.WellFormed ok) :
    ∃ c cs, render keyText leafText cmp t = c :: cs ∧ c ≠ ']' := by
  cases ht with
  | @leaf a ha =>
    obtain ⟨c, cs, hc, _, _, hne⟩ := hleaf.head a ha
    exact ⟨c, cs, by rw [render, hc], hne⟩
  | arr => exact ⟨_, _, render_arr _, by decide⟩
  | obj => exact ⟨_, _, render_obj _, by decide⟩

include hkey in
theorem renderMember_head (m : κ × Tree κ α) :
    ∃ c cs, renderMember keyText leafText cmp m = c :: cs ∧ c ≠ '\x7d' := by
  obtain ⟨c, cs, hc, hne⟩ := hkey.head m.1
  exact ⟨c, _, by rw [renderMember, hc, List.cons_append], hne⟩

include hkey hleaf in
/-- A text is read back in one way only. -/
theorem render_split {t : Tree κ α} (ht : t.WellFormed ok) : ∀ {u : Tree κ α} {r r' : List Char},
    u.WellFormed ok → Ends r → Ends r' →
    render keyText leafText cmp t ++ r = render keyText leafText cmp u ++ r' →
    Reorder t u ∧ r = r' := by
  induction ht with
  | @leaf a ha =>
    intro u r r' hu hr hr' h
    obtain ⟨c, cs, hc, hne, hne', _⟩ := hleaf.head a ha
    cases hu with
    | leaf hb =>
      simp only [render] at h
      obtain ⟨rfl, hrr⟩ := hleaf.split ha hb hr hr' h
      exact ⟨.refl _, hrr⟩
    | arr =>
      rw [render, hc, render_arr] at h
      injection h with hcc
      exact absurd hcc hne
    | obj =>
      rw [render, hc, render_obj] at h
      injection h with hcc
      exact absurd hcc hne'
  | @arr l hl ih =>
    intro u r r' hu hr hr' h
    cases hu with
    | @leaf b hb =>
      obtain ⟨c, cs, hc, hne, _⟩ := hleaf.head b hb
      rw [render_arr, render, hc] at h
      injection h with hcc
      exact absurd hcc.symm hne
    | @arr l' hl' =>
      rw [render_arr, render_arr] at h
      simp only [List.cons_append, List.append_assoc, List.nil_append, List.cons.injEq,
        true_and] at h
      have hhead : ∀ b, b ∈ l ∨ b ∈ l' →
          ∃ c cs, render keyText leafText cmp b = c :: cs ∧ c ≠ ']' :=
        fun b hb => render_head hleaf (hb.elim (hl b) (hl' b))
      obtain ⟨hall, hrr⟩ := commaJoin_split (.inl rfl) hhead
        (fun b hb b' hb' _ _ hs hs' he => ih b hb (hl' b' hb') hs hs' he) h
      exact ⟨Reorder.items hall [], hrr⟩
    | obj =>
      rw [render_arr, render_obj] at h
      injection h with hcc
      exact absurd hcc (by decide)
  | @obj l hk hl ih =>
    intro u r r' hu hr hr' h
    cases hu with
    | @leaf b hb =>
      obtain ⟨c, cs, hc, _, hne, _⟩ := hleaf.head b hb
      rw [render_obj, render, hc] at h
      injection h with hcc
      exact absurd hcc.symm hne
    | arr =>
      rw [render_obj, render_arr] at h
      injection h with hcc
      exact absurd hcc (by decide)
    | @obj l' hk' hl' =>
      rw [render_obj, render_obj] at h
      simp only [List.cons_append, List.append_assoc, List.nil_append, List.cons.injEq,
        true_and] at h
      have hmem : ∀ m ∈ sortByKey cmp l, m ∈ l := fun m hm => (sortByKey_perm l).mem_iff.mp hm
      have hmem' : ∀ m ∈ sortByKey cmp l', m ∈ l' := fun m hm => (sortByKey_perm l').mem_iff.mp hm
      obtain ⟨hall, hrr⟩ := commaJoin_split (R := fun m m' => m.1 = m'.1 ∧ Reorder m.2 m'.2)
        (.inr rfl) (fun m _ => renderMember_head hkey m) (by
          intro m hm m' hm' s s' hs hs' he
          simp only [renderMember, List.append_assoc, List.cons_append] at he
          obtain ⟨hkk, he⟩ := hkey.split he
          injection he with _ he
          obtain ⟨hval, hss⟩ := ih m (hmem m hm) (hl' m' (hmem' m' hm')) hs hs' he
          exact ⟨⟨hkk, hval⟩, hss⟩) h
      -- the members in the order of the source, sorted, read back, and in their order again
      refine ⟨?_, hrr⟩
      exact (Reorder.perm (sortByKey_perm l).symm).trans
        ((Reorder.members hall []).trans (.perm (sortByKey_perm l')))

include hkey hleaf in
theorem render_eq_iff [Std.TransCmp cmp] [Std.LawfulEqCmp cmp] {t u : Tree κ α}
    (ht : t.WellFormed ok) (hu : u.WellFormed ok) :
    render keyText leafText cmp t = render keyText leafText cmp u ↔ Reorder t u := by
  constructor
  · intro h
    exact (render_split hkey hleaf ht hu .nil .nil (congrArg (· ++ []) h)).1
  · exact fun h => h.render_eq ht

end Render

end Bitmine.Lib.CanonicalTree
