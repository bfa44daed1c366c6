import Mathlib

namespace Bitmine.Lib.UniqueTable

/-- A row with its primary key and the columns of a second unique index. Rows
whose indexed columns contain a null are exempt from the second index. -/
class Row (α : Type) where
  Id : Type
  Uniq : Type
  [decId : DecidableEq Id]
  [decUniq : DecidableEq Uniq]
  id : α → Id
  uniq : α → Option Uniq

variable {α : Type} [Row α]

/-- Two rows that no table may hold together. -/
def Clash (a b : α) : Prop :=
  Row.id a = Row.id b ∨ (Row.uniq a = Row.uniq b ∧ (Row.uniq a).isSome = true)

instance (a b : α) : Decidable (Clash a b) :=
  letI : DecidableEq (Row.Id α) := Row.decId
  letI : DecidableEq (Row.Uniq α) := Row.decUniq
  inferInstanceAs (Decidable (_ ∨ _))

theorem Clash.symm {a b : α} (h : Clash a b) : Clash b a :=
  h.imp Eq.symm (fun ⟨he, hs⟩ => ⟨he.symm, he ▸ hs⟩)

structure Table (α : Type) [Row α] where
  rows : List α
  unique : rows.Pairwise (fun a b => ¬ Clash a b)

def KeepsKeys (f : α → α) : Prop := ∀ a, Row.id (f a) = Row.id a ∧ Row.uniq (f a) = Row.uniq a

namespace Table

def empty : Table α := ⟨[], .nil⟩

def single (a : α) : Table α := ⟨[a], List.pairwise_singleton _ _⟩

def insert (t : Table α) (a : α) : Option (Table α) :=
  if h : ∀ b ∈ t.rows, ¬ Clash b a then
    some ⟨t.rows ++ [a], List.pairwise_append.mpr
      ⟨t.unique, List.pairwise_singleton _ _, fun b hb c hc => by
        rw [List.mem_singleton.mp hc]; exact h b hb⟩⟩
  else none

def insertAll (t : Table α) (l : List α) : Option (Table α) := l.foldlM insert t

def update (t : Table α) (p : α → Bool) (f : α → α) (hf : KeepsKeys f) : Table α :=
  ⟨t.rows.map (fun a => if p a then f a else a), by
    refine List.pairwise_map.mpr (t.unique.imp ?_)
    intro a b hab
    have hi : ∀ c, Row.id (if p c then f c else c) = Row.id c := by
      intro c; split <;> simp [(hf c).1]
    have hu : ∀ c, Row.uniq (if p c then f c else c) = Row.uniq c := by
      intro c; split <;> simp [(hf c).2]
    simpa only [Clash, hi, hu] using hab⟩

def delete (t : Table α) (p : α → Bool) : Table α :=
  ⟨t.rows.filter (fun a => !p a), t.unique.filter _⟩

def find? (t : Table α) (p : α → Bool) : Option α := t.rows.find? p

def upsert (t : Table α) (p : α → Bool) (create : α) (f : α → α) (hf : KeepsKeys f) :
    Option (Table α) :=
  if t.rows.any p then some (t.update p f hf) else t.insert create

@[simp] theorem empty_rows : (empty : Table α).rows = [] := rfl

@[simp] theorem single_rows (a : α) : (single a).rows = [a] := rfl

theorem insert_eq_some {t t' : Table α} {a : α} (h : t.insert a = some t') :
    t'.rows = t.rows ++ [a] ∧ ∀ b ∈ t.rows, ¬ Clash b a := by
  rw [insert] at h
  split at h
  · rename_i hf
    cases h
    exact ⟨rfl, hf⟩
  · cases h

theorem insertAll_eq_some {t t' : Table α} {l : List α} (h : t.insertAll l = some t') :
    t'.rows = t.rows ++ l := by
  induction l generalizing t with
  | nil =>
    cases h
    simp
  | cons a l ih =>
    simp only [insertAll, List.foldlM_cons, Option.bind_eq_bind, Option.bind_eq_some_iff] at h
    obtain ⟨u, hu, hl⟩ := h
    rw [ih hl, (insert_eq_some hu).1, List.append_assoc, List.singleton_append]

@[simp] theorem update_rows (t : Table α) (p : α → Bool) (f : α → α) (hf : KeepsKeys f) :
    (t.update p f hf).rows = t.rows.map (fun a => if p a then f a else a) := rfl

theorem rows_nodup (t : Table α) : t.rows.Nodup := by
  apply t.unique.imp
  rintro a b hab rfl
  exact hab (.inl rfl)

theorem eq_of_clash (t : Table α) {a b : α} (ha : a ∈ t.rows) (hb : b ∈ t.rows)
    (h : Clash a b) : a = b := by
  by_contra hne
  have hs : Std.Symm (fun a b : α => ¬ Clash a b) := ⟨fun c d hcd hdc => hcd hdc.symm⟩
  exact t.unique.forall ha hb hne h

theorem eq_of_id (t : Table α) {a b : α} (ha : a ∈ t.rows) (hb : b ∈ t.rows)
    (h : Row.id a = Row.id b) : a = b := t.eq_of_clash ha hb (.inl h)

theorem filter_length_le_one (t : Table α) {p : α → Bool}
    (hp : ∀ a ∈ t.rows, ∀ b ∈ t.rows, p a = true → p b = true → Clash a b) :
    (t.rows.filter p).length ≤ 1 := by
  have hnodup : (t.rows.filter p).Nodup := t.rows_nodup.filter p
  match hl : t.rows.filter p with
  | [] => simp
  | [a] => simp
  | a :: b :: rest =>
    have ha : a ∈ t.rows.filter p := by simp [hl]
    have hb : b ∈ t.rows.filter p := by simp [hl]
    rw [List.mem_filter] at ha hb
    have hab := t.eq_of_clash ha.1 hb.1 (hp a ha.1 b hb.1 ha.2 hb.2)
    simp [hl, hab] at hnodup

theorem find?_mem {t : Table α} {p : α → Bool} {a : α} (h : t.find? p = some a) :
    a ∈ t.rows ∧ p a = true :=
  ⟨List.mem_of_find?_eq_some h, List.find?_some h⟩

theorem find?_eq_of_mem {t : Table α} {p : α → Bool} {a : α} (ha : a ∈ t.rows) (hp : p a = true)
    (hc : ∀ b ∈ t.rows, p b = true → Clash b a) : t.find? p = some a := by
  cases hf : t.find? p with
  | none => exact absurd hp (by simpa using List.find?_eq_none.mp hf a ha)
  | some b =>
    obtain ⟨hb, hpb⟩ := find?_mem hf
    rw [t.eq_of_clash hb ha (hc b hb hpb)]

theorem find?_none {t : Table α} {p : α → Bool} (h : t.find? p = none) {a : α}
    (ha : a ∈ t.rows) : p a = false := by
  simpa using List.find?_eq_none.mp h a ha

theorem mem_update {t : Table α} {p : α → Bool} {f : α → α} {hf : KeepsKeys f} {b : α}
    (h : b ∈ (t.update p f hf).rows) : ∃ a ∈ t.rows, b = (if p a then f a else a) := by
  rw [update_rows, List.mem_map] at h
  obtain ⟨a, ha, he⟩ := h
  exact ⟨a, ha, he.symm⟩

theorem mem_update_of_mem {t : Table α} {p : α → Bool} {f : α → α} {hf : KeepsKeys f} {a : α}
    (h : a ∈ t.rows) : (if p a then f a else a) ∈ (t.update p f hf).rows := by
  rw [update_rows]
  exact List.mem_map_of_mem h

theorem find?_update {t : Table α} {p q : α → Bool} {f : α → α} {hf : KeepsKeys f}
    (hq : ∀ a, q (f a) = q a) :
    (t.update p f hf).find? q = (t.find? q).map (fun a => if p a then f a else a) := by
  have hcomp : q ∘ (fun a => if p a then f a else a) = q := by
    funext a
    simp only [Function.comp_apply]
    split
    · exact hq a
    · rfl
  rw [find?, update_rows, List.find?_map, hcomp, find?]

theorem find?_insert {t t' : Table α} {q : α → Bool} {a : α} (h : t.insert a = some t') :
    t'.find? q = (t.find? q).or (if q a then some a else none) := by
  rw [find?, (insert_eq_some h).1, List.find?_append, List.find?_singleton, find?]

theorem mem_upsert_of_mem {t t' : Table α} {p : α → Bool} {create : α} {f : α → α}
    {hf : KeepsKeys f} (h : t.upsert p create f hf = some t') {a : α} (ha : a ∈ t.rows)
    (hp : p a = false) : a ∈ t'.rows := by
  rw [upsert] at h
  split at h
  · cases h
    rw [update_rows]
    exact List.mem_map.mpr ⟨a, ha, by simp [hp]⟩
  · rw [(insert_eq_some h).1]
    exact List.mem_append_left _ ha

end Table

/-- Rewriting one row of a duplicate-free list moves a sum by the change at that row. -/
theorem sum_map_rewrite {α : Type} (g : α → ℤ) (f : α → α) (p : α → Bool) {l : List α}
    (hn : l.Nodup) {a : α} (ha : a ∈ l) (hp : ∀ b ∈ l, p b = true ↔ b = a) :
    ((l.map (fun b => if p b then f b else b)).map g).sum = (l.map g).sum - g a + g (f a) := by
  induction l with
  | nil => simp at ha
  | cons c l ih =>
    obtain ⟨hc, hl⟩ := List.nodup_cons.mp hn
    by_cases hca : c = a
    · subst c
      have hpa : p a = true := (hp a (by simp)).mpr rfl
      have htail : l.map (fun b => if p b then f b else b) = l := by
        refine (List.map_congr_left ?_).trans (List.map_id l)
        intro b hb
        have hpb : ¬ p b = true := fun h => hc (by rw [← (hp b (by simp [hb])).mp h]; exact hb)
        simp [hpb]
      simp only [List.map_cons, htail, hpa, ↓reduceIte, List.sum_cons]
      ring
    · have hal : a ∈ l := (List.mem_cons.mp ha).resolve_left (Ne.symm hca)
      have hpc : ¬ p c = true := fun h => hca ((hp c (by simp)).mp h)
      have hi := ih hl hal (fun b hb => hp b (by simp [hb]))
      simp only [List.map_cons, hpc, Bool.false_eq_true, ↓reduceIte, List.sum_cons, hi]
      ring

section Rows

variable {α κ : Type} {key : α → κ} {R : α → α → Prop} {l l' l'' : List α}

/-- Rows keep their key and stay related to what they were; a row with another
origin has a new key. -/
structure Descends (key : α → κ) (R : α → α → Prop) (l l' : List α) : Prop where
  origin : ∀ x' ∈ l', (∃ x ∈ l, key x = key x' ∧ R x x') ∨ ∀ x ∈ l, key x ≠ key x'
  kept : ∀ x ∈ l, ∃ x' ∈ l', key x = key x'

theorem Descends.of_map {f : α → α} (hkey : ∀ x, key (f x) = key x) (hR : ∀ x, R x (f x))
    (h : l' = l.map f) : Descends key R l l' := by
  subst h
  refine ⟨fun x' hx' => .inl ?_, fun x hx => ⟨f x, List.mem_map_of_mem hx, (hkey x).symm⟩⟩
  obtain ⟨x, hx, rfl⟩ := List.mem_map.mp hx'
  exact ⟨x, hx, (hkey x).symm, hR x⟩

theorem Descends.of_update {p : α → Prop} [DecidablePred p] (f : α → α) (hR : ∀ x, R x x)
    (hf : ∀ x, key (f x) = key x ∧ R x (f x)) (h : l' = l.map (fun x => if p x then f x else x)) :
    Descends key R l l' := by
  refine .of_map (f := fun x => if p x then f x else x) (fun x => ?_) (fun x => ?_) h
  · split
    · exact (hf x).1
    · rfl
  · split
    · exact (hf x).2
    · exact hR x

theorem Descends.refl (hR : ∀ x, R x x) : Descends key R l l :=
  .of_map (f := fun x => x) (fun _ => rfl) hR (by simp)

theorem Descends.of_append {y : α} (hR : ∀ x, R x x) (hy : ∀ x ∈ l, key x ≠ key y)
    (h : l' = l ++ [y]) : Descends key R l l' := by
  subst h
  refine ⟨fun x' hx' => ?_, fun x hx => ⟨x, List.mem_append_left _ hx, rfl⟩⟩
  obtain hx' | hx' := List.mem_append.mp hx'
  · exact .inl ⟨x', hx', rfl, hR x'⟩
  · rw [List.mem_singleton.mp hx']
    exact .inr hy

theorem Descends.trans (hR : ∀ x y z, R x y → R y z → R x z) (h : Descends key R l l')
    (h' : Descends key R l' l'') : Descends key R l l'' := by
  refine ⟨fun z hz => ?_, fun x hx => ?_⟩
  · obtain ⟨y, hy, hk, hr⟩ | hnew := h'.origin z hz
    · obtain ⟨x, hx, hk', hr'⟩ | hnew := h.origin y hy
      · exact .inl ⟨x, hx, hk'.trans hk, hR x y z hr' hr⟩
      · exact .inr (fun x hx => hk ▸ hnew x hx)
    · refine .inr (fun x hx => ?_)
      obtain ⟨y, hy, hk⟩ := h.kept x hx
      exact hk ▸ hnew y hy
  · obtain ⟨y, hy, hk⟩ := h.kept x hx
    obtain ⟨z, hz, hk'⟩ := h'.kept y hy
    exact ⟨z, hz, hk.trans hk'⟩

theorem Descends.mono {R' : α → α → Prop} (hR : ∀ x x', R x x' → R' x x')
    (h : Descends key R l l') : Descends key R' l l' := by
  refine ⟨fun x' hx' => ?_, h.kept⟩
  obtain ⟨x, hx, hk, hr⟩ | hnew := h.origin x' hx'
  · exact .inl ⟨x, hx, hk, hR x x' hr⟩
  · exact .inr hnew

end Rows

end Bitmine.Lib.UniqueTable
