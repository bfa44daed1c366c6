import Bitmine.Lib.CanonicalTree
import Bitmine.Lib.IsoDate
import Bitmine.Lib.JsonText
import Bitmine.Schema

namespace Bitmine.AuditEvents

open Bitmine.Lib.CanonicalTree Bitmine.Lib.IsoDate Bitmine.Lib.JsonText.Json Bitmine.Schema

/-- The leaves that `canonical` renders: those of parsed JSON, and big integers. A
number stands as the text that `String` gives of it. -/
inductive Scalar where
  | null
  | bool (b : Bool)
  | num (text : String)
  | str (s : String)
  | bigint (n : ℤ)

inductive Input where
  | undefined
  | null
  | bool (b : Bool)
  | num (text : String)
  | bigint (n : ℤ)
  | str (s : String)
  | date (time : Option Instant)

def numeric (c : Char) : Bool := c.isDigit || c = '-' || c = '+' || c = '.' || c = 'e'

def isFinite (text : String) : Bool :=
  text.toList.head?.any (fun c => c.isDigit || c = '-') && text.toList.all numeric

def Plain : Scalar → Prop
  | .num text => isFinite text = true
  | .bigint _ => False
  | _ => True

def scalarText : Scalar → List Char
  | .null => ['n', 'u', 'l', 'l']
  | .bool true => ['t', 'r', 'u', 'e']
  | .bool false => ['f', 'a', 'l', 's', 'e']
  | .num text => text.toList
  | .str s => (quote s).toList
  | .bigint n => (quote (toString n)).toList

section JsonSafe

mutual

/-- `JSON.parse(JSON.stringify(value, replacer))`; nothing is left of `undefined`. -/
def jsonSafe : Tree String Input → Option (Tree String Scalar)
  | .leaf .undefined => none
  | .leaf .null => some (.leaf .null)
  | .leaf (.bool b) => some (.leaf (.bool b))
  | .leaf (.num text) => some (.leaf (if isFinite text then .num text else .null))
  | .leaf (.bigint n) => some (.leaf (.str (toString n)))
  | .leaf (.str s) => some (.leaf (.str s))
  | .leaf (.date (some time)) => some (.leaf (.str (toISOString time)))
  | .leaf (.date none) => some (.leaf .null)
  | .arr items => some (.arr (safeItems items))
  | .obj members => some (.obj (safeMembers members))

def safeItems : List (Tree String Input) → List (Tree String Scalar)
  | [] => []
  | t :: l => (jsonSafe t).getD (.leaf .null) :: safeItems l

def safeMembers : List (String × Tree String Input) → List (String × Tree String Scalar)
  | [] => []
  | (key, t) :: l =>
    match jsonSafe t with
    | some u => (key, u) :: safeMembers l
    | none => safeMembers l

end

theorem mem_safeItems {l : List (Tree String Input)} {u : Tree String Scalar} (h : u ∈ safeItems l) :
    ∃ t ∈ l, u = (jsonSafe t).getD (.leaf .null) := by
  induction l with
  | nil =>
    rw [safeItems] at h
    cases h
  | cons t l ih =>
    rw [safeItems] at h
    obtain rfl | h := List.mem_cons.mp h
    · exact ⟨t, by simp, rfl⟩
    · obtain ⟨t', ht', he⟩ := ih h
      exact ⟨t', by simp [ht'], he⟩

theorem mem_safeMembers {l : List (String × Tree String Input)} {m : String × Tree String Scalar}
    (h : m ∈ safeMembers l) : ∃ t, (m.1, t) ∈ l ∧ jsonSafe t = some m.2 := by
  induction l with
  | nil =>
    rw [safeMembers] at h
    cases h
  | cons n l ih =>
    obtain ⟨key, t⟩ := n
    have hrest : m ∈ safeMembers l → ∃ t', (m.1, t') ∈ (key, t) :: l ∧ jsonSafe t' = some m.2 := by
      intro hm
      obtain ⟨t', ht', he⟩ := ih hm
      exact ⟨t', List.mem_cons_of_mem _ ht', he⟩
    rw [safeMembers] at h
    split at h
    · rename_i u hu
      obtain rfl | h := List.mem_cons.mp h
      · exact ⟨t, by simp, hu⟩
      · exact hrest h
    · exact hrest h

theorem keys_safeMembers (l : List (String × Tree String Input)) :
    List.Sublist ((safeMembers l).map Prod.fst) (l.map Prod.fst) := by
  induction l with
  | nil =>
    rw [safeMembers]
    exact List.Sublist.refl _
  | cons n l ih =>
    obtain ⟨key, t⟩ := n
    rw [safeMembers]
    split
    · exact ih.cons_cons key
    · exact ih.cons key

/-- What is left is JSON. -/
theorem jsonSafe_wellFormed {t : Tree String Input} (ht : t.WellFormed (fun _ => True)) :
    ∀ {u : Tree String Scalar}, jsonSafe t = some u → u.WellFormed Plain := by
  induction ht with
  | @leaf a _ =>
    intro u h
    cases a with
    | undefined => simp [jsonSafe] at h
    | null | bool | bigint | str =>
      simp only [jsonSafe, Option.some.injEq] at h
      subst h
      exact .leaf trivial
    | num text =>
      simp only [jsonSafe, Option.some.injEq] at h
      subst h
      refine .leaf ?_
      split
      · assumption
      · trivial
    | date time =>
      cases time <;> simp only [jsonSafe, Option.some.injEq] at h <;> subst h <;> exact .leaf trivial
  | @arr l _ ih =>
    intro u h
    simp only [jsonSafe, Option.some.injEq] at h
    subst h
    refine .arr (fun v hv => ?_)
    obtain ⟨t, ht, rfl⟩ := mem_safeItems hv
    cases hs : jsonSafe t with
    | none => exact .leaf trivial
    | some v => exact ih t ht hs
  | @obj l hk _ ih =>
    intro u h
    simp only [jsonSafe, Option.some.injEq] at h
    subst h
    refine .obj (hk.sublist (keys_safeMembers l)) (fun m hm => ?_)
    obtain ⟨t, ht, hs⟩ := mem_safeMembers hm
    exact ih (m.1, t) ht hs

end JsonSafe

abbrev Json := { t : Tree String Scalar // t.WellFormed Plain }

abbrev Value := { t : Tree String Input // t.WellFormed (fun _ => True) }

theorem null_wellFormed : (.leaf .null : Tree String Scalar).WellFormed Plain := .leaf trivial

/-- The value of a column; `undefined` is stored as null. -/
def column (value : Value) : Json :=
  match h : jsonSafe value.1 with
  | some u => ⟨u, jsonSafe_wellFormed value.2 h⟩
  | none => ⟨.leaf .null, null_wellFormed⟩

section Texts

theorem quote_head (s : String) : ∃ cs, (quote s).toList = '"' :: cs := ⟨_, quote_toList s⟩

theorem quote_selfDelimiting : SelfDelimiting (fun key : String => (quote key).toList) where
  head key := by
    obtain ⟨cs, hcs⟩ := quote_head key
    exact ⟨'"', cs, hcs, by decide⟩
  split h := quote_split h

theorem isFinite_head {text : String} (h : isFinite text = true) :
    ∃ c cs, text.toList = c :: cs ∧ (c.isDigit = true ∨ c = '-') := by
  simp only [isFinite, Bool.and_eq_true] at h
  obtain ⟨hhead, _⟩ := h
  cases ht : text.toList with
  | nil =>
    rw [ht] at hhead
    cases hhead
  | cons c cs =>
    rw [ht] at hhead
    exact ⟨c, cs, rfl, by simpa using hhead⟩

theorem takeWhile_numeric {text : String} (h : isFinite text = true) {r : List Char} (hr : Ends r) :
    (text.toList ++ r).takeWhile numeric = text.toList := by
  simp only [isFinite, Bool.and_eq_true, List.all_eq_true] at h
  rw [List.takeWhile_append_of_pos h.2]
  cases r with
  | nil => rw [List.takeWhile_nil, List.append_nil]
  | cons c r =>
    have hc : numeric c = false := by
      obtain rfl | rfl | rfl := hr c rfl <;> decide
    rw [List.takeWhile_cons_of_neg (by simp [hc]), List.append_nil]

def kind (c : Char) : ℕ :=
  if c = 'n' then 0 else if c = 't' ∨ c = 'f' then 1 else if c = '"' then 2 else 3

def Scalar.kind : Scalar → ℕ
  | .null => 0
  | .bool _ => 1
  | .str _ | .bigint _ => 2
  | .num _ => 3

theorem scalarText_head {a : Scalar} (ha : Plain a) : ∃ c cs, scalarText a = c :: cs ∧
    AuditEvents.kind c = a.kind ∧ c ≠ '[' ∧ c ≠ '\x7b' ∧ c ≠ ']' := by
  cases a with
  | null => exact ⟨'n', _, rfl, by decide⟩
  | bool b => cases b <;> exact ⟨_, _, rfl, by decide⟩
  | str s =>
    obtain ⟨cs, hcs⟩ := quote_head s
    exact ⟨'"', cs, hcs, rfl, by decide⟩
  | bigint => exact absurd ha id
  | num text =>
    obtain ⟨c, cs, hcs, hc⟩ := isFinite_head ha
    refine ⟨c, cs, hcs, ?_⟩
    obtain hc | rfl := hc
    · have hne : ∀ d : Char, d.isDigit = false → c ≠ d := by
        rintro d hd rfl
        rw [hc] at hd
        cases hd
      simp [AuditEvents.kind, Scalar.kind, hne 'n' (by decide), hne 't' (by decide),
        hne 'f' (by decide), hne '"' (by decide), hne '[' (by decide), hne '\x7b' (by decide),
        hne ']' (by decide)]
    · exact ⟨rfl, by decide⟩

theorem scalarText_delimited : Delimited scalarText Plain where
  head a ha := by
    obtain ⟨c, cs, hc, _, hne⟩ := scalarText_head ha
    exact ⟨c, cs, hc, hne⟩
  split {a b r r'} ha hb hr hr' h := by
    have hkind : a.kind = b.kind := by
      obtain ⟨c, cs, hc, hk, _⟩ := scalarText_head ha
      obtain ⟨d, ds, hd, hk', _⟩ := scalarText_head hb
      rw [hc, hd] at h
      rw [← hk, ← hk', (List.cons.inj h).1]
    cases a with
    | null =>
      cases b with
      | null => exact ⟨rfl, List.append_cancel_left h⟩
      | bool | num | str | bigint => cases hkind
    | bool p =>
      cases b with
      | bool q =>
        cases p <;> cases q
        · exact ⟨rfl, List.append_cancel_left h⟩
        · exact absurd (List.cons.inj h).1 (by decide)
        · exact absurd (List.cons.inj h).1 (by decide)
        · exact ⟨rfl, List.append_cancel_left h⟩
      | null | num | str | bigint => cases hkind
    | num text =>
      cases b with
      | num text' =>
        have hsame : text.toList = text'.toList := by
          rw [← takeWhile_numeric ha hr, ← takeWhile_numeric hb hr']
          exact congrArg (List.takeWhile numeric) h
        obtain rfl := String.toList_inj.mp hsame
        exact ⟨rfl, List.append_cancel_left h⟩
      | null | bool | str | bigint => cases hkind
    | str s =>
      cases b with
      | str s' =>
        obtain ⟨rfl, hr⟩ := quote_split h
        exact ⟨rfl, hr⟩
      | bigint => exact absurd hb id
      | null | bool | num => cases hkind
    | bigint => exact absurd ha id

end Texts

def canonical (localeCompare : String → String → Ordering) (value : Tree String Scalar) : String :=
  String.ofList (render (fun key : String => (quote key).toList) scalarText localeCompare value)

structure Content where
  actorId : Option Id
  action : String
  entityType : String
  entityId : Option String
  ipAddress : Option String
  before : Json
  after : Json
  createdAt : Instant

/-- Equal columns; the order of members in a JSON column does not count. -/
structure Content.Same (c d : Content) : Prop where
  actorId : c.actorId = d.actorId
  action : c.action = d.action
  entityType : c.entityType = d.entityType
  entityId : c.entityId = d.entityId
  ipAddress : c.ipAddress = d.ipAddress
  before : Reorder c.before.1 d.before.1
  after : Reorder c.after.1 d.after.1
  createdAt : c.createdAt = d.createdAt

def textOrNull : Option String → Tree String Scalar
  | some s => .leaf (.str s)
  | none => .leaf .null

def payload (c : Content) (previousHash : Option String) : Tree String Scalar :=
  .obj [("actorId", textOrNull (c.actorId.map toString)), ("action", .leaf (.str c.action)),
    ("entityType", .leaf (.str c.entityType)), ("entityId", textOrNull c.entityId),
    ("ipAddress", textOrNull c.ipAddress), ("before", c.before.1), ("after", c.after.1),
    ("previousHash", textOrNull previousHash), ("createdAt", .leaf (.str (toISOString c.createdAt)))]

section Payload

variable {c d : Content} {p q : Option String}

theorem textOrNull_wellFormed (o : Option String) : (textOrNull o).WellFormed Plain := by
  cases o <;> exact .leaf trivial

theorem payload_wellFormed (c : Content) (p : Option String) : (payload c p).WellFormed Plain := by
  refine .obj (by simp) (fun m hm => ?_)
  simp only [List.mem_cons, List.not_mem_nil, or_false] at hm
  obtain rfl | rfl | rfl | rfl | rfl | rfl | rfl | rfl | rfl := hm
  · exact textOrNull_wellFormed _
  · exact .leaf trivial
  · exact .leaf trivial
  · exact textOrNull_wellFormed _
  · exact textOrNull_wellFormed _
  · exact c.before.2
  · exact c.after.2
  · exact textOrNull_wellFormed _
  · exact .leaf trivial

theorem textOrNull_reorder {o o' : Option String} (h : Reorder (textOrNull o) (textOrNull o')) :
    o = o' := by
  cases o <;> cases o' <;> have hl := h.leaf_inj <;> cases hl <;> rfl

theorem text_reorder {s t : String}
    (h : Reorder (.leaf (.str s) : Tree String Scalar) (.leaf (.str t))) : s = t := by
  cases h.leaf_inj
  rfl

/-- The payloads are the same data exactly when the columns and the link are. -/
theorem payload_reorder : Reorder (payload c p) (payload d q) ↔ c.Same d ∧ p = q := by
  constructor
  · intro h
    have hget := h.get? (payload_wellFormed c p)
    -- one member of the object after the other
    have hfield : ∀ key t u, (payload c p).get? key = some t → (payload d q).get? key = some u →
        Reorder t u := by
      intro key t u ht hu
      have hrel := hget key
      rw [ht, hu] at hrel
      cases hrel with
      | some hr => exact hr
    refine ⟨⟨?_, text_reorder (hfield "action" _ _ rfl rfl),
      text_reorder (hfield "entityType" _ _ rfl rfl), textOrNull_reorder (hfield "entityId" _ _ rfl rfl),
      textOrNull_reorder (hfield "ipAddress" _ _ rfl rfl), hfield "before" _ _ rfl rfl,
      hfield "after" _ _ rfl rfl, ?_⟩, textOrNull_reorder (hfield "previousHash" _ _ rfl rfl)⟩
    · have hactor := textOrNull_reorder (hfield "actorId" _ _ rfl rfl)
      exact Option.map_injective (fun m n hmn => Nat.repr_injective hmn) hactor
    · exact toISOString_injective (text_reorder (hfield "createdAt" _ _ rfl rfl))
  · rintro ⟨h, rfl⟩
    rw [payload, payload, h.actorId, h.action, h.entityType, h.entityId, h.ipAddress, h.createdAt]
    refine Reorder.members ?_ []
    have hsame : ∀ m : String × Tree String Scalar, m.1 = m.1 ∧ Reorder m.2 m.2 :=
      fun m => ⟨rfl, .refl _⟩
    exact .cons (hsame _) (.cons (hsame _) (.cons (hsame _) (.cons (hsame _) (.cons (hsame _)
      (.cons ⟨rfl, h.before⟩ (.cons ⟨rfl, h.after⟩ (.cons (hsame _) (.cons (hsame _) .nil))))))))

theorem canonical_payload {localeCompare : String → String → Ordering} [Std.TransCmp localeCompare]
    [Std.LawfulEqCmp localeCompare] :
    canonical localeCompare (payload c p) = canonical localeCompare (payload d q) ↔
      c.Same d ∧ p = q := by
  rw [canonical, canonical, String.ofList_inj, ← payload_reorder]
  exact render_eq_iff quote_selfDelimiting scalarText_delimited (payload_wellFormed c p)
    (payload_wellFormed d q)

end Payload

end Bitmine.AuditEvents
