import Bitmine.Lib.JsonText

namespace Bitmine.Lib.JsonParse

open Bitmine.Lib.JsonText

def isBlank (c : Char) : Bool := c = ' ' || c = '\t' || c = '\n' || c = '\r'

def skip (cs : List Char) : List Char := cs.dropWhile isBlank

section Strings

def hex? (c : Char) : Option ℕ :=
  if c.isDigit then some (c.toNat - 48)
  else if 'a' ≤ c ∧ c ≤ 'f' then some (c.toNat - 87)
  else if 'A' ≤ c ∧ c ≤ 'F' then some (c.toNat - 55)
  else none

def codeUnit (a b c d : Char) : Option ℕ := do
  let i ← hex? a
  let j ← hex? b
  let k ← hex? c
  let l ← hex? d
  pure (((i * 16 + j) * 16 + k) * 16 + l)

def escaped : Char → Option ℕ
  | '"' => some 34
  | '\\' => some 92
  | '/' => some 47
  | 'b' => some 8
  | 'f' => some 12
  | 'n' => some 10
  | 'r' => some 13
  | 't' => some 9
  | _ => none

/-- The code units after the opening quote; a character that stands for itself
counts as one. -/
def readUnits : List Char → Option (List ℕ × List Char)
  | [] => none
  | '"' :: r => some ([], r)
  | '\\' :: 'u' :: a :: b :: c :: d :: r =>
    (codeUnit a b c d).bind (fun n => (readUnits r).map (fun p => (n :: p.1, p.2)))
  | '\\' :: c :: r => (escaped c).bind (fun n => (readUnits r).map (fun p => (n :: p.1, p.2)))
  | c :: r => if c.toNat < 32 then none else (readUnits r).map (fun p => (c.toNat :: p.1, p.2))

def isHigh (n : ℕ) : Bool := 0xd800 ≤ n && n < 0xdc00

def isLow (n : ℕ) : Bool := 0xdc00 ≤ n && n < 0xe000

def scalar (n : ℕ) : Char := if isHigh n || isLow n then '\uFFFD' else Char.ofNat n

def pair (high low : ℕ) : Char := Char.ofNat (0x10000 + (high - 0xd800) * 0x400 + (low - 0xdc00))

def combine : List ℕ → List Char
  | [] => []
  | [n] => [scalar n]
  | n :: m :: r => if isHigh n && isLow m then pair n m :: combine r else scalar n :: combine (m :: r)

def readString (cs : List Char) : Option (String × List Char) :=
  (readUnits cs).map (fun p => (String.ofList (combine p.1), p.2))

end Strings

section Numbers

def digits (cs : List Char) : Option (List Char × List Char) :=
  if cs.takeWhile Char.isDigit = [] then none
  else some (cs.takeWhile Char.isDigit, cs.dropWhile Char.isDigit)

def minus : List Char → List Char × List Char
  | '-' :: r => (['-'], r)
  | r => ([], r)

def whole : List Char → Option (List Char × List Char)
  | '0' :: r => some (['0'], r)
  | r => digits r

def fraction : List Char → Option (List Char × List Char)
  | '.' :: r => (digits r).map (fun p => ('.' :: p.1, p.2))
  | r => some ([], r)

def sign : List Char → List Char × List Char
  | '+' :: r => (['+'], r)
  | r => minus r

def exponent : List Char → Option (List Char × List Char)
  | c :: r =>
    if c = 'e' ∨ c = 'E' then
      (digits (sign r).2).map (fun p => (c :: ((sign r).1 ++ p.1), p.2))
    else some ([], c :: r)
  | [] => some ([], [])

def literal (cs : List Char) : Option (List Char × List Char) := do
  let (i, r) ← whole (minus cs).2
  let (f, r) ← fraction r
  let (e, r) ← exponent r
  pure ((minus cs).1 ++ i ++ f ++ e, r)

end Numbers

section Members

def arrayIndex? (key : String) : Option ℕ :=
  let n := key.toList.foldl (fun n c => n * 10 + (c.toNat - 48)) 0
  if key ≠ "" ∧ key.toList.all Char.isDigit ∧ (key = "0" ∨ key.toList.head? ≠ some '0') ∧
    n < 4294967295 then some n else none

def enumerate (members : List (String × Json)) : List (String × Json) :=
  (members.filter (fun m => (arrayIndex? m.1).isSome)).insertionSort
    (fun m m' => (arrayIndex? m.1).getD 0 ≤ (arrayIndex? m'.1).getD 0) ++
  members.filter (fun m => (arrayIndex? m.1).isNone)

def collect (members : List (String × Json)) : List (String × Json) :=
  enumerate (members.foldl (fun l m => Json.put l m.1 m.2) [])

end Members

variable (numberText : String → String)

mutual

/-- A value at the start of the text, and the rest. `numberText` is what `String`
gives of the number that a literal denotes. -/
def value : ℕ → List Char → Option (Json × List Char)
  | 0, _ => none
  | n + 1, cs =>
    match cs with
    | 'n' :: 'u' :: 'l' :: 'l' :: r => some (.null, r)
    | 't' :: 'r' :: 'u' :: 'e' :: r => some (.bool true, r)
    | 'f' :: 'a' :: 'l' :: 's' :: 'e' :: r => some (.bool false, r)
    | '"' :: r => (readString r).map (fun p => (.str p.1, p.2))
    | '[' :: r =>
      match skip r with
      | ']' :: r => some (.arr [], r)
      | r => (items n r).map (fun p => (.arr p.1, p.2))
    | '\x7b' :: r =>
      match skip r with
      | '\x7d' :: r => some (.obj [], r)
      | r => (members n r).map (fun p => (.obj (collect p.1), p.2))
    | cs => (literal cs).map (fun p => (.num (numberText (String.ofList p.1)), p.2))

def items : ℕ → List Char → Option (List Json × List Char)
  | 0, _ => none
  | n + 1, cs => do
    let (v, r) ← value n cs
    match skip r with
    | ',' :: r => do
      let (l, r) ← items n (skip r)
      pure (v :: l, r)
    | ']' :: r => pure ([v], r)
    | _ => none

def members : ℕ → List Char → Option (List (String × Json) × List Char)
  | 0, _ => none
  | n + 1, cs =>
    match cs with
    | '"' :: r => do
      let (key, r) ← readString r
      match skip r with
      | ':' :: r => do
        let (v, r) ← value n (skip r)
        match skip r with
        | ',' :: r => do
          let (l, r) ← members n (skip r)
          pure ((key, v) :: l, r)
        | '\x7d' :: r => pure ([(key, v)], r)
        | _ => none
      | _ => none
    | _ => none

end

/-- `JSON.parse`, which throws where this is `none`. -/
def parse (text : List Char) : Option Json := do
  let (v, r) ← value numberText (2 * text.length + 1) (skip text)
  if skip r = [] then pure v else none

section Proper

mutual

/-- A value as the runtime has it: every number is the text that `String` gives
of it, and the members of an object are distinct and in order. -/
def Proper : Json → Prop
  | .null => True
  | .bool _ => True
  | .num t => literal t.toList = some (t.toList, []) ∧ numberText t = t
  | .str _ => True
  | .arr l => ProperItems l
  | .obj l => collect l = l ∧ ProperMembers l

def ProperItems : List Json → Prop
  | [] => True
  | j :: l => Proper j ∧ ProperItems l

def ProperMembers : List (String × Json) → Prop
  | [] => True
  | (_, j) :: l => Proper j ∧ ProperMembers l

end

mutual

def weight : Json → ℕ
  | .null => 1
  | .bool _ => 1
  | .num _ => 1
  | .str _ => 1
  | .arr l => 1 + weightItems l
  | .obj l => 1 + weightMembers l

def weightItems : List Json → ℕ
  | [] => 0
  | j :: l => 1 + weight j + weightItems l

def weightMembers : List (String × Json) → ℕ
  | [] => 0
  | (_, j) :: l => 1 + weight j + weightMembers l

end

end Proper

section Quoted

theorem readUnits_escapeChar (c : Char) (r : List Char) : readUnits (Json.escapeChar c ++ r) =
    (readUnits r).map (fun p => (c.toNat :: p.1, p.2)) := by
  by_cases hcontrol : c.toNat < 32
  · have hall : ∀ n < 32, readUnits (Json.escapeChar (Char.ofNat n) ++ r) =
        (readUnits r).map (fun p => ((Char.ofNat n).toNat :: p.1, p.2)) := by
      intro n hn
      interval_cases n <;> rfl
    rw [← Char.ofNat_toNat c]
    exact hall c.toNat hcontrol
  · by_cases hquote : c = '"'
    · subst hquote
      rfl
    · by_cases hslash : c = '\\'
      · subst hslash
        rfl
      · rw [Json.escapeChar_eq_self hcontrol hquote hslash, List.singleton_append]
        conv_lhs => unfold readUnits
        split
        · rename_i he
          cases he
        · rename_i he
          exact absurd (List.cons.inj he).1 hquote
        · rename_i he
          exact absurd (List.cons.inj he).1 hslash
        · rename_i he
          exact absurd (List.cons.inj he).1 hslash
        · rename_i he
          obtain ⟨rfl, rfl⟩ := List.cons.inj he
          exact if_neg hcontrol

theorem readUnits_escape (cs r : List Char) :
    readUnits (cs.flatMap Json.escapeChar ++ '"' :: r) = some (cs.map Char.toNat, r) := by
  induction cs with
  | nil => rfl
  | cons c cs ih =>
    rw [List.flatMap_cons, List.append_assoc, readUnits_escapeChar, ih]
    rfl

theorem scalar_toNat (c : Char) : isHigh c.toNat = false ∧ scalar c.toNat = c := by
  have hvalid : c.toNat < 0xd800 ∨ 0xdfff < c.toNat ∧ c.toNat < 0x110000 := c.valid
  have hhigh : isHigh c.toNat = false := by
    simp only [isHigh, Bool.and_eq_false_iff, decide_eq_false_iff_not]
    omega
  have hlow : isLow c.toNat = false := by
    simp only [isLow, Bool.and_eq_false_iff, decide_eq_false_iff_not]
    omega
  simp [scalar, hhigh, hlow, Char.ofNat_toNat]

theorem combine_toNat (cs : List Char) : combine (cs.map Char.toNat) = cs := by
  induction cs with
  | nil => rfl
  | cons c cs ih =>
    obtain ⟨hhigh, hscalar⟩ := scalar_toNat c
    cases cs with
    | nil => simp [combine, hscalar]
    | cons d cs =>
      rw [List.map_cons, List.map_cons, combine, hhigh, hscalar]
      exact congrArg (c :: ·) ih

theorem readString_quote (s : String) (r : List Char) :
    readString (s.toList.flatMap Json.escapeChar ++ '"' :: r) = some (s, r) := by
  rw [readString, readUnits_escape, Option.map_some, combine_toNat, String.ofList_toList]

end Quoted

section Literals

def Ends (r : List Char) : Prop :=
  ∀ c ∈ r.head?, c.isDigit = false ∧ c ∉ ['.', 'e', 'E', '+', '-']

variable {cs a b r : List Char}

theorem takeWhile_append_ends (hr : Ends r) : (cs ++ r).takeWhile Char.isDigit =
    cs.takeWhile Char.isDigit ∧
      (cs ++ r).dropWhile Char.isDigit = cs.dropWhile Char.isDigit ++ r := by
  induction cs with
  | nil =>
    cases r with
    | nil => exact ⟨rfl, rfl⟩
    | cons c r => simp [(hr c rfl).1]
  | cons c cs ih =>
    by_cases hc : c.isDigit = true
    · simpa [hc] using ih
    · simp [hc]

theorem digits_append (hr : Ends r) (h : digits cs = some (a, b)) :
    digits (cs ++ r) = some (a, b ++ r) := by
  obtain ⟨htake, hdrop⟩ := @takeWhile_append_ends cs r hr
  unfold digits at h ⊢
  rw [htake, hdrop]
  split at h <;> cases h
  rename_i hne
  rw [if_neg hne]

theorem minus_append (hr : Ends r) : minus (cs ++ r) = ((minus cs).1, (minus cs).2 ++ r) := by
  cases cs with
  | nil =>
    cases r with
    | nil => rfl
    | cons c r =>
      have hc : c ≠ '-' := fun h => (hr c rfl).2 (by simp [h])
      simp [minus, hc]
  | cons c cs =>
    by_cases hc : c = '-'
    · subst hc
      rfl
    · simp [minus, hc]

theorem sign_append (hr : Ends r) : sign (cs ++ r) = ((sign cs).1, (sign cs).2 ++ r) := by
  have hminus := @minus_append cs r hr
  cases cs with
  | nil =>
    cases r with
    | nil => rfl
    | cons c r =>
      have hc : c ≠ '+' := fun h => (hr c rfl).2 (by simp [h])
      simpa [sign, hc] using hminus
  | cons c cs =>
    by_cases hc : c = '+'
    · subst hc
      rfl
    · simpa [sign, hc] using hminus

theorem whole_append (hr : Ends r) (h : whole cs = some (a, b)) :
    whole (cs ++ r) = some (a, b ++ r) := by
  cases cs with
  | nil => cases h
  | cons c cs =>
    by_cases hc : c = '0'
    · subst hc
      cases h
      rfl
    · have hdigits : digits (c :: cs) = some (a, b) := by simpa [whole, hc] using h
      have happ := digits_append hr hdigits
      simpa [whole, hc] using happ

theorem fraction_append (hr : Ends r) (h : fraction cs = some (a, b)) :
    fraction (cs ++ r) = some (a, b ++ r) := by
  cases cs with
  | nil =>
    cases h
    cases r with
    | nil => rfl
    | cons c r =>
      have hc : c ≠ '.' := fun h => (hr c rfl).2 (by simp [h])
      simp [fraction, hc]
  | cons c cs =>
    by_cases hc : c = '.'
    · subst hc
      obtain ⟨⟨a', b'⟩, hd, he⟩ := Option.map_eq_some_iff.mp h
      cases he
      exact Option.map_eq_some_iff.mpr ⟨_, digits_append hr hd, rfl⟩
    · have hrest : ([], c :: cs) = (a, b) := by simpa [fraction, hc] using h
      cases hrest
      simp [fraction, hc]

theorem exponent_append (hr : Ends r) (h : exponent cs = some (a, b)) :
    exponent (cs ++ r) = some (a, b ++ r) := by
  cases cs with
  | nil =>
    cases h
    cases r with
    | nil => rfl
    | cons c r =>
      have hc : ¬ (c = 'e' ∨ c = 'E') := fun h => (hr c rfl).2 (by rcases h with h | h <;> simp [h])
      simp [exponent, hc]
  | cons c cs =>
    simp only [exponent, List.cons_append] at h ⊢
    split at h
    · rename_i hc
      obtain ⟨⟨a', b'⟩, hd, he⟩ := Option.map_eq_some_iff.mp h
      cases he
      rw [if_pos hc, sign_append hr]
      exact Option.map_eq_some_iff.mpr ⟨_, digits_append hr hd, rfl⟩
    · rename_i hc
      cases h
      rw [if_neg hc]
      rfl

theorem literal_append (hr : Ends r) (h : literal cs = some (a, b)) :
    literal (cs ++ r) = some (a, b ++ r) := by
  simp only [literal, Option.bind_eq_bind, Option.bind_eq_some_iff, Prod.exists] at h ⊢
  obtain ⟨i, r₁, hi, f, r₂, hf, e, r₃, he, hres⟩ := h
  cases hres
  rw [minus_append hr]
  exact ⟨i, _, whole_append hr hi, f, _, fraction_append hr hf, e, _, exponent_append hr he, rfl⟩

end Literals

section RoundTrip

variable {numberText}

def joined (l : List Json) : List Char := (",".intercalate (Json.stringifyItems l)).toList

def joinedMembers (l : List (String × Json)) : List Char :=
  (",".intercalate (Json.stringifyMembers l)).toList

theorem stringify_arr (l : List Json) :
    (Json.stringify (.arr l)).toList = '[' :: (joined l ++ [']']) := by
  simp [Json.stringify, joined]

theorem stringify_obj (l : List (String × Json)) :
    (Json.stringify (.obj l)).toList = '\x7b' :: (joinedMembers l ++ ['\x7d']) := by
  simp [Json.stringify, joinedMembers]

theorem joined_singleton (j : Json) : joined [j] = (Json.stringify j).toList := by
  simp [joined, Json.stringifyItems]

theorem joined_cons (j k : Json) (l : List Json) :
    joined (j :: k :: l) = (Json.stringify j).toList ++ ',' :: joined (k :: l) := by
  simp [joined, Json.stringifyItems, String.toList_intercalate]

def memberText (key : String) (j : Json) : List Char :=
  '"' :: (key.toList.flatMap Json.escapeChar ++ '"' :: ':' :: (Json.stringify j).toList)

theorem joinedMembers_singleton (key : String) (j : Json) :
    joinedMembers [(key, j)] = memberText key j := by
  simp [joinedMembers, Json.stringifyMembers, memberText, Json.quote_toList]

theorem joinedMembers_cons (key : String) (j : Json) (m : String × Json)
    (l : List (String × Json)) : joinedMembers ((key, j) :: m :: l) =
      memberText key j ++ ',' :: joinedMembers (m :: l) := by
  simp [joinedMembers, Json.stringifyMembers, memberText, Json.quote_toList,
    String.toList_intercalate]

theorem skip_cons {c : Char} (hc : isBlank c = false) (cs : List Char) : skip (c :: cs) = c :: cs := by
  simp [skip, hc]

theorem digits_head {cs : List Char} {p : List Char × List Char} (h : digits cs = some p) :
    ∃ c r, cs = c :: r ∧ c.isDigit = true := by
  rw [digits] at h
  split at h
  · cases h
  · rename_i hne
    cases cs with
    | nil => exact absurd rfl hne
    | cons c cs =>
      refine ⟨c, cs, rfl, ?_⟩
      by_contra hc
      simp [hc] at hne

theorem literal_head {cs : List Char} {p : List Char × List Char} (h : literal cs = some p) :
    ∃ c r, cs = c :: r ∧ (c = '-' ∨ c.isDigit = true) := by
  cases cs with
  | nil => cases h
  | cons c cs =>
    refine ⟨c, cs, rfl, ?_⟩
    by_cases hminus : c = '-'
    · exact .inl hminus
    · by_cases hzero : c = '0'
      · subst hzero
        exact .inr rfl
      · simp only [literal, Option.bind_eq_bind, Option.bind_eq_some_iff] at h
        obtain ⟨q, hwhole, _⟩ := h
        have hdigits : digits (c :: cs) = some q := by
          simpa [minus, whole, hminus, hzero] using hwhole
        obtain ⟨_, _, he, hd⟩ := digits_head hdigits
        exact .inr ((List.cons.inj he).1 ▸ hd)

theorem isBlank_of_numeric {c : Char} (hc : c = '-' ∨ c.isDigit = true) : isBlank c = false := by
  by_contra h
  simp only [isBlank, Bool.not_eq_false, Bool.or_eq_true, decide_eq_true_eq] at h
  obtain ((rfl | rfl) | rfl) | rfl := h <;> simp at hc

theorem value_literal {c : Char} {cs : List Char} {n : ℕ} (hc : c = '-' ∨ c.isDigit = true) :
    value numberText (n + 1) (c :: cs) = (literal (c :: cs)).map
      (fun p => (.num (numberText (String.ofList p.1)), p.2)) := by
  conv_lhs => unfold value
  split
  all_goals first
    | rfl
    | (rename_i he
       obtain ⟨rfl, _⟩ := List.cons.inj he
       simp at hc)

/-- The text of a value begins with a character that is not blank, and not a bracket that
closes. -/
theorem stringify_head {j : Json} (hj : Proper numberText j) : ∃ c cs,
    (Json.stringify j).toList = c :: cs ∧ isBlank c = false ∧ c ≠ ']' := by
  cases j with
  | null => exact ⟨'n', _, rfl, rfl, by decide⟩
  | bool b => cases b <;> exact ⟨_, _, rfl, rfl, by decide⟩
  | num t =>
    obtain ⟨c, cs, he, hc⟩ := literal_head hj.1
    refine ⟨c, cs, he, isBlank_of_numeric hc, ?_⟩
    rintro rfl
    simp at hc
  | str s => exact ⟨'"', _, Json.quote_toList s, rfl, by decide⟩
  | arr l => exact ⟨'[', _, stringify_arr l, rfl, by decide⟩
  | obj l => exact ⟨'\x7b', _, stringify_obj l, rfl, by decide⟩

theorem joined_head {j : Json} {l : List Json} (hj : Proper numberText j) : ∃ c cs,
    joined (j :: l) = c :: cs ∧ isBlank c = false ∧ c ≠ ']' := by
  obtain ⟨c, cs, he, hc⟩ := stringify_head hj
  cases l with
  | nil => exact ⟨c, cs, (joined_singleton j).trans he, hc⟩
  | cons k l => exact ⟨c, _, (joined_cons j k l).trans (by rw [he]; rfl), hc⟩

theorem joinedMembers_head (m : String × Json) (l : List (String × Json)) : ∃ cs,
    joinedMembers (m :: l) = '"' :: cs := by
  cases l with
  | nil => exact ⟨_, joinedMembers_singleton m.1 m.2⟩
  | cons m' l => exact ⟨_, joinedMembers_cons m.1 m.2 m' l⟩

theorem ends_comma (r : List Char) : Ends (',' :: r) := by
  rintro c ⟨⟩
  decide

theorem ends_bracket (r : List Char) : Ends (']' :: r) := by
  rintro c ⟨⟩
  decide

theorem ends_brace (r : List Char) : Ends ('\x7d' :: r) := by
  rintro c ⟨⟩
  decide

theorem weightItems_pos {j : Json} {l : List Json} {n : ℕ} (h : weightItems (j :: l) ≤ n) : 1 ≤ n := by
  simp only [weightItems] at h
  omega

theorem weightMembers_pos {m : String × Json} {l : List (String × Json)} {n : ℕ}
    (h : weightMembers (m :: l) ≤ n) : 1 ≤ n := by
  simp only [weightMembers] at h
  omega

mutual

/-- The parser reads back what is written. -/
theorem value_stringify : ∀ j : Json, Proper numberText j → ∀ n, weight j ≤ n → ∀ r, Ends r →
    value numberText n ((Json.stringify j).toList ++ r) = some (j, r)
  | .null, _, n, hn, r, _ => by
    obtain ⟨n, rfl⟩ := Nat.exists_eq_add_of_le' (show 1 ≤ n from hn)
    rfl
  | .bool b, _, n, hn, r, _ => by
    obtain ⟨n, rfl⟩ := Nat.exists_eq_add_of_le' (show 1 ≤ n from hn)
    cases b <;> rfl
  | .num t, hj, n, hn, r, hr => by
    obtain ⟨n, rfl⟩ := Nat.exists_eq_add_of_le' (show 1 ≤ n from hn)
    obtain ⟨hliteral, htext⟩ := hj
    obtain ⟨c, cs, he, hc⟩ := literal_head hliteral
    have happ := literal_append hr hliteral
    rw [Json.stringify, he, List.cons_append, value_literal hc, ← List.cons_append, ← he, happ]
    simp [htext]
  | .str s, _, n, hn, r, _ => by
    obtain ⟨n, rfl⟩ := Nat.exists_eq_add_of_le' (show 1 ≤ n from hn)
    rw [Json.stringify, Json.quote_toList, List.cons_append, value, List.append_assoc,
      List.singleton_append, readString_quote]
    rfl
  | .arr [], _, n, hn, r, _ => by
    obtain ⟨n, rfl⟩ := Nat.exists_eq_add_of_le'
      (show 1 ≤ n from Nat.le_trans (Nat.le_add_right 1 _) hn)
    rfl
  | .arr (j :: l), hj, n, hn, r, _ => by
    obtain ⟨n, rfl⟩ := Nat.exists_eq_add_of_le'
      (show 1 ≤ n from Nat.le_trans (Nat.le_add_right 1 _) hn)
    have ih := items_joined (j :: l) (by simp) hj n (by simp only [weight] at hn; omega) r
    obtain ⟨c, cs, he, hblank, hc⟩ := joined_head (l := l) hj.1
    rw [stringify_arr, List.cons_append, value, List.append_assoc, List.singleton_append]
    rw [he] at ih ⊢
    rw [List.cons_append, skip_cons hblank] at *
    split
    · rename_i heq
      exact absurd (List.cons.inj heq).1 hc
    · rw [ih]
      rfl
  | .obj [], _, n, hn, r, _ => by
    obtain ⟨n, rfl⟩ := Nat.exists_eq_add_of_le'
      (show 1 ≤ n from Nat.le_trans (Nat.le_add_right 1 _) hn)
    rfl
  | .obj (m :: l), hj, n, hn, r, _ => by
    obtain ⟨n, rfl⟩ := Nat.exists_eq_add_of_le'
      (show 1 ≤ n from Nat.le_trans (Nat.le_add_right 1 _) hn)
    have ih := members_joined (m :: l) (by simp) hj.2 n (by simp only [weight] at hn; omega) r
    obtain ⟨cs, he⟩ := joinedMembers_head m l
    rw [stringify_obj, List.cons_append, value, List.append_assoc, List.singleton_append]
    rw [he] at ih ⊢
    rw [List.cons_append, skip_cons rfl] at *
    split
    · rename_i heq
      cases (List.cons.inj heq).1
    · rw [ih, Option.map_some, hj.1]

theorem items_joined : ∀ l : List Json, l ≠ [] → ProperItems numberText l → ∀ n,
    weightItems l ≤ n → ∀ r, items numberText n (joined l ++ ']' :: r) = some (l, r)
  | [], hne, _, _, _, _ => absurd rfl hne
  | [j], _, hl, n, hn, r => by
    obtain ⟨n, rfl⟩ := Nat.exists_eq_add_of_le' (weightItems_pos hn)
    have ih := value_stringify j hl.1 n (by simp only [weightItems] at hn; omega) _ (ends_bracket r)
    rw [joined_singleton, items, ih]
    rfl
  | j :: k :: l, _, hl, n, hn, r => by
    obtain ⟨n, rfl⟩ := Nat.exists_eq_add_of_le' (weightItems_pos hn)
    have ihv := value_stringify j hl.1 n (by simp only [weightItems] at hn; omega)
      (',' :: (joined (k :: l) ++ ']' :: r)) (ends_comma _)
    have ihl := items_joined (k :: l) (by simp) hl.2 n
      (by simp only [weightItems] at hn ⊢; omega) r
    obtain ⟨c, cs, he, hblank, _⟩ := joined_head (l := l) hl.2.1
    rw [joined_cons, List.append_assoc, List.cons_append, items, ihv]
    simp only [Option.bind_eq_bind, Option.bind_some, skip_cons (show isBlank ',' = false from rfl)]
    rw [he, List.cons_append, skip_cons hblank, ← List.cons_append, ← he, ihl]
    rfl

theorem members_joined : ∀ l : List (String × Json), l ≠ [] → ProperMembers numberText l → ∀ n,
    weightMembers l ≤ n → ∀ r,
      members numberText n (joinedMembers l ++ '\x7d' :: r) = some (l, r)
  | [], hne, _, _, _, _ => absurd rfl hne
  | [(key, j)], _, hl, n, hn, r => by
    obtain ⟨n, rfl⟩ := Nat.exists_eq_add_of_le' (weightMembers_pos hn)
    have ih := value_stringify j hl.1 n (by simp only [weightMembers] at hn; omega) _ (ends_brace r)
    obtain ⟨c, cs, he, hblank, _⟩ := stringify_head hl.1
    rw [joinedMembers_singleton, memberText, List.cons_append, members, List.append_assoc,
      List.cons_append, readString_quote]
    simp only [Option.bind_eq_bind, Option.bind_some, List.cons_append,
      skip_cons (show isBlank ':' = false from rfl)]
    rw [he, List.cons_append, skip_cons hblank, ← List.cons_append, ← he, ih]
    rfl
  | (key, j) :: m :: l, _, hl, n, hn, r => by
    obtain ⟨n, rfl⟩ := Nat.exists_eq_add_of_le' (weightMembers_pos hn)
    have ihv := value_stringify j hl.1 n (by simp only [weightMembers] at hn; omega)
      (',' :: (joinedMembers (m :: l) ++ '\x7d' :: r)) (ends_comma _)
    have ihl := members_joined (m :: l) (by simp) hl.2 n
      (by simp only [weightMembers] at hn ⊢; omega) r
    obtain ⟨c, cs, he, hblank, _⟩ := stringify_head hl.1
    obtain ⟨ds, hd⟩ := joinedMembers_head m l
    rw [joinedMembers_cons, memberText, List.append_assoc, List.cons_append, members,
      List.append_assoc, List.cons_append, readString_quote]
    simp only [Option.bind_eq_bind, Option.bind_some, List.cons_append,
      skip_cons (show isBlank ':' = false from rfl)]
    rw [he, List.cons_append, skip_cons hblank, ← List.cons_append, ← he, ihv]
    simp only [Option.bind_some, skip_cons (show isBlank ',' = false from rfl)]
    rw [hd, List.cons_append, skip_cons rfl, ← List.cons_append, ← hd, ihl]
    rfl

end

mutual

theorem weight_le : ∀ j : Json, Proper numberText j →
    weight j ≤ 2 * (Json.stringify j).toList.length
  | .null, _ => by decide
  | .bool b, _ => by cases b <;> decide
  | .num t, hj => by
    obtain ⟨c, cs, he, _⟩ := literal_head hj.1
    rw [Json.stringify, he, weight, List.length_cons]
    omega
  | .str s, _ => by
    rw [Json.stringify, Json.quote_toList, weight, List.length_cons]
    omega
  | .arr l, hj => by
    have ih := weightItems_le l hj
    rw [stringify_arr, weight, List.length_cons, List.length_append]
    omega
  | .obj l, hj => by
    have ih := weightMembers_le l hj.2
    rw [stringify_obj, weight, List.length_cons, List.length_append]
    omega

theorem weightItems_le : ∀ l : List Json, ProperItems numberText l →
    weightItems l ≤ 2 * (joined l).length + 1
  | [], _ => by simp [weightItems]
  | [j], hl => by
    have ih := weight_le j hl.1
    rw [joined_singleton, weightItems, weightItems]
    omega
  | j :: k :: l, hl => by
    have ihj := weight_le j hl.1
    have ihl := weightItems_le (k :: l) hl.2
    rw [joined_cons, weightItems, List.length_append, List.length_cons]
    omega

theorem weightMembers_le : ∀ l : List (String × Json), ProperMembers numberText l →
    weightMembers l ≤ 2 * (joinedMembers l).length + 1
  | [], _ => by simp [weightMembers]
  | [(key, j)], hl => by
    have ih := weight_le j hl.1
    simp only [joinedMembers_singleton, memberText, weightMembers, List.length_cons,
      List.length_append]
    omega
  | (key, j) :: m :: l, hl => by
    have ihj := weight_le j hl.1
    have ihl := weightMembers_le (m :: l) hl.2
    rw [joinedMembers_cons, weightMembers]
    simp only [memberText, List.length_cons, List.length_append]
    omega

end

theorem parse_stringify {j : Json} (hj : Proper numberText j) :
    parse numberText (Json.stringify j).toList = some j := by
  obtain ⟨c, cs, he, hblank, _⟩ := stringify_head hj
  have hskip : skip (Json.stringify j).toList = (Json.stringify j).toList := by
    rw [he]
    exact skip_cons hblank cs
  have hvalue := value_stringify j hj (2 * (Json.stringify j).toList.length + 1)
    (Nat.le_succ_of_le (weight_le j hj)) [] (fun c hc => by cases hc)
  rw [List.append_nil] at hvalue
  rw [parse, hskip, hvalue]
  rfl

end RoundTrip

section Printable

variable {numberText}

def Printable (cs : List Char) : Prop := ∀ c ∈ cs, 32 ≤ c.toNat

instance (cs : List Char) : Decidable (Printable cs) :=
  decidable_of_iff (cs.all (fun c => 32 ≤ c.toNat) = true) (by simp [Printable])

theorem Printable.append {cs ds : List Char} (h : Printable cs) (h' : Printable ds) :
    Printable (cs ++ ds) := by
  intro c hc
  exact (List.mem_append.mp hc).elim (h c) (h' c)

theorem Printable.cons {c : Char} {cs : List Char} (hc : 32 ≤ c.toNat) (h : Printable cs) :
    Printable (c :: cs) := by
  intro d hd
  obtain rfl | hd := List.mem_cons.mp hd
  · exact hc
  · exact h d hd

theorem Printable.nil : Printable [] := fun c hc => by cases hc

theorem digits_printable {cs : List Char} {p : List Char × List Char} (h : digits cs = some p) :
    Printable p.1 := by
  rw [digits] at h
  split at h <;> cases h
  intro c hc
  have hdigit := List.mem_takeWhile_imp hc
  simp only [Char.isDigit, Bool.and_eq_true, decide_eq_true_eq] at hdigit
  exact le_trans (by decide) (UInt32.le_iff_toNat_le.mp hdigit.1)

theorem minus_printable (cs : List Char) : Printable (minus cs).1 := by
  unfold minus
  split
  · exact Printable.nil.cons (by decide)
  · exact .nil

theorem sign_printable (cs : List Char) : Printable (sign cs).1 := by
  unfold sign
  split
  · exact Printable.nil.cons (by decide)
  · exact minus_printable _

theorem whole_printable {cs : List Char} {p : List Char × List Char} (h : whole cs = some p) :
    Printable p.1 := by
  unfold whole at h
  split at h
  · cases h
    exact Printable.nil.cons (by decide)
  · exact digits_printable h

theorem fraction_printable {cs : List Char} {p : List Char × List Char}
    (h : fraction cs = some p) : Printable p.1 := by
  unfold fraction at h
  split at h
  · obtain ⟨q, hd, rfl⟩ := Option.map_eq_some_iff.mp h
    exact (digits_printable hd).cons (by decide)
  · cases h
    exact .nil

theorem exponent_printable {cs : List Char} {p : List Char × List Char}
    (h : exponent cs = some p) : Printable p.1 := by
  unfold exponent at h
  split at h
  · split at h
    · rename_i hc
      obtain ⟨q, hd, rfl⟩ := Option.map_eq_some_iff.mp h
      refine Printable.cons ?_ ((sign_printable _).append (digits_printable hd))
      obtain rfl | rfl := hc <;> decide
    · cases h
      exact .nil
  · cases h
    exact .nil

theorem literal_printable {cs : List Char} {p : List Char × List Char}
    (h : literal cs = some p) : Printable p.1 := by
  simp only [literal, Option.bind_eq_bind, Option.bind_eq_some_iff, Prod.exists] at h
  obtain ⟨i, r₁, hi, f, r₂, hf, e, r₃, he, hp⟩ := h
  cases hp
  exact (((minus_printable cs).append (whole_printable hi)).append (fraction_printable hf)).append
    (exponent_printable he)

theorem escapeChar_printable (c : Char) : Printable (Json.escapeChar c) := by
  by_cases hcontrol : c.toNat < 32
  · have hall : ∀ n < 32, Printable (Json.escapeChar (Char.ofNat n)) := by decide +kernel
    rw [← Char.ofNat_toNat c]
    exact hall c.toNat hcontrol
  · unfold Json.escapeChar
    split
    · decide
    · decide
    · decide
    · decide
    · decide
    · dsimp only
      rw [if_neg (by omega), if_neg (by omega), if_neg hcontrol]
      exact Printable.nil.cons (not_lt.mp hcontrol)

theorem quote_printable (s : String) : Printable (Json.quote s).toList := by
  rw [Json.quote_toList]
  refine Printable.cons (by decide) (Printable.append ?_ (Printable.nil.cons (by decide)))
  intro c hc
  obtain ⟨d, _, hm⟩ := List.mem_flatMap.mp hc
  exact escapeChar_printable d c hm

theorem memberText_printable {key : String} {j : Json} (h : Printable (Json.stringify j).toList) :
    Printable (memberText key j) := by
  have hkey := quote_printable key
  rw [Json.quote_toList] at hkey
  have hsplit : memberText key j = ('"' :: (key.toList.flatMap Json.escapeChar ++ ['"'])) ++
      ':' :: (Json.stringify j).toList := by
    simp [memberText]
  rw [hsplit]
  exact hkey.append (h.cons (by decide))

mutual

theorem stringify_printable : ∀ j : Json, Proper numberText j → Printable (Json.stringify j).toList
  | .null, _ => by decide +kernel
  | .bool true, _ => by decide +kernel
  | .bool false, _ => by decide +kernel
  | .num _, hj => literal_printable hj.1
  | .str s, _ => quote_printable s
  | .arr l, hj => by
    rw [stringify_arr]
    exact ((joined_printable l hj).append (Printable.nil.cons (by decide))).cons (by decide)
  | .obj l, hj => by
    rw [stringify_obj]
    exact ((joinedMembers_printable l hj.2).append (Printable.nil.cons (by decide))).cons (by decide)

theorem joined_printable : ∀ l : List Json, ProperItems numberText l → Printable (joined l)
  | [], _ => .nil
  | [j], hl => by
    rw [joined_singleton]
    exact stringify_printable j hl.1
  | j :: k :: l, hl => by
    rw [joined_cons]
    exact (stringify_printable j hl.1).append ((joined_printable (k :: l) hl.2).cons (by decide))

theorem joinedMembers_printable : ∀ l : List (String × Json), ProperMembers numberText l →
    Printable (joinedMembers l)
  | [], _ => .nil
  | [(key, j)], hl => by
    rw [joinedMembers_singleton]
    exact memberText_printable (stringify_printable j hl.1)
  | (key, j) :: m :: l, hl => by
    rw [joinedMembers_cons]
    exact (memberText_printable (stringify_printable j hl.1)).append
      ((joinedMembers_printable (m :: l) hl.2).cons (by decide))

end

end Printable

end Bitmine.Lib.JsonParse
