import Mathlib

namespace Bitmine.Lib.JsonText

/-- Parsed JSON. A number stands as the text that `String` gives of it, the
members of an object in the order in which they are enumerated. -/
inductive Json where
  | null
  | bool (b : Bool)
  | num (text : String)
  | str (s : String)
  | arr (items : List Json)
  | obj (members : List (String × Json))

namespace Json

def truthy : Json → Bool
  | .null => false
  | .bool b => b
  | .num text => text ≠ "0"
  | .str s => s ≠ ""
  | .arr _ => true
  | .obj _ => true

def isNull : Json → Bool
  | .null => true
  | _ => false

def isBool (b : Bool) : Json → Bool
  | .bool c => c = b
  | _ => false

def isStr (s : String) : Json → Bool
  | .str t => t = s
  | _ => false

def scalar? : Json → Option String
  | .str s => some s
  | .num text => some text
  | _ => none

def string? : Json → Option String
  | .str s => some s
  | _ => none

def items : Json → List Json
  | .arr l => l
  | _ => []

def get? (key : String) : Json → Option Json
  | .obj members => (members.find? (fun m => m.1 = key)).map Prod.snd
  | _ => none

def put (members : List (String × Json)) (key : String) (value : Json) : List (String × Json) :=
  if members.any (fun m => m.1 = key) then
    members.map (fun m => if m.1 = key then (key, value) else m)
  else members ++ [(key, value)]

mutual

def text : Json → String
  | .null => "null"
  | .bool b => if b then "true" else "false"
  | .num t => t
  | .str s => s
  | .arr l => ",".intercalate (itemTexts l)
  | .obj _ => "[object Object]"

def itemTexts : List Json → List String
  | [] => []
  | .null :: l => "" :: itemTexts l
  | j :: l => text j :: itemTexts l

end

def hexDigit (n : ℕ) : Char := if n < 10 then Char.ofNat (48 + n) else Char.ofNat (87 + n)

def escapeChar (c : Char) : List Char :=
  match c with
  | '"' => ['\\', '"']
  | '\\' => ['\\', '\\']
  | '\n' => ['\\', 'n']
  | '\r' => ['\\', 'r']
  | '\t' => ['\\', 't']
  | c =>
    let n := c.toNat
    if n = 8 then ['\\', 'b']
    else if n = 12 then ['\\', 'f']
    else if n < 32 then ['\\', 'u', '0', '0', hexDigit (n / 16), hexDigit (n % 16)]
    else [c]

def quote (s : String) : String := "\"" ++ String.ofList (s.toList.flatMap escapeChar) ++ "\""

mutual

/-- `JSON.stringify(value)`. -/
def stringify : Json → String
  | .null => "null"
  | .bool b => if b then "true" else "false"
  | .num t => t
  | .str s => quote s
  | .arr l => "[" ++ ",".intercalate (stringifyItems l) ++ "]"
  | .obj l => "\x7b" ++ ",".intercalate (stringifyMembers l) ++ "\x7d"

def stringifyItems : List Json → List String
  | [] => []
  | j :: l => stringify j :: stringifyItems l

def stringifyMembers : List (String × Json) → List String
  | [] => []
  | (key, j) :: l => (quote key ++ ":" ++ stringify j) :: stringifyMembers l

end

def hexValue (c : Char) : ℕ := if c.toNat < 58 then c.toNat - 48 else c.toNat - 87

def unescapeChar : List Char → Option (Char × List Char)
  | [] => none
  | '"' :: _ => none
  | '\\' :: 'n' :: r => some ('\n', r)
  | '\\' :: 'r' :: r => some ('\r', r)
  | '\\' :: 't' :: r => some ('\t', r)
  | '\\' :: 'b' :: r => some (Char.ofNat 8, r)
  | '\\' :: 'f' :: r => some (Char.ofNat 12, r)
  | '\\' :: 'u' :: _ :: _ :: high :: low :: r =>
    some (Char.ofNat (16 * hexValue high + hexValue low), r)
  | '\\' :: c :: r => some (c, r)
  | c :: r => some (c, r)

theorem escapeChar_eq_self {c : Char} (hcontrol : ¬ c.toNat < 32) (hquote : c ≠ '"') (hslash : c ≠ '\\') :
    escapeChar c = [c] := by
  rw [escapeChar.eq_def]
  split
  · exact absurd rfl hquote
  · exact absurd rfl hslash
  · exact absurd (by decide) hcontrol
  · exact absurd (by decide) hcontrol
  · exact absurd (by decide) hcontrol
  · have h8 : c.toNat ≠ 8 := by omega
    have h12 : c.toNat ≠ 12 := by omega
    simp [h8, h12, hcontrol]

theorem unescapeChar_escapeChar (c : Char) (r : List Char) :
    unescapeChar (escapeChar c ++ r) = some (c, r) := by
  by_cases hcontrol : c.toNat < 32
  · have hall : ∀ n < 32, ∀ r, unescapeChar (escapeChar (Char.ofNat n) ++ r) = some (Char.ofNat n, r) := by
      intro n hn r
      interval_cases n <;> rfl
    rw [← Char.ofNat_toNat c]
    exact hall c.toNat hcontrol r
  · by_cases hq : c = '"'
    · subst hq
      rfl
    · by_cases hb : c = '\\'
      · subst hb
        rfl
      · rw [escapeChar_eq_self hcontrol hq hb, List.singleton_append]
        unfold unescapeChar
        split <;> simp_all

theorem escape_split {cs ds r r' : List Char}
    (h : cs.flatMap escapeChar ++ '"' :: r = ds.flatMap escapeChar ++ '"' :: r') :
    cs = ds ∧ r = r' := by
  induction cs generalizing ds with
  | nil =>
    cases ds with
    | nil => exact ⟨rfl, (List.cons.inj h).2⟩
    | cons d ds =>
      have hu := congrArg unescapeChar h
      rw [List.flatMap_cons, List.append_assoc, unescapeChar_escapeChar] at hu
      cases hu
  | cons c cs ih =>
    have hu := congrArg unescapeChar h
    rw [List.flatMap_cons, List.append_assoc, unescapeChar_escapeChar] at hu
    cases ds with
    | nil => cases hu
    | cons d ds =>
      rw [List.flatMap_cons, List.append_assoc, unescapeChar_escapeChar] at hu
      obtain ⟨rfl, hrest⟩ := Prod.mk.inj (Option.some.inj hu)
      obtain ⟨rfl, hr⟩ := ih hrest
      exact ⟨rfl, hr⟩

theorem quote_toList (s : String) :
    (quote s).toList = '"' :: (s.toList.flatMap escapeChar ++ ['"']) := by
  simp [quote]

theorem quote_split {s t : String} {r r' : List Char}
    (h : (quote s).toList ++ r = (quote t).toList ++ r') : s = t ∧ r = r' := by
  simp only [quote_toList, List.cons_append, List.cons.injEq, true_and, List.append_assoc,
    List.nil_append] at h
  obtain ⟨hst, hr⟩ := escape_split h
  exact ⟨String.toList_inj.mp hst, hr⟩

end Json

end Bitmine.Lib.JsonText
