import Bitmine.Lib.JsNumber
import Bitmine.Provisioning

namespace Bitmine.IpRules

open Bitmine.Lib.JsNumber
open Bitmine.Security Bitmine.Provisioning

abbrev Address := IpType × List Bool

def width : IpType → ℕ
  | .ipv4 => 32
  | .ipv6 => 128

/-- `Number.isInteger(Number(text))`, with the integer. -/
def integerOf (text : List Char) : Option ℤ :=
  (number isSpace text).bind (fun x => if x.den = 1 then some x.num else none)

def mappedPrefix : List Bool := List.replicate 80 false ++ List.replicate 16 true

section Rules

variable (net : Network)

def isValidIpRule (rule : String) : Bool := (parsedRule net rule).isSome

def normalizedIp (remoteIp : String) : String :=
  if "::ffff:".toList.isPrefixOf remoteIp.toList then String.ofList (remoteIp.toList.drop 7) else remoteIp

/-- The grammar of rules: an address, or an address with a decimal prefix length. -/
def Spells (rule address : String) (v : IpType) : Option ℕ → Prop
  | none => trim rule = address ∧ net.isIP address = some v
  | some n => n ≤ width v ∧ net.isIP address = some v ∧
    ∃ digits, (trim rule).toList = address.toList ++ '/' :: digits ∧ readBase 10 digits = some n

def Grammatical (rule : String) : Prop := ∃ address v n, Spells net rule address v n

/-- What stands behind the slash is no run of digits, but a number of the range to `Number`. -/
def LenientAs (rule address : String) (v : IpType) (n : ℕ) : Prop :=
  n ≤ width v ∧ net.isIP address = some v ∧ ∃ text, (trim rule).toList = address.toList ++ '/' :: text ∧
    '/' ∉ text ∧ readBase 10 text = none ∧ integerOf text = some (n : ℤ)

def Lenient (rule : String) : Prop := ∃ address v n, LenientAs net rule address v n

variable (bits : String → List Bool)

/-- The platform's functions on the literals of addresses and what these stand for. -/
structure Node : Prop where
  integer : ∀ text, net.toInteger (String.ofList text) = integerOf text
  slashless : ∀ s v, net.isIP s = some v → '/' ∉ s.toList
  trimmed : ∀ s v, net.isIP s = some v → trim s = s
  address : ∀ a r v, net.isIP a = some v → net.isIP r = some v →
    (net.checkAddress a r v = true ↔ bits a = bits r)
  subnet : ∀ a r v (n : ℕ), net.isIP a = some v → net.isIP r = some v → n ≤ width v →
    (net.checkSubnet a n r v = true ↔ (bits a).take n = (bits r).take n)
  unmapped : ∀ s, net.isIP s = some .ipv6 → mappedPrefix <+: bits s →
    ∃ a, net.isIP a = some .ipv4 ∧ bits s = mappedPrefix ++ bits a

def taken (remoteIp : String) : Option Address :=
  (net.isIP remoteIp).map (fun v =>
    if v = .ipv6 ∧ mappedPrefix <+: bits remoteIp then (.ipv4, (bits remoteIp).drop 96)
    else (v, bits remoteIp))

def read (remoteIp : String) : Option Address :=
  (net.isIP (normalizedIp remoteIp)).map (fun v => (v, bits (normalizedIp remoteIp)))

def Covers (address : String) (x : Address) : Option ℕ → Prop
  | none => bits address = x.2
  | some n => (bits address).take n = x.2.take n

/-- A rule of the address's family is equal to it or a prefix that contains it. -/
def Denotes (rule : String) (x : Address) : Prop :=
  ∃ address n, Spells net rule address x.1 n ∧ Covers bits address x n

/-- A rule outside the grammar is taken for a prefix that contains the address. -/
def Widens (rule : String) (x : Address) : Prop :=
  ∃ address n, LenientAs net rule address x.1 n ∧ Covers bits address x (some n)

/-- Some rule denotes what the remote address is taken for. -/
def Permitted (remoteIp : String) (rules : List String) : Prop :=
  ∃ x, taken net bits remoteIp = some x ∧ ∃ rule ∈ rules, Denotes net bits rule x

end Rules

section Parsing

variable {net : Network} {bits : String → List Bool} {rule address : String} {v : IpType}

theorem splitLastSlash_none {s : String} : splitLastSlash s = none ↔ '/' ∉ s.toList := by
  simp only [splitLastSlash]
  split
  · rename_i c front hdrop
    refine iff_of_false (by simp) (fun hfree => ?_)
    have hnil : s.toList.reverse.dropWhile (· ≠ '/') = [] := by
      apply List.dropWhile_eq_nil_iff.mpr
      intro d hd
      simp only [ne_eq, decide_eq_true_eq]
      rintro rfl
      exact hfree (List.mem_reverse.mp hd)
    rw [hnil] at hdrop
    cases hdrop
  · rename_i hdrop
    refine iff_of_true rfl (fun hmem => ?_)
    have hall := List.dropWhile_eq_nil_iff.mp hdrop '/' (List.mem_reverse.mpr hmem)
    simp at hall

theorem splitLastSlash_some {s : String} {front text : List Char} (h : '/' ∉ text)
    (hs : s.toList = front ++ '/' :: text) :
    splitLastSlash s = some (String.ofList front, String.ofList text) := by
  have hreverse : s.toList.reverse = text.reverse ++ '/' :: front.reverse := by
    rw [hs]
    simp
  have hfree : ∀ c ∈ text.reverse, decide (c ≠ '/') = true := by
    intro c hc
    simp only [ne_eq, decide_eq_true_eq]
    rintro rfl
    exact h (List.mem_reverse.mp hc)
  simp only [splitLastSlash, hreverse, List.takeWhile_append_of_pos hfree,
    List.dropWhile_append_of_pos hfree]
  simp

theorem exists_last_slash {cs : List Char} (h : '/' ∈ cs) :
    ∃ front text, cs = front ++ '/' :: text ∧ '/' ∉ text := by
  induction cs with
  | nil => cases h
  | cons c cs ih =>
    by_cases hmem : '/' ∈ cs
    · obtain ⟨front, text, rfl, hfree⟩ := ih hmem
      exact ⟨c :: front, text, rfl, hfree⟩
    · obtain rfl | hmem' := List.mem_cons.mp h
      · exact ⟨[], cs, rfl, hmem⟩
      · exact absurd hmem' hmem

theorem append_slash_inj {front front' text text' : List Char} (h : '/' ∉ text) (h' : '/' ∉ text')
    (heq : front ++ '/' :: text = front' ++ '/' :: text') : front = front' ∧ text = text' := by
  have hsplit := splitLastSlash_some (s := String.ofList (front ++ '/' :: text)) h
    (String.toList_ofList)
  have hsplit' := splitLastSlash_some (s := String.ofList (front ++ '/' :: text)) h'
    (String.toList_ofList.trans heq)
  rw [hsplit, Option.some.injEq, Prod.mk.injEq] at hsplit'
  exact ⟨String.ofList_injective hsplit'.1, String.ofList_injective hsplit'.2⟩

theorem digits_slashless {digits : List Char} {n : ℕ} (h : readBase 10 digits = some n) :
    '/' ∉ digits := by
  intro hmem
  exact absurd ((readBase_digits h).2 '/' hmem) (by decide)

theorem space_not_digit (c : Char) (h : isSpace c = true) : 10 ≤ digitValue c := by
  simp only [isSpace, decide_eq_true_eq] at h
  have hcode : ∀ a b : Char, a ≤ b → a.toNat ≤ b.toNat := by
    intro a b hle
    rw [Char.le_def, UInt32.le_iff_toNat_le] at hle
    exact hle
  have hdigit : ¬ ('0' ≤ c ∧ c ≤ '9') := by
    rintro ⟨hlow, hhigh⟩
    have h0 : 48 ≤ c.toNat := hcode '0' c hlow
    have h9 : c.toNat ≤ 57 := hcode c '9' hhigh
    omega
  have hlower : ¬ ('a' ≤ c ∧ c ≤ 'z') := by
    rintro ⟨hlow, hhigh⟩
    have ha : 97 ≤ c.toNat := hcode 'a' c hlow
    have hz : c.toNat ≤ 122 := hcode c 'z' hhigh
    omega
  have hupper : ¬ ('A' ≤ c ∧ c ≤ 'Z') := by
    rintro ⟨hlow, hhigh⟩
    have hA : 65 ≤ c.toNat := hcode 'A' c hlow
    have hZ : c.toNat ≤ 90 := hcode c 'Z' hhigh
    omega
  rw [digitValue, if_neg hdigit, if_neg hlower, if_neg hupper]
  decide

theorem integerOf_digits {digits : List Char} {m n : ℕ} (h : readBase 10 digits = some m)
    (hn : n ≤ width v) : integerOf digits = some (n : ℤ) ↔ n = m := by
  have hwidth : width v < 2 ^ 53 := by
    cases v <;> decide
  rw [integerOf, number_digits space_not_digit h]
  by_cases hm : m < 2 ^ 53
  · rw [roundDouble_natCast hm]
    simp [eq_comm]
  · refine iff_of_false (fun hread => ?_) (by omega)
    rw [Option.bind_eq_some_iff] at hread
    obtain ⟨y, hy, hint⟩ := hread
    have hlarge := le_roundDouble (by exact_mod_cast not_lt.mp hm) hy
    split at hint
    · rename_i hden
      have hy' : y = (n : ℚ) := by
        rw [← Rat.coe_int_num_of_den_eq_one hden, Option.some.inj hint]
        rfl
      rw [hy'] at hlarge
      have hnat : 2 ^ 53 ≤ n := by exact_mod_cast hlarge
      omega
    · cases hint

variable (H : Node net bits)

include H

theorem parsedRule_split {front text : List Char} (hsplit : (trim rule).toList = front ++ '/' :: text)
    (hfree : '/' ∉ text) : parsedRule net rule = (net.isIP (String.ofList front)).bind (fun w =>
      (integerOf text).bind (fun k =>
        if 0 ≤ k ∧ k ≤ (width w : ℤ) then some (String.ofList front, w, some k) else none)) := by
  simp only [parsedRule, splitLastSlash_some hfree hsplit, H.integer, Option.bind_eq_bind]
  apply Option.bind_congr
  intro w _
  apply Option.bind_congr
  intro k _
  have hrange : ∀ (top : ℤ) (r : Option (String × IpType × Option ℤ)),
      (if k < 0 ∨ top < k then none else r) = if 0 ≤ k ∧ k ≤ top then r else none := by
    intro top r
    by_cases hin : 0 ≤ k ∧ k ≤ top
    · rw [if_pos hin, if_neg (by omega)]
    · rw [if_neg hin, if_pos (by omega)]
  cases w with
  | ipv4 => exact hrange 32 _
  | ipv6 => exact hrange 128 _

theorem parsedRule_literal : parsedRule net rule = some (address, v, none) ↔
    Spells net rule address v none := by
  constructor
  · intro h
    by_cases hslash : '/' ∈ (trim rule).toList
    · obtain ⟨front, text, hsplit, hfree⟩ := exists_last_slash hslash
      simp only [parsedRule_split H hsplit hfree, Option.bind_eq_some_iff, Option.ite_none_right_eq_some,
        Option.some.injEq, Prod.mk.injEq] at h
      obtain ⟨_, _, _, _, _, _, _, hnone⟩ := h
      cases hnone
    · simp only [parsedRule, splitLastSlash_none.mpr hslash, Option.map_eq_some_iff, Prod.mk.injEq,
        and_true] at h
      obtain ⟨w, hw, haddress, rfl⟩ := h
      exact ⟨haddress, haddress ▸ hw⟩
  · rintro ⟨rfl, hip⟩
    simp only [parsedRule, splitLastSlash_none.mpr (H.slashless _ _ hip), hip, Option.map_some]

theorem parsedRule_subnet {n : ℤ} : parsedRule net rule = some (address, v, some n) ↔
    ∃ m : ℕ, n = m ∧ m ≤ width v ∧ net.isIP address = some v ∧
      ∃ text, (trim rule).toList = address.toList ++ '/' :: text ∧ '/' ∉ text ∧
        integerOf text = some n := by
  constructor
  · intro h
    by_cases hslash : '/' ∈ (trim rule).toList
    · obtain ⟨front, text, hsplit, hfree⟩ := exists_last_slash hslash
      simp only [parsedRule_split H hsplit hfree, Option.bind_eq_some_iff, Option.ite_none_right_eq_some,
        Option.some.injEq, Prod.mk.injEq] at h
      obtain ⟨w, hw, k, hk, ⟨hlow, hhigh⟩, rfl, rfl, rfl⟩ := h
      refine ⟨k.toNat, (Int.toNat_of_nonneg hlow).symm, by omega, hw, text, ?_, hfree, hk⟩
      rw [String.toList_ofList, hsplit]
    · simp only [parsedRule, splitLastSlash_none.mpr hslash, Option.map_eq_some_iff, Prod.mk.injEq] at h
      obtain ⟨_, _, _, _, hsome⟩ := h
      cases hsome
  · rintro ⟨m, rfl, hm, hip, text, hsplit, hfree, hinteger⟩
    rw [parsedRule_split H hsplit hfree, String.ofList_toList, hip, Option.bind_some, hinteger,
      Option.bind_some, if_pos ⟨by omega, by omega⟩]

/-- The prefix lengths that are accepted: those of the grammar, and what `Number` makes of others. -/
theorem parsedRule_subnet_iff {n : ℕ} : parsedRule net rule = some (address, v, some (n : ℤ)) ↔
    Spells net rule address v (some n) ∨ LenientAs net rule address v n := by
  rw [parsedRule_subnet H]
  constructor
  · rintro ⟨m, hm, hwidth, hip, text, hsplit, hfree, hinteger⟩
    obtain rfl : n = m := by exact_mod_cast hm
    cases hdigits : readBase 10 text with
    | none => exact .inr ⟨hwidth, hip, text, hsplit, hfree, hdigits, hinteger⟩
    | some k =>
      obtain rfl : n = k := (integerOf_digits hdigits hwidth).mp hinteger
      exact .inl ⟨hwidth, hip, text, hsplit, hdigits⟩
  · rintro (⟨hwidth, hip, text, hsplit, hdigits⟩ | ⟨hwidth, hip, text, hsplit, hfree, _, hinteger⟩)
    · exact ⟨n, rfl, hwidth, hip, text, hsplit, digits_slashless hdigits,
        (integerOf_digits hdigits hwidth).mpr rfl⟩
    · exact ⟨n, rfl, hwidth, hip, text, hsplit, hfree, hinteger⟩

theorem isValidIpRule_iff : isValidIpRule net rule = true ↔ Grammatical net rule ∨ Lenient net rule := by
  rw [isValidIpRule, Option.isSome_iff_exists]
  constructor
  · rintro ⟨⟨address, v, _ | n⟩, h⟩
    · exact .inl ⟨address, v, none, (parsedRule_literal H).mp h⟩
    · obtain ⟨m, rfl, _⟩ := (parsedRule_subnet H).mp h
      obtain hspells | hlenient := (parsedRule_subnet_iff H).mp h
      · exact .inl ⟨address, v, some m, hspells⟩
      · exact .inr ⟨address, v, m, hlenient⟩
  · rintro (⟨address, v, _ | n, h⟩ | ⟨address, v, n, h⟩)
    · exact ⟨_, (parsedRule_literal H).mpr h⟩
    · exact ⟨_, (parsedRule_subnet_iff H).mpr (.inl h)⟩
    · exact ⟨_, (parsedRule_subnet_iff H).mpr (.inr h)⟩

theorem not_lenient (h : Grammatical net rule) : ¬ Lenient net rule := by
  rintro ⟨a, w, n, _, _, text, hsplit, hfree, hnone, _⟩
  obtain ⟨address, v, _ | m, h⟩ := h
  · obtain ⟨rfl, hip⟩ := h
    apply H.slashless _ _ hip
    rw [hsplit]
    simp
  · obtain ⟨_, _, digits, hsplit', hdigits⟩ := h
    obtain ⟨_, rfl⟩ := append_slash_inj hfree (digits_slashless hdigits) (hsplit.symm.trans hsplit')
    rw [hnone] at hdigits
    cases hdigits

theorem grammatical_literal {a : String} (h : net.isIP a = some v) : Grammatical net a :=
  ⟨a, v, none, H.trimmed a v h, h⟩

theorem denotes_literal {a : String} {x : Address} (h : net.isIP a = some v) :
    Denotes net bits a x ↔ x = (v, bits a) := by
  constructor
  · rintro ⟨address, n, hspells, hcovers⟩
    cases n with
    | none =>
      obtain ⟨htrim, hip⟩ := hspells
      rw [H.trimmed a v h] at htrim
      subst htrim
      rw [h] at hip
      exact Prod.ext (Option.some.inj hip).symm hcovers.symm
    | some n =>
      obtain ⟨_, _, digits, hsplit, _⟩ := hspells
      rw [H.trimmed a v h] at hsplit
      apply absurd _ (H.slashless a v h)
      rw [hsplit]
      simp
  · rintro rfl
    exact ⟨a, none, ⟨H.trimmed a v h, h⟩, rfl⟩

theorem not_widens {x : Address} (h : Grammatical net rule) : ¬ Widens net bits rule x := by
  rintro ⟨address, n, hlenient, _⟩
  exact not_lenient H h ⟨address, x.1, n, hlenient⟩

end Parsing

section Allowed

variable {net : Network} {bits : String → List Bool} {rule remoteIp : String} {v : IpType}

/-- What `ipAllowed` asks of one rule. -/
def admits (net : Network) (rule normalized : String) (version : IpType) : Bool :=
  match parsedRule net rule with
  | some (address, type, none) => type = version && net.checkAddress address normalized type
  | some (address, type, some n) => type = version && net.checkSubnet address n normalized type
  | none => false

theorem ipAllowed_eq {rules : List String} (hne : rules ≠ []) : ipAllowed net remoteIp rules =
    match net.isIP (normalizedIp remoteIp) with
    | none => false
    | some version => rules.any (fun rule => admits net rule (normalizedIp remoteIp) version) := by
  simp only [ipAllowed, if_neg hne, normalizedIp]
  generalize (if "::ffff:".toList.isPrefixOf remoteIp.toList then
    String.ofList (remoteIp.toList.drop 7) else remoteIp) = normalized
  cases net.isIP normalized with
  | none => rfl
  | some version =>
    apply congrArg rules.any
    funext rule
    cases hparsed : parsedRule net rule with
    | none => simp only [admits, hparsed]
    | some parsed =>
      obtain ⟨address, type, _ | n⟩ := parsed
      · simp only [admits, hparsed]
      · simp only [admits, hparsed]

variable (H : Node net bits)

include H

theorem admits_iff {normalized : String} (h : net.isIP normalized = some v) :
    admits net rule normalized v = true ↔
      Denotes net bits rule (v, bits normalized) ∨ Widens net bits rule (v, bits normalized) := by
  constructor
  · intro hadmits
    simp only [admits] at hadmits
    split at hadmits
    · rename_i address type hparsed
      rw [Bool.and_eq_true, decide_eq_true_eq] at hadmits
      obtain ⟨rfl, hcheck⟩ := hadmits
      have hspells := (parsedRule_literal H).mp hparsed
      exact .inl ⟨address, none, hspells, (H.address _ _ _ hspells.2 h).mp hcheck⟩
    · rename_i address type n hparsed
      rw [Bool.and_eq_true, decide_eq_true_eq] at hadmits
      obtain ⟨rfl, hcheck⟩ := hadmits
      obtain ⟨m, rfl, hwidth, hip, _⟩ := (parsedRule_subnet H).mp hparsed
      have hcovers := (H.subnet _ _ _ m hip h hwidth).mp hcheck
      obtain hspells | hlenient := (parsedRule_subnet_iff H).mp hparsed
      · exact .inl ⟨address, some m, hspells, hcovers⟩
      · exact .inr ⟨address, m, hlenient, hcovers⟩
    · cases hadmits
  · rintro (⟨address, _ | n, hspells, hcovers⟩ | ⟨address, n, hlenient, hcovers⟩)
    · have hcheck := (H.address _ _ _ hspells.2 h).mpr hcovers
      simp [admits, (parsedRule_literal H).mpr hspells, hcheck]
    · have hcheck := (H.subnet _ _ _ n hspells.2.1 h hspells.1).mpr hcovers
      simp [admits, (parsedRule_subnet_iff H).mpr (.inl hspells), hcheck]
    · have hcheck := (H.subnet _ _ _ n hlenient.2.1 h hlenient.1).mpr hcovers
      simp [admits, (parsedRule_subnet_iff H).mpr (.inr hlenient), hcheck]

theorem ipAllowed_iff {rules : List String} (hne : rules ≠ []) : ipAllowed net remoteIp rules = true ↔
    ∃ x, read net bits remoteIp = some x ∧
      ∃ rule ∈ rules, Denotes net bits rule x ∨ Widens net bits rule x := by
  rw [ipAllowed_eq hne, read]
  cases hip : net.isIP (normalizedIp remoteIp) with
  | none => simp
  | some v =>
    rw [List.any_eq_true]
    simp only [admits_iff H hip, Option.map_some, Option.some.injEq, exists_eq_left']

theorem ipAllowed_singleton (h : Grammatical net rule) : ipAllowed net remoteIp [rule] = true ↔
    ∃ x, read net bits remoteIp = some x ∧ Denotes net bits rule x := by
  rw [ipAllowed_iff H (List.cons_ne_nil _ _)]
  apply exists_congr
  intro x
  simp [not_widens H h]

theorem exists_denotes {x : Address} (h : taken net bits remoteIp = some x) :
    ∃ rule, Grammatical net rule ∧ Denotes net bits rule x := by
  rw [taken, Option.map_eq_some_iff] at h
  obtain ⟨v, hip, hx⟩ := h
  split at hx
  · rename_i hmapped
    obtain ⟨rfl, hprefix⟩ := hmapped
    obtain ⟨a, ha, hbits⟩ := H.unmapped remoteIp hip hprefix
    refine ⟨a, grammatical_literal H ha, (denotes_literal H ha).mpr ?_⟩
    rw [← hx, hbits]
    rfl
  · exact ⟨remoteIp, grammatical_literal H hip, (denotes_literal H hip).mpr hx.symm⟩

/-- The remote addresses on which the rules of the grammar mean what they say. -/
theorem means_iff_read : (∀ rule, Grammatical net rule → (ipAllowed net remoteIp [rule] = true ↔
      ∃ x, taken net bits remoteIp = some x ∧ Denotes net bits rule x)) ↔
    read net bits remoteIp = taken net bits remoteIp := by
  constructor
  · intro hmeans
    cases hread : read net bits remoteIp with
    | none =>
      cases htaken : taken net bits remoteIp with
      | none => rfl
      | some x =>
        obtain ⟨rule, hrule, hdenotes⟩ := exists_denotes H htaken
        have hallowed := (hmeans rule hrule).mpr ⟨x, htaken, hdenotes⟩
        obtain ⟨y, hy, _⟩ := (ipAllowed_singleton H hrule).mp hallowed
        rw [hread] at hy
        cases hy
    | some y =>
      have hread' := hread
      rw [read, Option.map_eq_some_iff] at hread'
      obtain ⟨v, hip, hy⟩ := hread'
      have hrule := grammatical_literal H hip
      have hself := (denotes_literal H hip).mpr hy.symm
      obtain ⟨x, hx, hdenotes⟩ := (hmeans _ hrule).mp ((ipAllowed_singleton H hrule).mpr ⟨y, hread, hself⟩)
      rw [hx, ← hy, (denotes_literal H hip).mp hdenotes]
  · intro heq rule hrule
    rw [ipAllowed_singleton H hrule, heq]

/-- On the other lists of rules the lenient ones may only contain an address that another denotes. -/
theorem allowed_iff_permitted {rules : List String} (hne : rules ≠ [])
    (heq : read net bits remoteIp = taken net bits remoteIp) :
    (ipAllowed net remoteIp rules = true ↔ Permitted net bits remoteIp rules) ↔
      ((∀ x, taken net bits remoteIp = some x → ∀ rule ∈ rules, ¬ Widens net bits rule x) ∨
        Permitted net bits remoteIp rules) := by
  rw [ipAllowed_iff H hne, heq]
  constructor
  · intro hiff
    by_cases hpermitted : Permitted net bits remoteIp rules
    · exact .inr hpermitted
    · refine .inl (fun x hx rule hrule hwidens => hpermitted ?_)
      exact hiff.mp ⟨x, hx, rule, hrule, .inr hwidens⟩
  · rintro (hnone | hpermitted)
    · constructor
      · rintro ⟨x, hx, rule, hrule, hdenotes | hwidens⟩
        · exact ⟨x, hx, rule, hrule, hdenotes⟩
        · exact absurd hwidens (hnone x hx rule hrule)
      · rintro ⟨x, hx, rule, hrule, hdenotes⟩
        exact ⟨x, hx, rule, hrule, .inl hdenotes⟩
    · refine iff_of_true ?_ hpermitted
      obtain ⟨x, hx, rule, hrule, hdenotes⟩ := hpermitted
      exact ⟨x, hx, rule, hrule, .inl hdenotes⟩

/-- The rules that are accepted, and what they allow, as the grammar has it. -/
theorem rules_mean_what_they_say :
    (∀ rule, (isValidIpRule net rule = true ↔ Grammatical net rule) ↔ ¬ Lenient net rule) ∧
    (∀ remoteIp, (∀ rule, Grammatical net rule → (ipAllowed net remoteIp [rule] = true ↔
        ∃ x, taken net bits remoteIp = some x ∧ Denotes net bits rule x)) ↔
      read net bits remoteIp = taken net bits remoteIp) ∧
    ∀ remoteIp rules, rules ≠ [] → read net bits remoteIp = taken net bits remoteIp →
      ((ipAllowed net remoteIp rules = true ↔ Permitted net bits remoteIp rules) ↔
        ((∀ x, taken net bits remoteIp = some x → ∀ rule ∈ rules, ¬ Widens net bits rule x) ∨
          Permitted net bits remoteIp rules)) := by
  refine ⟨fun rule => ?_, fun _ => means_iff_read H, fun _ _ hne heq => allowed_iff_permitted H hne heq⟩
  rw [isValidIpRule_iff H]
  constructor
  · intro hiff hlenient
    exact not_lenient H (hiff.mp (.inr hlenient)) hlenient
  · intro hlenient
    exact or_iff_left hlenient

end Allowed

section Sample

def sampleLiterals : List (String × IpType × List ℕ) :=
  [("10.0.0.0", .ipv4, [10, 0, 0, 0]), ("10.2.3.4", .ipv4, [10, 2, 3, 4]),
    ("192.168.1.77", .ipv4, [192, 168, 1, 77]),
    ("::ffff:10.2.3.4", .ipv6, [0, 0, 0, 0, 0, 0, 0, 0, 0, 0, 255, 255, 10, 2, 3, 4]),
    ("::ffff:0:a02:304", .ipv6, [0, 0, 0, 0, 0, 0, 0, 0, 255, 255, 0, 0, 10, 2, 3, 4])]

def sampleType (s : String) : Option IpType :=
  (sampleLiterals.find? (fun literal => literal.1 = s)).map (fun literal => literal.2.1)

def sampleBits (s : String) : List Bool :=
  ((sampleLiterals.find? (fun literal => literal.1 = s)).map
    (fun literal => literal.2.2.flatMap (bitsOf 8))).getD []

def sampleNetwork : Network :=
  ⟨sampleType, fun text => integerOf text.toList, fun a r _ => decide (sampleBits a = sampleBits r),
    fun a n r _ => decide ((sampleBits a).take n.toNat = (sampleBits r).take n.toNat)⟩

theorem mem_sampleLiterals {s : String} {v : IpType} (h : sampleNetwork.isIP s = some v) :
    s ∈ sampleLiterals.map Prod.fst := by
  obtain ⟨literal, hfind, _⟩ := Option.map_eq_some_iff.mp h
  have hname := List.find?_some hfind
  rw [decide_eq_true_eq] at hname
  exact hname ▸ List.mem_map_of_mem (List.mem_of_find?_eq_some hfind)

theorem sample_node : Node sampleNetwork sampleBits where
  integer text := by simp [sampleNetwork]
  slashless s v h := by
    have hall : ∀ s ∈ sampleLiterals.map Prod.fst, '/' ∉ s.toList := by decide
    exact hall s (mem_sampleLiterals h)
  trimmed s v h := by
    have hall : ∀ s ∈ sampleLiterals.map Prod.fst, trim s = s := by decide
    exact hall s (mem_sampleLiterals h)
  address a r v _ _ := by simp [sampleNetwork]
  subnet a r v n _ _ _ := by simp [sampleNetwork]
  unmapped s h hprefix := by
    have hall : ∀ s ∈ sampleLiterals.map Prod.fst, sampleType s = some .ipv6 →
        mappedPrefix <+: sampleBits s → sampleType "10.2.3.4" = some .ipv4 ∧
          sampleBits s = mappedPrefix ++ sampleBits "10.2.3.4" := by decide +kernel
    exact ⟨"10.2.3.4", hall s (mem_sampleLiterals h) h hprefix⟩

theorem sample_grammatical : Grammatical sampleNetwork "10.0.0.0/8" :=
  ⟨"10.0.0.0", .ipv4, some 8, by decide, by decide, ['8'], by decide, by decide⟩

theorem rules_mean_what_they_say_sample :
    (isValidIpRule sampleNetwork "10.0.0.0/8" = true ↔ Grammatical sampleNetwork "10.0.0.0/8") ∧
    (ipAllowed sampleNetwork "::ffff:10.2.3.4" ["10.0.0.0/8"] = true ↔
      Permitted sampleNetwork sampleBits "::ffff:10.2.3.4" ["10.0.0.0/8"]) := by
  obtain ⟨hvalid, _, hallowed⟩ := rules_mean_what_they_say sample_node
  refine ⟨(hvalid _).mpr (not_lenient sample_node sample_grammatical), ?_⟩
  refine (hallowed _ _ (by decide) (by decide +kernel)).mpr (.inl (fun x _ rule hrule => ?_))
  rw [List.mem_singleton.mp hrule]
  exact not_widens sample_node sample_grammatical

/-- Nothing behind the slash is zero to `Number`: the rule for a subnet admits everyone. And
a remote address that is no mapped one is cut like one, and matches not even itself. -/
theorem empty_prefix_admits_all :
    (isValidIpRule sampleNetwork "10.0.0.0/" = true ∧ ¬ Grammatical sampleNetwork "10.0.0.0/") ∧
    (ipAllowed sampleNetwork "192.168.1.77" ["10.0.0.0/"] = true ∧
      ¬ Permitted sampleNetwork sampleBits "192.168.1.77" ["10.0.0.0/"]) ∧
    (ipAllowed sampleNetwork "::ffff:0:a02:304" ["::ffff:0:a02:304"] = false ∧
      Permitted sampleNetwork sampleBits "::ffff:0:a02:304" ["::ffff:0:a02:304"]) := by
  have hzero : integerOf [] = some ((0 : ℕ) : ℤ) := by
    have hround := roundDouble_natCast (show 0 < 2 ^ 53 by decide)
    rw [Nat.cast_zero] at hround
    simp [integerOf, number, trimSpace, readNumeral, hround]
  have hlenient : LenientAs sampleNetwork "10.0.0.0/" "10.0.0.0" .ipv4 0 :=
    ⟨by decide, by decide, [], by decide, by decide, by decide, hzero⟩
  have hnot : ¬ Grammatical sampleNetwork "10.0.0.0/" := fun h =>
    not_lenient sample_node h ⟨_, _, _, hlenient⟩
  have hv6 : sampleNetwork.isIP "::ffff:0:a02:304" = some .ipv6 := by decide
  refine ⟨⟨?_, hnot⟩, ⟨?_, ?_⟩, ?_, ?_⟩
  · exact (isValidIpRule_iff sample_node).mpr (.inr ⟨_, _, _, hlenient⟩)
  · apply (ipAllowed_iff sample_node (List.cons_ne_nil _ _)).mpr
    exact ⟨(.ipv4, sampleBits "192.168.1.77"), by decide, _, List.mem_singleton_self _,
      .inr ⟨"10.0.0.0", 0, hlenient, rfl⟩⟩
  · rintro ⟨x, _, rule, hrule, address, n, hspells, _⟩
    rw [List.mem_singleton.mp hrule] at hspells
    exact hnot ⟨address, _, n, hspells⟩
  · decide
  · exact ⟨(.ipv6, sampleBits "::ffff:0:a02:304"), by decide +kernel, _, List.mem_singleton_self _,
      (denotes_literal sample_node hv6).mpr rfl⟩

end Sample

end Bitmine.IpRules
