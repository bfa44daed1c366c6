import Bitmine.Provisioning

namespace Bitmine.Slugs

open Bitmine.Security Bitmine.Provisioning

def lowerAlnum (c : Char) : Bool := c.isLower || c.isDigit

/-- `/^[a-z0-9][a-z0-9-]{1,46}[a-z0-9]$/u` -/
def slugPattern (s : String) : Bool :=
  match s.toList with
  | [] => false
  | first :: rest =>
    lowerAlnum first && (1 ≤ rest.dropLast.length && rest.dropLast.length ≤ 46) &&
      rest.dropLast.all customerChar && rest.getLast?.any lowerAlnum

def CreateCustomerDto.slug : String → Bool := slugPattern

def PortalAccessDto.customerSlug : String → Bool := slugPattern

/-- `/^[a-zA-Z0-9][a-zA-Z0-9_-]{0,63}$/u` -/
def CreateWorkerDto.slug (s : String) : Bool :=
  match s.toList with
  | [] => false
  | first :: rest => first.isAlphanum && rest.length ≤ 63 && rest.all workerChar

/-- Texts of lower-case letters, digits and dashes are left as they are. -/
def Lowers (p : Platform) : Prop :=
  ∀ s : String, (∀ c ∈ s.toList, customerChar c = true) → p.toLowerCase s = s

def SingleDashes (cs : List Char) : Prop :=
  cs.IsChain (fun c d => ¬ (isDash c = true ∧ isDash d = true))

instance (cs : List Char) : Decidable (SingleDashes cs) :=
  inferInstanceAs (Decidable (cs.IsChain _))

/-- Lower-case letters and digits, with single dashes between them. -/
structure Neat (cs : List Char) : Prop where
  chars : ∀ c ∈ cs, customerChar c = true
  first : ∀ c, cs.head? = some c → isDash c = false
  last : ∀ c, cs.getLast? = some c → isDash c = false
  single : SingleDashes cs
  short : cs.length ≤ 48

section Runs

variable {bad : Char → Bool} {xs : List Char} {b : Bool}

theorem replaceRuns_eq_self (h : ∀ c ∈ xs, bad c = false) : replaceRuns bad b xs = xs := by
  induction xs generalizing b with
  | nil => rfl
  | cons c xs ih =>
    have hc : bad c = false := h c (by simp)
    simp only [replaceRuns, hc, Bool.false_eq_true, if_false]
    rw [ih (fun d hd => h d (by simp [hd]))]

theorem mem_replaceRuns {c : Char} (h : c ∈ replaceRuns bad b xs) :
    c = '-' ∨ (c ∈ xs ∧ bad c = false) := by
  induction xs generalizing b with
  | nil => cases h
  | cons d xs ih =>
    have hrest : ∀ b', c ∈ replaceRuns bad b' xs → c = '-' ∨ (c ∈ d :: xs ∧ bad c = false) := by
      intro b' hm
      exact (ih hm).imp id (fun hx => ⟨List.mem_cons_of_mem d hx.1, hx.2⟩)
    simp only [replaceRuns] at h
    split at h
    · split at h
      · exact hrest _ h
      · obtain rfl | h := List.mem_cons.mp h
        · exact .inl rfl
        · exact hrest _ h
    · rename_i hd
      obtain rfl | h := List.mem_cons.mp h
      · exact .inr ⟨by simp, by simpa using hd⟩
      · exact hrest _ h

theorem replaceRuns_head {c : Char} (h : (replaceRuns isDash true xs).head? = some c) :
    isDash c = false := by
  induction xs with
  | nil => cases h
  | cons d xs ih =>
    by_cases hd : isDash d = true
    · simp only [replaceRuns, hd, if_true] at h
      exact ih h
    · simp only [replaceRuns, hd, if_false, List.head?_cons, Option.some.injEq, Bool.false_eq_true] at h
      rw [← h]
      simpa using hd

theorem replaceRuns_single (xs : List Char) (b : Bool) : SingleDashes (replaceRuns isDash b xs) := by
  induction xs generalizing b with
  | nil => exact .nil
  | cons d xs ih =>
    by_cases hd : isDash d = true
    · cases b with
      | true =>
        simp only [replaceRuns, hd, if_true]
        exact ih true
      | false =>
        simp only [replaceRuns, hd, if_true, Bool.false_eq_true, if_false]
        refine List.isChain_cons.mpr ⟨fun c hc hboth => ?_, ih true⟩
        rw [replaceRuns_head hc] at hboth
        exact absurd hboth.2 (by simp)
    · simp only [replaceRuns, hd, Bool.false_eq_true, if_false]
      exact List.isChain_cons.mpr ⟨fun c _ hboth => hd hboth.1, ih false⟩

theorem replaceRuns_of_single (h : SingleDashes xs)
    (hb : b = true → ∀ c, xs.head? = some c → isDash c = false) : replaceRuns isDash b xs = xs := by
  induction xs generalizing b with
  | nil => rfl
  | cons d xs ih =>
    obtain ⟨hnext, htail⟩ := List.isChain_cons.mp h
    by_cases hd : isDash d = true
    · cases b with
      | true => exact absurd hd (by simp [hb rfl d rfl])
      | false =>
        have hdash : d = '-' := by simpa [isDash] using hd
        simp only [replaceRuns, hd, if_true, Bool.false_eq_true, if_false]
        rw [ih htail (fun _ c hc => by simpa [hd] using hnext c hc), hdash]
    · simp only [replaceRuns, hd, Bool.false_eq_true, if_false]
      rw [ih htail (fun hb' => absurd hb' (by simp))]

theorem dropRight_isPrefix (xs : List Char) : dropRight bad xs <+: xs := by
  have hsuffix := List.dropWhile_suffix (l := xs.reverse) bad
  rw [dropRight, ← List.reverse_suffix, List.reverse_reverse]
  exact hsuffix

theorem dropWhile_head {c : Char} (h : (xs.dropWhile bad).head? = some c) : bad c = false := by
  induction xs with
  | nil => cases h
  | cons d xs ih =>
    by_cases hd : bad d = true
    · rw [List.dropWhile_cons_of_pos hd] at h
      exact ih h
    · rw [List.dropWhile_cons_of_neg hd] at h
      cases h
      simpa using hd

theorem dropRight_getLast {c : Char} (h : (dropRight bad xs).getLast? = some c) : bad c = false := by
  rw [dropRight, List.getLast?_reverse] at h
  exact dropWhile_head h

theorem dropWhile_eq_self (h : ∀ c, xs.head? = some c → bad c = false) : xs.dropWhile bad = xs := by
  cases xs with
  | nil => rfl
  | cons c rest => rw [List.dropWhile_cons_of_neg (by simp [h c rfl])]

theorem dropRight_eq_self (h : ∀ c, xs.getLast? = some c → bad c = false) :
    dropRight bad xs = xs := by
  rw [dropRight, dropWhile_eq_self, List.reverse_reverse]
  intro c hc
  rw [List.head?_reverse] at hc
  exact h c hc

end Runs

section Customer

variable {p : Platform}

/-- Whatever is left of a name is neat. -/
theorem cleanCustomer_neat (raw : String) : Neat (cleanCustomer p raw) := by
  let replaced := replaceRuns (fun c => !customerChar c) false (p.toLowerCase raw).toList
  let single := replaceRuns isDash false replaced
  have hchars : ∀ c ∈ single, customerChar c = true := by
    intro c hc
    obtain rfl | ⟨hc, _⟩ := mem_replaceRuns hc
    · decide
    · obtain rfl | ⟨_, hc⟩ := mem_replaceRuns hc
      · decide
      · simpa using hc
  have htaken : cleanCustomer p raw <+: (dropRight isDash (single.dropWhile isDash)).take 48 :=
    dropRight_isPrefix _
  have htrimmed : cleanCustomer p raw <+: single.dropWhile isDash :=
    htaken.trans ((List.take_prefix 48 _).trans (dropRight_isPrefix _))
  obtain ⟨rest, hrest⟩ := htrimmed
  constructor
  · intro c hc
    apply hchars
    apply (List.dropWhile_sublist isDash).subset
    rw [← hrest]
    exact List.mem_append_left rest hc
  · intro c hc
    have hhead : (single.dropWhile isDash).head? = some c := by
      rw [← hrest, List.head?_append, hc, Option.some_or]
    exact dropWhile_head hhead
  · exact fun c hc => dropRight_getLast hc
  · have hsuffix : SingleDashes (single.dropWhile isDash) :=
      (replaceRuns_single replaced false).suffix (List.dropWhile_suffix isDash)
    rw [← hrest] at hsuffix
    exact hsuffix.left_of_append
  · exact htaken.length_le.trans (List.length_take_le 48 _)

theorem cleanCustomer_eq_self (hp : Lowers p) {raw : String} (h : Neat raw.toList) :
    cleanCustomer p raw = raw.toList := by
  have hreplaced : replaceRuns (fun c => !customerChar c) false raw.toList = raw.toList :=
    replaceRuns_eq_self (fun c hc => by simp [h.chars c hc])
  have hsingle : replaceRuns isDash false raw.toList = raw.toList :=
    replaceRuns_of_single h.single (fun hb => by cases hb)
  simp only [cleanCustomer, hp raw h.chars, hreplaced, hsingle, dropWhile_eq_self h.first,
    dropRight_eq_self h.last, List.take_of_length_le h.short]

theorem hexChar {hex : String} (h : isHex8 hex = true) :
    hex.toList.length = 8 ∧ ∀ c ∈ hex.toList, customerChar c = true ∧ isDash c = false := by
  simp only [isHex8, Bool.and_eq_true, decide_eq_true_eq, List.all_eq_true] at h
  refine ⟨h.1, fun c hc => ?_⟩
  have hdash : c ≠ '-' := by
    rintro rfl
    exact absurd (h.2 '-' hc) (by decide)
  refine ⟨?_, by simpa [isDash] using hdash⟩
  have hcase := h.2 c hc
  simp only [Bool.or_eq_true, Bool.and_eq_true, decide_eq_true_eq] at hcase
  obtain hd | ⟨hlow, hhigh⟩ := hcase
  · simp [customerChar, hd]
  · have hle : c ≤ 'z' := Char.le_trans hhigh (by decide)
    simp only [customerChar, Char.isLower, Bool.or_eq_true, Bool.and_eq_true, decide_eq_true_eq]
    exact .inl (.inl ⟨hlow, hle⟩)

theorem single_of_no_dash {cs : List Char} (h : ∀ c ∈ cs, isDash c = false) : SingleDashes cs := by
  induction cs with
  | nil => exact .nil
  | cons c cs ih =>
    refine List.isChain_cons.mpr ⟨fun d _ hboth => ?_, ih (fun d hd => h d (by simp [hd]))⟩
    exact absurd hboth.1 (by simp [h c (by simp)])

/-- A short neat text stays neat when a dash and random digits follow it. -/
theorem Neat.complete {base : List Char} (h : Neat base) (hne : base ≠ []) (hlen : base.length ≤ 3)
    {hex : String} (hhex : isHex8 hex = true) : Neat (base ++ '-' :: hex.toList) := by
  obtain ⟨height, hchars⟩ := hexChar hhex
  have hhexne : hex.toList ≠ [] := fun hnil => by
    rw [hnil] at height
    cases height
  constructor
  · intro c hc
    rw [List.mem_append, List.mem_cons] at hc
    obtain hc | rfl | hc := hc
    · exact h.chars c hc
    · decide
    · exact (hchars c hc).1
  · intro c hc
    apply h.first
    rwa [List.head?_append_of_ne_nil _ hne] at hc
  · intro c hc
    rw [List.getLast?_append, List.getLast?_cons] at hc
    obtain ⟨d, hd⟩ := Option.isSome_iff_exists.mp (List.getLast?_isSome.mpr hhexne)
    rw [hd, Option.getD_some, Option.some_or, Option.some.injEq] at hc
    exact hc ▸ (hchars d (List.mem_of_getLast? hd)).2
  · apply List.isChain_append.mpr
    refine ⟨h.single, List.isChain_cons.mpr ⟨fun d hd hboth => ?_,
      single_of_no_dash (fun c hc => (hchars c hc).2)⟩, fun c hc d _ hboth => ?_⟩
    · exact absurd hboth.2 (by simp [(hchars d (List.mem_of_mem_head? hd)).2])
    · exact absurd hboth.1 (by simp [h.last c hc])
  · simp only [List.length_append, List.length_cons, height]
    omega

theorem rig_neat : Neat ['r', 'i', 'g'] := by
  have hchars : ∀ c ∈ ['r', 'i', 'g'], customerChar c = true ∧ isDash c = false := by
    intro c hc
    simp only [List.mem_cons, List.not_mem_nil, or_false] at hc
    obtain rfl | rfl | rfl := hc <;> decide
  exact ⟨fun c hc => (hchars c hc).1, fun c hc => (hchars c (List.mem_of_mem_head? hc)).2,
    fun c hc => (hchars c (List.mem_of_getLast? hc)).2,
    single_of_no_dash (fun c hc => (hchars c hc).2), by decide⟩

theorem sanitizeCustomerSlug_neat (p : Platform) {hex : String} (hhex : isHex8 hex = true) (raw : String) :
    Neat (sanitizeCustomerSlug p hex raw).toList ∧ 3 ≤ (sanitizeCustomerSlug p hex raw).toList.length := by
  have hneat := cleanCustomer_neat (p := p) raw
  by_cases hlong : 3 ≤ (cleanCustomer p raw).length
  · simp only [sanitizeCustomerSlug, if_pos hlong, String.toList_ofList]
    exact ⟨hneat, hlong⟩
  · have hbase : ∃ base, Neat base ∧ base ≠ [] ∧ base.length ≤ 3 ∧
        sanitizeCustomerSlug p hex raw = String.ofList ((base ++ '-' :: hex.toList).take 48) := by
      by_cases hempty : cleanCustomer p raw = []
      · refine ⟨['r', 'i', 'g'], rig_neat, List.cons_ne_nil _ _, le_rfl, ?_⟩
        simp only [sanitizeCustomerSlug, if_neg hlong, if_pos hempty]
      · refine ⟨cleanCustomer p raw, hneat, hempty, by omega, ?_⟩
        simp only [sanitizeCustomerSlug, if_neg hlong, if_neg hempty]
    obtain ⟨base, hb, hne, hlen, hslug⟩ := hbase
    have hcomplete := hb.complete hne hlen hhex
    rw [hslug, String.toList_ofList, List.take_of_length_le hcomplete.short]
    refine ⟨hcomplete, ?_⟩
    simp only [List.length_append, List.length_cons, (hexChar hhex).1]
    omega

theorem sanitizeCustomerSlug_eq (hp : Lowers p) {hex raw : String} (hhex : isHex8 hex = true) :
    sanitizeCustomerSlug p hex raw = raw ↔ Neat raw.toList ∧ 3 ≤ raw.toList.length := by
  constructor
  · intro h
    have hspec := sanitizeCustomerSlug_neat p hhex raw
    rwa [h] at hspec
  · rintro ⟨hneat, hlong⟩
    have hself := cleanCustomer_eq_self hp hneat
    simp only [sanitizeCustomerSlug, hself, if_pos hlong, String.ofList_toList]

end Customer

section Grammar

theorem lowerAlnum_iff (c : Char) : lowerAlnum c = true ↔ customerChar c = true ∧ isDash c = false := by
  simp only [lowerAlnum, customerChar, Bool.or_eq_true]
  constructor
  · intro h
    refine ⟨.inl h, ?_⟩
    by_contra hdash
    have hc : c = '-' := by simpa [isDash] using hdash
    subst hc
    exact absurd h (by decide)
  · rintro ⟨h | h, hdash⟩
    · exact h
    · exact absurd h (by simp [hdash])

theorem slugPattern_iff {s : String} {first last : Char} {middle : List Char}
    (h : s.toList = first :: (middle ++ [last])) : slugPattern s = true ↔
      lowerAlnum first = true ∧ (1 ≤ middle.length ∧ middle.length ≤ 46) ∧
        (∀ c ∈ middle, customerChar c = true) ∧ lowerAlnum last = true := by
  simp only [slugPattern, h, List.dropLast_concat, List.getLast?_concat, Option.any_some,
    Bool.and_eq_true, decide_eq_true_eq, List.all_eq_true, and_assoc]

theorem slugPattern_chars {s : String} (h : slugPattern s = true) :
    s.toList ≠ [] ∧ ∀ c ∈ s.toList, customerChar c = true := by
  match hs : s.toList with
  | [] => simp [slugPattern, hs] at h
  | first :: rest =>
    refine ⟨List.cons_ne_nil first rest, ?_⟩
    obtain rfl | ⟨middle, last, rfl⟩ := rest.eq_nil_or_concat'
    · simp [slugPattern, hs] at h
    · obtain ⟨hfirst, _, hmiddle, hlast⟩ := (slugPattern_iff hs).mp h
      intro c hc
      simp only [List.mem_cons, List.mem_append, List.not_mem_nil, or_false] at hc
      obtain rfl | hc | rfl := hc
      · exact ((lowerAlnum_iff c).mp hfirst).1
      · exact hmiddle c hc
      · exact ((lowerAlnum_iff c).mp hlast).1

/-- A text that the pattern accepts lacks nothing but single dashes to be neat. -/
theorem accepted_single_iff (s : String) : slugPattern s = true ∧ SingleDashes s.toList ↔
    Neat s.toList ∧ 3 ≤ s.toList.length := by
  match hs : s.toList with
  | [] => simp [slugPattern, hs]
  | first :: rest =>
    obtain rfl | ⟨middle, last, rfl⟩ := rest.eq_nil_or_concat'
    · simp [slugPattern, hs]
    · rw [slugPattern_iff hs, lowerAlnum_iff, lowerAlnum_iff]
      have hlast : (first :: (middle ++ [last])).getLast? = some last := by
        rw [← List.cons_append, List.getLast?_concat]
      constructor
      · rintro ⟨⟨hfirst, hlen, hmiddle, hend⟩, hsingle⟩
        refine ⟨⟨fun c hc => ?_, fun c hc => ?_, fun c hc => ?_, hsingle, ?_⟩, ?_⟩
        · simp only [List.mem_cons, List.mem_append, List.not_mem_nil, or_false] at hc
          obtain rfl | hc | rfl := hc
          · exact hfirst.1
          · exact hmiddle c hc
          · exact hend.1
        · cases hc
          exact hfirst.2
        · rw [hlast] at hc
          cases hc
          exact hend.2
        · simp only [List.length_cons, List.length_append, List.length_nil]
          omega
        · simp only [List.length_cons, List.length_append, List.length_nil]
          omega
      · rintro ⟨hneat, hlong⟩
        have hshort := hneat.short
        simp only [List.length_cons, List.length_append, List.length_nil] at hlong hshort
        refine ⟨⟨⟨hneat.chars first (by simp), hneat.first first rfl⟩, by omega, fun c hc => ?_,
          hneat.chars last (by simp), hneat.last last hlast⟩, hneat.single⟩
        exact hneat.chars c (by simp [hc])

/-- The result of the rewrites starts with a letter or digit, unless nothing is left. -/
theorem sanitizeWorkerSlug_accepted (raw : String) :
    CreateWorkerDto.slug (sanitizeWorkerSlug raw) = true := by
  let replaced := replaceRuns (fun c => !workerChar c) false raw.toList
  have hchars : ∀ c ∈ replaced, workerChar c = true := by
    intro c hc
    obtain rfl | ⟨_, hc⟩ := mem_replaceRuns hc
    · decide
    · simpa using hc
  let trimmed := replaced.dropWhile (fun c => !c.isAlphanum)
  have hslug : sanitizeWorkerSlug raw =
      if trimmed.take 64 = [] then "default" else String.ofList (trimmed.take 64) := rfl
  have htaken : trimmed.take 64 <+: trimmed := List.take_prefix 64 trimmed
  have hlen : (trimmed.take 64).length ≤ 64 := List.length_take_le 64 trimmed
  match hcleaned : trimmed.take 64 with
  | [] =>
    rw [hslug, if_pos hcleaned]
    decide
  | first :: rest =>
    rw [hcleaned] at hslug htaken hlen
    rw [hslug, if_neg (List.cons_ne_nil first rest)]
    have hfirst : first.isAlphanum = true := by
      obtain ⟨tail, htail⟩ := htaken
      have hhead : trimmed.head? = some first := by
        rw [← htail]
        rfl
      simpa using dropWhile_head hhead
    have hrest : ∀ c ∈ rest, workerChar c = true := by
      intro c hc
      apply hchars
      apply (List.dropWhile_sublist (fun c => !c.isAlphanum)).subset
      exact htaken.subset (List.mem_cons_of_mem first hc)
    rw [List.length_cons] at hlen
    simp only [CreateWorkerDto.slug, String.toList_ofList, hfirst, Bool.true_and, Bool.and_eq_true,
      decide_eq_true_eq, List.all_eq_true]
    exact ⟨by omega, hrest⟩

theorem sanitizeWorkerSlug_eq_self {slug : String} (h : CreateWorkerDto.slug slug = true) :
    sanitizeWorkerSlug slug = slug := by
  match hs : slug.toList with
  | [] => simp [CreateWorkerDto.slug, hs] at h
  | first :: rest =>
    simp only [CreateWorkerDto.slug, hs, Bool.and_eq_true, decide_eq_true_eq, List.all_eq_true] at h
    obtain ⟨⟨hfirst, hlen⟩, hrest⟩ := h
    have hchars : ∀ c ∈ first :: rest, (!workerChar c) = false := by
      intro c hc
      obtain rfl | hc := List.mem_cons.mp hc
      · simp [workerChar, hfirst]
      · simp [hrest c hc]
    have htrimmed : (first :: rest).dropWhile (fun c => !c.isAlphanum) = first :: rest :=
      dropWhile_eq_self (fun c hc => by
        cases hc
        simp [hfirst])
    have htaken : (first :: rest).take 64 = first :: rest :=
      List.take_of_length_le (by rw [List.length_cons]; omega)
    simp only [sanitizeWorkerSlug, hs, replaceRuns_eq_self hchars, htrimmed, htaken,
      List.cons_ne_nil, if_false]
    rw [← hs, String.ofList_toList]

/-- Whatever is sent, both sanitisers answer with a slug of the grammar, and a
customer's slug is final. -/
theorem sanitised_slugs_well_formed {p : Platform} (hp : Lowers p) :
    (∀ hex raw, isHex8 hex = true →
      CreateCustomerDto.slug (sanitizeCustomerSlug p hex raw) = true ∧
      PortalAccessDto.customerSlug (sanitizeCustomerSlug p hex raw) = true ∧
      ∀ hex', isHex8 hex' = true →
        sanitizeCustomerSlug p hex' (sanitizeCustomerSlug p hex raw) = sanitizeCustomerSlug p hex raw) ∧
    ∀ raw, CreateWorkerDto.slug (sanitizeWorkerSlug raw) = true := by
  refine ⟨fun hex raw hhex => ?_, sanitizeWorkerSlug_accepted⟩
  have hneat := sanitizeCustomerSlug_neat p hhex raw
  have haccepted := ((accepted_single_iff _).mpr hneat).1
  refine ⟨haccepted, haccepted, fun hex' hhex' => ?_⟩
  exact (sanitizeCustomerSlug_eq hp hhex').mpr hneat

end Grammar

section Sample

def samplePlatform : Platform :=
  ⟨⟨fun _ _ plaintext => ("tag", plaintext), fun _ _ ciphertext _ => some ciphertext, fun key _ => key⟩,
    fun _ secret => secret, fun hash secret => hash = secret, id,
    fun s => String.ofList (s.toList.map Char.toLower), id, id, fun _ => "now"⟩

theorem samplePlatform_lowers : Lowers samplePlatform := by
  intro s h
  have hmap : s.toList.map Char.toLower = s.toList := by
    refine (List.map_congr_left (fun c hc => ?_)).trans (List.map_id _)
    have hupper : ¬ (c.val ≥ 'A'.val ∧ c.val ≤ 'Z'.val) := by
      rintro ⟨hge, hle⟩
      have hc' := h c hc
      simp only [customerChar, Char.isLower, Char.isDigit, isDash, Bool.or_eq_true,
        Bool.and_eq_true, decide_eq_true_eq] at hc'
      simp only [ge_iff_le, UInt32.le_iff_toNat_le] at hge hle hc'
      have hA : 'A'.val.toNat = 65 := rfl
      have hZ : 'Z'.val.toNat = 90 := rfl
      have ha : 'a'.val.toNat = 97 := rfl
      have h9 : '9'.val.toNat = 57 := rfl
      obtain (⟨hlow, _⟩ | ⟨_, hhigh⟩) | rfl := hc'
      · omega
      · omega
      · exact absurd hge (by decide)
    rw [Char.toLower, dif_neg hupper, id_eq]
  simp only [samplePlatform, hmap, String.ofList_toList]

theorem sanitised_slugs_well_formed_sample :
    CreateCustomerDto.slug (sanitizeCustomerSlug samplePlatform "0a1b2c3d" "--É.") = true ∧
    sanitizeCustomerSlug samplePlatform "ffffffff"
      (sanitizeCustomerSlug samplePlatform "0a1b2c3d" "--É.") =
      sanitizeCustomerSlug samplePlatform "0a1b2c3d" "--É." ∧
    CreateWorkerDto.slug (sanitizeWorkerSlug "-_ö") = true := by
  obtain ⟨hcustomer, hworker⟩ := sanitised_slugs_well_formed samplePlatform_lowers
  obtain ⟨haccepted, _, hfinal⟩ := hcustomer "0a1b2c3d" "--É." (by decide)
  exact ⟨haccepted, hfinal "ffffffff" (by decide), hworker "-_ö"⟩

end Sample

end Bitmine.Slugs
