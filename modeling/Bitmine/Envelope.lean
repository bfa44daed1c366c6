import Bitmine.AccountConsistency

namespace Bitmine.Envelope

open Bitmine.Lib.Throwing Bitmine.Security Bitmine.PoolAccounts

/-- Authenticated encryption that binds what it seals to the context, with no
ciphertext for an empty plaintext. -/
structure Sealing (prim : Primitives) : Prop extends Authentic prim where
  binds : ∀ iv context plaintext context', context' ≠ context →
    prim.decipher iv (prim.encipher iv context plaintext).1
      (prim.encipher iv context plaintext).2 context' = none
  empty : ∀ iv context, (prim.encipher iv context "").2 = ""

/-- An envelope opens under its own context, and under no other. -/
def RoundTrips (prim : Primitives) (iv plaintext context : String) : Prop :=
  decrypt prim (encrypt prim iv plaintext context) context = .ok plaintext ∧
    ∀ context' ≠ context, ∃ e, decrypt prim (encrypt prim iv plaintext context) context' = .error e

variable {prim : Primitives} {iv : String}

theorem decrypt_empty (h : Sealing prim) (hiv : Undotted iv) (context context' : String) :
    decrypt prim (encrypt prim iv "" context) context' = .error "Invalid encrypted payload" := by
  have htag := h.tag iv context ""
  have htext : (prim.encipher iv context "").2 = "" := h.empty iv context
  have hfree : '.' ∉ (prim.encipher iv context "").2.toList := by
    rw [htext]
    exact List.not_mem_nil
  have hmissing : truthy (some "") = none := by rw [truthy, if_pos rfl]
  simp only [decrypt, splitDots_encrypt hiv.2 htag.2 hfree, List.getElem?_cons_zero,
    List.getElem?_cons_succ, truthy_some hiv.1, truthy_some htag.1, htext, hmissing]

theorem decrypt_other (h : Sealing prim) (hiv : Undotted iv) {plaintext context context' : String}
    (hp : plaintext ≠ "") (hne : context' ≠ context) :
    decrypt prim (encrypt prim iv plaintext context) context' =
      .error "Unsupported state or unable to authenticate data" := by
  have htag := h.tag iv context plaintext
  have htext := h.ciphertext iv context plaintext hp
  simp only [decrypt, splitDots_encrypt hiv.2 htag.2 htext.2, List.getElem?_cons_zero,
    List.getElem?_cons_succ, truthy_some hiv.1, truthy_some htag.1, truthy_some htext.1,
    h.binds iv context plaintext context' hne]
  rfl

/-- Every text but the empty one comes back from its envelope. -/
theorem round_trips_iff (h : Sealing prim) (hiv : Undotted iv) (plaintext context : String) :
    RoundTrips prim iv plaintext context ↔ plaintext ≠ "" := by
  constructor
  · rintro ⟨hopens, _⟩ rfl
    rw [decrypt_empty h hiv] at hopens
    cases hopens
  · intro hp
    refine ⟨decrypt_encrypt h.toAuthentic hiv hp, fun context' hne => ?_⟩
    exact ⟨_, decrypt_other h hiv hp hne⟩

section Sample

open Bitmine.AccountConsistency

def samplePrimitives : Primitives :=
  ⟨fun _ context plaintext =>
      (String.ofList ('t' :: escape context.toList), String.ofList (escape plaintext.toList)),
    fun _ tag ciphertext context =>
      if tag = String.ofList ('t' :: escape context.toList) then
        some (String.ofList (unescape ciphertext.toList))
      else none,
    fun _ _ => []⟩

theorem escape_injective : Function.Injective escape :=
  Function.LeftInverse.injective unescape_escape

theorem samplePrimitives_sealing : Sealing samplePrimitives where
  opens iv context plaintext := by simp [samplePrimitives, unescape_escape]
  tag iv context plaintext := by
    constructor
    · intro he
      exact absurd (congrArg String.toList he) (by simp [samplePrimitives])
    · simp only [samplePrimitives, String.toList_ofList, List.mem_cons, not_or]
      exact ⟨by decide, dot_not_mem_escape _⟩
  ciphertext iv context plaintext h := samplePrimitives_authentic.ciphertext iv context plaintext h
  binds iv context plaintext context' hne := by
    apply if_neg
    intro htag
    have hlist := String.ofList_injective htag
    exact hne (String.toList_inj.mp (escape_injective (List.cons.inj hlist).2)).symm
  empty iv context := rfl

theorem sampleIv_undotted : Undotted "AAECAwQFBgcICQoL" := ⟨by decide, by decide⟩

theorem round_trips_sample : RoundTrips samplePrimitives "AAECAwQFBgcICQoL" "pool.password" "upstream:1" :=
  (round_trips_iff samplePrimitives_sealing sampleIv_undotted _ _).mpr (by decide)

/-- What is sealed for an empty text is refused when it is read back. -/
theorem empty_text_refused : ∃ prim : Primitives, Sealing prim ∧ Undotted "AAECAwQFBgcICQoL" ∧
    decrypt prim (encrypt prim "AAECAwQFBgcICQoL" "" "network-proxy:vpn-config")
      "network-proxy:vpn-config" = .error "Invalid encrypted payload" :=
  ⟨samplePrimitives, samplePrimitives_sealing, sampleIv_undotted,
    decrypt_empty samplePrimitives_sealing sampleIv_undotted _ _⟩

end Sample

end Bitmine.Envelope
