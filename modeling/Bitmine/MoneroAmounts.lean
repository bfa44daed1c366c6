import Bitmine.Lib.WholeDoubles
import Bitmine.WalletAmounts

namespace Bitmine.MoneroAmounts

open Bitmine.Lib.JsNumber Bitmine.Lib.WholeDoubles Bitmine.Lib.Throwing
open Bitmine.Deployment (WalletReceipt)
open Bitmine.WalletAmounts (present present_eq)

inductive Amount where
  | number (x : ℚ)
  | text (s : String)

structure SubaddressIndex where
  major : ℕ
  minor : ℕ

structure MoneroTransfer where
  address : Option String
  amount : Amount
  confirmations : Option ℤ
  txid : String
  locked : Option Bool
  subaddr_index : Option SubaddressIndex

/-- What `get_transfers` answers. -/
structure Transfers where
  incoming : Option (List MoneroTransfer)
  pool : Option (List MoneroTransfer)

variable (space : Char → Bool)

/-- Whole numbers in the notations that `BigInt` reads. -/
def readInteger : List Char → Option ℤ
  | [] => some 0
  | '0' :: 'x' :: cs | '0' :: 'X' :: cs => (readBase 16 cs).map (fun n => (n : ℤ))
  | '0' :: 'o' :: cs | '0' :: 'O' :: cs => (readBase 8 cs).map (fun n => (n : ℤ))
  | '0' :: 'b' :: cs | '0' :: 'B' :: cs => (readBase 2 cs).map (fun n => (n : ℤ))
  | '+' :: cs => (readBase 10 cs).map (fun n => (n : ℤ))
  | '-' :: cs => (readBase 10 cs).map (fun n => -(n : ℤ))
  | cs => (readBase 10 cs).map (fun n => (n : ℤ))

def bigInt : Amount → Except String ℤ
  | .number x => if x.den = 1 then .ok x.num else
      .error "The number cannot be converted to a BigInt because it is not an integer"
  | .text s => orThrow "Cannot convert to a BigInt" (readInteger (trimSpace space s.toList))

def watched (addresses : List String) (t : MoneroTransfer) : Bool :=
  present t.address && addresses.any (fun a => t.address = some a)

def isReceipt (addresses : List String) (t : MoneroTransfer) : Except String Bool :=
  if watched addresses t then (bigInt space t.amount).map (fun amount => 0 < amount) else .ok false

def outputRef (t : MoneroTransfer) : String :=
  toString ((t.subaddr_index.map SubaddressIndex.major).getD 0) ++ ":" ++
    toString ((t.subaddr_index.map SubaddressIndex.minor).getD 0)

def receipt (required : ℤ) (t : MoneroTransfer) : Except String WalletReceipt :=
  (bigInt space t.amount).map (fun amountAtomic =>
    { txid := t.txid
      outputRef := outputRef t
      address := t.address.getD ""
      amountAtomic := amountAtomic
      confirmations := t.confirmations.getD 0
      locked := decide (t.locked ≠ some false) || decide (t.confirmations.getD 0 < required) })

def filterReceipts (addresses : List String) : List MoneroTransfer → Except String (List MoneroTransfer)
  | [] => .ok []
  | t :: rest => do
    let keep ← isReceipt space addresses t
    let kept ← filterReceipts addresses rest
    pure (if keep then t :: kept else kept)

/-- What becomes of the answer of `get_transfers`. -/
def scanReceipts (required : ℤ) (addresses : List String) (result : Transfers) :
    Except String (List WalletReceipt) :=
  if addresses.isEmpty then .ok []
  else do
    let kept ← filterReceipts space addresses (result.incoming.getD [] ++ result.pool.getD [])
    kept.mapM (receipt space required)

section Receiving

variable {space} {required : ℤ} {addresses : List String} {atomic : MoneroTransfer → ℕ}

/-- What the wallet writes down for an amount that fits its sixty-four bits. -/
inductive Writes (space : Char → Bool) (n : ℕ) : Amount → Prop where
  | number {x : ℚ} (hn : n < 2 ^ 64) (h : roundDouble n = some x) : Writes space n (.number x)
  | text {s : String} (h : readInteger (trimSpace space s.toList) = some (n : ℤ)) : Writes space n (.text s)

/-- A text keeps every amount, a number those that fit the fifty-three bits of a double. -/
def Exact (n : ℕ) : Amount → Prop
  | .number _ => 2 ^ (Nat.size n - 53) ∣ n
  | .text _ => True

theorem bigInt_writes {n : ℕ} {amount : Amount} (h : Writes space n amount) :
    ∃ m : ℤ, bigInt space amount = .ok m ∧ (m = n ↔ Exact n amount) ∧ 2 ^ 53 * |m - n| ≤ n := by
  cases h with
  | number hn h =>
    obtain ⟨m, hm, hexact, hclose⟩ := roundDouble_whole (hn.trans (pow_lt_pow_right₀ (by decide) (by decide)))
    rw [hm] at h
    cases h
    refine ⟨m, ?_, hexact, hclose⟩
    rw [bigInt, if_pos (Rat.den_intCast m), Rat.num_intCast]
  | text h =>
    refine ⟨n, ?_, by simp [Exact], by simp⟩
    rw [bigInt, h]
    rfl

theorem pos_of_close {m : ℤ} {n : ℕ} (h : 2 ^ 53 * |m - n| ≤ (n : ℤ)) : 0 < m ↔ 0 < n := by
  have hlow := neg_abs_le (m - n)
  have hhigh := le_abs_self (m - n)
  have hnonneg := abs_nonneg (m - (n : ℤ))
  omega

structure Tells (required : ℤ) (atomic : MoneroTransfer → ℕ) (t : MoneroTransfer) (r : WalletReceipt) :
    Prop where
  txid : r.txid = t.txid
  address : t.address = some r.address
  outputRef : r.outputRef = MoneroAmounts.outputRef t
  confirmations : r.confirmations = t.confirmations.getD 0
  locked : r.locked = false ↔ t.locked = some false ∧ required ≤ r.confirmations
  exact : r.amountAtomic = atomic t ↔ Exact (atomic t) t.amount
  close : 2 ^ 53 * |r.amountAtomic - atomic t| ≤ (atomic t : ℤ)

theorem isReceipt_eq {t : MoneroTransfer} (h : watched addresses t = true → Writes space (atomic t) t.amount) :
    isReceipt space addresses t = .ok (watched addresses t && decide (0 < atomic t)) := by
  rw [isReceipt]
  split
  · rename_i hwatched
    obtain ⟨m, hm, _, hclose⟩ := bigInt_writes (h hwatched)
    rw [hm, hwatched, Except.map, Bool.true_and]
    simp only [pos_of_close hclose]
  · rename_i hnot
    rw [Bool.eq_false_iff.mpr hnot, Bool.false_and]

theorem filterReceipts_eq {l : List MoneroTransfer}
    (h : ∀ t ∈ l, watched addresses t = true → Writes space (atomic t) t.amount) :
    filterReceipts space addresses l = .ok (l.filter (fun t => watched addresses t && decide (0 < atomic t))) := by
  induction l with
  | nil => rfl
  | cons t l ih =>
    rw [filterReceipts, isReceipt_eq (h t List.mem_cons_self),
      ih (fun t ht => h t (List.mem_cons_of_mem _ ht)), List.filter_cons]
    rfl

theorem receipt_tells {t : MoneroTransfer} (hwatched : watched addresses t = true)
    (h : Writes space (atomic t) t.amount) :
    ∃ r, receipt space required t = .ok r ∧ Tells required atomic t r := by
  obtain ⟨m, hm, hexact, hclose⟩ := bigInt_writes h
  rw [watched, Bool.and_eq_true] at hwatched
  obtain ⟨address, haddress, _⟩ := present_eq hwatched.1
  let r : WalletReceipt := ⟨t.txid, outputRef t, t.address.getD "", m, t.confirmations.getD 0,
    decide (t.locked ≠ some false) || decide (t.confirmations.getD 0 < required)⟩
  have hr : receipt space required t = .ok r := by
    rw [receipt, hm]
    rfl
  have haddress' : t.address = some r.address := by
    show t.address = some (t.address.getD "")
    rw [haddress]
    rfl
  have hlocked : r.locked = false ↔ t.locked = some false ∧ required ≤ r.confirmations := by
    show (decide (t.locked ≠ some false) || decide (t.confirmations.getD 0 < required)) = false ↔
      t.locked = some false ∧ required ≤ t.confirmations.getD 0
    simp
  exact ⟨r, hr, rfl, haddress', rfl, rfl, hlocked, hexact, hclose⟩

theorem receipts_tell {l : List MoneroTransfer}
    (h : ∀ t ∈ l, watched addresses t = true ∧ Writes space (atomic t) t.amount) :
    ∃ receipts, l.mapM (receipt space required) = .ok receipts ∧
      List.Forall₂ (Tells required atomic) l receipts := by
  induction l with
  | nil => exact ⟨[], rfl, .nil⟩
  | cons t l ih =>
    obtain ⟨hwatched, hwrites⟩ := h t List.mem_cons_self
    obtain ⟨r, hr, htells⟩ : ∃ r, receipt space required t = .ok r ∧ Tells required atomic t r :=
      receipt_tells hwatched hwrites
    obtain ⟨rs, hrs, hrest⟩ := ih (fun t ht => h t (List.mem_cons_of_mem _ ht))
    refine ⟨r :: rs, ?_, .cons htells hrest⟩
    rw [List.mapM_cons, hr, hrs]
    rfl

theorem sum_close {l : List MoneroTransfer} {receipts : List WalletReceipt}
    (h : List.Forall₂ (Tells required atomic) l receipts) :
    2 ^ 53 * |(receipts.map WalletReceipt.amountAtomic).sum - ((l.map atomic).sum : ℕ)| ≤
      ((l.map atomic).sum : ℕ) := by
  induction h with
  | nil => simp
  | @cons t r l rs hhead _ ih =>
    have hclose := hhead.close
    simp only [List.map_cons, List.sum_cons, Nat.cast_add] at ih ⊢
    have htriangle := abs_add_le (r.amountAtomic - atomic t)
      ((rs.map WalletReceipt.amountAtomic).sum - ((l.map atomic).sum : ℕ))
    have hsplit : r.amountAtomic + (rs.map WalletReceipt.amountAtomic).sum -
        ((atomic t : ℤ) + ((l.map atomic).sum : ℕ)) = r.amountAtomic - atomic t +
          ((rs.map WalletReceipt.amountAtomic).sum - ((l.map atomic).sum : ℕ)) := by
      omega
    rw [hsplit]
    omega

/-- The receipts of a scan are the transfers to the watched addresses, in order. What the
wallet writes as a number is taken over unchanged exactly when its bits beyond the first
fifty-three are zero, and else it is rounded; in all the receipts are off by at most one
part in two to the fifty-three. -/
theorem receipts_exact_iff {result : Transfers} (hwatched : addresses ≠ [])
    (hamounts : ∀ t ∈ result.incoming.getD [] ++ result.pool.getD [], watched addresses t = true →
      Writes space (atomic t) t.amount) :
    let kept := (result.incoming.getD [] ++ result.pool.getD []).filter
      (fun t => watched addresses t && decide (0 < atomic t))
    ∃ receipts, scanReceipts space required addresses result = .ok receipts ∧
      List.Forall₂ (Tells required atomic) kept receipts ∧
      2 ^ 53 * |(receipts.map WalletReceipt.amountAtomic).sum - ((kept.map atomic).sum : ℕ)| ≤
        ((kept.map atomic).sum : ℕ) := by
  intro kept
  have hkept : ∀ t ∈ kept, watched addresses t = true ∧ Writes space (atomic t) t.amount := by
    intro t ht
    obtain ⟨hmem, htest⟩ := List.mem_filter.mp ht
    rw [Bool.and_eq_true] at htest
    exact ⟨htest.1, hamounts t hmem htest.1⟩
  obtain ⟨receipts, hreceipts, htells⟩ : ∃ receipts, kept.mapM (receipt space required) = .ok receipts ∧
      List.Forall₂ (Tells required atomic) kept receipts := receipts_tell hkept
  refine ⟨receipts, ?_, htells, sum_close htells⟩
  rw [scanReceipts, if_neg (by simpa using hwatched), filterReceipts_eq hamounts]
  exact hreceipts

def sampleTransfers : List MoneroTransfer :=
  [⟨some "address-a", .number 9007199254740992, some 12, "txid-a", some false, some ⟨0, 1⟩⟩,
    ⟨some "address-a", .text "100", none, "txid-b", none, none⟩]

def sampleAtomic (t : MoneroTransfer) : ℕ := if t.txid = "txid-a" then 9007199254740993 else 100

theorem receipts_exact_iff_sample : ∃ r₁ r₂,
    scanReceipts Security.isSpace 10 ["address-a"] ⟨some sampleTransfers, none⟩ = .ok [r₁, r₂] ∧
    r₁.amountAtomic ≠ 9007199254740993 ∧ r₁.locked = false ∧ r₂.amountAtomic = 100 ∧ r₂.locked = true := by
  have heach : ∀ t ∈ sampleTransfers, watched ["address-a"] t = true ∧ 0 < sampleAtomic t ∧
      Writes Security.isSpace (sampleAtomic t) t.amount := by
    intro t ht
    simp only [sampleTransfers, List.mem_cons, List.not_mem_nil, or_false] at ht
    obtain rfl | rfl := ht
    · exact ⟨by decide, by decide, .number (by decide) (by decide +kernel)⟩
    · exact ⟨by decide, by decide, .text (by decide)⟩
  obtain ⟨receipts, hscan, htells, _⟩ := @receipts_exact_iff Security.isSpace 10 ["address-a"] sampleAtomic
    ⟨some sampleTransfers, none⟩ (by simp) (fun t ht _ => (heach t (by simpa using ht)).2.2)
  have hkept : sampleTransfers.filter (fun t => watched ["address-a"] t && decide (0 < sampleAtomic t)) =
      sampleTransfers := by
    apply List.filter_eq_self.mpr
    intro t ht
    simp [heach t ht]
  simp only [Option.getD_some, Option.getD_none, List.append_nil, hkept] at htells
  cases htells with
  | @cons _ r₁ _ _ hfirst hrest =>
    cases hrest with
    | @cons _ r₂ _ _ hsecond hnil =>
      cases hnil
      refine ⟨r₁, r₂, hscan, ?_, hfirst.locked.mpr ⟨rfl, ?_⟩, hsecond.exact.mpr trivial, ?_⟩
      · intro hamount
        have hdvd : 2 ^ (Nat.size 9007199254740993 - 53) ∣ 9007199254740993 := hfirst.exact.mp hamount
        revert hdvd
        decide +kernel
      · rw [hfirst.confirmations]
        decide
      · rw [← Bool.not_eq_false, hsecond.locked]
        simp

end Receiving

end Bitmine.MoneroAmounts
