import Mathlib

namespace Bitmine.Lib.Reservation

@[ext]
structure Account (M : Type) where
  earned : M
  held : M
  paid : M

variable {M : Type} [AddCommGroup M] [PartialOrder M]

namespace Account

instance : Zero (Account M) := ⟨⟨0, 0, 0⟩⟩

def free (a : Account M) : M := a.earned - a.paid - a.held

/-- No more is set aside than is free, and no more is paid than was set aside. -/
inductive Move (a : Account M) : Account M → Prop where
  | earn {n : M} (hn : 0 ≤ n) : Move a { a with earned := a.earned + n }
  | setAside {n : M} (hn : 0 ≤ n) (hfree : n ≤ a.free) : Move a { a with held := a.held + n }
  | pay {n : M} (hn : 0 ≤ n) (hheld : n ≤ a.held) : Move a { a with held := a.held - n, paid := a.paid + n }

structure Sound (a : Account M) : Prop where
  held : 0 ≤ a.held
  paid : 0 ≤ a.paid
  free : 0 ≤ a.free

/-- What only grows while an account moves: what it has earned, what it has paid, and
what it has ever set aside. -/
structure Rises (a b : Account M) : Prop where
  earned : a.earned ≤ b.earned
  paid : a.paid ≤ b.paid
  setAside : a.held + a.paid ≤ b.held + b.paid

theorem sound_zero : Sound (0 : Account M) := by
  refine ⟨le_rfl, le_rfl, ?_⟩
  show (0 : M) ≤ 0 - 0 - 0
  simp

theorem Rises.refl (a : Account M) : Rises a a := ⟨le_rfl, le_rfl, le_rfl⟩

theorem Rises.trans {a b c : Account M} (h : Rises a b) (h' : Rises b c) : Rises a c :=
  ⟨h.earned.trans h'.earned, h.paid.trans h'.paid, h.setAside.trans h'.setAside⟩

variable [IsOrderedAddMonoid M] {a b : Account M}

theorem Move.sound (h : Move a b) (ha : Sound a) : Sound b := by
  cases h with
  | @earn n hn =>
    refine ⟨ha.held, ha.paid, ?_⟩
    have hsplit : a.earned + n - a.paid - a.held = a.free + n := by
      rw [Account.free]
      abel
    rw [Account.free, hsplit]
    exact add_nonneg ha.free hn
  | @setAside n hn hfree =>
    refine ⟨add_nonneg ha.held hn, ha.paid, ?_⟩
    have hsplit : a.earned - a.paid - (a.held + n) = a.free - n := by
      rw [Account.free]
      abel
    rw [Account.free, hsplit]
    exact sub_nonneg.mpr hfree
  | @pay n hn hheld =>
    refine ⟨sub_nonneg.mpr hheld, add_nonneg ha.paid hn, ?_⟩
    have hsplit : a.earned - (a.paid + n) - (a.held - n) = a.free := by
      rw [Account.free]
      abel
    rw [Account.free, hsplit]
    exact ha.free

theorem Move.rises (h : Move a b) : Rises a b := by
  cases h with
  | earn hn => exact ⟨le_add_of_nonneg_right hn, le_rfl, le_rfl⟩
  | setAside hn hfree => exact ⟨le_rfl, le_rfl, add_le_add_left (le_add_of_nonneg_right hn) _⟩
  | @pay n hn hheld =>
    refine ⟨le_rfl, le_add_of_nonneg_right hn, le_of_eq ?_⟩
    show a.held + a.paid = a.held - n + (a.paid + n)
    abel

/-- Any number of moves. -/
abbrev Run : Account M → Account M → Prop := Relation.ReflTransGen Move

theorem Run.sound (h : Run a b) (ha : Sound a) : Sound b := by
  induction h with
  | refl => exact ha
  | tail _ hmove ih => exact hmove.sound ih

theorem Run.rises (h : Run a b) : Rises a b := by
  induction h with
  | refl => exact Rises.refl a
  | tail _ hmove ih => exact ih.trans hmove.rises

theorem Run.of_earn (hn : a.earned ≤ b.earned) (hheld : b.held = a.held) (hpaid : b.paid = a.paid) :
    Run a b := by
  have hb : b = { a with earned := a.earned + (b.earned - a.earned) } := by
    ext
    · exact (add_sub_cancel _ _).symm
    · exact hheld
    · exact hpaid
  rw [hb]
  exact .single (.earn (sub_nonneg.mpr hn))

theorem Run.of_setAside (hearned : b.earned = a.earned) (hn : a.held ≤ b.held) (hpaid : b.paid = a.paid)
    (hfree : 0 ≤ b.free) : Run a b := by
  have hb : b = { a with held := a.held + (b.held - a.held) } := by
    ext
    · exact hearned
    · exact (add_sub_cancel _ _).symm
    · exact hpaid
  rw [hb]
  refine .single (.setAside (sub_nonneg.mpr hn) ?_)
  have hsplit : b.free = a.free - (b.held - a.held) := by
    rw [Account.free, Account.free, hearned, hpaid]
    abel
  exact sub_nonneg.mp (hsplit ▸ hfree)

theorem Run.of_pay {n : M} (hn : 0 ≤ n) (hearned : b.earned = a.earned) (hheld : b.held = a.held - n)
    (hpaid : b.paid = a.paid + n) (hb : 0 ≤ b.held) : Run a b := by
  have heq : b = { a with held := a.held - n, paid := a.paid + n } := by
    ext
    · exact hearned
    · exact hheld
    · exact hpaid
  rw [heq]
  exact .single (.pay hn (sub_nonneg.mp (hheld ▸ hb)))

end Account

end Bitmine.Lib.Reservation
