import Mathlib.Algebra.Order.Field.Rat
import Mathlib.Algebra.Order.Field.Power
import Mathlib.Data.Rat.Cast.Order
import Mathlib.Tactic.Positivity
import Mathlib.Tactic.Ring

/-!
# Dyadic numbers

The numbers `m · 2 ^ e`, for a natural `m` and an integer `e`.  Two of them are compared
by bringing both to the smaller exponent (`dyadic_lt_iff`).
-/

namespace Jacl.DyadicNumbers

/-- `m · 2 ^ e`. -/
def dyadic (m : Nat) (e : Int) : ℚ := m * 2 ^ e

/-- The sign of a difference. -/
def orderSign {α : Type} [LinearOrder α] (a b : α) : Int :=
  if a < b then -1 else if b < a then 1 else 0

variable {m n : Nat} {e f : Int} {α : Type} [LinearOrder α] {a b : α}

theorem dyadic_zero (e : Int) : dyadic 0 e = 0 := by
  rw [dyadic, Nat.cast_zero, zero_mul]

theorem dyadic_pos (hm : 0 < m) : 0 < dyadic m e := by
  unfold dyadic
  positivity

theorem dyadic_nonneg (m : Nat) (e : Int) : 0 ≤ dyadic m e := by
  unfold dyadic
  positivity

/-- Moving a factor `2 ^ k` into the exponent. -/
theorem dyadic_shift (m k : Nat) (e : Int) : dyadic (m * 2 ^ k) e = dyadic m (e + k) := by
  unfold dyadic
  rw [zpow_add₀ (by norm_num), zpow_natCast]
  push_cast
  ring

theorem dyadic_mul (m n : Nat) (e f : Int) : dyadic m e * dyadic n f = dyadic (m * n) (e + f) := by
  unfold dyadic
  rw [zpow_add₀ (by norm_num)]
  push_cast
  ring

theorem dyadic_lt_same (e : Int) : dyadic m e < dyadic n e ↔ m < n := by
  unfold dyadic
  rw [mul_lt_mul_iff_of_pos_right (by positivity), Nat.cast_lt]

/-- **Comparison at the smaller exponent.** -/
theorem dyadic_lt_iff :
    dyadic m e < dyadic n f ↔ m * 2 ^ (e - f).toNat < n * 2 ^ (f - e).toNat := by
  rcases Int.le_total f e with h | h
  · rw [show dyadic m e = dyadic (m * 2 ^ (e - f).toNat) f by
      rw [dyadic_shift, Int.toNat_of_nonneg (by omega)]; congr 1; omega,
      dyadic_lt_same, show (f - e).toNat = 0 by omega, pow_zero, Nat.mul_one]
  · rw [show dyadic n f = dyadic (n * 2 ^ (f - e).toNat) e by
      rw [dyadic_shift, Int.toNat_of_nonneg (by omega)]; congr 1; omega,
      dyadic_lt_same, show (e - f).toNat = 0 by omega, pow_zero, Nat.mul_one]

/-! ### The sign of a difference -/

theorem orderSign_of_lt (h : a < b) : orderSign a b = -1 := if_pos h

theorem orderSign_of_gt (h : b < a) : orderSign a b = 1 := by
  rw [orderSign, if_neg (lt_asymm h), if_pos h]

theorem orderSign_self (a : α) : orderSign a a = 0 := by
  rw [orderSign, if_neg (lt_irrefl a), if_neg (lt_irrefl a)]

theorem orderSign_swap (a b : α) : orderSign a b = -orderSign b a := by
  rcases lt_trichotomy a b with h | rfl | h
  · rw [orderSign_of_lt h, orderSign_of_gt h]
  · rw [orderSign_self]
    rfl
  · rw [orderSign_of_gt h, orderSign_of_lt h]
    rfl

theorem orderSign_eq_neg_one : orderSign a b = -1 ↔ a < b := by
  rcases lt_trichotomy a b with h | rfl | h
  · exact iff_of_true (orderSign_of_lt h) h
  · exact iff_of_false (by rw [orderSign_self]; decide) (lt_irrefl a)
  · exact iff_of_false (by rw [orderSign_of_gt h]; decide) (lt_asymm h)

theorem orderSign_eq_one : orderSign a b = 1 ↔ b < a := by
  rw [orderSign_swap, ← orderSign_eq_neg_one, ← Int.neg_inj, Int.neg_neg]

theorem orderSign_eq_zero : orderSign a b = 0 ↔ a = b := by
  rcases lt_trichotomy a b with h | rfl | h
  · exact iff_of_false (by rw [orderSign_of_lt h]; decide) h.ne
  · exact iff_of_true (orderSign_self a) rfl
  · exact iff_of_false (by rw [orderSign_of_gt h]; decide) h.ne'

theorem orderSign_le_zero : orderSign a b ≤ 0 ↔ a ≤ b := by
  rcases lt_trichotomy a b with h | rfl | h
  · exact iff_of_true (by rw [orderSign_of_lt h]; decide) h.le
  · exact iff_of_true (by rw [orderSign_self]) le_rfl
  · exact iff_of_false (by rw [orderSign_of_gt h]; decide) (not_le.mpr h)

/-- A strictly monotone map keeps it. -/
theorem orderSign_map {β : Type} [LinearOrder β] {f : α → β} (hf : StrictMono f) (a b : α) :
    orderSign (f a) (f b) = orderSign a b := by
  unfold orderSign
  simp only [hf.lt_iff_lt]

/-- A strictly antitone map turns it round. -/
theorem orderSign_anti {β : Type} [LinearOrder β] {f : α → β} (hf : StrictAnti f) (a b : α) :
    orderSign (f a) (f b) = orderSign b a := by
  unfold orderSign
  simp only [hf.lt_iff_gt]

end Jacl.DyadicNumbers
