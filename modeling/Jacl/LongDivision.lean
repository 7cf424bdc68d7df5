import Mathlib.Data.List.GetD
import Jacl.Limbs

/-!
# Schoolbook long division

One digit of a long division: the dividend `n` and the divisor `v` are known by their
top digits only, `k` being the weight of the digits below.  The quotient digit is
estimated from the top digit of the divisor, and the estimate is tested against its
top two digits; a number passes the test only when it is the digit or one more.

The second part is about digits by position, and about shifts below the base.
-/

namespace Jacl.LongDivision
open Limbs

variable {b k n v q num vtop : Nat}

/-! ### The digit and its estimate -/

/-- **The estimate is not too small**: the quotient of the top digits. -/
theorem div_le_estimate (hv : 0 < vtop) (hn : n < (num + 1) * k)
    (hvk : vtop * k ≤ v) : n / v ≤ num / vtop := by
  rw [Nat.le_div_iff_mul_le hv]
  have hmul : n / v * vtop * k < (num + 1) * k := by
    calc n / v * vtop * k = n / v * (vtop * k) := Nat.mul_assoc _ _ _
      _ ≤ n / v * v := Nat.mul_le_mul_left _ hvk
      _ ≤ n := Nat.div_mul_le_self n v
      _ < (num + 1) * k := hn
  have hlt : n / v * vtop < num + 1 := Nat.lt_of_mul_lt_mul_right hmul
  omega

/-- **A number that fails the test is too large.** -/
theorem div_lt_of_test (hn : n < (num + 1) * k) (hvk : vtop * k ≤ v) (hv : 0 < v)
    (htest : num < q * vtop) : n / v < q := by
  rw [Nat.div_lt_iff_lt_mul hv]
  calc n < (num + 1) * k := hn
    _ ≤ q * vtop * k := Nat.mul_le_mul_right k htest
    _ = q * (vtop * k) := Nat.mul_assoc _ _ _
    _ ≤ q * v := Nat.mul_le_mul_left q hvk

/-- **A number that passes the test is at most one too large.** -/
theorem le_div_add_one (hn : num * k ≤ n) (hvk : v < (vtop + 1) * k) (hb : b * k ≤ v)
    (hv : 0 < v) (hq : q ≤ b) (htest : q * vtop ≤ num) : q ≤ n / v + 1 := by
  cases q with
  | zero => exact Nat.zero_le _
  | succ q =>
    refine Nat.succ_le_succ ((Nat.le_div_iff_mul_le hv).mpr ?_)
    -- the divisor's low digits, `q + 1` times, come to less than one divisor
    have hlow : (q + 1) * v ≤ (q + 1) * vtop * k + (q + 1) * k := by
      calc (q + 1) * v ≤ (q + 1) * ((vtop + 1) * k) := Nat.mul_le_mul_left _ hvk.le
        _ = (q + 1) * vtop * k + (q + 1) * k := by ring
    have htop : (q + 1) * vtop * k ≤ n := (Nat.mul_le_mul_right k htest).trans hn
    have hrest : (q + 1) * k ≤ v := (Nat.mul_le_mul_right k hq).trans hb
    rw [Nat.succ_mul] at hlow
    omega

/-! ### Correcting the estimate -/

/-- The digits of a number below `b ^ n`. -/
theorem ofDigits_positions (b x n : Nat) :
    Nat.ofDigits b ((List.range n).map fun i => x / b ^ i % b) = x % b ^ n := by
  induction n with
  | zero => simp [Nat.mod_one]
  | succ n ih =>
    rw [List.range_succ, List.map_append, Nat.ofDigits_append, ih, List.length_map,
      List.length_range, List.map_singleton, Nat.ofDigits_singleton, Nat.mod_pow_succ]

theorem getD_eq_digit {l : List Nat} (hb : 0 < b) (hl : Below b l) (i : Nat) :
    l.getD i 0 = Nat.ofDigits b l / b ^ i % b := by
  rw [Nat.ofDigits_div_pow_eq_ofDigits_drop i hb l hl]
  rcases Nat.lt_or_ge i l.length with hi | hi
  · have hlt : l[i] < b := hl _ (List.getElem_mem hi)
    rw [List.drop_eq_getElem_cons hi, List.getD_eq_getElem l 0 hi, Nat.ofDigits_cons,
      Nat.add_mul_mod_self_left, Nat.mod_eq_of_lt hlt]
  · rw [List.drop_eq_nil_of_le hi, List.getD_eq_default _ _ hi]
    rfl

/-- Two neighbouring digits as one number. -/
theorem two_digits (b x i : Nat) :
    x / b ^ (i + 1) % b * b + x / b ^ i % b = x / b ^ i % (b * b) := by
  rw [Nat.mod_mul, pow_succ, ← Nat.div_div_eq_div_mul]
  ring

/-! ### Shifts -/

/-- What a shift by less than a digit moves in from below does not reach the next digit. -/
theorem shift_add_div {s t c : Nat} (x : Nat) (hs : 0 < s) (hc : c < s) :
    (x * s + c) / (s * t) = x / t := by
  rw [← Nat.div_div_eq_div_mul, Nat.mul_comm x s, Nat.mul_add_div hs, Nat.div_eq_of_lt hc,
    Nat.add_zero]

/-- **A digit of a shifted number** needs the two digits at its place only. -/
theorem shift_digit {s t : Nat} (hs : 0 < s) (ht : 0 < t) (x i : Nat) :
    x / (s * t) ^ i % (s * t * (s * t)) * s % (s * t * (s * t)) / (s * t) =
      x * s / (s * t) ^ (i + 1) % (s * t) := by
  have hst : 0 < s * t := Nat.mul_pos hs ht
  rw [Nat.mod_mul_mod, Nat.mod_mul_right_div_self]
  congr 1
  -- the part of `x` below the digit pair contributes less than `s` above it
  have hsplit := Nat.div_add_mod x ((s * t) ^ i)
  have hlt := Nat.mod_lt x (Nat.pow_pos (n := i) hst)
  have hc : x % (s * t) ^ i * s / (s * t) ^ i < s := by
    rw [Nat.div_lt_iff_lt_mul (Nat.pow_pos hst), Nat.mul_comm s (_ ^ i)]
    exact Nat.mul_lt_mul_of_pos_right hlt hs
  have hval : x * s / (s * t) ^ i = x / (s * t) ^ i * s + x % (s * t) ^ i * s / (s * t) ^ i := by
    conv_lhs => rw [← hsplit]
    rw [Nat.add_mul, Nat.mul_assoc, Nat.mul_add_div (Nat.pow_pos hst)]
  calc x / (s * t) ^ i * s / (s * t) = x / (s * t) ^ i / t := by
        rw [← shift_add_div (t := t) _ hs hs, Nat.add_zero]
    _ = x * s / (s * t) ^ i / (s * t) := by rw [hval, shift_add_div _ hs hc]
    _ = x * s / (s * t) ^ (i + 1) := by rw [Nat.div_div_eq_div_mul, ← pow_succ]

/-- A digit of a number shifted down. -/
theorem unshift_digit {s t : Nat} (x i : Nat) :
    x / (s * t) ^ i % (s * t * (s * t)) / s % (s * t) = x / s / (s * t) ^ i % (s * t) := by
  rw [Nat.mul_assoc s t, Nat.mod_mul_right_div_self, Nat.mod_mod_of_dvd _ (Nat.dvd_mul_left _ _),
    Nat.div_div_eq_div_mul, Nat.div_div_eq_div_mul, Nat.mul_comm s (_ ^ i)]

end Jacl.LongDivision
