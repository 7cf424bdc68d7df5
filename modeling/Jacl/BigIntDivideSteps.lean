import Jacl.BigIntDivide
import Jacl.BigIntMagnitude
import Jacl.LongDivision
import Jacl.Entrywise

/-!
# One digit of algorithm D

Each loop of the division returns, and what it returns is stated as an equation between
the values of the limbs it read and wrote.  The digit the body of the loop over `j`
stores is the quotient of its window, and the window it leaves is the remainder.
-/

namespace Jacl.BigInt
open Limbs LongDivision

theorem u64_of_lt {x : Nat} (hx : x < 2 ^ 64) : u64 x = some x := if_pos hx

theorem put_append {pre post : List Nat} {i : Nat} (hi : pre.length = i) (x y : Nat) :
    put (pre ++ x :: post) i y = some (pre ++ y :: post) := by
  subst hi
  rw [put, if_pos (by simp), List.set_append_right _ _ (Nat.le_refl _), Nat.sub_self,
    List.set_cons_zero]

theorem getElem?_append_cons {pre post : List Nat} {i : Nat} (hi : pre.length = i) (x : Nat) :
    (pre ++ x :: post)[i]? = some x := by
  subst hi
  rw [List.getElem?_append_right (Nat.le_refl _), Nat.sub_self, List.getElem?_cons_zero]

/-! ### The one-limb division -/

theorem divmodSmall_spec {l : List Nat} {d : Nat} (hl : Below base l) (hd : 0 < d)
    (hdlt : d < base) :
    Nat.ofDigits base l = Nat.ofDigits base (divmodSmall l d).1 * d + (divmodSmall l d).2 ∧
      (divmodSmall l d).2 < d ∧ Below base (divmodSmall l d).1 ∧
      (divmodSmall l d).1.length = l.length := by
  induction l with
  | nil => exact ⟨by simp [divmodSmall], hd, fun x hx => absurd hx List.not_mem_nil, rfl⟩
  | cons a as ih =>
    obtain ⟨hval, hrem, hbelow, hlen⟩ := ih (Below.tail hl)
    have ha : a < base := hl a List.mem_cons_self
    have hcur : ((divmodSmall as d).2 * base + a) % 2 ^ 64 = (divmodSmall as d).2 * base + a := by
      rw [base] at ha hdlt ⊢
      exact Nat.mod_eq_of_lt (by omega)
    -- the remainder is below the divisor, so the next digit is below the base
    have hdigit : ((divmodSmall as d).2 * base + a) / d < base := by
      rw [Nat.div_lt_iff_lt_mul hd]
      calc (divmodSmall as d).2 * base + a < ((divmodSmall as d).2 + 1) * base := by
            rw [Nat.succ_mul]; omega
        _ ≤ d * base := Nat.mul_le_mul_right base hrem
        _ = base * d := Nat.mul_comm _ _
    have hdiv := Nat.div_add_mod ((divmodSmall as d).2 * base + a) d
    simp only [divmodSmall, hcur, Nat.mod_eq_of_lt hdigit]
    refine ⟨?_, Nat.mod_lt _ hd, below_cons hdigit hbelow,
      by rw [List.length_cons, List.length_cons, hlen]⟩
    rw [Nat.ofDigits_cons, Nat.ofDigits_cons, hval]
    calc a + base * (Nat.ofDigits base (divmodSmall as d).1 * d + (divmodSmall as d).2)
        = base * Nat.ofDigits base (divmodSmall as d).1 * d +
            ((divmodSmall as d).2 * base + a) := by ring
      _ = _ := by conv_lhs => rw [← hdiv]
                  ring

/-! ### Normalization -/

/-- A mask of high bits tests the size. -/
theorem and_high_eq_zero {x k : Nat} (hx : x < 2 ^ 32) (hk : k ≤ 32) :
    x &&& (2 ^ 32 - 2 ^ k) = 0 ↔ x < 2 ^ k := by
  have hmask : 2 ^ 32 - 2 ^ k = 2 ^ k * (2 ^ (32 - k) - 1) := by
    rw [Nat.mul_sub, ← pow_add, Nat.add_sub_cancel' hk, Nat.mul_one]
  have hbit : ∀ i, (2 ^ 32 - 2 ^ k).testBit i = (decide (k ≤ i) && decide (i - k < 32 - k)) := by
    intro i
    rw [hmask, Nat.testBit_two_pow_mul, Nat.testBit_two_pow_sub_one]
  constructor
  · intro hzero
    by_contra hge
    obtain ⟨i, hik, hi⟩ := Nat.exists_ge_and_testBit_of_ge_two_pow (Nat.not_lt.mp hge)
    have hi32 : i < 32 := by
      by_contra hlt
      rw [Nat.testBit_lt_two_pow (Nat.lt_of_lt_of_le hx (Nat.pow_le_pow_right (by decide)
        (Nat.not_lt.mp hlt)))] at hi
      cases hi
    have hand : (x &&& (2 ^ 32 - 2 ^ k)).testBit i = true := by
      rw [Nat.testBit_and, hi, hbit, decide_eq_true hik, decide_eq_true (by omega)]
      rfl
    rw [hzero, Nat.zero_testBit] at hand
    cases hand
  · intro hlt
    refine Nat.eq_of_testBit_eq fun i => ?_
    rw [Nat.testBit_and, hbit, Nat.zero_testBit]
    by_cases hki : k ≤ i
    · rw [Nat.testBit_lt_two_pow (Nat.lt_of_lt_of_le hlt (Nat.pow_le_pow_right (by decide) hki)),
        Bool.false_and]
    · rw [decide_eq_false hki, Bool.false_and, Bool.and_false]

theorem clzTest_spec {x s : Nat} {nx : Nat × Nat} (hs : 2 * s ≤ 32) (hnx : nx.2 = x * 2 ^ nx.1)
    (hlo : 2 ^ (32 - 2 * s) ≤ nx.2) (hhi : nx.2 < 2 ^ 32) :
    (clzTest (2 ^ 32 - 2 ^ (32 - s)) s nx).2 = x * 2 ^ (clzTest (2 ^ 32 - 2 ^ (32 - s)) s nx).1 ∧
      2 ^ (32 - s) ≤ (clzTest (2 ^ 32 - 2 ^ (32 - s)) s nx).2 ∧
      (clzTest (2 ^ 32 - 2 ^ (32 - s)) s nx).2 < 2 ^ 32 ∧
      (clzTest (2 ^ 32 - 2 ^ (32 - s)) s nx).1 ≤ nx.1 + s := by
  have htest := and_high_eq_zero hhi (show 32 - s ≤ 32 by omega)
  by_cases hzero : nx.2 &&& (2 ^ 32 - 2 ^ (32 - s)) = 0
  · have hlt : nx.2 * 2 ^ s < 2 ^ 32 := by
      calc nx.2 * 2 ^ s < 2 ^ (32 - s) * 2 ^ s :=
            Nat.mul_lt_mul_of_pos_right (htest.mp hzero) (Nat.two_pow_pos s)
        _ = 2 ^ 32 := by rw [← pow_add, Nat.sub_add_cancel (by omega)]
    have hge : 2 ^ (32 - s) ≤ nx.2 * 2 ^ s := by
      calc 2 ^ (32 - s) = 2 ^ (32 - 2 * s) * 2 ^ s := by rw [← pow_add]; congr 1; omega
        _ ≤ nx.2 * 2 ^ s := Nat.mul_le_mul_right _ hlo
    simp only [clzTest, if_pos hzero]
    rw [base, Nat.mod_eq_of_lt hlt]
    exact ⟨by rw [hnx, Nat.mul_assoc, ← pow_add], hge, hlt, Nat.le_refl _⟩
  · simp only [clzTest, if_neg hzero]
    exact ⟨hnx, Nat.not_lt.mp fun hlt => hzero (htest.mpr hlt), hhi, Nat.le_add_right _ _⟩

/-- **`jbig_clz32`** normalizes a limb that is not zero. -/
theorem clz32_spec {x : Nat} (hpos : 0 < x) (hx : x < base) :
    clz32 x < 32 ∧ 2 ^ 31 ≤ x * 2 ^ clz32 x ∧ x * 2 ^ clz32 x < base := by
  obtain ⟨h1, l1, u1, n1⟩ := @clzTest_spec x 16 (0, x) (by decide) (by simp) hpos hx
  obtain ⟨h2, l2, u2, n2⟩ := clzTest_spec (s := 8) (by decide) h1 l1 u1
  obtain ⟨h3, l3, u3, n3⟩ := clzTest_spec (s := 4) (by decide) h2 l2 u2
  obtain ⟨h4, l4, u4, n4⟩ := clzTest_spec (s := 2) (by decide) h3 l3 u3
  obtain ⟨h5, l5, u5, n5⟩ := clzTest_spec (s := 1) (by decide) h4 l4 u4
  have hle : clz32 x ≤ 31 := n5.trans (by omega)
  rw [h5] at l5 u5
  exact ⟨by omega, l5, u5⟩

theorem fill_spec {cap n : Nat} {f : Nat → Option Nat} {x : Nat} (hn : n ≤ cap)
    (hf : ∀ i < n, f i = some (x / base ^ i % base)) :
    ∃ l, fill cap n f = some l ∧ l.length = n ∧ Below base l ∧
      Nat.ofDigits base l = x % base ^ n := by
  refine ⟨(List.range n).map fun i => x / base ^ i % base, ?_, by simp, ?_,
    ofDigits_positions base x n⟩
  · rw [fill, if_pos hn]
    exact Entrywise.mapM_eq_map fun i hi => hf i (List.mem_range.mp hi)
  · intro y hy
    obtain ⟨i, -, rfl⟩ := List.mem_map.mp hy
    exact Nat.mod_lt _ (by decide)

theorem getElem?_eq_digit {l : List Nat} {i : Nat} (hl : Below base l) (hi : i < l.length) :
    l[i]? = some (Nat.ofDigits base l / base ^ i % base) := by
  rw [← getD_eq_digit (by decide) hl i, List.getD_eq_getElem l 0 hi, List.getElem?_eq_getElem hi]

theorem base_eq_mul {sh : Nat} (hsh : sh < 32) : base = 2 ^ sh * 2 ^ (32 - sh) := by
  rw [← pow_add, base, Nat.add_sub_cancel' hsh.le]

/-- **`jbig_shl_limb`.** -/
theorem shlLimb_spec {l : List Nat} {sh i : Nat} (hl : Below base l) (hsh : sh < 32)
    (hi : i ≤ l.length) :
    shlLimb l sh i = some (Nat.ofDigits base l * 2 ^ sh / base ^ i % base) := by
  have hhi : (if i < l.length then l[i]? else some 0) =
      some (Nat.ofDigits base l / base ^ i % base) := by
    by_cases hlt : i < l.length
    · rw [if_pos hlt, getElem?_eq_digit hl hlt]
    · rw [if_neg hlt, ← getD_eq_digit (by decide) hl i, List.getD_eq_default _ _ (Nat.not_lt.mp hlt)]
  have hword : (2 : Nat) ^ 64 = base * base := by decide
  rw [shlLimb, hhi, Option.bind_eq_bind, Option.bind_some, hword]
  cases i with
  | zero =>
    simp only [Nat.lt_irrefl, if_false, Option.bind_some, pow_zero, Nat.div_one, Nat.add_zero]
    rw [Nat.mul_right_comm, Nat.mul_mod_mul_right, Nat.mul_div_cancel _ (by decide), Nat.mod_mul_mod]
  | succ i =>
    rw [if_pos (Nat.succ_pos i), Nat.add_sub_cancel, getElem?_eq_digit hl hi, Option.bind_some,
      two_digits]
    simp only [base_eq_mul hsh]
    rw [shift_digit (Nat.two_pow_pos sh) (Nat.two_pow_pos _)]

/-- **D8** shifts a limb back. -/
theorem unshlLimb_spec {l : List Nat} {sh i : Nat} (hl : Below base l) (hsh : sh < 32)
    (hi : i + 1 < l.length) :
    unshlLimb l sh i = some (Nat.ofDigits base l / 2 ^ sh / base ^ i % base) := by
  rw [unshlLimb, getElem?_eq_digit hl hi, getElem?_eq_digit hl (Nat.lt_of_succ_lt hi)]
  simp only [Option.bind_eq_bind, Option.bind_some]
  rw [two_digits]
  simp only [base_eq_mul hsh]
  rw [unshift_digit]

/-! ### D3 -/

theorem tooBig_spec {v0 u0 qhat rhat : Nat} (hv0 : v0 < base) (hu0 : u0 < base)
    (hrhat : rhat < base) :
    tooBig v0 u0 qhat rhat = some (decide (base ≤ qhat ∨ rhat * base + u0 < qhat * v0)) := by
  rw [tooBig]
  by_cases hq : base ≤ qhat
  · rw [if_pos hq, decide_eq_true (.inl hq)]
  · have hprod : qhat * v0 ≤ (2 ^ 32 - 1) * (2 ^ 32 - 1) := by
      rw [base] at hq hv0
      exact Nat.mul_le_mul (by omega) (by omega)
    have hnext : rhat * base + u0 < 2 ^ 64 := by
      rw [base] at hrhat hu0 ⊢
      omega
    rw [if_neg hq, u64_of_lt (by omega), u64_of_lt hnext]
    simp only [Option.bind_eq_bind, Option.bind_some, hq, false_or]

/-- **D3's loop** keeps the estimate and its remainder consistent, never goes below the
digit `q`, and stops with an estimate that passes the test. -/
theorem correct_spec {v1 v0 u0 num q fuel qhat rhat : Nat} (hv1 : v1 < base) (hv0 : v0 < base)
    (hu0 : u0 < base) (hfuel : base ≤ rhat + fuel * v1) (hrhat : rhat < base)
    (hnum : qhat * v1 + rhat = num) (hnumlt : num < (v1 + 1) * base) (hqb : q < base)
    (hq : q ≤ qhat)
    (hlow : ∀ p, num * base + u0 < p * (v1 * base + v0) → q < p) :
    ∃ p, correct v1 v0 u0 (fuel + 1) qhat rhat = some p ∧ q ≤ p ∧ p < base ∧
      p * (v1 * base + v0) ≤ num * base + u0 := by
  induction fuel generalizing qhat rhat with
  | zero => omega
  | succ fuel ih =>
    rw [correct, tooBig_spec hv0 hu0 hrhat]
    simp only [Option.bind_eq_bind, Option.bind_some]
    by_cases hbig : base ≤ qhat ∨ rhat * base + u0 < qhat * v0
    · rw [decide_eq_true hbig, if_pos rfl]
      -- an estimate that is too big is larger than the digit
      have hlt : q < qhat := by
        rcases hbig with hb | hb
        · omega
        · refine hlow qhat ?_
          calc num * base + u0 = qhat * v1 * base + (rhat * base + u0) := by rw [← hnum]; ring
            _ < qhat * v1 * base + qhat * v0 := Nat.add_lt_add_left hb _
            _ = qhat * (v1 * base + v0) := by ring
      obtain ⟨p, rfl⟩ : ∃ p, qhat = p + 1 := ⟨qhat - 1, by omega⟩
      have hnum' : p * v1 + (rhat + v1) = num := by
        rw [← hnum]
        ring
      rw [decr, if_neg (Nat.succ_ne_zero p), Nat.add_sub_cancel, Option.bind_some,
        u64_of_lt (by rw [base] at hrhat hv1; omega), Option.bind_some]
      by_cases hr : rhat + v1 < base
      · rw [if_pos hr]
        exact ih (by rw [Nat.succ_mul] at hfuel; omega) hr hnum' (by omega)
      · rw [if_neg hr]
        -- the remainder has outgrown a limb, so the test would pass
        have hp : p < base := by
          refine Nat.lt_of_mul_lt_mul_right (a := v1) ?_
          rw [Nat.succ_mul, Nat.mul_comm v1] at hnumlt
          omega
        refine ⟨p, rfl, by omega, hp, ?_⟩
        have hv0' : p * v0 ≤ base * base := Nat.mul_le_mul hp.le hv0.le
        have hr' : base * base ≤ (rhat + v1) * base := Nat.mul_le_mul_right _ (Nat.not_lt.mp hr)
        calc p * (v1 * base + v0) = p * v1 * base + p * v0 := by ring
          _ ≤ p * v1 * base + (rhat + v1) * base := Nat.add_le_add_left (hv0'.trans hr') _
          _ = num * base := by rw [← hnum']; ring
          _ ≤ num * base + u0 := Nat.le_add_right _ _
    · rw [decide_eq_false hbig, if_neg (by decide)]
      rw [not_or, Nat.not_le, Nat.not_lt] at hbig
      refine ⟨qhat, rfl, hq, hbig.1, ?_⟩
      calc qhat * (v1 * base + v0) = qhat * v1 * base + qhat * v0 := by ring
        _ ≤ qhat * v1 * base + (rhat * base + u0) := Nat.add_le_add_left hbig.2 _
        _ = num * base + u0 := by rw [← hnum]; ring

/-- **The estimate** of a window `n` of which `u2`, `u1` and `u0` are the top limbs, by a
normalized divisor `v` with top limbs `v1` and `v0`: the digit, or one more. -/
theorem estimate_spec {v1 v0 u2 u1 u0 k n v : Nat} (hv1 : v1 < base) (hv0 : v0 < base)
    (hu1 : u1 < base) (hu0 : u0 < base) (hnorm : 2 ^ 31 ≤ v1) (hk : 0 < k)
    (hv : (v1 * base + v0) * k ≤ v) (hv' : v < (v1 * base + v0 + 1) * k)
    (hn : ((u2 * base + u1) * base + u0) * k ≤ n)
    (hn' : n < ((u2 * base + u1) * base + u0 + 1) * k) (hnv : n < base * v) :
    ∃ p, estimate v1 v0 u2 u1 u0 = some p ∧ p < base ∧ n / v ≤ p ∧ p ≤ n / v + 1 := by
  have hbase : 0 < base := by decide
  have hvbig : base * k ≤ v := by
    refine le_trans (Nat.mul_le_mul_right k ?_) hv
    calc base = 1 * base := (Nat.one_mul _).symm
      _ ≤ v1 * base := Nat.mul_le_mul_right _ (by omega)
      _ ≤ v1 * base + v0 := Nat.le_add_right _ _
  have hvpos : 0 < v := Nat.lt_of_lt_of_le (Nat.mul_pos hbase hk) hvbig
  have hqb : n / v < base := (Nat.div_lt_iff_lt_mul hvpos).mpr hnv
  -- the top limb of the window is at most the divisor's
  have hu2 : u2 ≤ v1 := by
    by_contra hlt
    have hle : base * (v1 * base + v0 + 1) ≤ (u2 * base + u1) * base + u0 := by
      have hstep : (v1 + 1) * base * base ≤ u2 * base * base :=
        Nat.mul_le_mul_right _ (Nat.mul_le_mul_right _ (by omega))
      have hv0' : base * (v0 + 1) ≤ base * base := Nat.mul_le_mul_left _ hv0
      calc base * (v1 * base + v0 + 1) = v1 * base * base + base * (v0 + 1) := by ring
        _ ≤ v1 * base * base + base * base := Nat.add_le_add_left hv0' _
        _ = (v1 + 1) * base * base := by ring
        _ ≤ u2 * base * base := hstep
        _ ≤ (u2 * base + u1) * base + u0 := by rw [Nat.add_mul]; omega
    have := calc base * v < base * ((v1 * base + v0 + 1) * k) := Nat.mul_lt_mul_of_pos_left hv' hbase
      _ = base * (v1 * base + v0 + 1) * k := by ring
      _ ≤ ((u2 * base + u1) * base + u0) * k := Nat.mul_le_mul_right k hle
      _ ≤ n := hn
    omega
  have hnum : u2 * base + u1 < (v1 + 1) * base := by
    have := Nat.mul_le_mul_right base hu2
    rw [Nat.succ_mul]
    omega
  have hnum64 : u2 * base + u1 < 2 ^ 64 := by
    have hle : (v1 + 1) * base ≤ base * base := Nat.mul_le_mul_right _ hv1
    have hword : base * base = 2 ^ 64 := by decide
    omega
  have hdiv := Nat.div_add_mod (u2 * base + u1) v1
  have hmod := Nat.mod_lt (u2 * base + u1) (show 0 < v1 by omega)
  have htop : n / v ≤ (u2 * base + u1) / v1 := by
    refine div_le_estimate (k := base * k) (by omega) ?_ ?_
    · refine lt_of_lt_of_le hn' ?_
      calc ((u2 * base + u1) * base + u0 + 1) * k ≤ ((u2 * base + u1) * base + base) * k :=
            Nat.mul_le_mul_right k (by omega)
        _ = (u2 * base + u1 + 1) * (base * k) := by ring
    · refine le_trans ?_ hv
      calc v1 * (base * k) = v1 * base * k := by ring
        _ ≤ (v1 * base + v0) * k := Nat.mul_le_mul_right k (Nat.le_add_right _ _)
  rw [Nat.mul_comm] at hdiv
  obtain ⟨p, hp, hle, hlt, htest⟩ := @correct_spec v1 v0 u0 _ (n / v) 2 _ _ hv1 hv0 hu0
    (by rw [base]; omega) (by omega) hdiv hnum hqb htop
    fun p hp => div_lt_of_test hn' hv hvpos hp
  refine ⟨p, ?_, hlt, hle, le_div_add_one hn hv' hvbig hvpos hlt.le htest⟩
  rw [estimate, u64_of_lt hnum64]
  simp only [Option.bind_eq_bind, Option.bind_some]
  rw [if_neg (by omega), hp]

/-! ### D4 and D6 -/

/-- One limb of a multiply and subtract. -/
theorem low32_sub {x p w : Nat} (hx : x < base) (hp : p < base) (hw : w ≤ 1) :
    low32 ((x : Int) - (p : Nat) - w) + p + w =
        x + base * (if (x : Int) - (p : Nat) - w < 0 then 1 else 0) ∧
      low32 ((x : Int) - (p : Nat) - w) < base := by
  rw [low32]
  rw [base] at *
  split <;> omega

theorem low32_zero : low32 0 = 0 := by
  rw [low32, Int.zero_emod, Int.toNat_zero]

theorem low32_neg_one : low32 (-1) + 1 = base := by
  rw [low32, base]
  omega

/-- **D4's loop.** -/
theorem mulSubLoop_spec {qhat j i carry borrow : Nat} {vn w pre post : List Nat}
    (hq : qhat < base) (hv : Below base vn) (hw : Below base w) (hlen : w.length = vn.length)
    (hpre : pre.length = i + j) (hc : carry < base) (hb : borrow ≤ 1) :
    ∃ w' carry' borrow', mulSubLoop qhat j vn i (pre ++ (w ++ post)) carry borrow =
        some (pre ++ (w' ++ post), carry', borrow') ∧ w'.length = w.length ∧ Below base w' ∧
      carry' < base ∧ borrow' ≤ 1 ∧
      Nat.ofDigits base w' + qhat * Nat.ofDigits base vn + carry + borrow =
        Nat.ofDigits base w + base ^ w.length * (carry' + borrow') := by
  induction vn generalizing w pre i carry borrow with
  | nil =>
    obtain rfl : w = [] := List.length_eq_zero_iff.mp hlen
    exact ⟨[], carry, borrow, rfl, rfl, hw, hc, hb, by simp⟩
  | cons v vn ih =>
    obtain ⟨x, w, rfl⟩ : ∃ x w', w = x :: w' := List.exists_cons_of_length_eq_add_one hlen
    have hx : x < base := hw x List.mem_cons_self
    have hv0 : v < base := hv v List.mem_cons_self
    have hprod : qhat * v ≤ (2 ^ 32 - 1) * (2 ^ 32 - 1) := by
      rw [base] at hq hv0
      exact Nat.mul_le_mul (by omega) (by omega)
    have hprod64 : qhat * v + carry < 2 ^ 64 := by
      rw [base] at hc
      omega
    have hcarry : (qhat * v + carry) / base < base := by
      rw [base]
      omega
    have hp : (qhat * v + carry) % base < base := Nat.mod_lt _ (by decide)
    obtain ⟨hval, hlow⟩ := low32_sub hx hp hb
    have ht : i64 ((x : Int) - ((qhat * v + carry) % base : Nat) - borrow) =
        some ((x : Int) - ((qhat * v + carry) % base : Nat) - borrow) := by
      rw [i64, if_pos]
      rw [base] at hx hp ⊢
      omega
    have hmod := Nat.mod_add_div (qhat * v + carry) base
    rw [mulSubLoop, u64_of_lt hprod64]
    simp only [Option.bind_eq_bind, Option.bind_some, List.cons_append]
    rw [getElem?_append_cons hpre, Option.bind_some, ht, Option.bind_some, put_append hpre,
      Option.bind_some]
    have he : (if (x : Int) - ((qhat * v + carry) % base : Nat) - borrow < 0 then 1 else 0) ≤ 1 := by
      split <;> omega
    generalize low32 ((x : Int) - ((qhat * v + carry) % base : Nat) - borrow) = y at *
    generalize (if (x : Int) - ((qhat * v + carry) % base : Nat) - borrow < 0 then 1 else 0) = e at *
    obtain ⟨w', carry', borrow', hrun, hlen', hbelow, hc', hb', heq⟩ :=
      @ih (i + 1) ((qhat * v + carry) / base) e w (pre ++ [y]) (Below.tail hv) (Below.tail hw)
        (by simpa using hlen) (by rw [List.length_append, hpre, List.length_singleton]; omega)
        hcarry he
    rw [List.append_assoc] at hrun
    refine ⟨y :: w', carry', borrow', ?_, by rw [List.length_cons, hlen', List.length_cons],
      below_cons hlow hbelow, hc', hb', ?_⟩
    · rw [List.append_assoc] at hrun
      exact hrun
    · rw [Nat.ofDigits_cons, Nat.ofDigits_cons, Nat.ofDigits_cons, List.length_cons, pow_succ]
      calc y + base * Nat.ofDigits base w' + qhat * (v + base * Nat.ofDigits base vn) + carry + borrow
          = (y + borrow + base * (Nat.ofDigits base w' + qhat * Nat.ofDigits base vn)) +
              (qhat * v + carry) := by ring
        _ = (y + borrow + base * (Nat.ofDigits base w' + qhat * Nat.ofDigits base vn)) +
              ((qhat * v + carry) % base + base * ((qhat * v + carry) / base)) := by rw [hmod]
        _ = (y + (qhat * v + carry) % base + borrow) + base * (Nat.ofDigits base w' +
              qhat * Nat.ofDigits base vn + (qhat * v + carry) / base) := by ring
        _ = x + base * (Nat.ofDigits base w' + qhat * Nat.ofDigits base vn +
              (qhat * v + carry) / base + e) := by rw [hval]; ring
        _ = x + base * Nat.ofDigits base w + base ^ w.length * base * (carry' + borrow') := by
            rw [heq]; ring

/-- **D6's loop.** -/
theorem addBackLoop_spec {j i c : Nat} {vn w pre post : List Nat} (hv : Below base vn)
    (hw : Below base w) (hlen : w.length = vn.length) (hpre : pre.length = i + j) (hc : c ≤ 1) :
    ∃ w' c', addBackLoop j vn i (pre ++ (w ++ post)) c = some (pre ++ (w' ++ post), c') ∧
      w'.length = w.length ∧ Below base w' ∧ c' ≤ 1 ∧
      Nat.ofDigits base w' + base ^ w.length * c' =
        Nat.ofDigits base w + Nat.ofDigits base vn + c := by
  induction vn generalizing w pre i c with
  | nil =>
    obtain rfl : w = [] := List.length_eq_zero_iff.mp hlen
    exact ⟨[], c, rfl, rfl, hw, hc, by simp⟩
  | cons v vn ih =>
    obtain ⟨x, w, rfl⟩ : ∃ x w', w = x :: w' := List.exists_cons_of_length_eq_add_one hlen
    have hx : x < base := hw x List.mem_cons_self
    have hv0 : v < base := hv v List.mem_cons_self
    have hsum : x + v + c < 2 ^ 64 := by
      rw [base] at hx hv0
      omega
    have hc' : (x + v + c) / base ≤ 1 := by
      rw [base] at *
      omega
    have hmod := Nat.mod_add_div (x + v + c) base
    rw [addBackLoop]
    simp only [Option.bind_eq_bind, List.cons_append]
    rw [getElem?_append_cons hpre, Option.bind_some, u64_of_lt hsum, Option.bind_some,
      put_append hpre, Option.bind_some]
    obtain ⟨w', c', hrun, hlen', hbelow, hc1, heq⟩ :=
      @ih (i + 1) ((x + v + c) / base) w (pre ++ [(x + v + c) % base]) (Below.tail hv)
        (Below.tail hw) (by simpa using hlen)
        (by rw [List.length_append, hpre, List.length_singleton]; omega) hc'
    simp only [List.append_assoc, List.singleton_append] at hrun
    refine ⟨_ :: w', c', hrun, by rw [List.length_cons, hlen', List.length_cons],
      below_cons (Nat.mod_lt _ (by decide)) hbelow, hc1, ?_⟩
    rw [Nat.ofDigits_cons, Nat.ofDigits_cons, Nat.ofDigits_cons, List.length_cons, pow_succ]
    calc (x + v + c) % base + base * Nat.ofDigits base w' + base ^ w.length * base * c'
        = (x + v + c) % base + base * (Nat.ofDigits base w' + base ^ w.length * c') := by ring
      _ = ((x + v + c) % base + base * ((x + v + c) / base)) +
            base * (Nat.ofDigits base w + Nat.ofDigits base vn) := by rw [heq]; ring
      _ = x + base * Nat.ofDigits base w + (v + base * Nat.ofDigits base vn) + c := by
            rw [hmod]; ring

/-- **D6** on a window whose top limb wrapped: the window is whole again. -/
theorem addBack_spec {j top : Nat} {vn w pre post : List Nat} (hv : Below base vn)
    (hw : Below base w) (hlen : w.length = vn.length) (hpre : pre.length = j)
    (htop : top < base) :
    ∃ w' c, addBack vn (pre ++ (w ++ top :: post)) j =
        some (pre ++ (w' ++ (top + c) % base :: post)) ∧
      w'.length = w.length ∧ Below base w' ∧ c ≤ 1 ∧
      Nat.ofDigits base w' + base ^ w.length * c =
        Nat.ofDigits base w + Nat.ofDigits base vn := by
  obtain ⟨w', c, hrun, hlen', hbelow, hc, heq⟩ :=
    @addBackLoop_spec j 0 0 vn w pre (top :: post) hv hw hlen (by omega) (Nat.zero_le 1)
  refine ⟨w', c, ?_, hlen', hbelow, hc, heq⟩
  have hat : (pre ++ w').length = j + vn.length := by
    rw [List.length_append, hpre, hlen', hlen]
  rw [addBack, hrun]
  simp only [Option.bind_eq_bind, Option.bind_some]
  rw [← List.append_assoc, getElem?_append_cons hat, Option.bind_some,
    u64_of_lt (by rw [base] at htop; omega), Option.bind_some, put_append hat, List.append_assoc]

/-! ### The body of the loop over `j` -/

/-- The top limb of a window after D4: it tells a difference from a negative one. -/
theorem top_of_window {p w t r : Int} (hw : 0 ≤ w) (hwp : w < p) (h : w + p * t = r) :
    (0 ≤ r → r < p → t = 0) ∧ (-p ≤ r → r < 0 → t = -1) := by
  constructor
  · intro hr hrp
    rcases Int.lt_trichotomy t 0 with ht | ht | ht
    · have : p * (t + 1) ≤ 0 := Int.mul_nonpos_of_nonneg_of_nonpos (by omega) (by omega)
      rw [Int.mul_add] at this
      omega
    · exact ht
    · have : 0 ≤ p * (t - 1) := Int.mul_nonneg (by omega) (by omega)
      rw [Int.mul_sub] at this
      omega
  · intro hr hr0
    rcases Int.lt_trichotomy t (-1) with ht | ht | ht
    · have : p * (t + 2) ≤ 0 := Int.mul_nonpos_of_nonneg_of_nonpos (by omega) (by omega)
      rw [Int.mul_add] at this
      omega
    · exact ht
    · have : 0 ≤ p * t := Int.mul_nonneg (by omega) (by omega)
      omega

theorem ofDigits_top_two (l : List Nat) (x y : Nat) :
    Nat.ofDigits base (l ++ [x, y]) = Nat.ofDigits base l + base ^ l.length * (y * base + x) := by
  rw [Nat.ofDigits_append, Nat.ofDigits_cons, Nat.ofDigits_singleton]
  ring

/-- D3 on the limbs of a window and a divisor. -/
theorem estimate_window {v1 v0 u2 u1 u0 : Nat} {vl wl : List Nat}
    (hv : Below base (vl ++ [v0, v1])) (hnorm : 2 ^ 31 ≤ v1) (hw : Below base (wl ++ [u0, u1]))
    (hlen : wl.length = vl.length)
    (hlt : Nat.ofDigits base (wl ++ [u0, u1] ++ [u2]) <
      base * Nat.ofDigits base (vl ++ [v0, v1])) :
    ∃ p, estimate v1 v0 u2 u1 u0 = some p ∧ p < base ∧
      Nat.ofDigits base (wl ++ [u0, u1] ++ [u2]) / Nat.ofDigits base (vl ++ [v0, v1]) ≤ p ∧
      p ≤ Nat.ofDigits base (wl ++ [u0, u1] ++ [u2]) / Nat.ofDigits base (vl ++ [v0, v1]) + 1 := by
  have hvl : Nat.ofDigits base vl < base ^ vl.length :=
    Below.lt one_lt_base fun x hx => hv x (List.mem_append_left _ hx)
  have hwl : Nat.ofDigits base wl < base ^ vl.length := by
    rw [← hlen]
    exact Below.lt one_lt_base fun x hx => hw x (List.mem_append_left _ hx)
  have hval : Nat.ofDigits base (vl ++ [v0, v1]) =
      (v1 * base + v0) * base ^ vl.length + Nat.ofDigits base vl := by
    rw [ofDigits_top_two]
    ring
  have hdvd : Nat.ofDigits base (wl ++ [u0, u1] ++ [u2]) =
      ((u2 * base + u1) * base + u0) * base ^ vl.length + Nat.ofDigits base wl := by
    rw [ofDigits_concat, ofDigits_top_two, List.length_append, hlen]
    simp only [List.length_cons, List.length_nil, pow_succ]
    ring
  refine estimate_spec (hv v1 (by simp)) (hv v0 (by simp)) (hw u1 (by simp)) (hw u0 (by simp))
    hnorm (Nat.pow_pos (n := vl.length) (show 0 < base by decide)) ?_ ?_ ?_ ?_ hlt
  · rw [hval]
    exact Nat.le_add_right _ _
  · rw [hval, Nat.succ_mul]
    exact Nat.add_lt_add_left hvl _
  · rw [hdvd]
    exact Nat.le_add_right _ _
  · rw [hdvd, Nat.succ_mul]
    exact Nat.add_lt_add_left hwl _

/-- D4 and the top limb: the window less `qhat` times the divisor. -/
theorem mulSub_window {j qhat u2 : Nat} {vn w lo hi : List Nat} (hq : qhat < base)
    (hv : Below base vn) (hw : Below base w) (hu2 : u2 < base) (hlen : w.length = vn.length)
    (hlo : lo.length = j) :
    ∃ w' carry borrow, mulSubLoop qhat j vn 0 (lo ++ (w ++ u2 :: hi)) 0 0 =
        some (lo ++ (w' ++ u2 :: hi), carry, borrow) ∧ w'.length = w.length ∧ Below base w' ∧
      i64 ((u2 : Int) - carry - borrow) = some ((u2 : Int) - carry - borrow) ∧
      ((Nat.ofDigits base w' : Nat) : Int) +
          (base ^ w.length : Nat) * ((u2 : Int) - carry - borrow) =
        (Nat.ofDigits base (w ++ [u2]) : Nat) - qhat * (Nat.ofDigits base vn : Nat) := by
  obtain ⟨w', carry, borrow, hrun, hlen', hbelow, hc, hb, heq⟩ :=
    @mulSubLoop_spec qhat j 0 0 0 vn w lo (u2 :: hi) hq hv hw hlen (by omega) (by decide)
      (Nat.zero_le 1)
  refine ⟨w', carry, borrow, hrun, hlen', hbelow, ?_, ?_⟩
  · rw [i64, if_pos]
    rw [base] at *
    omega
  · have hint : ((Nat.ofDigits base w' : Nat) : Int) + qhat * (Nat.ofDigits base vn : Nat) =
        (Nat.ofDigits base w : Nat) + (base ^ w.length : Nat) * (carry + borrow) := by
      exact_mod_cast heq
    rw [ofDigits_concat, Nat.cast_add, Nat.cast_mul]
    linear_combination hint

end Jacl.BigInt
