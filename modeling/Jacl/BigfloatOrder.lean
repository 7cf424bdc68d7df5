import Jacl.Bigfloat
import Jacl.BignumDivideExact
import Jacl.DyadicNumbers
import Mathlib.Order.WithBot

/-!
# The order of the floating point numbers

`bigfloat_cmp` looks at the exponents before the significands.  The exponent is that of
the lowest bit of the significand, so this is the order of the numbers only while the
number with the larger exponent is the larger one too (`Aligned`): always if the
precisions are the same (`aligned_of_precision`), but not in general.
-/

namespace Jacl.Bigfloat
open Bignum (mag Canonical isZero)
open DyadicNumbers

variable {a b c : BigFloat}

/-- What the constructors and `_bigfloat_normalize` return. -/
structure WellFormed (x : BigFloat) : Prop where
  canonical : Canonical x.significand
  unsigned : x.significand.sign = false
  bits : x.flags = .normal → (mag x.significand).size = x.precision ∧ 0 < x.precision

/-- The magnitude of a finite number. -/
def magnitude (x : BigFloat) : ℚ := dyadic (mag x.significand) x.exponent

/-- The number, among the rationals and two infinities. -/
def value (x : BigFloat) : WithBot (WithTop ℚ) :=
  match x.flags with
  | .zero => ((0 : ℚ) : WithTop ℚ)
  | .inf => if x.sign then ⊥ else ⊤
  | _ => ((if x.sign then -magnitude x else magnitude x : ℚ) : WithTop ℚ)

/-- Of two numbers of the same sign, the one with the larger exponent is larger. -/
def Aligned (a b : BigFloat) : Prop :=
  a.flags = .normal → b.flags = .normal → a.sign = b.sign →
    (b.exponent < a.exponent →
      mag b.significand < mag a.significand * 2 ^ (a.exponent - b.exponent).toNat) ∧
    (a.exponent < b.exponent →
      mag a.significand < mag b.significand * 2 ^ (b.exponent - a.exponent).toNat)

/-! ### Values -/

theorem coe_strictMono : StrictMono fun q : ℚ => ((q : WithTop ℚ) : WithBot (WithTop ℚ)) :=
  fun _ _ h => WithBot.coe_lt_coe.mpr (WithTop.coe_lt_coe.mpr h)

theorem value_zero (h : a.flags = .zero) : value a = ((0 : ℚ) : WithTop ℚ) := by
  rw [value, h]

theorem value_inf (h : a.flags = .inf) : value a = if a.sign then ⊥ else ⊤ := by
  rw [value, h]

theorem value_normal (h : a.flags = .normal) :
    value a = ((if a.sign then -magnitude a else magnitude a : ℚ) : WithTop ℚ) := by
  rw [value, h]

theorem WellFormed.mag_pos (ha : WellFormed a) (h : a.flags = .normal) : 0 < mag a.significand := by
  obtain ⟨hsize, hpos⟩ := ha.bits h
  rw [← hsize] at hpos
  exact Nat.size_pos.mp hpos

theorem WellFormed.magnitude_pos (ha : WellFormed a) (h : a.flags = .normal) : 0 < magnitude a :=
  dyadic_pos (ha.mag_pos h)

/-- A number that is no infinity is a rational. -/
theorem value_finite (hn : a.flags ≠ .nan) (hi : a.flags ≠ .inf) :
    ∃ q : ℚ, value a = (q : WithTop ℚ) := by
  rcases hf : a.flags with _ | _ | _ | _
  · exact ⟨_, value_normal hf⟩
  · exact ⟨0, value_zero hf⟩
  · exact absurd hf hi
  · exact absurd hf hn

/-- `bigint_cmp` of two significands. -/
theorem cmp_significands (ha : WellFormed a) (hb : WellFormed b) :
    Bignum.cmp a.significand b.significand = orderSign (mag a.significand) (mag b.significand) := by
  have hcmp := Bignum.cmpAbs_spec ha.canonical hb.canonical
  have hsign : Bignum.cmpAbs a.significand b.significand =
      orderSign (mag a.significand) (mag b.significand) := by
    rw [hcmp]
    rcases Nat.lt_trichotomy (mag a.significand) (mag b.significand) with h | h | h
    · rw [orderSign_of_lt h, Int.sign_eq_neg_one_of_neg (by omega)]
    · rw [h, orderSign_self, Int.sub_self, Int.sign_zero]
    · rw [orderSign_of_gt h, Int.sign_eq_one_of_pos (by omega)]
  rw [Bignum.cmp, ha.unsigned, hb.unsigned, hsign]
  split
  · rename_i hz
    rw [ha.canonical.isZero_iff.mp hz.1, hb.canonical.isZero_iff.mp hz.2, orderSign_self]
  · rfl

/-! ### Two normal numbers of the same sign -/

/-- The comparison of the magnitudes, as the code makes it. -/
def cmpMagnitude (a b : BigFloat) : Int :=
  if a.exponent > b.exponent then 1
  else if a.exponent < b.exponent then -1
  else Bignum.cmp a.significand b.significand

theorem cmp_normal (ha : a.flags = .normal) (hb : b.flags = .normal) (hs : a.sign = b.sign) :
    cmp a b = if a.sign then -cmpMagnitude a b else cmpMagnitude a b := by
  unfold cmp cmpMagnitude
  simp only [ha, hb, reduceCtorEq, false_and, if_false, hs, ne_eq, not_true_eq_false]
  by_cases hgt : a.exponent > b.exponent
  · rw [if_pos hgt, if_pos hgt]
  by_cases hlt : a.exponent < b.exponent
  · rw [if_neg hgt, if_neg hgt, if_pos hlt, if_pos hlt]
    cases b.sign <;> rfl
  · rw [if_neg hgt, if_neg hgt, if_neg hlt, if_neg hlt]
    cases b.sign
    · exact Int.mul_one _
    · exact Int.mul_neg_one _

theorem orderSign_value (ha : a.flags = .normal) (hb : b.flags = .normal) (hs : a.sign = b.sign) :
    orderSign (value a) (value b) =
      if a.sign then -orderSign (magnitude a) (magnitude b) else orderSign (magnitude a) (magnitude b) := by
  rw [value_normal ha, value_normal hb, orderSign_map coe_strictMono, ← hs]
  cases a.sign
  · rfl
  · rw [if_pos rfl, if_pos rfl, if_pos rfl, orderSign_anti (fun _ _ h => neg_lt_neg h), orderSign_swap]

/-- **When the exponents decide rightly.** -/
theorem cmpMagnitude_iff (ha : WellFormed a) (hb : WellFormed b) :
    cmpMagnitude a b = orderSign (magnitude a) (magnitude b) ↔
      (b.exponent < a.exponent →
        mag b.significand < mag a.significand * 2 ^ (a.exponent - b.exponent).toNat) ∧
      (a.exponent < b.exponent →
        mag a.significand < mag b.significand * 2 ^ (b.exponent - a.exponent).toNat) := by
  unfold cmpMagnitude magnitude
  rcases Int.lt_trichotomy a.exponent b.exponent with h | h | h
  · rw [if_neg (by omega), if_pos h, eq_comm, orderSign_eq_neg_one, dyadic_lt_iff,
      show (a.exponent - b.exponent).toNat = 0 by omega, pow_zero, Nat.mul_one]
    exact ⟨fun hlt => ⟨fun h' => by omega, fun _ => hlt⟩, fun hboth => hboth.2 h⟩
  · rw [if_neg (by omega), if_neg (by omega), cmp_significands ha hb, h]
    refine iff_of_true ?_ ⟨fun h' => by omega, fun h' => by omega⟩
    exact (orderSign_map (fun _ _ => (dyadic_lt_same b.exponent).mpr) _ _).symm
  · rw [if_pos h, eq_comm, orderSign_eq_one, dyadic_lt_iff,
      show (b.exponent - a.exponent).toNat = 0 by omega, pow_zero, Nat.mul_one]
    exact ⟨fun hlt => ⟨fun _ => hlt, fun h' => by omega⟩, fun hboth => hboth.1 h⟩

/-! ### All numbers -/

theorem finite_lt_top {q : ℚ} : ((q : WithTop ℚ) : WithBot (WithTop ℚ)) < ⊤ :=
  WithBot.coe_lt_coe.mpr (WithTop.coe_lt_top q)

theorem bot_lt_finite {q : ℚ} : (⊥ : WithBot (WithTop ℚ)) < (q : WithTop ℚ) := WithBot.bot_lt_coe _

/-- Infinities are below and above everything else. -/
theorem cmp_infinite (hna : a.flags ≠ .nan) (hnb : b.flags ≠ .nan) (h : a.flags = .inf ∨ b.flags = .inf) :
    cmp a b = orderSign (value a) (value b) := by
  by_cases hia : a.flags = .inf
  · rw [value_inf hia]
    by_cases hib : b.flags = .inf
    · rw [value_inf hib]
      cases hsa : a.sign <;> cases hsb : b.sign <;>
        simp [cmp, hia, hib, hsa, hsb, orderSign_self, orderSign_of_lt, orderSign_of_gt]
    · obtain ⟨q, hq⟩ := value_finite hnb hib
      rw [hq]
      cases hsa : a.sign
      · rw [if_neg (by decide), orderSign_of_gt finite_lt_top]
        simp [cmp, hia, hib, hsa]
      · rw [if_pos rfl, orderSign_of_lt bot_lt_finite]
        simp [cmp, hia, hib, hsa]
  · have hib := h.resolve_left hia
    obtain ⟨q, hq⟩ := value_finite hna hia
    rw [value_inf hib, hq]
    cases hsb : b.sign
    · rw [if_neg (by decide), orderSign_of_lt finite_lt_top]
      simp [cmp, hia, hib, hsb]
    · rw [if_pos rfl, orderSign_of_gt bot_lt_finite]
      simp [cmp, hia, hib, hsb]

/-- Zeros are between the negative and the positive numbers. -/
theorem cmp_zero (ha : WellFormed a) (hb : WellFormed b) (hfa : a.flags = .zero ∨ a.flags = .normal)
    (hfb : b.flags = .zero ∨ b.flags = .normal) (h : a.flags = .zero ∨ b.flags = .zero) :
    cmp a b = orderSign (value a) (value b) := by
  rcases hfa with hza | hza
  · rw [value_zero hza]
    rcases hfb with hzb | hzb
    · rw [value_zero hzb, orderSign_self, cmp, if_pos ⟨hza, hzb⟩]
    · have hpos := hb.magnitude_pos hzb
      rw [value_normal hzb, orderSign_map coe_strictMono]
      cases hsb : b.sign <;>
        simp [cmp, hza, hzb, hsb, orderSign_of_lt, orderSign_of_gt, hpos]
  · have hzb := h.resolve_left fun h => by rw [h] at hza; cases hza
    have hpos := ha.magnitude_pos hza
    rw [value_normal hza, value_zero hzb, orderSign_map coe_strictMono]
    cases hsa : a.sign <;>
      simp [cmp, hza, hzb, hsa, orderSign_of_lt, orderSign_of_gt, hpos]

/-- Numbers of different signs. -/
theorem cmp_signs (ha : WellFormed a) (hb : WellFormed b) (hfa : a.flags = .normal)
    (hfb : b.flags = .normal) (hs : a.sign ≠ b.sign) : cmp a b = orderSign (value a) (value b) := by
  have hpa := ha.magnitude_pos hfa
  have hpb := hb.magnitude_pos hfb
  rw [value_normal hfa, value_normal hfb, orderSign_map coe_strictMono]
  cases hsa : a.sign <;> cases hsb : b.sign
  · exact absurd (hsa.trans hsb.symm) hs
  · have hlt : -magnitude b < magnitude a := by linarith
    simp [cmp, hfa, hfb, hsa, hsb, orderSign_of_gt hlt]
  · have hlt : -magnitude a < magnitude b := by linarith
    simp [cmp, hfa, hfb, hsa, hsb, orderSign_of_lt hlt]
  · exact absurd (hsa.trans hsb.symm) hs

theorem flags_cases (hn : a.flags ≠ .nan) (hi : a.flags ≠ .inf) : a.flags = .zero ∨ a.flags = .normal := by
  rcases hf : a.flags with _ | _ | _ | _
  · exact .inr rfl
  · exact .inl rfl
  · exact absurd hf hi
  · exact absurd hf hn

/-- Only two normal numbers of the same sign can be ordered wrongly. -/
theorem cmp_special (ha : WellFormed a) (hb : WellFormed b) (hna : a.flags ≠ .nan) (hnb : b.flags ≠ .nan)
    (h : ¬ (a.flags = .normal ∧ b.flags = .normal ∧ a.sign = b.sign)) :
    cmp a b = orderSign (value a) (value b) := by
  by_cases hinf : a.flags = .inf ∨ b.flags = .inf
  · exact cmp_infinite hna hnb hinf
  obtain ⟨hia, hib⟩ := not_or.mp hinf
  have hfa := flags_cases hna hia
  have hfb := flags_cases hnb hib
  by_cases hzero : a.flags = .zero ∨ b.flags = .zero
  · exact cmp_zero ha hb hfa hfb hzero
  obtain ⟨hza, hzb⟩ := not_or.mp hzero
  have hna' := hfa.resolve_left hza
  have hnb' := hfb.resolve_left hzb
  exact cmp_signs ha hb hna' hnb' fun hs => h ⟨hna', hnb', hs⟩

/-- **`bigfloat_cmp`** is the order of the numbers exactly on the pairs that are
aligned. -/
theorem cmp_iff (ha : WellFormed a) (hb : WellFormed b) (hna : a.flags ≠ .nan) (hnb : b.flags ≠ .nan) :
    cmp a b = orderSign (value a) (value b) ↔ Aligned a b := by
  by_cases h : a.flags = .normal ∧ b.flags = .normal ∧ a.sign = b.sign
  · obtain ⟨hfa, hfb, hs⟩ := h
    have hmag := cmpMagnitude_iff ha hb
    rw [cmp_normal hfa hfb hs, orderSign_value hfa hfb hs]
    have hsame : ((if a.sign then -cmpMagnitude a b else cmpMagnitude a b) =
        if a.sign then -orderSign (magnitude a) (magnitude b) else orderSign (magnitude a) (magnitude b)) ↔
        cmpMagnitude a b = orderSign (magnitude a) (magnitude b) := by
      cases a.sign
      · exact Iff.rfl
      · exact Int.neg_inj
    rw [hsame, hmag]
    exact ⟨fun hboth _ _ _ => hboth, fun hal => hal hfa hfb hs⟩
  · exact iff_of_true (cmp_special ha hb hna hnb h) fun hfa hfb hs => absurd ⟨hfa, hfb, hs⟩ h

/-! ### One precision -/

/-- **With one precision the exponents decide rightly.** -/
theorem aligned_of_precision (ha : WellFormed a) (hb : WellFormed b)
    (hp : a.flags = .normal → b.flags = .normal → a.precision = b.precision) : Aligned a b := by
  have hlt : ∀ {x y : BigFloat}, WellFormed x → WellFormed y → x.flags = .normal → y.flags = .normal →
      x.precision = y.precision → y.exponent < x.exponent →
      mag y.significand < mag x.significand * 2 ^ (x.exponent - y.exponent).toNat := by
    intro x y hx hy hfx hfy hp hlt
    obtain ⟨hsx, hpx⟩ := hx.bits hfx
    obtain ⟨hsy, -⟩ := hy.bits hfy
    have hd : 1 ≤ (x.exponent - y.exponent).toNat := by omega
    calc mag y.significand < 2 ^ x.precision := by
          rw [← Nat.size_le, hsy, hp]
      _ = 2 ^ (x.precision - 1) * 2 := by rw [← pow_succ, Nat.sub_add_cancel hpx]
      _ ≤ mag x.significand * 2 ^ (x.exponent - y.exponent).toNat :=
          Nat.mul_le_mul (Nat.lt_size.mp (by omega)) (Nat.le_self_pow (by omega) 2)
  intro hfa hfb _
  exact ⟨hlt ha hb hfa hfb (hp hfa hfb), hlt hb ha hfb hfa (hp hfa hfb).symm⟩

/-- **With one precision `bigfloat_cmp` is a total order of the values.** -/
theorem cmp_precision {p : Nat} {x y z : BigFloat}
    (h : ∀ w ∈ [x, y, z], WellFormed w ∧ w.flags ≠ .nan ∧ (w.flags = .normal → w.precision = p)) :
    cmp x y = -cmp y x ∧ (cmp x y = 0 ↔ value x = value y) ∧
      (cmp x y ≤ 0 → cmp y z ≤ 0 → cmp x z ≤ 0) := by
  have hcmp : ∀ {u v : BigFloat}, u ∈ [x, y, z] → v ∈ [x, y, z] → cmp u v = orderSign (value u) (value v) := by
    intro u v hu hv
    obtain ⟨cu, nu, pu⟩ := h u hu
    obtain ⟨cv, nv, pv⟩ := h v hv
    exact (cmp_iff cu cv nu nv).mpr (aligned_of_precision cu cv fun hfu hfv => (pu hfu).trans (pv hfv).symm)
  rw [hcmp (by simp) (by simp), hcmp (by simp) (by simp), hcmp (by simp) (by simp),
    hcmp (by simp) (by simp)]
  refine ⟨orderSign_swap _ _, orderSign_eq_zero, ?_⟩
  rw [orderSign_le_zero, orderSign_le_zero, orderSign_le_zero]
  exact le_trans

/-! ### Two precisions -/

theorem wellFormed_fromU64 {n p : Nat} {e : Int} {s : Bool} (hn : n < Bignum.base) (hp : n.size = p)
    (hpos : 0 < p) : WellFormed ⟨s, .normal, e, Bignum.fromU64 n, p⟩ := by
  obtain ⟨hcan, hmag⟩ := Bignum.canonical_fromU64 hn
  exact ⟨hcan, rfl, fun _ => ⟨by rw [hmag, hp], hpos⟩⟩

/-- `4` of precision 2 and `7` of precision 3. -/
theorem cmp_iff_four :
    cmp ⟨false, .normal, 1, Bignum.fromU64 2, 2⟩ ⟨false, .normal, 0, Bignum.fromU64 7, 3⟩ =
        orderSign (value ⟨false, .normal, 1, Bignum.fromU64 2, 2⟩)
          (value ⟨false, .normal, 0, Bignum.fromU64 7, 3⟩) ↔
      Aligned ⟨false, .normal, 1, Bignum.fromU64 2, 2⟩ ⟨false, .normal, 0, Bignum.fromU64 7, 3⟩ :=
  cmp_iff (wellFormed_fromU64 (by decide) (by decide) (by decide))
    (wellFormed_fromU64 (by decide) (by decide) (by decide)) (by decide) (by decide)

/-- `2 * 2 ^ 1` of precision 2 compares greater than `7` of precision 3. -/
theorem cmp_four_seven :
    WellFormed ⟨false, .normal, 1, Bignum.fromU64 2, 2⟩ ∧
      WellFormed ⟨false, .normal, 0, Bignum.fromU64 7, 3⟩ ∧
      cmp ⟨false, .normal, 1, Bignum.fromU64 2, 2⟩ ⟨false, .normal, 0, Bignum.fromU64 7, 3⟩ = 1 ∧
      orderSign (value ⟨false, .normal, 1, Bignum.fromU64 2, 2⟩)
        (value ⟨false, .normal, 0, Bignum.fromU64 7, 3⟩) = -1 := by
  refine ⟨wellFormed_fromU64 (by decide) (by decide) (by decide),
    wellFormed_fromU64 (by decide) (by decide) (by decide), by decide, ?_⟩
  rw [value_normal rfl, value_normal rfl, orderSign_map coe_strictMono]
  refine orderSign_of_lt ?_
  exact dyadic_lt_iff.mpr (by decide)

end Jacl.Bigfloat
