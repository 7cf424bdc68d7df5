import Jacl.BignumShifts

/-!
# Products

`mulRow_spec` and `mulLoop_spec` are the schoolbook loops: while row `i` is computed,
the limbs above `i + ylen` are still zero, so the last carry is stored without
wrapping.  `karatsubaStep_gives` is one level of Karatsuba's method over any correct
product of operands with fewer limbs in total, and `mulMag_gives` the induction.
-/

namespace Jacl.Bignum
open Limbs

variable {x y z : BigInt} {m n s bits t fuel : Nat} {l : List Nat}

/-! ### The schoolbook loops -/

/-- The product of two limbs leaves room for two more in a `__uint128_t`. -/
theorem limb_prod {a b c d : Nat} (ha : a < base) (hb : b < base) (hc : c < base) (hd : d < base) :
    u64 (a * b + c + d) + base * u64 ((a * b + c + d) / 2 ^ 64) = a * b + c + d ∧
      (a * b + c + d) / 2 ^ 64 < base := by
  have hprod : a * b ≤ (2 ^ 64 - 1) * (2 ^ 64 - 1) := by
    rw [base_eq] at ha hb
    exact Nat.mul_le_mul (by omega) (by omega)
  rw [base_eq] at hc hd
  have hdiv : (a * b + c + d) / 2 ^ 64 < 2 ^ 64 := by omega
  refine ⟨?_, hdiv⟩
  rw [u64, u64, Nat.mod_eq_of_lt hdiv, base_eq]
  exact Nat.mod_add_div _ _

theorem mulU64Loop_spec {b carry : Nat} (hb : b < base) (hl : Below base l) (hc : carry < base) :
    Nat.ofDigits base (mulU64Loop b l carry) = Nat.ofDigits base l * b + carry ∧
      Below base (mulU64Loop b l carry) ∧ (mulU64Loop b l carry).length = l.length + 1 := by
  induction l generalizing carry with
  | nil =>
    refine ⟨?_, below_cons hc below_nil, rfl⟩
    rw [mulU64Loop, Nat.ofDigits_singleton, Nat.ofDigits_nil, Nat.zero_mul, Nat.zero_add]
  | cons a l ih =>
    obtain ⟨hlimb, hlt⟩ := limb_prod (below_head hl) hb hc (show 0 < base by decide)
    rw [Nat.add_zero] at hlimb hlt
    obtain ⟨hval, hbelow, hlen⟩ := ih (below_of_cons hl) (u64_lt ((a * b + carry) / 2 ^ 64))
    rw [mulU64Loop]
    refine ⟨?_, below_cons (u64_lt _) hbelow, by rw [List.length_cons, hlen, List.length_cons]⟩
    rw [Nat.ofDigits_cons, hval, Nat.ofDigits_cons]
    calc u64 (a * b + carry) + base * (Nat.ofDigits base l * b + u64 ((a * b + carry) / 2 ^ 64))
        = (u64 (a * b + carry) + base * u64 ((a * b + carry) / 2 ^ 64)) +
            base * (Nat.ofDigits base l * b) := by ring
      _ = (a + base * Nat.ofDigits base l) * b + carry := by rw [hlimb]; ring

/-- **`bigint_mul_u64`.** -/
theorem mulU64_gives {b : Nat} (hx : Canonical x) (hb : b < base) (hn : x.len + 1 < 2 ^ 32) :
    Gives (mulU64 x b) (toInt x * b) (x.len + 1) := by
  rw [mulU64]
  by_cases h0 : b = 0 ∨ isZero x
  · rw [if_pos h0]
    have hval : toInt x * b = 0 := by
      rcases h0 with rfl | hz
      · simp
      · rw [toInt, hx.isZero_iff.mp hz, signed_zero, Int.zero_mul]
    rw [hval]
    exact gives_zero (Nat.succ_pos _)
  · rw [if_neg h0]
    obtain ⟨hval, hbelow, hlen⟩ := mulU64Loop_spec hb hx.below (show 0 < base by decide)
    have hgive := gives_alloc x.sign (List.ne_nil_of_length_eq_add_one hlen) hlen hn hbelow
    have hmul : toInt x * b = signed x.sign (Nat.ofDigits base x.limbs * b + 0) := by
      rw [Nat.add_zero, signed_mul]
      rfl
    rw [hmul, ← hval]
    exact hgive

theorem mulRow_spec {a carry : Nat} {ys lo : List Nat} (ha : a < base) (hy : Below base ys)
    (hlo : Below base lo) (hlen : lo.length = ys.length) (hc : carry < base) (k : Nat) :
    ∃ row, mulRow a ys (lo ++ List.replicate (k + 1) 0) carry = row ++ List.replicate k 0 ∧
      Nat.ofDigits base row = a * Nat.ofDigits base ys + Nat.ofDigits base lo + carry ∧
      Below base row ∧ row.length = ys.length + 1 := by
  induction ys generalizing lo carry with
  | nil =>
    obtain rfl := List.length_eq_zero_iff.mp hlen
    have hcarry : u64 (0 + carry) = carry := by
      rw [Nat.zero_add]
      exact Nat.mod_eq_of_lt hc
    refine ⟨[carry], ?_, by simp, below_cons hc below_nil, rfl⟩
    rw [List.nil_append, List.replicate_succ, mulRow, List.headD_cons, hcarry]
    rfl
  | cons b ys ih =>
    rcases lo with _ | ⟨c, lo⟩
    · cases hlen
    obtain ⟨hlimb, hlt⟩ := limb_prod ha (below_head hy) (below_head hlo) hc
    obtain ⟨row, hrow, hval, hbelow, hlen'⟩ := ih (below_of_cons hy) (below_of_cons hlo)
      (by simpa using hlen) (u64_lt ((a * b + c + carry) / 2 ^ 64))
    refine ⟨u64 (a * b + c + carry) :: row, ?_, ?_, below_cons (u64_lt _) hbelow,
      by rw [List.length_cons, hlen', List.length_cons]⟩
    · rw [List.cons_append, mulRow, List.headD_cons, List.tail_cons, hrow]
      rfl
    · rw [Nat.ofDigits_cons, hval, Nat.ofDigits_cons, Nat.ofDigits_cons]
      calc u64 (a * b + c + carry) + base * (a * Nat.ofDigits base ys + Nat.ofDigits base lo +
            u64 ((a * b + c + carry) / 2 ^ 64))
          = (u64 (a * b + c + carry) + base * u64 ((a * b + c + carry) / 2 ^ 64)) +
              base * (a * Nat.ofDigits base ys + Nat.ofDigits base lo) := by ring
        _ = a * (b + base * Nat.ofDigits base ys) + (c + base * Nat.ofDigits base lo) + carry := by
            rw [hlimb]; ring

theorem mulLoop_spec {xs ys lo : List Nat} (hx : Below base xs) (hy : Below base ys)
    (hlo : Below base lo) (hlen : lo.length = ys.length) :
    Nat.ofDigits base (mulLoop xs ys (lo ++ List.replicate xs.length 0)) =
        Nat.ofDigits base xs * Nat.ofDigits base ys + Nat.ofDigits base lo ∧
      Below base (mulLoop xs ys (lo ++ List.replicate xs.length 0)) ∧
      (mulLoop xs ys (lo ++ List.replicate xs.length 0)).length = xs.length + ys.length := by
  induction xs generalizing lo with
  | nil =>
    rw [mulLoop, List.length_nil, List.replicate_zero, List.append_nil, Nat.ofDigits_nil, Nat.zero_mul,
      Nat.zero_add, Nat.zero_add]
    exact ⟨rfl, hlo, hlen⟩
  | cons a xs ih =>
    obtain ⟨row, hrow, hval, hbelow, hrowlen⟩ :=
      mulRow_spec (below_head hx) hy hlo hlen (show 0 < base by decide) xs.length
    rcases row with _ | ⟨r, row⟩
    · cases hrowlen
    obtain ⟨hrec, hbelow', hlen'⟩ := ih (below_of_cons hx) (below_of_cons hbelow) (by simpa using hrowlen)
    have hstep : mulLoop (a :: xs) ys (lo ++ List.replicate (a :: xs).length 0) =
        r :: mulLoop xs ys (row ++ List.replicate xs.length 0) := by
      rw [mulLoop, List.length_cons, hrow]
      rfl
    rw [hstep]
    refine ⟨?_, below_cons (below_head hbelow) hbelow', by rw [List.length_cons, hlen', List.length_cons]; omega⟩
    rw [Nat.ofDigits_cons] at hval
    rw [Nat.ofDigits_cons, hrec, Nat.ofDigits_cons]
    calc r + base * (Nat.ofDigits base xs * Nat.ofDigits base ys + Nat.ofDigits base row)
        = (r + base * Nat.ofDigits base row) + base * (Nat.ofDigits base xs * Nat.ofDigits base ys) := by ring
      _ = (a + base * Nat.ofDigits base xs) * Nat.ofDigits base ys + Nat.ofDigits base lo := by
          rw [hval]; ring

/-- **The schoolbook product.** -/
theorem mulSchoolbook_gives (hx : Canonical x) (hy : Canonical y) (hn : x.len + y.len < 2 ^ 32) :
    Gives (mulSchoolbook x y) ((mag x * mag y : Nat) : Int) (x.len + y.len) := by
  have hzero : Below base (List.replicate y.limbs.length 0) := by
    intro a ha
    rw [List.eq_of_mem_replicate ha]
    decide
  obtain ⟨hval, hbelow, hlen⟩ := mulLoop_spec hx.below hy.below hzero List.length_replicate
  rw [← List.replicate_add, Nat.add_comm y.limbs.length, Nat.ofDigits_replicate_zero, Nat.add_zero] at hval
  rw [← List.replicate_add, Nat.add_comm y.limbs.length] at hbelow hlen
  have hpos := hx.len_pos
  have hgive := gives_alloc false (by intro h; rw [h] at hlen; rw [BigInt.len] at hpos; simp at hlen; omega)
    hlen hn hbelow
  rw [hval] at hgive
  exact hgive

/-! ### Karatsuba's method -/

theorem fromLimbs_gives (hl : Below base l) (hn : l.length < 2 ^ 32) :
    Gives (fromLimbs l) (Nat.ofDigits base l : Nat) (max 1 l.length) := by
  rw [fromLimbs]
  by_cases h0 : l.length = 0
  · rw [if_pos h0, List.length_eq_zero_iff.mp h0]
    exact gives_zero (by decide)
  · rw [if_neg h0]
    obtain ⟨hval, hbelow, hne, -, hle⟩ := strip_spec (fun h => h0 (by rw [h]; rfl)) hl
    have hgive := gives_alloc false hne rfl (by omega) hbelow
    rw [hval] at hgive
    exact hgive.mono (by omega)

/-- A product of magnitudes that is right for operands of fewer than `n` limbs in
total. -/
def MulsBelow (mul : BigInt → BigInt → Option BigInt) (n : Nat) : Prop :=
  ∀ a b, Canonical a → Canonical b → a.len + b.len < n →
    Gives (mul a b) ((mag a * mag b : Nat) : Int) (a.len + b.len)

theorem mag_eq_of_toInt (h : toInt x = (m : Int)) : mag x = m := by
  rw [← natAbs_toInt, h, Int.natAbs_natCast]

theorem Gives.bind {f : BigInt → Option BigInt} {r : Option BigInt} {v w : Int} (h : Gives r v m)
    (hf : ∀ z, Canonical z → toInt z = v → z.len ≤ m → Gives (f z) w n) : Gives (r >>= f) w n := by
  obtain ⟨z, rfl, hz, hval, hle⟩ := h
  exact hf z hz hval hle

/-- The middle term is the sum of the crossed products. -/
theorem karatsubaMiddle_gives {mul : BigInt → BigInt → Option BigInt} {x0 x1 y0 y1 z0 z2 : BigInt}
    {kx ky total : Nat} (hmul : MulsBelow mul total) (cx0 : Canonical x0) (cx1 : Canonical x1)
    (cy0 : Canonical y0) (cy1 : Canonical y1) (cz0 : Canonical z0) (cz2 : Canonical z2)
    (hx0 : toInt x0 = mag x0) (hx1 : toInt x1 = mag x1) (hy0 : toInt y0 = mag y0)
    (hy1 : toInt y1 = mag y1) (hz0 : toInt z0 = (mag x0 * mag y0 : Nat))
    (hz2 : toInt z2 = (mag x1 * mag y1 : Nat)) (lx : max x0.len x1.len ≤ kx) (ly : max y0.len y1.len ≤ ky)
    (lz0 : z0.len ≤ kx + ky) (lz2 : z2.len ≤ kx + ky) (hk : kx + 1 + (ky + 1) < total)
    (htotal : total < 2 ^ 31) :
    Gives (karatsubaMiddle mul x0 x1 y0 y1 z0 z2) ((mag x0 * mag y1 + mag x1 * mag y0 : Nat) : Int)
      (kx + ky + 4) := by
  unfold karatsubaMiddle
  refine (add_gives cx0 cx1 (by omega)).bind fun xsum cxsum vxsum lxsum => ?_
  refine (add_gives cy0 cy1 (by omega)).bind fun ysum cysum vysum lysum => ?_
  rw [hx0, hx1, ← Int.natCast_add] at vxsum
  rw [hy0, hy1, ← Int.natCast_add] at vysum
  refine (hmul xsum ysum cxsum cysum (by omega)).bind fun full cfull vfull lfull => ?_
  rw [mag_eq_of_toInt vxsum, mag_eq_of_toInt vysum] at vfull
  refine (sub_gives cfull cz0 (by omega)).bind fun temp ctemp vtemp ltemp => ?_
  have hsub := sub_gives ctemp cz2 (by omega)
  have hval : toInt temp - toInt z2 = ((mag x0 * mag y1 + mag x1 * mag y0 : Nat) : Int) := by
    rw [vtemp, vfull, hz0, hz2]
    push_cast
    ring
  rw [hval] at hsub
  exact hsub.mono (by omega)

/-- The partial products at their places. -/
theorem karatsubaCombine_gives {z0 z1 z2 : BigInt} {a b c k : Nat} (cz0 : Canonical z0)
    (cz1 : Canonical z1) (cz2 : Canonical z2) (hz0 : toInt z0 = (a : Nat)) (hz1 : toInt z1 = (b : Nat))
    (hz2 : toInt z2 = (c : Nat)) (l0 : z0.len ≤ k) (l1 : z1.len ≤ k) (l2 : z2.len ≤ k)
    (hm : 2 * m * 64 < 2 ^ 32) (hk : k + 2 * m + 3 < 2 ^ 32) :
    Gives (karatsubaCombine m z0 z1 z2) ((a + base ^ m * b + base ^ m * base ^ m * c : Nat) : Int)
      (k + 2 * m + 3) := by
  unfold karatsubaCombine
  rw [u32_of_lt hm, u32_of_lt (show m * 64 < 2 ^ 32 by omega)]
  have hpow1 : (2 : Int) ^ (m * 64) = ((base ^ m : Nat) : Int) := by
    rw [base_pow, Nat.mul_comm, Nat.cast_pow]
    rfl
  have hpow2 : (2 : Int) ^ (2 * m * 64) = ((base ^ m : Nat) : Int) * ((base ^ m : Nat) : Int) := by
    rw [← hpow1, ← pow_add]
    congr 1
    omega
  refine (shiftLeft_gives cz2 (show z2.len + 2 * m * 64 / 64 + 1 < 2 ^ 32 by omega)).bind
    fun s2 cs2 vs2 ls2 => ?_
  refine (shiftLeft_gives cz1 (show z1.len + m * 64 / 64 + 1 < 2 ^ 32 by omega)).bind
    fun s1 cs1 vs1 ls1 => ?_
  rw [hz2, hpow2] at vs2
  rw [hz1, hpow1] at vs1
  generalize base ^ m = p at *
  refine (add_gives cs2 cs1 (by omega)).bind fun r cr vr lr => ?_
  have hadd := add_gives cr cz0 (by omega)
  have hval : toInt r + toInt z0 = ((a + p * b + p * p * c : Nat) : Int) := by
    rw [vr, vs1, vs2, hz0]
    push_cast
    ring
  rw [hval] at hadd
  exact hadd.mono (by omega)

/-- The limbs below and from `m` on. -/
theorem mag_split (hm : m ≤ x.len) :
    mag x = Nat.ofDigits base (x.limbs.take m) + base ^ m * Nat.ofDigits base (x.limbs.drop m) := by
  have hlen : min m x.limbs.length = m := Nat.min_eq_left hm
  conv_lhs => rw [mag, ← List.take_append_drop m x.limbs, Nat.ofDigits_append, List.length_take, hlen]

theorem Canonical.below_split (hx : Canonical x) (m : Nat) :
    Below base (x.limbs.take m) ∧ Below base (x.limbs.drop m) :=
  ⟨fun a ha => hx.below a (List.mem_of_mem_take ha), fun a ha => hx.below a (List.mem_of_mem_drop ha)⟩

/-- The product has no more limbs than its factors. -/
theorem Gives.product {r : Option BigInt} (hx : Canonical x) (hy : Canonical y)
    (h : Gives r ((mag x * mag y : Nat) : Int) n) : Gives r ((mag x * mag y : Nat) : Int) (x.len + y.len) := by
  obtain ⟨z, hr, hz, hval, -⟩ := h
  have hpos := hx.len_pos
  refine ⟨z, hr, hz, hval, hz.len_le (by omega) ?_⟩
  rw [mag_eq_of_toInt hval, Nat.pow_add]
  exact Nat.mul_lt_mul'' hx.mag_lt hy.mag_lt

/-- **One level of Karatsuba's method.** -/
theorem karatsubaStep_gives {mul : BigInt → BigInt → Option BigInt} (hx : Canonical x) (hy : Canonical y)
    (hmul : MulsBelow mul (x.len + y.len)) (hxl : 4 ≤ x.len) (hyl : 4 ≤ y.len)
    (hsize : 64 * (x.len + y.len) < 2 ^ 32) :
    Gives (karatsubaStep mul x y) ((mag x * mag y : Nat) : Int) (x.len + y.len) := by
  have hmin : (if x.len < y.len then x.len else y.len) / 2 = min x.len y.len / 2 := by
    congr 1
    split <;> omega
  unfold karatsubaStep
  simp only [hmin]
  generalize hm : min x.len y.len / 2 = m
  have hmx : 2 * m ≤ x.len := by omega
  have hmy : 2 * m ≤ y.len := by omega
  have hxlen : x.limbs.length = x.len := rfl
  have hylen : y.limbs.length = y.len := rfl
  have hxs := mag_split (x := x) (m := m) (by omega)
  have hys := mag_split (x := y) (m := m) (by omega)
  obtain ⟨hxlo, hxhi⟩ := hx.below_split m
  obtain ⟨hylo, hyhi⟩ := hy.below_split m
  refine Gives.product (n := x.len + y.len + 4 + 2 * m + 3) hx hy ?_
  refine (fromLimbs_gives hxlo (by rw [List.length_take]; omega)).bind fun x0 cx0 vx0 lx0 => ?_
  refine (fromLimbs_gives hxhi (by rw [List.length_drop]; omega)).bind fun x1 cx1 vx1 lx1 => ?_
  refine (fromLimbs_gives hylo (by rw [List.length_take]; omega)).bind fun y0 cy0 vy0 ly0 => ?_
  refine (fromLimbs_gives hyhi (by rw [List.length_drop]; omega)).bind fun y1 cy1 vy1 ly1 => ?_
  have bx0 : x0.len ≤ m := by rw [List.length_take] at lx0; omega
  have by0 : y0.len ≤ m := by rw [List.length_take] at ly0; omega
  have bx1 : x1.len ≤ x.len - m := by rw [List.length_drop] at lx1; omega
  have by1 : y1.len ≤ y.len - m := by rw [List.length_drop] at ly1; omega
  rw [← mag_eq_of_toInt vx0] at hxs vx0
  rw [← mag_eq_of_toInt vx1] at hxs vx1
  rw [← mag_eq_of_toInt vy0] at hys vy0
  rw [← mag_eq_of_toInt vy1] at hys vy1
  clear hmin hxlo hxhi hylo hyhi lx0 ly0 lx1 ly1
  refine (hmul x0 y0 cx0 cy0 (by omega)).bind fun z0 cz0 vz0 lz0 => ?_
  refine (hmul x1 y1 cx1 cy1 (by omega)).bind fun z2 cz2 vz2 lz2 => ?_
  refine (karatsubaMiddle_gives hmul cx0 cx1 cy0 cy1 cz0 cz2 vx0 vx1 vy0 vy1 vz0 vz2
    (show max x0.len x1.len ≤ x.len - m by omega) (show max y0.len y1.len ≤ y.len - m by omega)
    (by omega) (by omega) (by omega) (by omega)).bind fun z1 cz1 vz1 lz1 => ?_
  have hgive := karatsubaCombine_gives (m := m) (k := x.len + y.len + 4) cz0 cz1 cz2 vz0 vz1 vz2
    (by omega) (by omega) (by omega) (by omega) (by omega)
  have hval : mag x0 * mag y0 + base ^ m * (mag x0 * mag y1 + mag x1 * mag y0) +
      base ^ m * base ^ m * (mag x1 * mag y1) = mag x * mag y := by
    rw [hxs, hys]
    ring
  rw [hval] at hgive
  exact hgive

/-- **`_bigint_mul_mag`** is exact at every recursion depth. -/
theorem mulMag_gives (ht : 4 ≤ t) (hx : Canonical x) (hy : Canonical y)
    (hsize : 64 * (x.len + y.len) < 2 ^ 32) (hfuel : x.len + y.len < fuel) :
    Gives (mulMag t fuel x y) ((mag x * mag y : Nat) : Int) (x.len + y.len) := by
  induction fuel generalizing x y with
  | zero => omega
  | succ fuel ih =>
    rw [mulMag]
    split
    · rename_i hlong
      refine karatsubaStep_gives hx hy (fun a b ha hb hlt => ?_) (by omega) (by omega) hsize
      exact ih ha hb (by omega) (by omega)
    · exact mulSchoolbook_gives hx hy (by omega)

/-- **`_bigint_karatsuba`** is exact. -/
theorem karatsuba_gives (ht : 4 ≤ t) (hx : Canonical x) (hy : Canonical y)
    (hsize : 64 * (x.len + y.len) < 2 ^ 32) (hfuel : x.len + y.len ≤ fuel) :
    Gives (karatsuba t fuel x y) ((mag x * mag y : Nat) : Int) (x.len + y.len) := by
  rw [karatsuba]
  split
  · exact mulSchoolbook_gives hx hy (by omega)
  · rename_i hlong
    refine karatsubaStep_gives hx hy (fun a b ha hb hlt => ?_) (by omega) (by omega) hsize
    exact mulMag_gives ht ha hb (by omega) (by omega)

/-- **`bigint_mul`** is exact. -/
theorem mul_gives (ht : 4 ≤ t) (hx : Canonical x) (hy : Canonical y)
    (hsize : 64 * (x.len + y.len) < 2 ^ 32) (hfuel : x.len + y.len < fuel) :
    Gives (mul t fuel x y) (toInt x * toInt y) (x.len + y.len) := by
  rw [mul]
  by_cases h0 : isZero x ∨ isZero y
  · rw [if_pos h0]
    have hval : toInt x * toInt y = 0 := by
      rcases h0 with hz | hz
      · rw [toInt, hx.isZero_iff.mp hz, signed_zero, Int.zero_mul]
      · rw [toInt, toInt, hy.isZero_iff.mp hz, signed_zero, Int.mul_zero]
    have hpos := hx.len_pos
    rw [hval]
    exact gives_zero (by omega)
  · rw [if_neg h0]
    have hval : toInt x * toInt y = signed (x.sign ^^ y.sign) (mag x * mag y) := by
      rw [toInt, toInt]
      cases x.sign <;> cases y.sign <;> simp
    rw [hval]
    exact (mulMag_gives ht hx.abs hy.abs hsize hfuel).withSign _

/-- An operation returns the canonical integer of `v`. -/
def Exact (r : Option BigInt) (v : Int) : Prop := ∃ z, r = some z ∧ Canonical z ∧ toInt z = v

theorem Gives.exact {r : Option BigInt} {v : Int} (h : Gives r v n) : Exact r v := by
  obtain ⟨z, hr, hz, hval, -⟩ := h
  exact ⟨z, hr, hz, hval⟩

/-- **The ring of the library is exact**, for all canonical integers of a total size
below `2 ^ 32` bits; Karatsuba's method returns the limbs of the schoolbook method,
whatever the threshold and the depth. -/
theorem ring_exact (hx : Canonical x) (hy : Canonical y) (hsize : 64 * (x.len + y.len) < 2 ^ 32) :
    Exact (add x y) (toInt x + toInt y) ∧ Exact (sub x y) (toInt x - toInt y) ∧
      (∀ t fuel, 4 ≤ t → x.len + y.len < fuel → Exact (mul t fuel x y) (toInt x * toInt y)) ∧
      (∀ bits, 64 * x.len + bits < 2 ^ 32 → Exact (shiftLeft x bits) (toInt x * 2 ^ bits)) ∧
      (∀ bits, Exact (shiftRight x bits) ((toInt x).tdiv (2 ^ bits))) ∧
      ∀ t fuel, 4 ≤ t → x.len + y.len ≤ fuel →
        ∃ z w, karatsuba t fuel x y = some z ∧ mulSchoolbook x y = some w ∧ z.limbs = w.limbs := by
  refine ⟨(add_gives hx hy (by omega)).exact, (sub_gives hx hy (by omega)).exact,
    fun t fuel ht hfuel => (mul_gives ht hx hy hsize hfuel).exact,
    fun bits hbits => (shiftLeft_gives hx (by omega)).exact,
    fun bits => (shiftRight_gives bits hx (by omega)).exact, fun t fuel ht hfuel => ?_⟩
  obtain ⟨z, hz, cz, vz, -⟩ := karatsuba_gives ht hx hy hsize hfuel
  obtain ⟨w, hw, cw, vw, -⟩ := mulSchoolbook_gives hx hy (by omega)
  exact ⟨z, w, hz, hw, cz.eq_limbs cw (by rw [mag_eq_of_toInt vz, mag_eq_of_toInt vw])⟩

/-- A number of two limbs and its negation. -/
theorem ring_exact_two_limbs :
    Canonical ⟨false, 0, [5, 1]⟩ ∧ Canonical ⟨true, 0, [7, 3]⟩ ∧
      Exact (add ⟨false, 0, [5, 1]⟩ ⟨true, 0, [7, 3]⟩) (toInt ⟨false, 0, [5, 1]⟩ + toInt ⟨true, 0, [7, 3]⟩) := by
  have hx : Canonical ⟨false, 0, [5, 1]⟩ := by
    refine ⟨by decide, ?_, .inr ?_, by decide, by decide⟩
    · intro a ha
      simp only [List.mem_cons, List.not_mem_nil, or_false] at ha
      rcases ha with rfl | rfl <;> decide
    · intro a ha
      simp only [List.getLast?_cons_cons, List.getLast?_singleton, Option.mem_def, Option.some.injEq] at ha
      omega
  have hy : Canonical ⟨true, 0, [7, 3]⟩ := by
    refine ⟨by decide, ?_, .inr ?_, by decide, by decide⟩
    · intro a ha
      simp only [List.mem_cons, List.not_mem_nil, or_false] at ha
      rcases ha with rfl | rfl <;> decide
    · intro a ha
      simp only [List.getLast?_cons_cons, List.getLast?_singleton, Option.mem_def, Option.some.injEq] at ha
      omega
  exact ⟨hx, hy, (ring_exact hx hy (by decide)).1⟩

end Jacl.Bignum
