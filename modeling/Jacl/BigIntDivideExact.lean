import Jacl.BigIntDivideSteps
import Jacl.IntTowerExact

/-!
# The tower divides exactly

The loop over `j` keeps a remainder below the divisor above the limbs it has still to
take in, so algorithm D computes the quotient and the remainder, and `jacl_div` and
`jacl_mod` return the truncated quotient and its remainder in canonical form.
-/

namespace Jacl.BigInt
open Limbs LongDivision

/-- **The body of the loop over `j`** divides its window by the divisor. -/
theorem divStep_spec {j v1 v0 u2 u1 u0 : Nat} {vl wl lo hi : List Nat}
    (hv : Below base (vl ++ [v0, v1])) (hnorm : 2 ^ 31 ≤ v1)
    (hw : Below base (wl ++ [u0, u1])) (hu2 : u2 < base) (hlen : wl.length = vl.length)
    (hlo : lo.length = j)
    (hlt : Nat.ofDigits base (wl ++ [u0, u1] ++ [u2]) <
      base * Nat.ofDigits base (vl ++ [v0, v1])) :
    ∃ w, divStep (vl ++ [v0, v1]) (lo ++ (wl ++ [u0, u1] ++ u2 :: hi)) j =
        some (lo ++ (w ++ 0 :: hi), Nat.ofDigits base (wl ++ [u0, u1] ++ [u2]) /
          Nat.ofDigits base (vl ++ [v0, v1])) ∧
      w.length = vl.length + 2 ∧ Below base w ∧
      Nat.ofDigits base w = Nat.ofDigits base (wl ++ [u0, u1] ++ [u2]) %
        Nat.ofDigits base (vl ++ [v0, v1]) := by
  have hnb : (vl ++ [v0, v1]).length = vl.length + 2 := by simp
  have hwb : (wl ++ [u0, u1]).length = vl.length + 2 := by simp [hlen]
  obtain ⟨qhat, hest, hqlt, hqge, hqle⟩ := estimate_window hv hnorm hw hlen hlt
  obtain ⟨w, carry, borrow, hrun, hwlen, hwbelow, htop, heq⟩ :=
    @mulSub_window j qhat u2 _ _ lo hi hqlt hv hw hu2 (hwb.trans hnb.symm) hlo
  have hat : (lo ++ w).length = j + (vl.length + 2) := by
    rw [List.length_append, hlo, hwlen, hwb]
  -- the five limbs the step reads
  have hr1 : (vl ++ [v0, v1])[vl.length + 2 - 1]? = some v1 := by simp
  have hr2 : (vl ++ [v0, v1])[vl.length + 2 - 2]? = some v0 := by simp
  have hr3 : (lo ++ (wl ++ [u0, u1] ++ u2 :: hi))[j + (vl.length + 2)]? = some u2 := by
    simp [hlo, hlen]
  have hr4 : (lo ++ (wl ++ [u0, u1] ++ u2 :: hi))[j + (vl.length + 2) - 1]? = some u1 := by
    rw [show lo ++ (wl ++ [u0, u1] ++ u2 :: hi) = (lo ++ wl ++ [u0]) ++ u1 :: (u2 :: hi) by simp]
    exact getElem?_append_cons (by simp [hlo, hlen]) u1
  have hr5 : (lo ++ (wl ++ [u0, u1] ++ u2 :: hi))[j + (vl.length + 2) - 2]? = some u0 := by
    rw [show lo ++ (wl ++ [u0, u1] ++ u2 :: hi) = (lo ++ wl) ++ u0 :: (u1 :: u2 :: hi) by simp]
    exact getElem?_append_cons (by rw [List.length_append, hlo, hlen]; omega) u0
  generalize hn : Nat.ofDigits base (wl ++ [u0, u1] ++ [u2]) = n at *
  generalize hval : Nat.ofDigits base (vl ++ [v0, v1]) = v at *
  have hvlt : v < base ^ (vl.length + 2) := by
    rw [← hval, ← hnb]
    exact hv.lt one_lt_base
  have hvpos : 0 < v := by
    by_contra h0
    rw [Nat.eq_zero_of_not_pos h0, Nat.mul_zero] at hlt
    omega
  have hwlt := hwbelow.lt one_lt_base
  rw [hwlen, hwb] at hwlt
  rw [hwb] at heq
  have hmod := Nat.mod_lt n hvpos
  have hdiv := Nat.div_add_mod n v
  generalize n / v = d at *
  generalize n % v = r at *
  obtain ⟨hzero, hneg⟩ := top_of_window (Int.natCast_nonneg _) (by exact_mod_cast hwlt) heq
  rw [divStep, hnb, if_neg (by omega), hr1, hr2, hr3, hr4, hr5]
  simp only [Option.bind_eq_bind]
  rw [Option.bind_some, Option.bind_some, Option.bind_some, Option.bind_some, Option.bind_some, hest,
    Option.bind_some, hrun, Option.bind_some]
  simp only [← List.append_assoc lo]
  rw [getElem?_append_cons hat, Option.bind_some, htop, Option.bind_some, put_append hat,
    Option.bind_some]
  rcases (show qhat = d ∨ qhat = d + 1 by omega) with rfl | rfl
  · -- the estimate is the digit: the top limb of the difference is zero
    have hr : ((n : Nat) : Int) - qhat * (v : Nat) = r := by
      rw [← hdiv]
      push_cast
      ring
    rw [hr] at heq hzero
    have htop0 := hzero (by omega) (by omega)
    rw [htop0, Int.mul_zero, Int.add_zero] at heq
    rw [htop0, if_neg (by decide), Nat.mod_eq_of_lt hqlt, low32_zero]
    exact ⟨w, by rw [List.append_assoc], hwlen.trans hwb, hwbelow, by omega⟩
  · -- one too many: the difference is negative, and the divisor makes it the remainder
    have hr : ((n : Nat) : Int) - (d + 1 : Nat) * (v : Nat) = r - v := by
      rw [← hdiv]
      push_cast
      ring
    rw [hr] at heq hneg
    have htop1 := hneg (by omega) (by omega)
    rw [htop1] at heq
    rw [htop1, if_pos (by decide), decr, if_neg (Nat.succ_ne_zero d), Nat.add_sub_cancel,
      Option.bind_some]
    obtain ⟨w', c, hadd, hwlen', hwbelow', hc, hsum⟩ :=
      @addBack_spec j (low32 (-1)) _ w lo hi hv hwbelow (by rw [hwlen, hwb, hnb]) hlo
        (by have := low32_neg_one; omega)
    rw [List.append_assoc, hadd, Option.bind_some]
    rw [hwlen, hwb, hval] at hsum
    have hwlt' := hwbelow'.lt one_lt_base
    rw [hwlen', hwlen, hwb] at hwlt'
    -- adding the divisor back carries out of the window, into the wrapped top limb
    have hsum' : Nat.ofDigits base w' + base ^ (vl.length + 2) * c =
        r + base ^ (vl.length + 2) := by
      omega
    obtain rfl : c = 1 := by
      by_contra hne
      rw [show c = 0 by omega, Nat.mul_zero] at hsum'
      omega
    rw [low32_neg_one, Nat.mod_self, Nat.mod_eq_of_lt (Nat.lt_of_succ_lt hqlt)]
    exact ⟨w', by rw [List.append_assoc], by rw [hwlen', hwlen, hwb], hwbelow', by omega⟩

/-! ### The loop over `j` -/

theorem exists_append_two {l : List Nat} {n : Nat} (hl : l.length = n + 2) :
    ∃ l' x y, l = l' ++ [x, y] ∧ l'.length = n := by
  have hdrop : (l.drop n).length = 2 := by
    rw [List.length_drop, hl]
    omega
  obtain ⟨x, y, hxy⟩ := List.length_eq_two.mp hdrop
  exact ⟨l.take n, x, y, by rw [← hxy, List.take_append_drop], by rw [List.length_take, hl]; omega⟩

/-- **The loop over `j`**: the limbs below the remainder `w` become quotient digits. -/
theorem divLoop_spec {v1 v0 m : Nat} {vl lo w hi q : List Nat}
    (hv : Below base (vl ++ [v0, v1])) (hnorm : 2 ^ 31 ≤ v1) (hlo : Below base lo)
    (hm : lo.length = m) (hw : Below base w) (hlen : w.length = vl.length + 2)
    (hlt : Nat.ofDigits base w < Nat.ofDigits base (vl ++ [v0, v1])) :
    ∃ w' ds, divLoop (vl ++ [v0, v1]) m (lo ++ (w ++ hi)) q =
        some (w' ++ (List.replicate m 0 ++ hi), ds ++ q) ∧ w'.length = vl.length + 2 ∧
      Below base w' ∧ Nat.ofDigits base w' < Nat.ofDigits base (vl ++ [v0, v1]) ∧
      ds.length = m ∧ Below base ds ∧
      Nat.ofDigits base ds * Nat.ofDigits base (vl ++ [v0, v1]) + Nat.ofDigits base w' =
        Nat.ofDigits base lo + base ^ m * Nat.ofDigits base w := by
  induction m generalizing lo w hi q with
  | zero =>
    obtain rfl : lo = [] := List.length_eq_zero_iff.mp hm
    exact ⟨w, [], rfl, hlen, hw, hlt, rfl, fun x hx => absurd hx List.not_mem_nil, by simp⟩
  | succ j ih =>
    rcases List.eq_nil_or_concat lo with rfl | ⟨lo, x, rfl⟩
    · cases hm
    rw [List.concat_eq_append] at *
    have hj : lo.length = j := by simpa using hm
    have hx : x < base := hlo x (by simp)
    -- the window: the next limb below the remainder
    obtain ⟨w₁, u1, u2, rfl, hw₁⟩ := exists_append_two hlen
    obtain ⟨wl, u0, hwl⟩ : ∃ wl u0, x :: w₁ = wl ++ [u0] := by
      rcases List.eq_nil_or_concat (x :: w₁) with hnil | ⟨wl, u0, hcat⟩
      · cases hnil
      · exact ⟨wl, u0, by rw [hcat, List.concat_eq_append]⟩
    have hwin : x :: (w₁ ++ [u1, u2]) = wl ++ [u0, u1] ++ [u2] := by
      rw [← List.cons_append, hwl]
      simp
    have hwinb : Below base (wl ++ [u0, u1] ++ [u2]) := hwin ▸ below_cons hx hw
    have hwlen : wl.length = vl.length := by
      have := congrArg List.length hwl
      simp only [List.length_cons, List.length_append, List.length_nil] at this
      omega
    have hval : Nat.ofDigits base (wl ++ [u0, u1] ++ [u2]) =
        x + base * Nat.ofDigits base (w₁ ++ [u1, u2]) := by
      rw [← hwin, Nat.ofDigits_cons]
    have hstep := @divStep_spec j v1 v0 u2 u1 u0 vl wl lo hi hv hnorm
      (fun y hy => hwinb y (List.mem_append_left _ hy)) (hwinb u2 (by simp)) hwlen hj
      (by
        rw [hval]
        calc x + base * Nat.ofDigits base (w₁ ++ [u1, u2])
            < base * (Nat.ofDigits base (w₁ ++ [u1, u2]) + 1) := by rw [Nat.mul_succ]; omega
          _ ≤ base * Nat.ofDigits base (vl ++ [v0, v1]) := Nat.mul_le_mul_left base hlt)
    rw [hval] at hstep
    obtain ⟨w', hrun, hlen', hbelow', hrem⟩ := hstep
    have hpos : 0 < Nat.ofDigits base (vl ++ [v0, v1]) := Nat.zero_lt_of_lt hlt
    have hdigit : (x + base * Nat.ofDigits base (w₁ ++ [u1, u2])) /
        Nat.ofDigits base (vl ++ [v0, v1]) < base := by
      rw [Nat.div_lt_iff_lt_mul hpos]
      calc x + base * Nat.ofDigits base (w₁ ++ [u1, u2])
          < base * (Nat.ofDigits base (w₁ ++ [u1, u2]) + 1) := by rw [Nat.mul_succ]; omega
        _ ≤ base * Nat.ofDigits base (vl ++ [v0, v1]) := Nat.mul_le_mul_left base hlt
    have hdm := Nat.div_add_mod (x + base * Nat.ofDigits base (w₁ ++ [u1, u2]))
      (Nat.ofDigits base (vl ++ [v0, v1]))
    obtain ⟨wr, ds, hloop, hlenr, hbelowr, hltr, hdlen, hdb, heq⟩ :=
      @ih lo w' (0 :: hi) ((x + base * Nat.ofDigits base (w₁ ++ [u1, u2])) /
          Nat.ofDigits base (vl ++ [v0, v1]) :: q)
        (fun y hy => hlo y (List.mem_append_left _ hy)) hj hbelow' hlen'
        (by rw [hrem]; exact Nat.mod_lt _ hpos)
    refine ⟨wr, ds ++ [(x + base * Nat.ofDigits base (w₁ ++ [u1, u2])) /
      Nat.ofDigits base (vl ++ [v0, v1])], ?_, hlenr, hbelowr, hltr, by simp [hdlen], ?_, ?_⟩
    · have hun : lo ++ [x] ++ (w₁ ++ [u1, u2] ++ hi) = lo ++ (wl ++ [u0, u1] ++ u2 :: hi) := by
        rw [List.append_assoc, List.singleton_append, ← List.cons_append, hwin]
        simp
      rw [hun, divLoop, hrun]
      simp only [Option.bind_eq_bind]
      rw [Option.bind_some, hloop, List.replicate_succ', List.append_assoc, List.append_assoc,
        List.singleton_append, List.singleton_append]
    · intro y hy
      rcases List.mem_append.mp hy with hy | hy
      · exact hdb y hy
      · rw [List.mem_singleton.mp hy]
        exact hdigit
    · rw [ofDigits_concat, ofDigits_concat, hdlen, hj, pow_succ]
      rw [hrem] at heq
      calc (Nat.ofDigits base ds + base ^ j * ((x + base * Nat.ofDigits base (w₁ ++ [u1, u2])) /
              Nat.ofDigits base (vl ++ [v0, v1]))) * Nat.ofDigits base (vl ++ [v0, v1]) +
            Nat.ofDigits base wr
          = (Nat.ofDigits base ds * Nat.ofDigits base (vl ++ [v0, v1]) + Nat.ofDigits base wr) +
              base ^ j * (Nat.ofDigits base (vl ++ [v0, v1]) *
                ((x + base * Nat.ofDigits base (w₁ ++ [u1, u2])) /
                  Nat.ofDigits base (vl ++ [v0, v1]))) := by ring
        _ = Nat.ofDigits base lo + base ^ j * (Nat.ofDigits base (vl ++ [v0, v1]) *
                ((x + base * Nat.ofDigits base (w₁ ++ [u1, u2])) /
                  Nat.ofDigits base (vl ++ [v0, v1])) +
              (x + base * Nat.ofDigits base (w₁ ++ [u1, u2])) %
                Nat.ofDigits base (vl ++ [v0, v1])) := by rw [heq]; ring
        _ = Nat.ofDigits base lo + base ^ j * x +
              base ^ j * base * Nat.ofDigits base (w₁ ++ [u1, u2]) := by rw [hdm]; ring

/-! ### Algorithm D -/

/-- Normalization of the divisor: no limb is lost, and the top limb has its high bit. -/
theorem normalized {v : List Nat} {sh : Nat} {vl : List Nat} {vtop : Nat} (hv : Below base v)
    (hsplit : v = vl ++ [vtop]) (hsh : sh < 32) (hlo : 2 ^ 31 ≤ vtop * 2 ^ sh)
    (hhi : vtop * 2 ^ sh < base) :
    2 ^ 31 * base ^ vl.length ≤ Nat.ofDigits base v * 2 ^ sh ∧
      Nat.ofDigits base v * 2 ^ sh < base ^ v.length := by
  subst hsplit
  have hvl : Nat.ofDigits base vl < base ^ vl.length :=
    Below.lt one_lt_base fun x hx => hv x (List.mem_append_left _ hx)
  rw [ofDigits_concat, List.length_append, List.length_singleton, pow_succ]
  constructor
  · calc 2 ^ 31 * base ^ vl.length ≤ vtop * 2 ^ sh * base ^ vl.length := Nat.mul_le_mul_right _ hlo
      _ = base ^ vl.length * vtop * 2 ^ sh := by ring
      _ ≤ (Nat.ofDigits base vl + base ^ vl.length * vtop) * 2 ^ sh :=
          Nat.mul_le_mul_right _ (Nat.le_add_left _ _)
  · -- the top limb has room for the shift, so the next multiple has too
    have hroom : (vtop + 1) * 2 ^ sh ≤ base := by
      rw [base_eq_mul hsh, Nat.mul_comm (2 ^ sh)] at hhi ⊢
      exact Nat.mul_le_mul_right _ (Nat.lt_of_mul_lt_mul_right hhi)
    calc (Nat.ofDigits base vl + base ^ vl.length * vtop) * 2 ^ sh
        < (base ^ vl.length + base ^ vl.length * vtop) * 2 ^ sh :=
          Nat.mul_lt_mul_of_pos_right (Nat.add_lt_add_right hvl _) (Nat.two_pow_pos sh)
      _ = base ^ vl.length * ((vtop + 1) * 2 ^ sh) := by ring
      _ ≤ base ^ vl.length * base := Nat.mul_le_mul_left _ hroom

/-- **`jbig_mag_divmod`** returns the exact quotient and remainder, and no read, write or
intermediate on the way fails. -/
theorem magDivmod_spec {u v : List Nat} {cap : Nat} (hu : Below base u) (hv : Below base v)
    (hlead : NoLead v) (h2 : 2 ≤ v.length) (hvu : v.length ≤ u.length) (hmax : u.length ≤ maxLimbs)
    (hcap : u.length ≤ cap) :
    ∃ q r, magDivmod cap u v = some (q, r) ∧ q.length = u.length - v.length + 1 ∧
      r.length = v.length ∧ Below base q ∧ Below base r ∧
      Nat.ofDigits base u = Nat.ofDigits base q * Nat.ofDigits base v + Nat.ofDigits base r ∧
      Nat.ofDigits base r < Nat.ofDigits base v := by
  rcases List.eq_nil_or_concat v with hnil | ⟨vl, vtop, hsplit⟩
  · rw [hnil] at h2
    simp at h2
  rw [List.concat_eq_append] at hsplit
  have hvl : v.length = vl.length + 1 := by rw [hsplit]; simp
  have htop : v[v.length - 1]? = some vtop := by rw [hsplit]; simp
  have hne : vtop ≠ 0 := hlead vtop (by rw [hsplit]; simp)
  obtain ⟨hsh, hnlo, hnhi⟩ := clz32_spec (Nat.pos_of_ne_zero hne) (hv vtop (by rw [hsplit]; simp))
  generalize hs : clz32 vtop = sh at *
  obtain ⟨hVlo, hVhi⟩ := normalized hv hsplit hsh hnlo hnhi
  have hsb : 2 ^ sh ≤ base := by
    rw [base]
    exact Nat.pow_le_pow_right (by decide) hsh.le
  -- D1
  obtain ⟨vn, hvn, hvnlen, hvnb, hvnval⟩ := @fill_spec maxLimbs v.length (shlLimb v sh)
    (Nat.ofDigits base v * 2 ^ sh) (hvu.trans hmax) fun i hi => shlLimb_spec hv hsh hi.le
  obtain ⟨un, hun, hunlen, hunb, hunval⟩ := @fill_spec (maxLimbs + 1) (u.length + 1) (shlLimb u sh)
    (Nat.ofDigits base u * 2 ^ sh) (Nat.succ_le_succ hmax)
    fun i hi => shlLimb_spec hu hsh (Nat.le_of_lt_succ hi)
  have hUhi : Nat.ofDigits base u * 2 ^ sh < base ^ u.length * 2 ^ sh :=
    Nat.mul_lt_mul_of_pos_right (hu.lt one_lt_base) (Nat.two_pow_pos sh)
  rw [Nat.mod_eq_of_lt hVhi] at hvnval
  rw [pow_succ, Nat.mod_eq_of_lt (hUhi.trans_le (Nat.mul_le_mul_left _ hsb))] at hunval
  obtain ⟨vnl, v0, v1, rfl, hvnl⟩ := exists_append_two (n := v.length - 2) (l := vn) (by omega)
  have hnorm : 2 ^ 31 ≤ v1 := by
    by_contra hlt
    have hsmall : Nat.ofDigits base (vnl ++ [v0, v1]) < (v1 + 1) * base ^ vl.length := by
      have hv0 : v0 < base := hvnb v0 (by simp)
      have hlow : Nat.ofDigits base vnl < base ^ vnl.length :=
        Below.lt one_lt_base fun x hx => hvnb x (List.mem_append_left _ hx)
      have hpow : base ^ vl.length = base ^ vnl.length * base := by
        rw [← pow_succ]
        congr 1
        omega
      rw [ofDigits_top_two, hpow]
      calc Nat.ofDigits base vnl + base ^ vnl.length * (v1 * base + v0)
          < base ^ vnl.length + base ^ vnl.length * (v1 * base + v0) := Nat.add_lt_add_right hlow _
        _ = base ^ vnl.length * (v1 * base + (v0 + 1)) := by ring
        _ ≤ base ^ vnl.length * (v1 * base + base) := Nat.mul_le_mul_left _ (by omega)
        _ = (v1 + 1) * (base ^ vnl.length * base) := by ring
    have hle : (v1 + 1) * base ^ vl.length ≤ 2 ^ 31 * base ^ vl.length :=
      Nat.mul_le_mul_right _ (by omega)
    omega
  -- the top limbs of the dividend are a remainder to start with
  have hm : (un.take (u.length - v.length + 1)).length = u.length - v.length + 1 := by
    rw [List.length_take]
    omega
  have hdroplen : (un.drop (u.length - v.length + 1)).length = vnl.length + 2 := by
    rw [List.length_drop]
    omega
  have hunsplit : Nat.ofDigits base un =
      Nat.ofDigits base (un.take (u.length - v.length + 1)) +
        base ^ (u.length - v.length + 1) * Nat.ofDigits base (un.drop (u.length - v.length + 1)) := by
    conv_lhs => rw [← List.take_append_drop (u.length - v.length + 1) un]
    rw [Nat.ofDigits_append, hm]
  have hstart : Nat.ofDigits base (un.drop (u.length - v.length + 1)) <
      Nat.ofDigits base (vnl ++ [v0, v1]) := by
    refine Nat.lt_of_mul_lt_mul_left (a := base ^ (u.length - v.length + 1)) ?_
    have hVpos : base ^ vl.length ≤ Nat.ofDigits base v := by
      rw [hsplit, ofDigits_concat]
      calc base ^ vl.length ≤ base ^ vl.length * vtop := Nat.le_mul_of_pos_right _ (by omega)
        _ ≤ _ := Nat.le_add_left _ _
    calc base ^ (u.length - v.length + 1) * Nat.ofDigits base (un.drop (u.length - v.length + 1))
        ≤ Nat.ofDigits base u * 2 ^ sh := by omega
      _ < base ^ u.length * 2 ^ sh := hUhi
      _ = base ^ (u.length - v.length + 1) * (base ^ vl.length * 2 ^ sh) := by
          rw [← Nat.mul_assoc, ← pow_add]
          congr 2
          omega
      _ ≤ base ^ (u.length - v.length + 1) * Nat.ofDigits base (vnl ++ [v0, v1]) := by
          rw [hvnval]
          exact Nat.mul_le_mul_left _ (Nat.mul_le_mul_right _ hVpos)
  obtain ⟨w, q, hloop, hwlen, hwb, hwlt, hqlen, hqb, heq⟩ :=
    @divLoop_spec v1 v0 _ vnl _ (un.drop (u.length - v.length + 1)) [] [] hvnb hnorm
      (fun x hx => hunb x (List.mem_of_mem_take hx)) hm
      (fun x hx => hunb x (List.mem_of_mem_drop hx)) hdroplen hstart
  rw [List.append_nil, List.append_nil, List.append_nil, List.take_append_drop] at hloop
  rw [← hunsplit, hunval, hvnval] at heq
  -- what the loop leaves is the remainder, shifted
  have hQ : Nat.ofDigits base q * Nat.ofDigits base v ≤ Nat.ofDigits base u := by
    refine Nat.le_of_mul_le_mul_right (c := 2 ^ sh) ?_ (Nat.two_pow_pos sh)
    rw [Nat.mul_assoc]
    omega
  have hR : Nat.ofDigits base w / 2 ^ sh =
      Nat.ofDigits base u - Nat.ofDigits base q * Nat.ofDigits base v := by
    refine Nat.div_eq_of_eq_mul_left (Nat.two_pow_pos sh) ?_
    rw [Nat.sub_mul, Nat.mul_assoc]
    omega
  have hRlt : Nat.ofDigits base w / 2 ^ sh < Nat.ofDigits base v := by
    rw [Nat.div_lt_iff_lt_mul (Nat.two_pow_pos sh), ← hvnval]
    exact hwlt
  have hfinal : Below base (w ++ List.replicate (u.length - v.length + 1) 0) := by
    intro x hx
    rcases List.mem_append.mp hx with hx | hx
    · exact hwb x hx
    · rw [List.eq_of_mem_replicate hx]
      decide
  have hfval : Nat.ofDigits base (w ++ List.replicate (u.length - v.length + 1) 0) =
      Nat.ofDigits base w := by
    rw [Nat.ofDigits_append, Nat.ofDigits_replicate_zero, Nat.mul_zero, Nat.add_zero]
  -- D8
  obtain ⟨r, hr, hrlen, hrb, hrval⟩ := @fill_spec cap v.length
    (unshlLimb (w ++ List.replicate (u.length - v.length + 1) 0) sh)
    (Nat.ofDigits base w / 2 ^ sh) (hvu.trans hcap) fun i hi => by
      rw [unshlLimb_spec hfinal hsh (by simp; omega), hfval]
  rw [Nat.mod_eq_of_lt (hRlt.trans (hv.lt one_lt_base))] at hrval
  refine ⟨q, r, ?_, hqlen, hrlen, hqb, hrb, by rw [hrval, hR]; omega, by rw [hrval]; exact hRlt⟩
  rw [magDivmod]
  simp only [htop, Option.bind_eq_bind]
  rw [Option.bind_some, hs, hvn, Option.bind_some, hun, Option.bind_some, hloop, Option.bind_some, hr,
    Option.bind_some, if_pos (show q.length ≤ cap by omega)]

end Jacl.BigInt

namespace Jacl.Builtins
open JaclVal BigInt Limbs

/-- What `jacl_big_divmod` returns by its flag. -/
def divmodInt (wantRem : Bool) (x y : Int) : Int := if wantRem then x.tmod y else x.tdiv y

/-- The truncated quotient and remainder from those of the magnitudes. -/
theorem tdiv_tmod_of_natAbs {siga sigb : Int} {x y : Int} {q r : Nat}
    (hsa : siga = 1 ∨ siga = -1) (hsb : sigb = 1 ∨ sigb = -1) (hx : x = siga * (x.natAbs : Nat))
    (hy : y = sigb * (y.natAbs : Nat)) (hval : x.natAbs = q * y.natAbs + r) (hr : r < y.natAbs) :
    x.tdiv y = siga * sigb * (q : Nat) ∧ x.tmod y = siga * (r : Nat) := by
  have hq : (x.natAbs : Int).tdiv (y.natAbs : Nat) = (q : Nat) := by
    rw [← Int.ofNat_tdiv]
    congr 1
    rw [hval, Nat.mul_comm, Nat.mul_add_div (by omega), Nat.div_eq_of_lt hr, Nat.add_zero]
  have hm : (x.natAbs : Int).tmod (y.natAbs : Nat) = (r : Nat) := by
    rw [← Int.ofNat_tmod]
    congr 1
    rw [hval, Nat.mul_comm, Nat.mul_add_mod, Nat.mod_eq_of_lt hr]
  generalize x.natAbs = m at *
  generalize y.natAbs = n at *
  subst hx hy
  rcases hsa with rfl | rfl <;> rcases hsb with rfl | rfl <;>
    simp [Int.neg_tdiv, Int.tdiv_neg, Int.neg_tmod, Int.tmod_neg, hq, hm]

theorem Returns.isInt {h : Heap} {n : Int} {r : Heap × JaclVal} (hr : Returns h n r)
    (hn : n.natAbs < bound) : Canonical r.1 r.2 n := by
  have := hr.2.2
  rwa [if_pos hn] at this

/-- **`jacl_big_divmod`** by a divisor that is not zero. -/
theorem bigDivmod_spec {h : Heap} {a b : JaclVal} {x y : Int} (hok : h.Ok) (ha : IsInt h a x)
    (hb : IsInt h b y) (hy : y ≠ 0) (wantRem : Bool) :
    ∃ r, bigDivmod h a b wantRem = some r ∧ Returns h (divmodInt wantRem x y) r := by
  obtain ⟨siga, la, hra, ha'⟩ := read_isInt ha
  obtain ⟨sigb, lb, hrb, hb'⟩ := read_isInt hb
  have hla := ha'.length_le
  have hlb := hb'.length_le
  have hx : x = siga * (x.natAbs : Nat) := by rw [ha'.natAbs, ← ha'.value]
  have hyv : y = sigb * (y.natAbs : Nat) := by rw [hb'.natAbs, ← hb'.value]
  have hsign : siga * sigb = 1 ∨ siga * sigb = -1 := by
    rcases ha'.sign_eq with h1 | h1 <;> rcases hb'.sign_eq with h2 | h2 <;> simp [h1, h2]
  have hlead : lb ≠ [] ∧ NoLead lb := by
    rcases hb'.lead with ⟨-, rfl⟩ | hl
    · exact absurd hb'.value (by simpa using hy)
    · exact hl
  have hne0 : lb ≠ [0] := by
    rintro rfl
    exact hy (by rw [hb'.value]; simp)
  -- any quotient and remainder of the magnitudes give the result
  have hfin : ∀ {q r : List Nat}, Below base q → Below base r →
      Nat.ofDigits base la = Nat.ofDigits base q * Nat.ofDigits base lb + Nat.ofDigits base r →
      Nat.ofDigits base r < Nat.ofDigits base lb →
      Returns h (divmodInt wantRem x y)
        (if wantRem then canon h siga r else canon h (siga * sigb) q) := by
    intro q r hq hr hval hlt
    rw [← ha'.natAbs, ← hb'.natAbs] at hval
    rw [← hb'.natAbs] at hlt
    obtain ⟨hdiv, hmod⟩ := tdiv_tmod_of_natAbs ha'.sign_eq hb'.sign_eq hx hyv hval hlt
    cases wantRem with
    | false =>
      rw [divmodInt, if_neg (by decide), if_neg (by decide), hdiv]
      exact returns_canon hok hsign hq
    | true =>
      rw [divmodInt, if_pos rfl, if_pos rfl, hmod]
      exact returns_canon hok ha'.sign_eq hr
  simp only [bigDivmod, hra, hrb, Option.bind_eq_bind]
  rw [Option.bind_some, Option.bind_some]
  simp only []
  rw [if_neg hne0, if_neg (by omega)]
  by_cases hlen : la.length < lb.length
  · rw [if_pos hlen]
    -- a shorter dividend is the smaller number
    have hlt := hlead.2.lt_of_length_lt one_lt_base ha'.below hlen
    have hret := hfin (q := []) (fun x hx => absurd hx List.not_mem_nil) ha'.below (by simp) hlt
    refine ⟨_, rfl, ?_⟩
    cases wantRem with
    | true => exact hret
    | false => exact hret
  · rw [if_neg hlen]
    by_cases h1 : lb.length = 1
    · rw [if_pos h1]
      obtain ⟨d, rfl⟩ := List.length_eq_one_iff.mp h1
      have hd0 : 0 < d := Nat.pos_of_ne_zero fun h0 => hne0 (by rw [h0])
      obtain ⟨hval, hrem, hq, -⟩ :=
        divmodSmall_spec ha'.below hd0 (hb'.below d List.mem_cons_self)
      refine ⟨_, rfl, hfin hq (below_cons (hrem.trans (hb'.below d List.mem_cons_self))
        fun x hx => absurd hx List.not_mem_nil) ?_ ?_⟩
      · rw [Nat.ofDigits_singleton, Nat.ofDigits_singleton]
        exact hval
      · rw [Nat.ofDigits_singleton, Nat.ofDigits_singleton]
        exact hrem
    · rw [if_neg h1]
      have h2 : 2 ≤ lb.length := by
        have := List.length_pos_iff.mpr hlead.1
        omega
      obtain ⟨q, r, hrun, -, -, hq, hr, hval, hlt⟩ :=
        magDivmod_spec ha'.below hb'.below hlead.2 h2 (by omega) hla hla
      exact ⟨_, by rw [hrun, Option.bind_some], hfin hq hr hval hlt⟩

theorem bigDivmod_zero {h : Heap} {a b : JaclVal} {x : Int} (ha : IsInt h a x)
    (hb : IsInt h b 0) (wantRem : Bool) :
    bigDivmod h a b wantRem = some (h, (i32 0).setError) := by
  obtain ⟨siga, la, hra, -⟩ := read_isInt ha
  obtain ⟨sigb, lb, hrb, hb'⟩ := read_isInt hb
  have hzero : lb = [0] := by
    rcases hb'.lead with ⟨-, h0⟩ | ⟨hne, hlead⟩
    · exact h0
    · have hpos := Nat.lt_of_lt_of_le (Nat.pow_pos (by decide)) (hlead.pow_le (b := base) hne)
      have habs := hb'.natAbs
      omega
  simp only [bigDivmod, hra, hrb, Option.bind_eq_bind]
  rw [Option.bind_some, Option.bind_some]
  simp only []
  rw [if_pos hzero]

/-! ### `jacl_div` and `jacl_mod` -/

/-- The three ways the operations take two integers. -/
theorem intPair_cases {h : Heap} {a b : JaclVal} {x y : Int} (ha : IsInt h a x)
    (hb : IsInt h b y) :
    bigPair a b = true ∨
    (bigPair a b = false ∧ widePair a b = true ∧ BigInt.intVal h a = some x ∧
      BigInt.intVal h b = some y ∧ FitsI64 x ∧ FitsI64 y) ∨
    (bigPair a b = false ∧ widePair a b = false ∧ a.isI32 = true ∧ b.isI32 = true ∧
      a.asI32 = x ∧ b.asI32 = y) := by
  by_cases hbig : bigPair a b = true
  · exact .inl hbig
  rw [Bool.not_eq_true] at hbig
  by_cases h32 : (a.isI32 && b.isI32) = true
  · obtain ⟨h1, h2⟩ := Bool.and_eq_true_iff.mp h32
    refine .inr (.inr ⟨hbig, ?_, h1, h2, ha.asI32 h1, hb.asI32 h2⟩)
    simp only [isI32, beq_iff_eq] at h1 h2
    simp [widePair, isIwide, h1, h2]
  · obtain ⟨hw, hba, hbb⟩ := ha.widePair hb (Bool.not_eq_true _ ▸ h32) hbig
    obtain ⟨hva, hfa⟩ := ha.intVal hba
    obtain ⟨hvb, hfb⟩ := hb.intVal hbb
    exact .inr (.inl ⟨hbig, hw, hva, hvb, hfa, hfb⟩)

/-- A quotient leaves the range of its operands in one case only. -/
theorem tdiv_range {k x y : Int} (hlo : -k ≤ x) (hhi : x ≤ k - 1) (hy : y ≠ 0)
    (hmin : ¬ (x = -k ∧ y = -1)) : -k ≤ x.tdiv y ∧ x.tdiv y ≤ k - 1 := by
  by_cases hx : x = -k
  · by_cases hy1 : y = 1
    · rw [hy1, Int.tdiv_one]
      omega
    · have h2 : 2 ≤ y.natAbs := by
        have : y ≠ -1 := fun h => hmin ⟨hx, h⟩
        omega
      have hhalf : (x.tdiv y).natAbs ≤ x.natAbs / 2 := by
        rw [Int.natAbs_tdiv]
        exact Nat.div_le_div_left h2 (by decide)
      omega
  · have hle : (x.tdiv y).natAbs ≤ x.natAbs := by
      rw [Int.natAbs_tdiv]
      exact Nat.div_le_self _ _
    omega

theorem tmod_range {k x y : Int} (hlo : -k ≤ x) (hhi : x ≤ k - 1) :
    -k ≤ x.tmod y ∧ x.tmod y ≤ k - 1 := by
  have hle : (x.tmod y).natAbs ≤ x.natAbs := by
    rw [Int.natAbs_tmod]
    exact Nat.mod_le _ _
  rcases Int.le_total 0 x with hx | hx
  · have := Int.tmod_nonneg y hx
    omega
  · have := Int.tmod_nonneg y (show 0 ≤ -x by omega)
    rw [Int.neg_tmod] at this
    omega

theorem returns_i32 {h : Heap} (hok : h.Ok) {n : Int} (hn : FitsI32 n) :
    Returns h n (h, i32 n) := by
  have hret := returns_intResult hok hn.fitsI64
  rwa [intResult, if_pos (show -2 ^ 31 ≤ n ∧ n ≤ 2 ^ 31 - 1 from hn)] at hret

theorem fitsI32_iff {n : Int} : FitsI32 n ↔ -(2 ^ 31) ≤ n ∧ n ≤ 2 ^ 31 - 1 := Iff.rfl

theorem fitsI64_iff {n : Int} : FitsI64 n ↔ -(2 ^ 63) ≤ n ∧ n ≤ 2 ^ 63 - 1 := Iff.rfl

/-- **`jacl_div`.** -/
theorem div_spec (fl : FloatOps) (fd : FloatDiv) {h : Heap} (hok : h.Ok) {a b : JaclVal} {x y : Int}
    (ha : IsInt h a x) (hb : IsInt h b y) (hy : y ≠ 0) :
    ∃ r, div fl fd h a b = some r ∧ Returns h (x.tdiv y) r := by
  have hf64 : (a.isF64 || b.isF64) = false := by rw [ha.anyint.2.2, hb.anyint.2.2]; rfl
  rw [div, ha.1, hb.1, hf64, if_neg (by decide), if_neg (by decide), if_neg (by simp)]
  obtain ⟨r, hrun, hret⟩ := bigDivmod_spec hok ha hb hy false
  rcases intPair_cases ha hb with hbig | ⟨hbig, hwide, hva, hvb, hfa, hfb⟩ |
    ⟨hbig, hwide, h1, h2, hxa, hyb⟩
  · rw [if_pos hbig, hrun, Option.bind_eq_bind, Option.bind_some]
    exact ⟨_, rfl, hret.withFlags a b⟩
  · rw [hbig, if_neg (by decide), if_pos hwide, hva, hvb]
    simp only [Option.bind_eq_bind]
    rw [Option.bind_some, Option.bind_some, if_neg hy]
    by_cases hmin : x = -2 ^ 63 ∧ y = -1
    · rw [if_pos hmin, hrun, Option.bind_some]
      exact ⟨_, rfl, hret.withFlags a b⟩
    · rw [if_neg hmin]
      refine ⟨_, rfl, (returns_intResult hok ?_).withFlags a b⟩
      exact tdiv_range hfa.1 hfa.2 hy hmin
  · rw [hbig, hwide, h1, h2, hxa, hyb, if_neg (by decide), if_neg (by decide), if_neg (by simp),
      if_neg (by decide), if_neg hy]
    have hfx : FitsI32 x := hxa ▸ fitsI32_asI32 a
    by_cases hmin : x = -2 ^ 31 ∧ y = -1
    · rw [if_pos hmin]
      refine ⟨_, rfl, Returns.withFlags ?_ a b⟩
      rw [hmin.1, hmin.2]
      exact returns_intResult hok (by decide)
    · rw [if_neg hmin]
      exact ⟨_, rfl, (returns_i32 hok (tdiv_range hfx.1 hfx.2 hy hmin)).withFlags a b⟩

/-- **`jacl_mod`.** -/
theorem mod_spec {h : Heap} (hok : h.Ok) {a b : JaclVal} {x y : Int} (ha : IsInt h a x)
    (hb : IsInt h b y) (hy : y ≠ 0) : ∃ r, mod h a b = some r ∧ Returns h (x.tmod y) r := by
  rw [mod, ha.1, hb.1, if_neg (by decide), if_neg (by decide)]
  rcases intPair_cases ha hb with hbig | ⟨hbig, hwide, hva, hvb, hfa, hfb⟩ |
    ⟨hbig, hwide, h1, h2, hxa, hyb⟩
  · obtain ⟨r, hrun, hret⟩ := bigDivmod_spec hok ha hb hy true
    rw [if_pos hbig, hrun, Option.bind_eq_bind, Option.bind_some]
    exact ⟨_, rfl, hret.withFlags a b⟩
  · rw [hbig, if_neg (by decide), if_pos hwide, hva, hvb]
    simp only [Option.bind_eq_bind]
    rw [Option.bind_some, Option.bind_some, if_neg hy]
    by_cases hmin : x = -2 ^ 63 ∧ y = -1
    · rw [if_pos hmin, hmin.1, hmin.2]
      exact ⟨_, rfl, (returns_i32_zero hok).withFlags a b⟩
    · rw [if_neg hmin]
      exact ⟨_, rfl, (returns_intResult hok (tmod_range hfa.1 hfa.2)).withFlags a b⟩
  · rw [hbig, hwide, h1, h2, hxa, hyb, if_neg (by decide), if_neg (by decide), if_neg (by decide),
      if_neg hy]
    have hfx : FitsI32 x := hxa ▸ fitsI32_asI32 a
    have hval : (if x = -2 ^ 31 ∧ y = -1 then 0 else x.tmod y) = x.tmod y := by
      by_cases hmin : x = -2 ^ 31 ∧ y = -1
      · rw [if_pos hmin, hmin.2, Int.tmod_neg, Int.tmod_one]
      · rw [if_neg hmin]
    rw [hval]
    exact ⟨_, rfl, (returns_i32 hok (tmod_range hfx.1 hfx.2)).withFlags a b⟩

/-- A divisor that is zero is a domain error of both operations. -/
theorem div_mod_zero (fl : FloatOps) (fd : FloatDiv) {h : Heap} {a b : JaclVal} {x : Int}
    (ha : IsInt h a x) (hb : IsInt h b 0) :
    div fl fd h a b = some (withFlags (h, (i32 0).setError) a b) ∧
      mod h a b = some (withFlags (h, (i32 0).setError) a b) := by
  have hf64 : (a.isF64 || b.isF64) = false := by rw [ha.anyint.2.2, hb.anyint.2.2]; rfl
  rw [div, mod, ha.1, hb.1, hf64, if_neg (by decide), if_neg (by decide), if_neg (by simp)]
  rcases intPair_cases ha hb with hbig | ⟨hbig, hwide, hva, hvb, -, -⟩ |
    ⟨hbig, hwide, h1, h2, hxa, hyb⟩
  · rw [if_pos hbig, if_pos hbig, bigDivmod_zero ha hb, bigDivmod_zero ha hb]
    exact ⟨rfl, rfl⟩
  · rw [hbig, hwide, hva, hvb]
    exact ⟨rfl, rfl⟩
  · rw [hbig, hwide, h1, h2, hyb]
    simp

/-- **Division across the tower.**  For a divisor that is not zero, `jacl_div` and
`jacl_mod` return the canonical quotient and remainder of truncating division; for zero
both return an error; and algorithm D is exact on every dividend and normalised divisor
of its sizes, with every intermediate within 64 bits and every index in its array. -/
theorem division_exact (fl : FloatOps) (fd : FloatDiv) :
    (∀ {h : Heap} {a b : JaclVal} {x y : Int}, h.Ok → IsInt h a x → IsInt h b y →
      (y ≠ 0 → ∃ rq rr q r, div fl fd h a b = some rq ∧ mod h a b = some rr ∧
        h.Le rq.1 ∧ rq.1.Ok ∧ h.Le rr.1 ∧ rr.1.Ok ∧
        Canonical rq.1 rq.2 q ∧ Canonical rr.1 rr.2 r ∧
        x = q * y + r ∧ r.natAbs < y.natAbs ∧ (r = 0 ∨ r.sign = x.sign)) ∧
      (y = 0 → ∃ rq rr, div fl fd h a b = some rq ∧ mod h a b = some rr ∧
        rq.2.error = true ∧ rr.2.error = true)) ∧
    (∀ {u v : List Nat}, Below base u → Below base v → NoLead v → 2 ≤ v.length →
      v.length ≤ u.length → u.length ≤ maxLimbs →
      ∃ q r, magDivmod maxLimbs u v = some (q, r) ∧ q.length = u.length - v.length + 1 ∧
        r.length = v.length ∧
        Nat.ofDigits base u = Nat.ofDigits base q * Nat.ofDigits base v + Nat.ofDigits base r ∧
        Nat.ofDigits base r < Nat.ofDigits base v) := by
  refine ⟨fun {h a b x y} hok ha hb => ⟨fun hy => ?_, fun hy => ?_⟩, fun {u v} hu hv hl h2 hvu hm => ?_⟩
  · obtain ⟨rq, hq, hqle, hqok, hqret⟩ := div_spec fl fd hok ha hb hy
    obtain ⟨rr, hr, hrle, hrok, hrret⟩ := mod_spec hok ha hb hy
    -- neither result is larger than the dividend
    have hx : x.natAbs < bound := by
      obtain ⟨sign, limb, -, hreads⟩ := read_isInt ha
      rw [hreads.natAbs]
      exact (hreads.below.lt one_lt_base).trans_le
        (Nat.pow_le_pow_right (by decide) hreads.length_le)
    have hqb : (x.tdiv y).natAbs < bound := by
      rw [Int.natAbs_tdiv]
      exact (Nat.div_le_self _ _).trans_lt hx
    have hrb : (x.tmod y).natAbs < bound := by
      rw [Int.natAbs_tmod]
      exact (Nat.mod_le _ _).trans_lt hx
    rw [if_pos hqb] at hqret
    rw [if_pos hrb] at hrret
    refine ⟨rq, rr, x.tdiv y, x.tmod y, hq, hr, hqle, hqok, hrle, hrok, hqret, hrret, ?_, ?_, ?_⟩
    · rw [Int.mul_comm]
      exact (Int.mul_tdiv_add_tmod x y).symm
    · rw [Int.natAbs_tmod]
      exact Nat.mod_lt _ (Int.natAbs_pos.mpr hy)
    · by_cases h0 : x.tmod y = 0
      · exact .inl h0
      · refine .inr ?_
        rcases Int.lt_trichotomy x 0 with hneg | rfl | hpos
        · have := Int.tmod_nonneg y (show 0 ≤ -x by omega)
          rw [Int.neg_tmod] at this
          rw [Int.sign_eq_neg_one_of_neg hneg, Int.sign_eq_neg_one_of_neg (by omega)]
        · exact absurd (Int.zero_tmod y) h0
        · have := Int.tmod_nonneg y hpos.le
          rw [Int.sign_eq_one_of_pos hpos, Int.sign_eq_one_of_pos (by omega)]
  · subst hy
    obtain ⟨hq, hr⟩ := div_mod_zero fl fd ha hb
    exact ⟨_, _, hq, hr, rfl, rfl⟩
  · obtain ⟨q, r, hrun, hql, hrl, -, -, hval, hlt⟩ := magDivmod_spec hu hv hl h2 hvu hm hm
    exact ⟨q, r, hrun, hql, hrl, hval, hlt⟩

theorem division_exact_boxed_big (fl : FloatOps) (fd : FloatDiv) :
    (∃ rq rr q r, div fl fd twoInts (plain 0x09 32) (plain 0x0E 16) = some rq ∧
      mod twoInts (plain 0x09 32) (plain 0x0E 16) = some rr ∧ twoInts.Le rq.1 ∧ rq.1.Ok ∧
      twoInts.Le rr.1 ∧ rr.1.Ok ∧ Canonical rq.1 rq.2 q ∧ Canonical rr.1 rr.2 r ∧
      -2 ^ 64 = q * 2 ^ 62 + r ∧ r.natAbs < (2 ^ 62 : Int).natAbs ∧
      (r = 0 ∨ r.sign = (-2 ^ 64 : Int).sign)) ∧
    ∃ q r, magDivmod maxLimbs [5, 6, 7] [8, 9] = some (q, r) ∧ q.length = 2 ∧ r.length = 2 ∧
      Nat.ofDigits base [5, 6, 7] = Nat.ofDigits base q * Nat.ofDigits base [8, 9] +
        Nat.ofDigits base r ∧ Nat.ofDigits base r < Nat.ofDigits base [8, 9] := by
  obtain ⟨htower, hlimbs⟩ := division_exact fl fd
  refine ⟨(htower twoInts_ok twoInts_big twoInts_wide).1 (by decide), ?_⟩
  refine hlimbs ?_ ?_ ?_ (by decide) (by decide) (by decide)
  · rw [Below]
    decide
  · rw [Below]
    decide
  · intro x hx
    cases hx
    decide

end Jacl.Builtins
