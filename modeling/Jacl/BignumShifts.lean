import Jacl.BignumExact

/-!
# Bit lengths and shifts

The leading zero count halves its step: after the step of `k` the number has a bit
among the `k` top ones (`clzStep_spec`).  A shift by a multiple of 64 moves limbs; what
is left of it, less than 64, passes bits between neighbouring limbs, upwards as a carry
(`shlLoop_spec`) and downwards from the next limb (`shrLoop_spec`).
-/

namespace Jacl.Bignum
open Limbs

variable {x y z : BigInt} {m n s bits : Nat} {l : List Nat}

/-! ### The bit length -/

/-- A state of the count: the bits that were counted are zero, and `tmp` has a bit
among its `k` top ones. -/
def Counted (top k : Nat) (st : Nat × Nat) : Prop :=
  st.2 = top * 2 ^ st.1 ∧ st.2 < 2 ^ 64 ∧ 2 ^ (64 - k) ≤ st.2

theorem clzStep_spec {top k : Nat} {st : Nat × Nat} (hk : 2 * k ≤ 64) (h : Counted top (2 * k) st) :
    Counted top k (clzStep k st) := by
  obtain ⟨clz, tmp⟩ := st
  obtain ⟨hval, hlt, hge⟩ := h
  dsimp only at hval hlt hge
  have hsplit : 2 ^ (64 - k) * 2 ^ k = 2 ^ 64 := by
    rw [← Nat.pow_add, Nat.sub_add_cancel (by omega)]
  have hpos := Nat.one_le_two_pow (n := 64 - k)
  unfold clzStep Counted
  dsimp only
  split
  · rename_i hsmall
    have hbound : tmp * 2 ^ k < 2 ^ 64 := by
      rw [← hsplit]
      exact Nat.mul_lt_mul_of_pos_right (by omega) (Nat.two_pow_pos k)
    have hshift : u64 (tmp <<< k) = tmp * 2 ^ k := by
      rw [u64, Nat.shiftLeft_eq, Nat.mod_eq_of_lt hbound]
    refine ⟨?_, hshift ▸ hbound, ?_⟩
    · show u64 (tmp <<< k) = top * 2 ^ (clz + k)
      rw [hshift, hval, Nat.pow_add, Nat.mul_assoc]
    · show 2 ^ (64 - k) ≤ u64 (tmp <<< k)
      rw [hshift, show 64 - k = 64 - 2 * k + k by omega, Nat.pow_add]
      exact Nat.mul_le_mul_right _ hge
  · rename_i hbig
    exact ⟨hval, hlt, show 2 ^ (64 - k) ≤ tmp by omega⟩

/-- **The leading zero count.** -/
theorem clz_spec {top : Nat} (hpos : 0 < top) (hlt : top < 2 ^ 64) :
    clz top < 64 ∧ 2 ^ (63 - clz top) ≤ top ∧ top < 2 ^ (64 - clz top) := by
  have h0 : Counted top (2 * 32) (0, top) := ⟨(Nat.mul_one _).symm, hlt, hpos⟩
  have h1 := clzStep_spec (by decide) h0
  have h2 := clzStep_spec (k := 16) (by decide) h1
  have h3 := clzStep_spec (k := 8) (by decide) h2
  have h4 := clzStep_spec (k := 4) (by decide) h3
  have h5 := clzStep_spec (k := 2) (by decide) h4
  -- the last step counts without moving
  have hlast : 2 ^ 63 ≤ top * 2 ^ clz top ∧ top * 2 ^ clz top < 2 ^ 64 := by
    unfold clz
    dsimp only
    generalize clzStep 2 _ = st at h5
    obtain ⟨hval, hlt', hge⟩ := h5
    split
    · rename_i hsmall
      have hmove : top * 2 ^ (st.1 + 1) = st.2 * 2 := by rw [hval, Nat.pow_succ, Nat.mul_assoc]
      have hge' : 2 ^ 62 ≤ st.2 := hge
      rw [hmove]
      omega
    · rename_i hbig
      rw [← hval]
      omega
  generalize clz top = c at hlast
  have hclz : c < 64 := by
    by_contra hge
    have hpow : 2 ^ 64 ≤ 2 ^ c := Nat.pow_le_pow_right (show 0 < 2 by decide) (by omega)
    have hmul := Nat.le_mul_of_pos_left (2 ^ c) hpos
    omega
  have hp := Nat.two_pow_pos c
  refine ⟨hclz, ?_, ?_⟩
  · have h63 : 2 ^ (63 - c) * 2 ^ c = 2 ^ 63 := by
      rw [← Nat.pow_add, Nat.sub_add_cancel (by omega)]
    rw [← h63] at hlast
    exact Nat.le_of_mul_le_mul_right hlast.1 hp
  · have h64 : 2 ^ (64 - c) * 2 ^ c = 2 ^ 64 := by
      rw [← Nat.pow_add, Nat.sub_add_cancel (by omega)]
    rw [← h64] at hlast
    exact Nat.lt_of_mul_lt_mul_right hlast.2

theorem base_pow (k : Nat) : base ^ k = 2 ^ (64 * k) := by
  rw [base_eq, Nat.pow_mul]

/-- **`bigint_bit_len`** of a number below `2 ^ (2 ^ 32)`. -/
theorem bitLen_spec (hx : Canonical x) (hsize : 64 * x.len < 2 ^ 32) : bitLen x = (mag x).size := by
  unfold bitLen
  by_cases h0 : isZero x
  · rw [if_pos h0, hx.isZero_iff.mp h0, Nat.size_zero]
  · rw [if_neg h0]
    dsimp only
    have hm : mag x ≠ 0 := fun h => h0 (hx.isZero_iff.mpr h)
    have hlead := hx.lead.resolve_left fun h => h0 (decide_eq_true h)
    rcases List.eq_nil_or_concat x.limbs with hnil | ⟨init, top, hlimbs⟩
    · exact absurd hnil hx.ne
    rw [List.concat_eq_append] at hlimbs
    have htop0 : top ≠ 0 := hlead top (by rw [hlimbs]; simp)
    have htoplt : top < 2 ^ 64 := hx.below top (by rw [hlimbs]; simp)
    have hinit : Nat.ofDigits base init < base ^ init.length := by
      have hb : Below base init := fun a ha => hx.below a (by rw [hlimbs]; exact List.mem_append_left _ ha)
      exact hb.lt one_lt_base
    have hlen : x.len = init.length + 1 := by
      rw [BigInt.len, hlimbs, List.length_append, List.length_singleton]
    have hval : mag x = Nat.ofDigits base init + base ^ init.length * top := by
      rw [mag, hlimbs, ofDigits_concat]
    obtain ⟨hclz, hlow, hhigh⟩ := clz_spec (Nat.pos_of_ne_zero htop0) htoplt
    have hget : x.limbs.getLastD 0 = top := by rw [hlimbs]; simp
    rw [hget, if_neg htop0, u32_of_lt (by omega), hlen, Nat.add_sub_cancel, hval]
    rw [base_pow] at hinit ⊢
    have hk : init.length * 64 + (64 - clz top) = (64 * init.length + (63 - clz top)) + 1 := by omega
    generalize 64 * init.length = k at *
    rw [hk]
    -- the size is `k` above that of the top limb
    apply le_antisymm
    · apply Nat.lt_size.mpr
      rw [Nat.pow_add]
      calc 2 ^ k * 2 ^ (63 - clz top) ≤ 2 ^ k * top := Nat.mul_le_mul_left _ hlow
        _ ≤ Nat.ofDigits base init + 2 ^ k * top := Nat.le_add_left _ _
    · apply Nat.size_le.mpr
      rw [Nat.add_assoc, Nat.pow_add, show 63 - clz top + 1 = 64 - clz top by omega]
      have hstep : 2 ^ k * (top + 1) ≤ 2 ^ k * 2 ^ (64 - clz top) := Nat.mul_le_mul_left _ hhigh
      rw [Nat.mul_succ] at hstep
      omega

/-! ### Shifting left -/

/-- A limb that is shifted left, with the bits of the carry. -/
theorem shl_limb {val carry : Nat} (hs : 0 < s) (hs' : s < 64) (hv : val < base) (hc : carry < 2 ^ s) :
    u64 (val <<< s) ||| carry = (val * 2 ^ s) % base + carry ∧
      val >>> (64 - s) = val * 2 ^ s / base ∧ val >>> (64 - s) < 2 ^ s := by
  have hsplit : base = 2 ^ (64 - s) * 2 ^ s := by
    rw [← Nat.pow_add, Nat.sub_add_cancel (by omega)]
    rfl
  have hmod : (val * 2 ^ s) % base = 2 ^ s * (val % 2 ^ (64 - s)) := by
    rw [hsplit, Nat.mul_mod_mul_right, Nat.mul_comm]
  have hdiv : val >>> (64 - s) = val * 2 ^ s / base := by
    rw [Nat.shiftRight_eq_div_pow, hsplit, Nat.mul_div_mul_right _ _ (Nat.two_pow_pos s)]
  refine ⟨?_, hdiv, ?_⟩
  · have hu : u64 (val <<< s) = (val * 2 ^ s) % base := by
      rw [u64, Nat.shiftLeft_eq]
      rfl
    rw [hu, hmod, Nat.two_pow_add_eq_or_of_lt hc]
  · rw [Nat.shiftRight_eq_div_pow]
    apply Nat.div_lt_of_lt_mul
    rw [← hsplit]
    exact hv

theorem shlLoop_spec {carry : Nat} (hs : 0 < s) (hs' : s < 64) (hl : Below base l) (hc : carry < 2 ^ s) :
    Nat.ofDigits base (shlLoop s l carry) = 2 ^ s * Nat.ofDigits base l + carry ∧
      Below base (shlLoop s l carry) ∧ (shlLoop s l carry).length = l.length + 1 := by
  have hpow : 2 ^ s ≤ base := Nat.pow_le_pow_right (show 0 < 2 by decide) (Nat.le_of_lt hs')
  induction l generalizing carry with
  | nil =>
    refine ⟨?_, below_cons (by omega) below_nil, rfl⟩
    rw [shlLoop, Nat.ofDigits_singleton, Nat.ofDigits_nil, Nat.mul_zero, Nat.zero_add]
  | cons val l ih =>
    obtain ⟨hlimb, hnext, hlt⟩ := shl_limb hs hs' (below_head hl) hc
    obtain ⟨hval, hbelow, hlen⟩ := ih (below_of_cons hl) hlt
    rw [shlLoop, hlimb]
    have hdiv := Nat.mod_add_div (val * 2 ^ s) base
    have hroom : (val * 2 ^ s) % base + carry < base := by
      have hsplit : base = 2 ^ (64 - s) * 2 ^ s := by
        rw [← Nat.pow_add, Nat.sub_add_cancel (by omega)]
        rfl
      have hm : val % 2 ^ (64 - s) < 2 ^ (64 - s) := Nat.mod_lt _ (Nat.two_pow_pos _)
      have hle : (val % 2 ^ (64 - s) + 1) * 2 ^ s ≤ 2 ^ (64 - s) * 2 ^ s := Nat.mul_le_mul_right _ hm
      rw [hsplit, Nat.mul_mod_mul_right]
      rw [Nat.succ_mul] at hle
      omega
    refine ⟨?_, below_cons hroom hbelow, by rw [List.length_cons, hlen, List.length_cons]⟩
    rw [Nat.ofDigits_cons, hval, Nat.ofDigits_cons, hnext]
    calc val * 2 ^ s % base + carry + base * (2 ^ s * Nat.ofDigits base l + val * 2 ^ s / base)
        = (val * 2 ^ s % base + base * (val * 2 ^ s / base)) + base * (2 ^ s * Nat.ofDigits base l) +
            carry := by ring
      _ = 2 ^ s * (val + base * Nat.ofDigits base l) + carry := by rw [hdiv]; ring

theorem signed_mul (sign : Bool) (m k : Nat) : signed sign (m * k) = signed sign m * k := by
  cases sign
  · simp
  · simp

/-- **`bigint_shift_left`** multiplies by a power of two. -/
theorem shiftLeft_gives (hx : Canonical x) (hn : x.len + bits / 64 + 1 < 2 ^ 32) :
    Gives (shiftLeft x bits) (toInt x * 2 ^ bits) (x.len + bits / 64 + 1) := by
  rw [shiftLeft]
  by_cases h0 : isZero x ∨ bits = 0
  · rw [if_pos h0]
    have hval : toInt x * 2 ^ bits = toInt x := by
      rcases h0 with hz | rfl
      · rw [toInt, hx.isZero_iff.mp hz, signed_zero, Int.zero_mul]
      · simp
    rw [hval]
    exact (clone_gives hx).mono (by omega)
  · rw [if_neg h0]
    have hmod : bits % 64 < 64 := Nat.mod_lt _ (by decide)
    have hpow : 2 ^ bits = base ^ (bits / 64) * 2 ^ (bits % 64) := by
      rw [base_pow, ← Nat.pow_add, Nat.div_add_mod]
    have hzeros : Below base (List.replicate (bits / 64) 0) := by
      intro a ha
      rw [List.eq_of_mem_replicate ha]
      exact Nat.two_pow_pos 64
    have happend : ∀ {l : List Nat}, Below base l → Below base (List.replicate (bits / 64) 0 ++ l) := by
      intro l hl a ha
      rcases List.mem_append.mp ha with ha | ha
      · exact hzeros a ha
      · exact hl a ha
    have hcast : toInt x * 2 ^ bits = signed x.sign (mag x * 2 ^ bits) := by
      rw [signed_mul, toInt]
      push_cast
      rfl
    rw [hcast, hpow]
    by_cases hs : bits % 64 > 0
    · obtain ⟨hval, hbelow, hlen⟩ := shlLoop_spec hs hmod hx.below (Nat.two_pow_pos (bits % 64))
      have hgive := gives_alloc x.sign (l := List.replicate (bits / 64) 0 ++ shlLoop (bits % 64) x.limbs 0)
        (n := x.len + bits / 64 + 1) (by intro h; rw [List.append_eq_nil_iff] at h; rw [h.2] at hlen; cases hlen)
        (by rw [List.length_append, List.length_replicate, hlen, BigInt.len]; omega) hn (happend hbelow)
      rw [Nat.ofDigits_append, Nat.ofDigits_replicate_zero, List.length_replicate, hval] at hgive
      simp only [if_pos hs]
      have hmul : mag x * (base ^ (bits / 64) * 2 ^ (bits % 64)) =
          0 + base ^ (bits / 64) * (2 ^ (bits % 64) * Nat.ofDigits base x.limbs + 0) := by
        rw [mag]
        ring
      rw [hmul]
      exact hgive
    · have hs0 : bits % 64 = 0 := by omega
      have hgive := gives_alloc x.sign (l := List.replicate (bits / 64) 0 ++ x.limbs)
        (n := x.len + bits / 64) (by intro h; rw [List.append_eq_nil_iff] at h; exact hx.ne h.2)
        (by rw [List.length_append, List.length_replicate, BigInt.len]; omega) (by omega) (happend hx.below)
      rw [Nat.ofDigits_append, Nat.ofDigits_replicate_zero, List.length_replicate] at hgive
      simp only [if_neg hs, Nat.add_zero]
      have hmul : mag x * (base ^ (bits / 64) * 2 ^ (bits % 64)) =
          0 + base ^ (bits / 64) * Nat.ofDigits base x.limbs := by
        rw [mag, hs0]
        ring
      rw [hmul]
      exact hgive.mono (Nat.le_succ _)

/-! ### Shifting right -/

theorem shrLoop_spec (hs : 0 < s) (hs' : s < 64) (hl : Below base l) :
    Nat.ofDigits base (shrLoop s l) = Nat.ofDigits base l / 2 ^ s ∧
      Below base (shrLoop s l) ∧ (shrLoop s l).length = l.length := by
  have hp := Nat.two_pow_pos s
  induction l using shrLoop.induct with
  | case1 val next l ih =>
    obtain ⟨hval, hbelow, hlen⟩ := ih (below_of_cons hl)
    have hv := below_head hl
    have hsplit : base = 2 ^ s * 2 ^ (64 - s) := by
      rw [← Nat.pow_add, Nat.add_sub_cancel' (by omega)]
      rfl
    have hlow : val / 2 ^ s < 2 ^ (64 - s) := by
      apply Nat.div_lt_of_lt_mul
      rw [← hsplit]
      exact hv
    -- the limb takes its high bits from the next one
    have hlimb : (val >>> s ||| u64 (next <<< (64 - s))) = val / 2 ^ s + next % 2 ^ s * 2 ^ (64 - s) := by
      have hmod : u64 (next <<< (64 - s)) = 2 ^ (64 - s) * (next % 2 ^ s) := by
        rw [u64, Nat.shiftLeft_eq, ← base_eq, hsplit, Nat.mul_mod_mul_right, Nat.mul_comm]
      rw [hmod, Nat.shiftRight_eq_div_pow, Nat.or_comm, ← Nat.two_pow_add_eq_or_of_lt hlow]
      ring
    have hroom : val / 2 ^ s + next % 2 ^ s * 2 ^ (64 - s) < base := by
      have hm : next % 2 ^ s < 2 ^ s := Nat.mod_lt _ hp
      have hle : (next % 2 ^ s + 1) * 2 ^ (64 - s) ≤ 2 ^ s * 2 ^ (64 - s) := Nat.mul_le_mul_right _ hm
      rw [Nat.succ_mul, ← hsplit] at hle
      omega
    rw [shrLoop, hlimb]
    refine ⟨?_, below_cons hroom hbelow, by rw [List.length_cons, hlen]; rfl⟩
    have hcons : Nat.ofDigits base (val :: next :: l) = val + base * Nat.ofDigits base (next :: l) :=
      Nat.ofDigits_cons
    rw [Nat.ofDigits_cons, hval, hcons]
    have hrest : Nat.ofDigits base (next :: l) % 2 ^ s = next % 2 ^ s := by
      rw [Nat.ofDigits_cons, hsplit, Nat.mul_assoc, Nat.add_mul_mod_self_left]
    generalize Nat.ofDigits base (next :: l) = rest at *
    have hdiv := Nat.mod_add_div rest (2 ^ s)
    have hright : (val + base * rest) / 2 ^ s = val / 2 ^ s + 2 ^ (64 - s) * rest := by
      rw [hsplit, Nat.mul_assoc, Nat.add_mul_div_left _ _ hp]
    rw [hright, ← hrest, hsplit]
    calc val / 2 ^ s + rest % 2 ^ s * 2 ^ (64 - s) + 2 ^ s * 2 ^ (64 - s) * (rest / 2 ^ s)
        = val / 2 ^ s + 2 ^ (64 - s) * (rest % 2 ^ s + 2 ^ s * (rest / 2 ^ s)) := by ring
      _ = val / 2 ^ s + 2 ^ (64 - s) * rest := by rw [hdiv]
  | case2 val =>
    refine ⟨?_, below_cons ?_ below_nil, rfl⟩
    · rw [shrLoop, Nat.ofDigits_singleton, Nat.ofDigits_singleton, Nat.shiftRight_eq_div_pow]
    · rw [Nat.shiftRight_eq_div_pow]
      exact Nat.lt_of_le_of_lt (Nat.div_le_self _ _) (below_head hl)
  | case3 => exact ⟨by simp [shrLoop], below_nil, rfl⟩

theorem signed_tdiv (sign : Bool) (m k : Nat) : (signed sign m).tdiv k = signed sign (m / k) := by
  cases sign
  · exact (Int.ofNat_tdiv m k).symm
  · rw [signed_true, signed_true, Int.neg_tdiv, ← Int.ofNat_tdiv]

/-- **`bigint_shift_right`** divides by a power of two, toward zero. -/
theorem shiftRight_gives (bits : Nat) (hx : Canonical x) (hsize : 64 * x.len < 2 ^ 32) :
    Gives (shiftRight x bits) ((toInt x).tdiv (2 ^ bits)) x.len := by
  have hpos := hx.len_pos
  have hcast : (toInt x).tdiv (2 ^ bits) = signed x.sign (mag x / 2 ^ bits) := by
    rw [← signed_tdiv, toInt]
    push_cast
    rfl
  rw [hcast, shiftRight]
  by_cases h0 : isZero x ∨ bits = 0
  · rw [if_pos h0]
    have hval : mag x / 2 ^ bits = mag x := by
      rcases h0 with hz | rfl
      · rw [hx.isZero_iff.mp hz, Nat.zero_div]
      · simp
    rw [hval]
    exact clone_gives hx
  · rw [if_neg h0, bitLen_spec hx hsize]
    by_cases hall : bits ≥ (mag x).size
    · rw [if_pos hall, Nat.div_eq_of_lt (Nat.size_le.mp hall), signed_zero]
      exact gives_zero hpos
    · rw [if_neg hall]
      have hle : 2 ^ bits ≤ mag x := Nat.lt_size.mp (by omega)
      -- some limb is left
      have hshift : bits / 64 < x.len := by
        by_contra hge
        have hpow : base ^ x.len ≤ 2 ^ bits := by
          rw [base_pow]
          exact Nat.pow_le_pow_right (show 0 < 2 by decide) (by omega)
        have := hx.mag_lt
        omega
      have hdrop : Below base (x.limbs.drop (bits / 64)) := fun a ha => hx.below a (List.mem_of_mem_drop ha)
      have hdropval : Nat.ofDigits base (x.limbs.drop (bits / 64)) = mag x / base ^ (bits / 64) :=
        (Nat.ofDigits_div_pow_eq_ofDigits_drop (bits / 64) (by decide) x.limbs hx.below).symm
      have hdroplen : (x.limbs.drop (bits / 64)).length = x.len - bits / 64 := List.length_drop
      have hpow : 2 ^ bits = base ^ (bits / 64) * 2 ^ (bits % 64) := by
        rw [base_pow, ← Nat.pow_add, Nat.div_add_mod]
      rw [hpow, ← Nat.div_div_eq_div_mul, ← hdropval]
      by_cases hs : bits % 64 > 0
      · obtain ⟨hval, hbelow, hlen⟩ := shrLoop_spec hs (Nat.mod_lt _ (by decide)) hdrop
        simp only [if_pos hs]
        rw [← hval]
        refine (gives_alloc x.sign ?_ (hlen.trans hdroplen) (by omega) hbelow).mono (Nat.sub_le ..)
        intro hnil
        rw [hnil, hdroplen] at hlen
        simp only [List.length_nil] at hlen
        omega
      · have hs0 : bits % 64 = 0 := by omega
        simp only [if_neg hs]
        rw [hs0, Nat.pow_zero, Nat.div_one]
        refine (gives_alloc x.sign ?_ hdroplen (by omega) hdrop).mono (Nat.sub_le ..)
        intro hnil
        rw [hnil] at hdroplen
        simp only [List.length_nil] at hdroplen
        omega

end Jacl.Bignum
