import Jacl.BigInt

/-!
# The magnitude routines compute

Each loop keeps an equation between the values of what it has written, what it has
still to read and its carry or borrow.  No intermediate of the additions and products
reaches `2 ^ 64`, so none wraps.
-/

namespace Jacl.BigInt
open Limbs

theorem one_lt_base : 1 < base := by decide

theorem ofDigits_head_tail (l : List Nat) :
    Nat.ofDigits base l = l.headD 0 + base * Nat.ofDigits base l.tail := by
  cases l with
  | nil => rfl
  | cons x l => rw [Nat.ofDigits_cons]; rfl

theorem Below.headD {l : List Nat} (hl : Below base l) : l.headD 0 < base := by
  cases l with
  | nil => exact Nat.two_pow_pos 32
  | cons x l => exact hl x List.mem_cons_self

theorem Below.tail {l : List Nat} (hl : Below base l) : Below base l.tail :=
  fun x hx => hl x (List.mem_of_mem_tail hx)

theorem below_cons {x : Nat} {l : List Nat} (hx : x < base) (hl : Below base l) :
    Below base (x :: l) := by
  intro y hy
  rcases List.mem_cons.mp hy with rfl | hy
  · exact hx
  · exact hl y hy

/-! ### Comparison -/

/-- The order of two numbers as the comparisons return it. -/
def order (x y : Nat) : Int := if x < y then -1 else if y < x then 1 else 0

theorem order_of_lt {x y : Nat} (h : x < y) : order x y = -1 := if_pos h

theorem order_of_gt {x y : Nat} (h : y < x) : order x y = 1 := by
  rw [order, if_neg (by omega), if_pos h]

theorem order_self (x : Nat) : order x x = 0 := by
  rw [order, if_neg (Nat.lt_irrefl x), if_neg (Nat.lt_irrefl x)]

theorem cmpFrom_spec {as bs : List Nat} (hlen : as.length = bs.length) (ha : Below base as)
    (hb : Below base bs) :
    cmpFrom as bs = order (Nat.ofDigits base as.reverse) (Nat.ofDigits base bs.reverse) := by
  induction as generalizing bs with
  | nil =>
    obtain rfl : bs = [] := List.length_eq_zero_iff.mp hlen.symm
    rfl
  | cons a as ih =>
    cases bs with
    | nil => cases hlen
    | cons b bs =>
      have hlen' : as.reverse.length = bs.reverse.length := by
        simpa using hlen
      have har : Below base as.reverse := fun x hx => ha x (by simp_all)
      have hbr : Below base bs.reverse := fun x hx => hb x (by simp_all)
      rw [cmpFrom, List.reverse_cons, List.reverse_cons]
      by_cases hab : a = b
      · subst hab
        have ha' : Below base as := Below.tail ha
        have hb' : Below base bs := Below.tail hb
        rw [if_neg (by simp), ih (by simpa using hlen) ha' hb', ofDigits_concat, ofDigits_concat,
          hlen', order, order]
        simp only [Nat.add_lt_add_iff_right]
      · rw [if_pos hab]
        by_cases hlt : a < b
        · rw [if_pos hlt, order_of_lt (ofDigits_lt_of_top one_lt_base har hlen' hlt)]
        · rw [if_neg hlt, order_of_gt (ofDigits_lt_of_top one_lt_base hbr hlen'.symm (by omega))]

/-- **`jbig_mag_cmp`** orders the magnitudes. -/
theorem magCmp_spec {a b : List Nat} (ha : Below base a) (hb : Below base b) :
    magCmp a b = order (Nat.ofDigits base a) (Nat.ofDigits base b) := by
  rw [magCmp, ← ofDigits_trim base a, ← ofDigits_trim base b]
  by_cases hlen : (trim a).length = (trim b).length
  · rw [if_neg (by simpa using hlen),
      cmpFrom_spec (by simpa using hlen) (fun x hx => ha.trim x (by simpa using hx))
        (fun x hx => hb.trim x (by simpa using hx)),
      List.reverse_reverse, List.reverse_reverse]
  · rw [if_pos hlen]
    by_cases hlt : (trim a).length < (trim b).length
    · rw [if_pos hlt, order_of_lt ((noLead_trim b).lt_of_length_lt one_lt_base ha.trim hlt)]
    · rw [if_neg hlt,
        order_of_gt ((noLead_trim a).lt_of_length_lt one_lt_base hb.trim (by omega))]

/-! ### Addition -/

theorem magAddLoop_spec {as bs : List Nat} {carry : Nat} (hlen : bs.length ≤ as.length)
    (ha : Below base as) (hb : Below base bs) (hc : carry ≤ 1) :
    Nat.ofDigits base (magAddLoop as bs carry) =
        Nat.ofDigits base as + Nat.ofDigits base bs + carry ∧
      Below base (magAddLoop as bs carry) := by
  induction as generalizing bs carry with
  | nil =>
    obtain rfl : bs = [] := List.length_eq_zero_iff.mp (Nat.le_zero.mp hlen)
    rw [magAddLoop]
    split
    · rename_i h0
      subst h0
      exact ⟨rfl, fun x hx => absurd hx List.not_mem_nil⟩
    · have hmod : carry % base = carry := Nat.mod_eq_of_lt (by rw [base]; omega)
      rw [hmod, Nat.ofDigits_singleton]
      refine ⟨by simp, below_cons (by rw [base]; omega) fun x hx => absurd hx List.not_mem_nil⟩
  | cons a as ih =>
    have ha0 : a < base := ha a List.mem_cons_self
    have hb0 := Below.headD hb
    have hs : (a + carry + bs.headD 0) % 2 ^ 64 = a + carry + bs.headD 0 := by
      rw [base] at ha0 hb0
      exact Nat.mod_eq_of_lt (by omega)
    have hc' : (a + carry + bs.headD 0) / base ≤ 1 := by
      rw [base] at ha0 hb0 ⊢
      omega
    have hlen' : bs.tail.length ≤ as.length := by
      rw [List.length_tail]
      rw [List.length_cons] at hlen
      omega
    obtain ⟨hval, hbelow⟩ := ih hlen' (Below.tail ha) (Below.tail hb) hc'
    simp only [magAddLoop, hs]
    refine ⟨?_, below_cons (Nat.mod_lt _ (Nat.two_pow_pos 32)) hbelow⟩
    have hdiv := Nat.mod_add_div (a + carry + bs.headD 0) base
    rw [Nat.ofDigits_cons, hval, Nat.ofDigits_cons, ofDigits_head_tail bs, Nat.mul_add, Nat.mul_add]
    omega

/-- **`jbig_mag_add`.** -/
theorem magAdd_spec {a b : List Nat} (ha : Below base a) (hb : Below base b) :
    Nat.ofDigits base (magAdd a b) = Nat.ofDigits base a + Nat.ofDigits base b ∧
      Below base (magAdd a b) := by
  rw [magAdd]
  split
  · obtain ⟨hval, hbelow⟩ := magAddLoop_spec (by omega) hb ha (Nat.zero_le 1)
    exact ⟨by rw [hval]; omega, hbelow⟩
  · obtain ⟨hval, hbelow⟩ := magAddLoop_spec (by omega) ha hb (Nat.zero_le 1)
    exact ⟨by rw [hval]; omega, hbelow⟩

/-! ### Subtraction -/

theorem magSubLoop_spec {as bs : List Nat} {borrow : Nat} (hlen : bs.length ≤ as.length)
    (ha : Below base as) (hb : Below base bs) (hw : borrow ≤ 1) :
    ∃ w ≤ 1, Nat.ofDigits base (magSubLoop as bs borrow) + Nat.ofDigits base bs + borrow =
        Nat.ofDigits base as + base ^ as.length * w ∧
      Below base (magSubLoop as bs borrow) ∧ (magSubLoop as bs borrow).length = as.length := by
  induction as generalizing bs borrow with
  | nil =>
    obtain rfl : bs = [] := List.length_eq_zero_iff.mp (Nat.le_zero.mp hlen)
    exact ⟨borrow, hw, by simp [magSubLoop], fun x hx => absurd hx List.not_mem_nil, rfl⟩
  | cons a as ih =>
    have ha0 : a < base := ha a List.mem_cons_self
    have hb0 := Below.headD hb
    have hlen' : bs.tail.length ≤ as.length := by
      rw [List.length_tail]
      rw [List.length_cons] at hlen
      omega
    simp only [magSubLoop]
    split
    · rename_i hneg
      obtain ⟨w, hw1, hval, hbelow, hlen1⟩ := ih hlen' (Below.tail ha) (Below.tail hb) (Nat.le_refl 1)
      obtain ⟨d, hd⟩ : ∃ d : Nat, ((a : Int) - borrow - (bs.headD 0 : Nat) + 2 ^ 32) = d :=
        ⟨_, (Int.toNat_of_nonneg (by rw [base] at hb0; omega)).symm⟩
      have hdlt : d < base := by
        rw [base] at ha0 ⊢
        omega
      have hdval : d + bs.headD 0 + borrow = a + base := by
        rw [base]
        omega
      rw [hd, Int.toNat_natCast, Nat.mod_eq_of_lt hdlt]
      refine ⟨w, hw1, ?_, below_cons hdlt hbelow, by rw [List.length_cons, List.length_cons, hlen1]⟩
      rw [Nat.ofDigits_cons, Nat.ofDigits_cons, ofDigits_head_tail bs, List.length_cons, pow_succ]
      calc d + base * Nat.ofDigits base (magSubLoop as bs.tail 1) +
            (bs.headD 0 + base * Nat.ofDigits base bs.tail) + borrow
          = a + base * (Nat.ofDigits base (magSubLoop as bs.tail 1) +
              Nat.ofDigits base bs.tail + 1) := by rw [Nat.mul_add, Nat.mul_add]; omega
        _ = a + base * Nat.ofDigits base as + base ^ as.length * base * w := by
            rw [hval]; ring
    · rename_i hpos
      obtain ⟨w, hw1, hval, hbelow, hlen1⟩ := ih hlen' (Below.tail ha) (Below.tail hb) (Nat.zero_le 1)
      obtain ⟨d, hd⟩ : ∃ d : Nat, ((a : Int) - borrow - (bs.headD 0 : Nat)) = d :=
        ⟨_, (Int.toNat_of_nonneg (by omega)).symm⟩
      have hdlt : d < base := by
        rw [base] at ha0 ⊢
        omega
      have hdval : d + bs.headD 0 + borrow = a := by omega
      rw [hd, Int.toNat_natCast, Nat.mod_eq_of_lt hdlt]
      refine ⟨w, hw1, ?_, below_cons hdlt hbelow, by rw [List.length_cons, List.length_cons, hlen1]⟩
      rw [Nat.ofDigits_cons, Nat.ofDigits_cons, ofDigits_head_tail bs, List.length_cons, pow_succ]
      calc d + base * Nat.ofDigits base (magSubLoop as bs.tail 0) +
            (bs.headD 0 + base * Nat.ofDigits base bs.tail) + borrow
          = a + base * (Nat.ofDigits base (magSubLoop as bs.tail 0) +
              Nat.ofDigits base bs.tail + 0) := by rw [Nat.mul_add, Nat.mul_add]; omega
        _ = a + base * Nat.ofDigits base as + base ^ as.length * base * w := by
            rw [hval]; ring

/-- **`jbig_mag_sub`**, on a subtrahend that is not larger. -/
theorem magSub_spec {a b : List Nat} (ha : Below base a) (hb : Below base b)
    (hlen : b.length ≤ a.length) (hle : Nat.ofDigits base b ≤ Nat.ofDigits base a) :
    Nat.ofDigits base (magSub a b) = Nat.ofDigits base a - Nat.ofDigits base b ∧
      Below base (magSub a b) := by
  obtain ⟨w, hw, hval, hbelow, hlen'⟩ := magSubLoop_spec hlen ha hb (Nat.zero_le 1)
  have hlt := hbelow.lt one_lt_base
  rw [hlen'] at hlt
  -- a borrow out of the top limb would make the difference negative
  have hw0 : w = 0 := by
    by_contra hne
    have : base ^ a.length * w = base ^ a.length := by rw [show w = 1 from by omega, Nat.mul_one]
    omega
  subst hw0
  rw [magSub, ofDigits_trim]
  exact ⟨by omega, hbelow.trim⟩

/-! ### Multiplication -/

theorem magMulRow_spec {x : Nat} {bs out : List Nat} {carry : Nat} (hx : x < base)
    (hb : Below base bs) (ho : Below base out) (hlen : out.length ≤ bs.length)
    (hc : carry < base) :
    Nat.ofDigits base (magMulRow x bs out carry) =
        x * Nat.ofDigits base bs + Nat.ofDigits base out + carry ∧
      Below base (magMulRow x bs out carry) ∧
      (magMulRow x bs out carry).length = bs.length + 1 := by
  induction bs generalizing out carry with
  | nil =>
    obtain rfl : out = [] := List.length_eq_zero_iff.mp (Nat.le_zero.mp hlen)
    rw [magMulRow, Nat.mod_eq_of_lt hc, Nat.ofDigits_singleton]
    exact ⟨by simp, below_cons hc fun x hx => absurd hx List.not_mem_nil, rfl⟩
  | cons b bs ih =>
    have hb0 : b < base := hb b List.mem_cons_self
    have ho0 := Below.headD ho
    -- the product of two limbs leaves room for two more in a `uint64_t`
    have hprod : x * b ≤ (2 ^ 32 - 1) * (2 ^ 32 - 1) := by
      rw [base] at hx hb0
      exact Nat.mul_le_mul (by omega) (by omega)
    have ht : (x * b + out.headD 0 + carry) % 2 ^ 64 = x * b + out.headD 0 + carry := by
      rw [base] at ho0 hc
      exact Nat.mod_eq_of_lt (by omega)
    have hc' : (x * b + out.headD 0 + carry) / base < base := by
      rw [base] at ho0 hc ⊢
      omega
    have hlen₁ : out.tail.length ≤ bs.length := by
      rw [List.length_tail]
      rw [List.length_cons] at hlen
      omega
    obtain ⟨hval, hbelow, hlen'⟩ := ih (Below.tail hb) (Below.tail ho) hlen₁ hc'
    simp only [magMulRow, ht]
    refine ⟨?_, below_cons (Nat.mod_lt _ (Nat.two_pow_pos 32)) hbelow,
      by rw [List.length_cons, hlen', List.length_cons]⟩
    have hdiv := Nat.mod_add_div (x * b + out.headD 0 + carry) base
    rw [Nat.ofDigits_cons, hval, Nat.ofDigits_cons, ofDigits_head_tail out]
    calc (x * b + out.headD 0 + carry) % base + base * (x * Nat.ofDigits base bs +
          Nat.ofDigits base out.tail + (x * b + out.headD 0 + carry) / base)
        = ((x * b + out.headD 0 + carry) % base + base * ((x * b + out.headD 0 + carry) / base)) +
            base * (x * Nat.ofDigits base bs + Nat.ofDigits base out.tail) := by ring
      _ = x * (b + base * Nat.ofDigits base bs) +
            (out.headD 0 + base * Nat.ofDigits base out.tail) + carry := by rw [hdiv]; ring

theorem magMulLoop_spec {as bs out : List Nat} (ha : Below base as) (hb : Below base bs)
    (ho : Below base out) (hlen : out.length ≤ bs.length) :
    Nat.ofDigits base (magMulLoop as bs out) =
        Nat.ofDigits base as * Nat.ofDigits base bs + Nat.ofDigits base out ∧
      Below base (magMulLoop as bs out) := by
  induction as generalizing out with
  | nil => exact ⟨by simp [magMulLoop], ho⟩
  | cons a as ih =>
    obtain ⟨hval, hbelow, hrow⟩ := magMulRow_spec (ha a List.mem_cons_self) hb ho hlen
      (Nat.two_pow_pos 32 : 0 < base)
    have hlen' : (magMulRow a bs out 0).tail.length ≤ bs.length := by
      rw [List.length_tail, hrow]
      omega
    obtain ⟨hrec, hbelow'⟩ := ih (Below.tail ha) (Below.tail hbelow) hlen'
    simp only [magMulLoop]
    refine ⟨?_, below_cons (Below.headD hbelow) hbelow'⟩
    rw [ofDigits_head_tail] at hval
    rw [Nat.ofDigits_cons, hrec, Nat.ofDigits_cons]
    calc (magMulRow a bs out 0).headD 0 + base * (Nat.ofDigits base as * Nat.ofDigits base bs +
          Nat.ofDigits base (magMulRow a bs out 0).tail)
        = ((magMulRow a bs out 0).headD 0 + base * Nat.ofDigits base (magMulRow a bs out 0).tail) +
            base * (Nat.ofDigits base as * Nat.ofDigits base bs) := by ring
      _ = (a + base * Nat.ofDigits base as) * Nat.ofDigits base bs + Nat.ofDigits base out := by
            rw [hval]; ring

/-- **`jbig_mag_mul`.** -/
theorem magMul_spec {a b : List Nat} (ha : Below base a) (hb : Below base b) :
    Nat.ofDigits base (magMul a b) = Nat.ofDigits base a * Nat.ofDigits base b ∧
      Below base (magMul a b) := by
  have hzero : Below base (List.replicate b.length 0) := by
    intro x hx
    rw [List.eq_of_mem_replicate hx]
    exact Nat.two_pow_pos 32
  obtain ⟨hval, hbelow⟩ := magMulLoop_spec ha hb hzero (by simp)
  rw [magMul, ofDigits_trim, hval, Nat.ofDigits_replicate_zero]
  exact ⟨rfl, hbelow.trim⟩

end Jacl.BigInt
