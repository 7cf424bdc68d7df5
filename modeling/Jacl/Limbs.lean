import Mathlib.Data.Nat.Digits.Lemmas
import Mathlib.Data.List.DropRight
import Mathlib.Tactic

/-!
# Numbers as limb lists

A list of limbs below a base, least significant first, has the value `Nat.ofDigits`.
This module adds to Mathlib what arithmetic on such lists needs: dropping leading
zeros, the size of a list without leading zeros, and the order of two lists read from
the top.
-/

namespace Jacl.Limbs

variable {b : Nat} {l m : List Nat}

/-- Every limb is below the base. -/
def Below (b : Nat) (l : List Nat) : Prop := ∀ x ∈ l, x < b

/-- No leading zero limb. -/
def NoLead (l : List Nat) : Prop := ∀ x ∈ l.getLast?, x ≠ 0

/-- The list without its leading zeros. -/
def trim (l : List Nat) : List Nat := l.rdropWhile (· == 0)

theorem ofDigits_concat (l : List Nat) (x : Nat) :
    Nat.ofDigits b (l ++ [x]) = Nat.ofDigits b l + b ^ l.length * x := by
  rw [Nat.ofDigits_append, Nat.ofDigits_singleton]

theorem Below.lt (hb : 1 < b) (hl : Below b l) : Nat.ofDigits b l < b ^ l.length :=
  Nat.ofDigits_lt_base_pow_length hb hl

theorem ofDigits_trim (b : Nat) (l : List Nat) : Nat.ofDigits b (trim l) = Nat.ofDigits b l := by
  induction l using List.reverseRecOn with
  | nil => rfl
  | append_singleton l x ih =>
    rw [trim, List.rdropWhile_concat]
    split
    · rename_i hx
      rw [← trim, ih, beq_iff_eq.mp hx, Nat.ofDigits_append_zero]
    · rfl

theorem trim_sub (l : List Nat) : trim l <+: l := List.rdropWhile_prefix _ _

theorem Below.trim (hl : Below b l) : Below b (trim l) :=
  fun x hx => hl x ((trim_sub l).subset hx)

theorem noLead_trim (l : List Nat) : NoLead (trim l) := by
  intro x hx
  obtain ⟨hne, rfl⟩ := List.mem_getLast?_eq_getLast hx
  have := List.rdropWhile_last_not (fun x : Nat => x == 0) l hne
  exact beq_eq_false_iff_ne.mp (Bool.not_eq_true _ ▸ this)

theorem NoLead.trim_eq (hl : NoLead l) : trim l = l := by
  rcases List.eq_nil_or_concat l with rfl | ⟨init, x, hx⟩
  · rfl
  · rw [List.concat_eq_append] at hx
    subst hx
    have hx : x ≠ 0 := hl x (by simp)
    rw [trim, List.rdropWhile_concat, if_neg (by simpa using hx)]

/-- A list without leading zeros is at least the power of its top limb. -/
theorem NoLead.pow_le (hl : NoLead l) (hne : l ≠ []) : b ^ (l.length - 1) ≤ Nat.ofDigits b l := by
  rcases List.eq_nil_or_concat l with rfl | ⟨init, x, hx⟩
  · exact absurd rfl hne
  · rw [List.concat_eq_append] at hx
    subst hx
    have hx : x ≠ 0 := hl x (by simp)
    rw [ofDigits_concat, List.length_append, List.length_singleton, Nat.add_sub_cancel]
    calc b ^ init.length ≤ b ^ init.length * x := Nat.le_mul_of_pos_right _ (by omega)
      _ ≤ Nat.ofDigits b init + b ^ init.length * x := Nat.le_add_left _ _

/-- **More limbs, larger number.** -/
theorem NoLead.lt_of_length_lt (hb : 1 < b) (hl : Below b l) (hm : NoLead m)
    (hlen : l.length < m.length) : Nat.ofDigits b l < Nat.ofDigits b m := by
  have hne : m ≠ [] := by
    rintro rfl
    simp at hlen
  calc Nat.ofDigits b l < b ^ l.length := hl.lt hb
    _ ≤ b ^ (m.length - 1) := Nat.pow_le_pow_right (by omega) (by omega)
    _ ≤ Nat.ofDigits b m := hm.pow_le hne

/-- **The top limb decides** between lists of one length. -/
theorem ofDigits_lt_of_top (hb : 1 < b) (hl : Below b l) (hlen : l.length = m.length) {x y : Nat}
    (hxy : x < y) : Nat.ofDigits b (l ++ [x]) < Nat.ofDigits b (m ++ [y]) := by
  rw [ofDigits_concat, ofDigits_concat, hlen]
  have hlt := hl.lt hb
  rw [hlen] at hlt
  have hmul : b ^ m.length * (x + 1) ≤ b ^ m.length * y := Nat.mul_le_mul_left _ hxy
  rw [Nat.mul_succ] at hmul
  omega

/-- A list without leading zeros and the number of limbs its value needs. -/
theorem NoLead.length_le_iff (hb : 1 < b) (hl : Below b l) (hlead : NoLead l) (n : Nat) :
    l.length ≤ n ↔ Nat.ofDigits b l < b ^ n := by
  constructor
  · intro h
    exact Nat.lt_of_lt_of_le (hl.lt hb) (Nat.pow_le_pow_right (by omega) h)
  · intro h
    by_contra hlt
    have hne : l ≠ [] := by
      rintro rfl
      simp at hlt
    have hle : b ^ n ≤ b ^ (l.length - 1) := Nat.pow_le_pow_right (by omega) (by omega)
    have := hlead.pow_le (b := b) hne
    omega

/-- Lists without leading zeros are determined by their value. -/
theorem NoLead.eq_of_ofDigits_eq (hb : 1 < b) (hl : Below b l) (hm : Below b m) (hll : NoLead l)
    (hml : NoLead m) (h : Nat.ofDigits b l = Nat.ofDigits b m) : l = m := by
  have key : ∀ {k : List Nat}, Below b k → NoLead k → Nat.digits b (Nat.ofDigits b k) = k := by
    intro k hk hkl
    refine Nat.digits_ofDigits b hb k hk fun hne => ?_
    exact hkl _ (List.getLast?_eq_some_getLast hne)
  rw [← key hl hll, ← key hm hml, h]

end Jacl.Limbs
