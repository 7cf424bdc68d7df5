import Mathlib.Data.Nat.Bits
import Mathlib.Tactic

/-!
# Byte memories

A memory is a function from positions to bytes.  Writes say where they change it, reads
depend on where they read, and a little-endian number that was written is read back.
-/

namespace Jacl.Bytes

abbrev Memory : Type := Nat → BitVec 8

/-- The `n` low bytes of `x`, least significant first, at `pos`. -/
def putLe (m : Memory) (pos x n : Nat) : Memory := fun i =>
  if pos ≤ i ∧ i < pos + n then BitVec.ofNat 8 (x >>> (8 * (i - pos))) else m i

/-- The little-endian number of the `n` bytes at `pos`. -/
def le (m : Memory) (pos : Nat) : Nat → Nat
  | 0 => 0
  | n + 1 => le m pos n + (m (pos + n)).toNat * 2 ^ (8 * n)

/-- The bytes `s` at `off`. -/
def copy (m : Memory) (off : Nat) (s : List (BitVec 8)) : Memory := fun i =>
  if off ≤ i ∧ i < off + s.length then s.getD (i - off) 0#8 else m i

/-- The `n` bytes at `off`. -/
def slice (m : Memory) (off n : Nat) : List (BitVec 8) := (List.range n).map fun i => m (off + i)

/-- The two memories have the same bytes in `[lo, hi)`. -/
def SameOn (m m' : Memory) (lo hi : Nat) : Prop := ∀ i, lo ≤ i → i < hi → m' i = m i

variable {m m' : Memory} {pos x n off : Nat} {s : List (BitVec 8)}

theorem putLe_of_outside {i : Nat} (h : i < pos ∨ pos + n ≤ i) : putLe m pos x n i = m i := by
  rw [putLe, if_neg (by omega)]

theorem copy_of_outside {i : Nat} (h : i < off ∨ off + s.length ≤ i) : copy m off s i = m i := by
  rw [copy, if_neg (by omega)]

theorem SameOn.mono {lo hi lo' hi' : Nat} (h : SameOn m m' lo hi) (hlo : lo ≤ lo')
    (hhi : hi' ≤ hi) : SameOn m m' lo' hi' :=
  fun i h1 h2 => h i (by omega) (by omega)

theorem le_congr (h : SameOn m m' pos (pos + n)) : le m' pos n = le m pos n := by
  induction n with
  | zero => rfl
  | succ n ih =>
    rw [le, le, ih (h.mono (Nat.le_refl _) (by omega)), h (pos + n) (by omega) (by omega)]

theorem le_lt : le m pos n < 2 ^ (8 * n) := by
  induction n with
  | zero => exact Nat.one_pos
  | succ n ih =>
    have hbyte := (m (pos + n)).isLt
    have hmul : (m (pos + n)).toNat * 2 ^ (8 * n) ≤ (2 ^ 8 - 1) * 2 ^ (8 * n) :=
      Nat.mul_le_mul_right _ (by omega)
    have hpow : 2 ^ (8 * (n + 1)) = 2 ^ 8 * 2 ^ (8 * n) := by rw [← pow_add]; congr 1; omega
    rw [le, hpow]
    omega

/-- **What was written is read back**, up to the bytes there are. -/
theorem le_putLe : le (putLe m pos x n) pos n = x % 2 ^ (8 * n) := by
  have key : ∀ k ≤ n, le (putLe m pos x n) pos k = x % 2 ^ (8 * k) := by
    intro k hk
    induction k with
    | zero => simp [le, Nat.mod_one]
    | succ k ih =>
      have hbyte : (putLe m pos x n (pos + k)).toNat = x / 2 ^ (8 * k) % 2 ^ 8 := by
        rw [putLe, if_pos (by omega), Nat.add_sub_cancel_left, BitVec.toNat_ofNat,
          Nat.shiftRight_eq_div_pow]
      have hpow : 2 ^ (8 * (k + 1)) = 2 ^ (8 * k) * 2 ^ 8 := by rw [← pow_add]; congr 1
      rw [le, ih (by omega), hbyte, hpow, Nat.mod_mul, Nat.mul_comm (x / 2 ^ (8 * k) % 2 ^ 8)]
  exact key n (Nat.le_refl n)

theorem le_zero (h : ∀ i, pos ≤ i → i < pos + n → m i = 0#8) : le m pos n = 0 := by
  induction n with
  | zero => rfl
  | succ n ih =>
    rw [le, ih fun i h1 h2 => h i h1 (by omega), h (pos + n) (by omega) (by omega)]
    simp

theorem slice_congr (h : SameOn m m' off (off + n)) : slice m' off n = slice m off n := by
  refine List.map_congr_left fun i hi => ?_
  rw [List.mem_range] at hi
  exact h (off + i) (by omega) (by omega)

theorem slice_copy : slice (copy m off s) off s.length = s := by
  refine List.ext_getElem (by simp [slice]) fun i hi hi' => ?_
  simp only [slice, List.getElem_map, List.getElem_range]
  rw [copy, if_pos (by omega), Nat.add_sub_cancel_left, List.getD_eq_getElem?_getD,
    List.getElem?_eq_getElem hi', Option.getD_some]

end Jacl.Bytes
