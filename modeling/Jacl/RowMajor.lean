import Mathlib.Algebra.BigOperators.Group.List.Basic
import Mathlib.Data.List.Basic
import Mathlib.Tactic

/-!
# Row-major positions

The elements of an array with the dimensions `dims` in a row, the last index running fastest.  A
list of indices that is shorter than the dimensions stands for a part of the array: the elements
whose indices start with it.
-/

namespace Jacl.RowMajor

/-- Every index is below its dimension; there may be fewer indices. -/
def InRange : List Nat → List Nat → Prop
  | _, [] => True
  | [], _ :: _ => False
  | d :: dims, i :: is => i < d ∧ InRange dims is

/-- Where the part of the indices starts. -/
def position : List Nat → List Nat → Nat
  | _ :: dims, i :: is => i * dims.prod + position dims is
  | _, _ => 0

variable {dims is js : List Nat} {i : Nat}

@[simp] theorem inRange_nil : InRange dims [] := by cases dims <;> trivial

@[simp] theorem position_nil : position dims [] = 0 := by cases dims <;> rfl

theorem InRange.length_le (h : InRange dims is) : is.length ≤ dims.length := by
  induction is generalizing dims with
  | nil => exact Nat.zero_le _
  | cons i is ih =>
    cases dims with
    | nil => exact h.elim
    | cons d dims => exact Nat.succ_le_succ (ih h.2)

/-- **A part is inside of the array.** -/
theorem position_add_le (h : InRange dims is) :
    position dims is + (dims.drop is.length).prod ≤ dims.prod := by
  induction is generalizing dims with
  | nil => rw [position_nil, List.length_nil, List.drop_zero, Nat.zero_add]
  | cons i is ih =>
    cases dims with
    | nil => exact h.elim
    | cons d dims =>
      have hrow := Nat.mul_le_mul_right dims.prod h.1
      have hrest := ih h.2
      rw [Nat.succ_mul] at hrow
      rw [position, List.length_cons, List.drop_succ_cons, List.prod_cons]
      omega

theorem position_lt (h : InRange dims is) (hfull : is.length = dims.length) :
    position dims is < dims.prod := by
  have hle := position_add_le h
  rw [hfull, List.drop_length, List.prod_nil] at hle
  omega

/-- One index more. -/
theorem position_concat (h : is.length < dims.length) :
    position dims (is ++ [i]) = position dims is + i * (dims.drop (is.length + 1)).prod := by
  induction is generalizing dims with
  | nil =>
    cases dims with
    | nil => exact absurd h (Nat.not_lt_zero _)
    | cons d dims => rw [List.nil_append, position, position_nil, position_nil, Nat.add_comm]; rfl
  | cons j is ih =>
    cases dims with
    | nil => exact absurd h (Nat.not_lt_zero _)
    | cons d dims =>
      rw [List.cons_append, position, position, ih (Nat.lt_of_succ_lt_succ h), Nat.add_assoc]
      rfl

theorem InRange.of_concat (h : InRange dims (is ++ [i])) : InRange dims is := by
  induction is generalizing dims with
  | nil => exact inRange_nil
  | cons j is ih =>
    cases dims with
    | nil => exact h.elim
    | cons d dims => exact ⟨h.1, ih h.2⟩

/-- The last index is below the first of the dimensions that are left. -/
theorem InRange.last_lt (h : InRange dims (is ++ [i])) : ∃ d rest, dims.drop is.length = d :: rest ∧ i < d := by
  induction is generalizing dims with
  | nil =>
    cases dims with
    | nil => exact h.elim
    | cons d dims => exact ⟨d, dims, rfl, h.1⟩
  | cons j is ih =>
    cases dims with
    | nil => exact h.elim
    | cons d dims => exact ih h.2

/-- **Different indices have different positions.** -/
theorem position_injective (hi : InRange dims is) (hj : InRange dims js) (hilen : is.length = dims.length)
    (hjlen : js.length = dims.length) (heq : position dims is = position dims js) : is = js := by
  induction dims generalizing is js with
  | nil => rw [List.length_eq_zero_iff.mp hilen, List.length_eq_zero_iff.mp hjlen]
  | cons d dims ih =>
    obtain _ | ⟨i, is⟩ := is
    · cases hilen
    obtain _ | ⟨j, js⟩ := js
    · cases hjlen
    rw [List.length_cons, List.length_cons, Nat.succ_inj] at hilen hjlen
    have hp := position_lt hi.2 hilen
    have hq := position_lt hj.2 hjlen
    rw [position, position] at heq
    have hij : i = j := by
      have hdiv := congrArg (· / dims.prod) heq
      simpa only [Nat.mul_comm _ dims.prod, Nat.mul_add_div (Nat.zero_lt_of_lt hp),
        Nat.div_eq_of_lt hp, Nat.div_eq_of_lt hq, Nat.add_zero] using hdiv
    subst hij
    rw [ih hi.2 hj.2 hilen hjlen (by omega)]

/-- The last row starts a row before the end. -/
theorem exists_last_row (hne : dims ≠ []) (hpos : ∀ d ∈ dims, 0 < d) :
    ∃ is, InRange dims is ∧ is.length + 1 = dims.length ∧
      position dims is + dims.getLastD 0 = dims.prod := by
  induction dims with
  | nil => exact absurd rfl hne
  | cons d dims ih =>
    cases dims with
    | nil => exact ⟨[], trivial, rfl, by simp [position]⟩
    | cons e dims =>
      obtain ⟨is, hin, hlen, hrow⟩ := ih (List.cons_ne_nil _ _) fun c hc => hpos c (List.mem_cons_of_mem _ hc)
      have hd := hpos d List.mem_cons_self
      refine ⟨(d - 1) :: is, ⟨Nat.sub_lt hd Nat.one_pos, hin⟩, congrArg (· + 1) hlen, ?_⟩
      have hlast : (d :: e :: dims).getLastD 0 = (e :: dims).getLastD 0 := by
        rw [List.getLastD_cons, List.getLastD_cons, List.getLastD_cons]
      rw [position, hlast, Nat.add_assoc, hrow, List.prod_cons, ← Nat.succ_mul]
      congr 1
      omega

/-- A part that is not a single element has a row at least. -/
theorem getLastD_le_prod {k : Nat} (hk : k < dims.length) (hpos : ∀ d ∈ dims, 0 < d) :
    dims.getLastD 0 ≤ (dims.drop k).prod := by
  have hne : dims.drop k ≠ [] := by
    rw [Ne, List.drop_eq_nil_iff]
    omega
  have hmem : dims.getLastD 0 ∈ dims.drop k := by
    have hlast : (dims.drop k).getLast? = dims.getLast? := by
      rw [List.getLast?_drop, if_neg (Nat.not_le.mpr hk)]
    rw [List.getLastD_eq_getLast?, ← hlast, List.getLast?_eq_some_getLast hne]
    exact List.getLast_mem hne
  exact Nat.le_of_dvd (List.prod_pos fun d hd => hpos d (List.mem_of_mem_drop hd)) (List.dvd_prod hmem)

end Jacl.RowMajor
