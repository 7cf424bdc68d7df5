import Mathlib

/-!
# Indexing a list that is stored in segments

A list kept as consecutive segments is read by finding the segment an index
falls in and the index inside it.  Two ways of finding it are treated here:

* by **cumulative lengths** (`cumulative`): the segment is the first one whose
  cumulative length exceeds the index (`find_cumulative`);
* by **radix**, when every segment but the last has the same length: the segment
  is the quotient and the index inside it the remainder (`radix_locate`).

Both give a segment `k` and a position `j` in it, from which `flatten_locate` and
`flatten_set` read and write the whole list.
-/

namespace Jacl.Segments
variable {α : Type}

/-- The running sums of `xs`, starting from `a`: entry `k` is `a` plus the first
`k + 1` entries of `xs`. -/
def cumulative (a : Nat) : List Nat → List Nat
  | [] => []
  | x :: xs => (a + x) :: cumulative (a + x) xs

@[simp] theorem length_cumulative (a : Nat) (xs : List Nat) :
    (cumulative a xs).length = xs.length := by
  induction xs generalizing a with
  | nil => rfl
  | cons x xs ih => simp [cumulative, ih]

theorem cumulative_append (a : Nat) (xs ys : List Nat) :
    cumulative a (xs ++ ys) = cumulative a xs ++ cumulative (a + xs.sum) ys := by
  induction xs generalizing a with
  | nil => simp [cumulative]
  | cons x xs ih => simp [cumulative, ih, Nat.add_assoc]

theorem getElem?_cumulative {a k : Nat} {xs : List Nat} (hk : k < xs.length) :
    (cumulative a xs)[k]? = some (a + (xs.take (k + 1)).sum) := by
  induction xs generalizing a k with
  | nil => simp at hk
  | cons x xs ih =>
    cases k with
    | zero => simp [cumulative]
    | succ k =>
      rw [List.length_cons] at hk
      rw [cumulative, List.getElem?_cons_succ, ih (by omega)]
      simp [Nat.add_assoc]

theorem take_cumulative (a k : Nat) (xs : List Nat) :
    (cumulative a xs).take k = cumulative a (xs.take k) := by
  induction xs generalizing a k with
  | nil => simp [cumulative]
  | cons x xs ih =>
    cases k with
    | zero => simp [cumulative]
    | succ k => simp [cumulative, ih]

/-- The last running sum is the total. -/
theorem getElem?_cumulative_last {a : Nat} {xs : List Nat} (h : xs ≠ []) :
    (cumulative a xs)[xs.length - 1]? = some (a + xs.sum) := by
  have hpos := List.length_pos_iff.mpr h
  rw [getElem?_cumulative (by omega), show xs.length - 1 + 1 = xs.length from by omega,
    List.take_length]

/-! ### Locating an index -/

/-- The whole list around segment `k`. -/
theorem flatten_around {L : List (List α)} {k : Nat} (hk : k < L.length) :
    L.flatten = (L.take k).flatten ++ (L[k] ++ (L.drop (k + 1)).flatten) := by
  have h : L = L.take k ++ L[k] :: L.drop (k + 1) := by
    rw [← List.drop_eq_getElem_cons hk, List.take_append_drop]
  exact (congrArg List.flatten h).trans (by rw [List.flatten_append, List.flatten_cons])

/-- **Locating an index**: position `j` of segment `k` is position `j` past the
first `k` segments. -/
theorem flatten_locate {L : List (List α)} {k j : Nat} {s : List α} (hs : L[k]? = some s)
    (hj : j < s.length) : L.flatten[(L.take k).flatten.length + j]? = s[j]? := by
  obtain ⟨hk, rfl⟩ := List.getElem?_eq_some_iff.mp hs
  rw [flatten_around hk, List.getElem?_append_right (by omega), Nat.add_sub_cancel_left,
    List.getElem?_append_left hj]

/-- Updating position `j` of segment `k` updates the whole list there. -/
theorem flatten_set {L : List (List α)} {k j : Nat} {s : List α} {x : α} (hs : L[k]? = some s)
    (hj : j < s.length) :
    (L.set k (s.set j x)).flatten = L.flatten.set ((L.take k).flatten.length + j) x := by
  obtain ⟨hk, rfl⟩ := List.getElem?_eq_some_iff.mp hs
  have hk' : k < (L.set k (L[k].set j x)).length := by simpa using hk
  rw [flatten_around hk', flatten_around hk, List.take_set_of_le (Nat.le_refl k),
    List.drop_set_of_lt (Nat.lt_succ_self k), List.getElem_set_self,
    List.set_append_right _ _ (by omega), Nat.add_sub_cancel_left, List.set_append_left _ _ hj]

/-- **The cumulative search.**  For an index inside the whole list, the first
running sum above it names the segment holding the index. -/
theorem find_cumulative {L : List (List α)} {a i : Nat} (hi : i < L.flatten.length) :
    ∃ k s j, (cumulative a (L.map List.length)).findIdx? (fun c => decide (a + i < c)) = some k ∧
      L[k]? = some s ∧ j < s.length ∧ (L.take k).flatten.length + j = i := by
  induction L generalizing a i with
  | nil => simp at hi
  | cons s L ih =>
    by_cases hs : i < s.length
    · refine ⟨0, s, i, ?_, rfl, hs, by simp⟩
      simp [cumulative, List.findIdx?_cons, hs]
    · have hlen : i - s.length < L.flatten.length := by
        rw [List.flatten_cons, List.length_append] at hi
        omega
      obtain ⟨k, t, j, hfind, ht, hj, hpos⟩ := ih (a := a + s.length) hlen
      refine ⟨k + 1, t, j, ?_, by simpa using ht, hj, ?_⟩
      · rw [show a + s.length + (i - s.length) = a + i from by omega] at hfind
        simp [cumulative, List.findIdx?_cons, hs, hfind]
      · rw [List.take_succ_cons, List.flatten_cons, List.length_append]
        omega

/-- The total length of segments that all have length `b`. -/
theorem length_flatten_const {L : List (List α)} {b : Nat} (h : ∀ s ∈ L, s.length = b) :
    L.flatten.length = L.length * b := by
  induction L with
  | nil => simp
  | cons s L ih =>
    rw [List.flatten_cons, List.length_append, h s List.mem_cons_self,
      ih (fun t ht => h t (List.mem_cons_of_mem _ ht)), List.length_cons, Nat.succ_mul, Nat.add_comm]

/-- A prefix of a list whose segments all have length `b`, except perhaps the last. -/
theorem length_take_flatten {L : List (List α)} {b k : Nat} (h : ∀ s ∈ L.dropLast, s.length = b)
    (hk : k < L.length) : (L.take k).flatten.length = k * b := by
  have hsub : ∀ s ∈ L.take k, s.length = b := by
    intro s hs
    refine h s ?_
    rw [List.dropLast_eq_take]
    exact List.take_subset_take_left L (by omega) hs
  rw [length_flatten_const hsub, List.length_take, Nat.min_eq_left (by omega)]

/-- Segments of length at most `b` hold at most `b` each. -/
theorem length_flatten_le {L : List (List α)} {b : Nat} (h : ∀ s ∈ L, s.length ≤ b) :
    L.flatten.length ≤ L.length * b := by
  induction L with
  | nil => simp
  | cons s L ih =>
    have hs := h s List.mem_cons_self
    have hL := ih (fun t ht => h t (List.mem_cons_of_mem _ ht))
    rw [List.flatten_cons, List.length_append, List.length_cons, Nat.succ_mul]
    omega

/-- **The radix search.**  When every segment but the last has length `b` and the
last at most `b`, index `i` is in segment `i / b`, at position `i % b`. -/
theorem radix_locate {L : List (List α)} {b i : Nat} (hb : 0 < b)
    (hfull : ∀ s ∈ L.dropLast, s.length = b) (hle : ∀ s ∈ L, s.length ≤ b)
    (hi : i < L.flatten.length) :
    ∃ s, L[i / b]? = some s ∧ i % b < s.length ∧
      (L.take (i / b)).flatten.length + i % b = i := by
  have hslot : i / b < L.length := by
    have htot := length_flatten_le hle
    exact Nat.div_lt_of_lt_mul (by rw [Nat.mul_comm]; omega)
  have hpre : (L.take (i / b)).flatten.length = i / b * b := length_take_flatten hfull hslot
  have hdiv : i / b * b + i % b = i := by rw [Nat.mul_comm]; exact Nat.div_add_mod i b
  refine ⟨L[i / b], List.getElem?_eq_getElem hslot, ?_, by omega⟩
  by_cases hlast : i / b + 1 < L.length
  · have hmem : L[i / b] ∈ L.dropLast := by
      rw [List.dropLast_eq_take]
      exact List.mem_take_iff_getElem.mpr ⟨i / b, by omega, rfl⟩
    rw [hfull _ hmem]
    exact Nat.mod_lt i hb
  · have hend : L.flatten.length = (L.take (i / b)).flatten.length + (L[i / b]).length := by
      rw [flatten_around hslot, List.drop_eq_nil_of_le (show L.length ≤ i / b + 1 by omega),
        List.flatten_nil, List.append_nil, List.length_append]
    omega

end Jacl.Segments
