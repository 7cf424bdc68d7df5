import Mathlib.Data.List.Basic
import Mathlib.Tactic

/-!
# Stable sorts by a key

A list sorted by a key, with the items of each key in the order they had, is determined.  So a
sort is `List.mergeSort` if it sorts and leaves the items of each key in their order.
-/

namespace Jacl.StableSort
variable {α : Type*} {key : α → Nat} {l l₁ l₂ : List α}

theorem mem_iff_of_filter (h : ∀ c, l₁.filter (fun a => key a = c) = l₂.filter (fun a => key a = c)) {a : α} :
    a ∈ l₁ ↔ a ∈ l₂ := by
  have hiff {l : List α} : a ∈ l ↔ a ∈ l.filter (fun b => key b = key a) := by
    rw [List.mem_filter, decide_eq_true_eq]
    exact (and_iff_left rfl).symm
  rw [@hiff l₁, @hiff l₂, h]

/-- What is sorted by a key is determined by the items of each key. -/
theorem eq_of_pairwise_of_filter (h₁ : l₁.Pairwise fun a b => key a ≤ key b)
    (h₂ : l₂.Pairwise fun a b => key a ≤ key b)
    (h : ∀ c, l₁.filter (fun a => key a = c) = l₂.filter (fun a => key a = c)) : l₁ = l₂ := by
  induction l₁ generalizing l₂ with
  | nil =>
    cases l₂ with
    | nil => rfl
    | cons b l₂ => cases (mem_iff_of_filter h).mpr List.mem_cons_self
  | cons a l₁ ih =>
    cases l₂ with
    | nil => cases (mem_iff_of_filter h).mp List.mem_cons_self
    | cons b l₂ =>
      obtain ⟨ha, h₁'⟩ := List.pairwise_cons.mp h₁
      obtain ⟨hb, h₂'⟩ := List.pairwise_cons.mp h₂
      have hab : key a ≤ key b := by
        rcases List.mem_cons.mp ((mem_iff_of_filter h).mpr (List.mem_cons_self (a := b))) with rfl | hb'
        · exact Nat.le_refl _
        · exact ha b hb'
      have hba : key b ≤ key a := by
        rcases List.mem_cons.mp ((mem_iff_of_filter h).mp (List.mem_cons_self (a := a))) with rfl | ha'
        · exact Nat.le_refl _
        · exact hb a ha'
      have hkey : key b = key a := Nat.le_antisymm hba hab
      have hfirst := h (key a)
      rw [List.filter_cons_of_pos (by simp), List.filter_cons_of_pos (by simpa using hkey)] at hfirst
      obtain ⟨rfl, -⟩ := List.cons.inj hfirst
      rw [ih h₁' h₂' fun c => ?_]
      have hc := h c
      by_cases hcase : key a = c
      · rw [List.filter_cons_of_pos (by simpa using hcase), List.filter_cons_of_pos (by simpa using hcase)] at hc
        exact (List.cons.inj hc).2
      · rw [List.filter_cons_of_neg (by simpa using hcase), List.filter_cons_of_neg (by simpa using hcase)] at hc
        exact hc

theorem pairwise_mergeSort : (l.mergeSort fun a b => key a ≤ key b).Pairwise fun a b => key a ≤ key b := by
  have hsorted := @List.pairwise_mergeSort α (fun a b => decide (key a ≤ key b))
    (by intro a b c; simp only [decide_eq_true_eq]; exact Nat.le_trans)
    (by intro a b; simp only [Bool.or_eq_true, decide_eq_true_eq]; exact Nat.le_total _ _) l
  simpa only [decide_eq_true_eq] using hsorted

/-- Merge sort leaves the items of each key in their order. -/
theorem filter_mergeSort (c : Nat) : (l.mergeSort fun a b => key a ≤ key b).filter (fun a => key a = c) =
    l.filter (fun a => key a = c) := by
  have hsub : (l.filter fun a => key a = c).Sublist (l.mergeSort fun a b => key a ≤ key b) := by
    refine @List.sublist_mergeSort α (fun a b => decide (key a ≤ key b)) l ?_ ?_ _ ?_ List.filter_sublist
    · intro a b c
      simp only [decide_eq_true_eq]
      exact Nat.le_trans
    · intro a b
      simp only [Bool.or_eq_true, decide_eq_true_eq]
      exact Nat.le_total _ _
    · refine List.Pairwise.imp_of_mem (R := fun _ _ => True) ?_ (List.pairwise_of_forall fun _ _ => trivial)
      intro a b ha hb _
      have hka := of_decide_eq_true (List.mem_filter.mp ha).2
      have hkb := of_decide_eq_true (List.mem_filter.mp hb).2
      simp only [decide_eq_true_eq]
      omega
  have hfilter := hsub.filter fun a => key a = c
  rw [List.filter_filter] at hfilter
  simp only [Bool.and_self] at hfilter
  refine (hfilter.eq_of_length ?_).symm
  exact ((List.mergeSort_perm l _).filter _).length_eq.symm

end Jacl.StableSort
