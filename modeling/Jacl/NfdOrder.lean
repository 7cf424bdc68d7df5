import Jacl.Nfd
import Jacl.StableSort

/-!
# Canonical order

The insertion sort of the source stops at starters, so it sorts run by run: it is `sortRuns`.
-/

namespace Jacl.Nfd
open Utf8

variable {T : Tables} {cp x : Nat} {done base run cps A B : List Nat}

/-- A mark does not go past a starter. -/
theorem sinkMark_append (hx : T.ccc x = 0) :
    sinkMark T cp (done ++ x :: base) = sinkMark T cp done ++ x :: base := by
  induction done with
  | nil =>
    show (if T.ccc cp < T.ccc x then _ else _) = _
    rw [if_neg (by rw [hx]; exact Nat.not_lt_zero _)]
    rfl
  | cons prev done ih =>
    rw [List.cons_append, sinkMark, sinkMark]
    split_ifs
    · rw [ih, List.cons_append]
    · rfl

theorem foldl_orderStep_append (hx : T.ccc x = 0) :
    cps.foldl (orderStep T) (done ++ x :: base) = cps.foldl (orderStep T) done ++ x :: base := by
  induction cps generalizing done with
  | nil => rfl
  | cons cp cps ih =>
    have hstep : orderStep T (done ++ x :: base) cp = orderStep T done cp ++ x :: base := by
      rw [orderStep, orderStep]
      split_ifs
      · rfl
      · exact sinkMark_append hx
    rw [List.foldl_cons, List.foldl_cons, hstep, ih]

/-- **The order is made on both sides of a starter** apart. -/
theorem canonicalOrder_append (hx : T.ccc x = 0) :
    canonicalOrder T (A ++ x :: B) = canonicalOrder T A ++ x :: canonicalOrder T B := by
  have hstep : ∀ done, orderStep T done x = x :: done := fun done => if_pos hx
  rw [canonicalOrder, List.foldl_append, List.foldl_cons, hstep]
  have hfold := @foldl_orderStep_append T x [] (A.foldl (orderStep T) []) B hx
  rw [List.nil_append] at hfold
  rw [hfold, List.reverse_append, List.reverse_cons, List.append_assoc]
  rfl

theorem canonicalOrder_cons (hx : T.ccc x = 0) : canonicalOrder T (x :: B) = x :: canonicalOrder T B :=
  @canonicalOrder_append T x [] B hx

/-! ### One run -/

theorem sinkMark_perm : (sinkMark T cp done).Perm (cp :: done) := by
  induction done with
  | nil => exact .refl _
  | cons prev done ih =>
    rw [sinkMark]
    split_ifs
    · exact (ih.cons prev).trans (.swap cp prev done)
    · exact .refl _

theorem foldl_orderStep_perm : (cps.foldl (orderStep T) done).Perm (cps.reverse ++ done) := by
  induction cps generalizing done with
  | nil => exact .refl _
  | cons cp cps ih =>
    have hstep : (orderStep T done cp).Perm (cp :: done) := by
      rw [orderStep]
      split_ifs
      · exact .refl _
      · exact sinkMark_perm
    rw [List.foldl_cons, List.reverse_cons, List.append_assoc]
    exact ih.trans (hstep.append_left _)

theorem canonicalOrder_perm : (canonicalOrder T cps).Perm cps := by
  have hperm := @foldl_orderStep_perm T [] cps
  rw [List.append_nil] at hperm
  exact (List.reverse_perm _).trans (hperm.trans (List.reverse_perm _))

/-- What is sunk into sorted marks leaves them sorted, nearest first. -/
theorem sinkMark_pairwise (h : done.Pairwise fun a b => T.ccc b ≤ T.ccc a) :
    (sinkMark T cp done).Pairwise fun a b => T.ccc b ≤ T.ccc a := by
  induction done with
  | nil => exact List.pairwise_singleton _ _
  | cons prev done ih =>
    obtain ⟨hprev, hdone⟩ := List.pairwise_cons.mp h
    rw [sinkMark]
    split_ifs with hlt
    · refine List.pairwise_cons.mpr ⟨fun b hb => ?_, ih hdone⟩
      rcases List.mem_cons.mp (sinkMark_perm.mem_iff.mp hb) with rfl | hb
      · exact Nat.le_of_lt hlt
      · exact hprev b hb
    · refine List.pairwise_cons.mpr ⟨fun b hb => ?_, h⟩
      rcases List.mem_cons.mp hb with rfl | hb
      · exact Nat.not_lt.mp hlt
      · exact Nat.le_trans (hprev b hb) (Nat.not_lt.mp hlt)

/-- What is sunk stays nearest of its class. -/
theorem sinkMark_filter (c : Nat) : (sinkMark T cp done).filter (fun a => T.ccc a = c) =
    (cp :: done).filter fun a => T.ccc a = c := by
  induction done with
  | nil => rfl
  | cons prev done ih =>
    rw [sinkMark]
    split_ifs with hlt
    · rw [List.filter_cons, ih]
      by_cases hc : T.ccc prev = c
      · have hne : ¬ T.ccc cp = c := by omega
        simp [hc, hne]
      · simp [List.filter_cons, hc]
    · rfl

theorem orderStep_of_mark (h : T.ccc cp ≠ 0) : orderStep T done cp = sinkMark T cp done := if_neg h

theorem foldl_orderStep_run (hrun : ∀ c ∈ run, T.ccc c ≠ 0)
    (h : done.Pairwise fun a b => T.ccc b ≤ T.ccc a) :
    (run.foldl (orderStep T) done).Pairwise (fun a b => T.ccc b ≤ T.ccc a) ∧
      ∀ c, (run.foldl (orderStep T) done).filter (fun a => T.ccc a = c) =
        (run.reverse ++ done).filter fun a => T.ccc a = c := by
  induction run generalizing done with
  | nil => exact ⟨h, fun c => rfl⟩
  | cons cp run ih =>
    rw [List.foldl_cons, orderStep_of_mark (hrun cp List.mem_cons_self)]
    obtain ⟨hsorted, hfilter⟩ := ih (fun c hc => hrun c (List.mem_cons_of_mem _ hc)) (@sinkMark_pairwise T cp _ h)
    refine ⟨hsorted, fun c => ?_⟩
    rw [hfilter, List.filter_append, sinkMark_filter, ← List.filter_append, List.reverse_cons, List.append_assoc]
    rfl

/-- **A run of marks** is stably sorted. -/
theorem canonicalOrder_run (hrun : ∀ c ∈ run, T.ccc c ≠ 0) :
    canonicalOrder T run = run.mergeSort fun a b => T.ccc a ≤ T.ccc b := by
  obtain ⟨hsorted, hfilter⟩ := @foldl_orderStep_run T [] run hrun List.Pairwise.nil
  refine StableSort.eq_of_pairwise_of_filter (List.pairwise_reverse.mpr hsorted) StableSort.pairwise_mergeSort
    fun c => ?_
  rw [StableSort.filter_mergeSort, canonicalOrder, List.filter_reverse, hfilter, List.append_nil,
    List.filter_reverse, List.reverse_reverse]

/-- **The insertion sort of the source** sorts each run of marks. -/
theorem canonicalOrder_eq_sortRuns (hrun : ∀ c ∈ run, T.ccc c ≠ 0) :
    canonicalOrder T (run ++ cps) = sortRuns T run cps := by
  induction cps generalizing run with
  | nil => rw [List.append_nil, sortRuns, canonicalOrder_run hrun]
  | cons cp cps ih =>
    rw [sortRuns]
    split_ifs with hcp
    · rw [canonicalOrder_append hcp, canonicalOrder_run hrun, ← @ih [] (by simp), List.nil_append]
    · rw [← ih, List.append_assoc, List.singleton_append]
      intro c hc
      rcases List.mem_append.mp hc with hc | hc
      · exact hrun c hc
      · rw [List.mem_singleton.mp hc]
        exact hcp

theorem canonicalForm_eq : canonicalForm T cps = canonicalOrder T (decomposed T cps) :=
  (@canonicalOrder_eq_sortRuns T [] (decomposed T cps) (by simp)).symm

/-! ### What the order leaves alone -/

/-- A codepoint may stand after another in canonical order. -/
def Follows (T : Tables) (a b : Nat) : Prop := T.ccc b = 0 ∨ T.ccc a ≤ T.ccc b

theorem foldl_orderStep_ordered (h : (x :: cps).IsChain (Follows T)) :
    cps.foldl (orderStep T) (x :: done) = cps.reverse ++ x :: done := by
  induction cps generalizing x done with
  | nil => rfl
  | cons cp cps ih =>
    obtain ⟨hcp, hchain⟩ := List.isChain_cons_cons.mp h
    have hstep : orderStep T (x :: done) cp = cp :: x :: done := by
      rw [orderStep]
      split_ifs with hzero
      · rfl
      · rw [sinkMark, if_neg (Nat.not_lt.mpr (hcp.resolve_left hzero))]
    rw [List.foldl_cons, hstep, ih hchain, List.reverse_cons, List.append_assoc]
    rfl

/-- What is in order stays. -/
theorem canonicalOrder_ordered (h : cps.IsChain (Follows T)) : canonicalOrder T cps = cps := by
  cases cps with
  | nil => rfl
  | cons x cps =>
    have hstep : orderStep T [] x = [x] := by
      rw [orderStep]
      split_ifs <;> rfl
    rw [canonicalOrder, List.foldl_cons, hstep, foldl_orderStep_ordered h, List.reverse_append,
      List.reverse_reverse]
    rfl

theorem sinkMark_chain (h : done.IsChain fun a b => Follows T b a) :
    (sinkMark T cp done).IsChain (fun a b => Follows T b a) ∧
      ∀ a, (sinkMark T cp done).head? = some a → a = cp ∨ done.head? = some a := by
  induction done with
  | nil =>
    refine ⟨List.isChain_singleton _, ?_⟩
    rintro a ha
    exact .inl (Option.some.inj ha).symm
  | cons prev done ih =>
    have htail : done.IsChain fun a b => Follows T b a := h.tail
    obtain ⟨hchain, hhead⟩ := ih htail
    rw [sinkMark]
    split_ifs with hlt
    · refine ⟨?_, fun a ha => .inr ha⟩
      cases hsink : sinkMark T cp done with
      | nil => exact List.isChain_singleton _
      | cons y rest =>
        rw [hsink] at hchain hhead
        refine List.isChain_cons_cons.mpr ⟨?_, hchain⟩
        rcases hhead y rfl with rfl | hy
        · exact .inr (Nat.le_of_lt hlt)
        · cases done with
          | nil => cases hy
          | cons z done =>
            obtain rfl := Option.some.inj hy
            exact (List.isChain_cons_cons.mp h).1
    · refine ⟨List.isChain_cons_cons.mpr ⟨.inr (Nat.not_lt.mp hlt), h⟩, fun a ha => ?_⟩
      exact .inl (Option.some.inj ha).symm

/-- **The result is in order.** -/
theorem canonicalOrder_chain : (canonicalOrder T cps).IsChain (Follows T) := by
  rw [canonicalOrder, List.isChain_reverse]
  have hfold : ∀ done : List Nat, (done.IsChain fun a b => Follows T b a) →
      ((cps.foldl (orderStep T) done).IsChain fun a b => Follows T b a) := by
    induction cps with
    | nil => exact fun done h => h
    | cons cp cps ih =>
      intro done h
      refine ih _ ?_
      rw [orderStep]
      split_ifs with hzero
      · cases done with
        | nil => exact List.isChain_singleton _
        | cons prev done => exact List.isChain_cons_cons.mpr ⟨.inl hzero, h⟩
      · exact (sinkMark_chain h).1
  exact hfold [] List.isChain_nil

/-- A starter, and nothing for a mark. -/
def starter (T : Tables) (cp : Nat) : Option Nat := if T.ccc cp = 0 then some cp else none

theorem map_starter_sinkMark (hcp : T.ccc cp ≠ 0) :
    (sinkMark T cp done).map (starter T) = (cp :: done).map (starter T) := by
  induction done with
  | nil => rfl
  | cons prev done ih =>
    rw [sinkMark]
    split_ifs with hlt
    · have hprev : starter T prev = none := if_neg (by omega)
      have hcp' : starter T cp = none := if_neg hcp
      rw [List.map_cons, ih, List.map_cons, List.map_cons, List.map_cons, hprev, hcp']
    · rfl

theorem map_starter_foldl : (cps.foldl (orderStep T) done).map (starter T) =
    (cps.reverse ++ done).map (starter T) := by
  induction cps generalizing done with
  | nil => rfl
  | cons cp cps ih =>
    have hstep : (orderStep T done cp).map (starter T) = (cp :: done).map (starter T) := by
      rw [orderStep]
      split_ifs with hzero
      · rfl
      · exact map_starter_sinkMark hzero
    rw [List.foldl_cons, ih, List.map_append, hstep, List.reverse_cons, List.append_assoc, List.map_append]
    rfl

/-- **The starters keep their places.** -/
theorem map_starter_canonicalOrder : (canonicalOrder T cps).map (starter T) = cps.map (starter T) := by
  rw [canonicalOrder, List.map_reverse, map_starter_foldl, List.append_nil, List.map_reverse,
    List.reverse_reverse]

end Jacl.Nfd
