import Mathlib.Data.List.Basic
import Mathlib.Tactic

/-!
# Machines that cut a sequence

A machine reads items one after another and decides before each item whether it goes with
the items before or starts a part of its own.  A part begins with `start`; `next` is `none`
where the machine cuts.  What comes after a cut depends on nothing before it, so the cuts
found part by part are those of one pass over the whole sequence.
-/

namespace Jacl.BreakMachines

/-- A machine that cuts sequences of `α`. -/
structure Machine (α σ : Type*) where
  start : α → σ
  next : σ → α → Option σ

namespace Machine
variable {α σ : Type*} (m : Machine α σ)

/-- The state after more items, with a new part where the machine cuts. -/
def state (s : σ) : List α → σ
  | [] => s
  | c :: rest => state ((m.next s c).getD (m.start c)) rest

/-- How many of the items go with the part that has come to `s`. -/
def taken (s : σ) : List α → Nat
  | [] => 0
  | c :: rest =>
    match m.next s c with
    | none => 0
    | some s' => taken s' rest + 1

/-- The machine cuts before `after` when it has read `before` from `s`. -/
def CutFrom (s : σ) (before after : List α) : Prop :=
  ∀ c rest, after = c :: rest → m.next (m.state s before) c = none

/-- The machine cuts between the two parts of a whole sequence. -/
def Cut (before after : List α) : Prop :=
  ∀ a earlier, before = a :: earlier → m.CutFrom (m.start a) earlier after

variable {m} {s s' : σ} {c : α} {rest before after : List α}

theorem cut_nil : m.Cut [] after := by
  rintro a earlier ⟨⟩

theorem cut_cons : m.Cut (c :: before) after ↔ m.CutFrom (m.start c) before after := by
  constructor
  · intro h
    exact h c before rfl
  · rintro h a earlier ⟨⟩
    exact h

theorem state_append {more : List α} : m.state s (before ++ more) = m.state (m.state s before) more := by
  induction before generalizing s with
  | nil => rfl
  | cons c before ih => rw [List.cons_append, state, state, ih]

theorem cutFrom_cons_of_none (h : m.next s c = none) :
    m.CutFrom s (c :: before) after ↔ m.Cut (c :: before) after := by
  rw [cut_cons, CutFrom, CutFrom, state, h, Option.getD_none]

theorem cutFrom_cons_of_some (h : m.next s c = some s') :
    m.CutFrom s (c :: before) after ↔ m.CutFrom s' before after := by
  rw [CutFrom, CutFrom, state, h, Option.getD_some]

/-- From a state inside a part, the cuts are those after the part. -/
theorem cutFrom_iff (h : before ++ after = rest) :
    m.CutFrom s before after ↔
      ∃ more, before = rest.take (m.taken s rest) ++ more ∧ m.Cut more after := by
  induction rest generalizing s before with
  | nil =>
    obtain ⟨rfl, rfl⟩ := List.append_eq_nil_iff.mp h
    constructor
    · intro _
      exact ⟨[], rfl, cut_nil⟩
    · rintro - c rest ⟨⟩
  | cons d rest ih =>
    cases hnext : m.next s d with
    | none =>
      have htaken : m.taken s (d :: rest) = 0 := by rw [taken, hnext]
      simp only [htaken, List.take_zero, List.nil_append, exists_eq_left']
      cases before with
      | nil =>
        obtain rfl : after = d :: rest := h
        refine ⟨fun _ => cut_nil, ?_⟩
        rintro - c rest' ⟨⟩
        exact hnext
      | cons e before =>
        obtain ⟨rfl, -⟩ := List.cons.inj h
        exact cutFrom_cons_of_none hnext
    | some s' =>
      have htaken : m.taken s (d :: rest) = m.taken s' rest + 1 := by rw [taken, hnext]
      simp only [htaken, List.take_succ_cons, List.cons_append]
      cases before with
      | nil =>
        obtain rfl : after = d :: rest := h
        refine ⟨fun hcut => ?_, ?_⟩
        · have hnone : m.next s d = none := hcut d rest rfl
          rw [hnext] at hnone
          cases hnone
        · rintro ⟨more, hmore, -⟩
          cases hmore
      | cons e before =>
        obtain ⟨rfl, hrest⟩ := List.cons.inj h
        rw [cutFrom_cons_of_some hnext, ih hrest]
        simp only [List.cons.injEq, true_and]

/-- **The cuts of a sequence** are its front and the cuts of what its first part leaves. -/
theorem cut_iff (h : before ++ after = c :: rest) :
    m.Cut before after ↔ before = [] ∨
      ∃ more, before = c :: rest.take (m.taken (m.start c) rest) ++ more ∧ m.Cut more after := by
  cases before with
  | nil => exact ⟨fun _ => .inl rfl, fun _ => cut_nil⟩
  | cons d before =>
    obtain ⟨rfl, hrest⟩ := List.cons.inj h
    rw [cut_cons, cutFrom_iff hrest]
    simp only [List.cons_append, List.cons.injEq, true_and, reduceCtorEq, false_or]

theorem taken_le : m.taken s rest ≤ rest.length := by
  induction rest generalizing s with
  | nil => exact Nat.le_refl _
  | cons c rest ih =>
    rw [taken]
    cases m.next s c with
    | none => exact Nat.zero_le _
    | some s' => exact Nat.succ_le_succ ih

end Machine

/-! ### Walks from boundary to boundary -/

/-- The positions that `next` comes to from `pos`, up to `len`. -/
def walk (next : Nat → Nat) (len : Nat) : Nat → Nat → List Nat
  | 0, pos => [pos]
  | fuel + 1, pos => if pos < len then pos :: walk next len fuel (next pos) else [pos]

/-- How much room the items take. -/
def size {α : Type*} (width : α → Nat) (items : List α) : Nat := (items.map width).sum

section Walk
variable {α σ : Type*} {m : Machine α σ} {width : α → Nat} {whole l r : List α} {next : Nat → Nat}
  {fuel p : Nat}

@[simp] theorem size_append {more : List α} : size width (l ++ more) = size width l + size width more := by
  simp [size]

@[simp] theorem size_cons {c : α} : size width (c :: l) = width c + size width l := rfl

@[simp] theorem size_nil : size width ([] : List α) = 0 := rfl

/-- **A walk finds the cuts**: it does when it takes each step to the end of a part. -/
theorem mem_walk_iff (hwidth : ∀ c ∈ whole, 0 < width c)
    (hnext : ∀ l c r, whole = l ++ c :: r →
      next (size width l) = size width (l ++ c :: r.take (m.taken (m.start c) r)))
    (hwhole : whole = l ++ r) (hfuel : r.length ≤ fuel) :
    p ∈ walk next (size width whole) fuel (size width l) ↔
      ∃ before after, r = before ++ after ∧ p = size width (l ++ before) ∧ m.Cut before after := by
  induction fuel generalizing l r with
  | zero =>
    obtain rfl : r = [] := List.length_eq_zero_iff.mp (Nat.le_zero.mp hfuel)
    rw [walk, List.mem_singleton]
    constructor
    · rintro rfl
      exact ⟨[], [], rfl, by rw [List.append_nil], Machine.cut_nil⟩
    · rintro ⟨before, after, h, rfl, -⟩
      obtain ⟨rfl, rfl⟩ := List.append_eq_nil_iff.mp h.symm
      rw [List.append_nil]
  | succ fuel ih =>
    cases r with
    | nil =>
      have hend : ¬ size width l < size width whole := by
        rw [hwhole, List.append_nil]
        exact Nat.lt_irrefl _
      rw [walk, if_neg hend, List.mem_singleton]
      constructor
      · rintro rfl
        exact ⟨[], [], rfl, by rw [List.append_nil], Machine.cut_nil⟩
      · rintro ⟨before, after, h, rfl, -⟩
        obtain ⟨rfl, rfl⟩ := List.append_eq_nil_iff.mp h.symm
        rw [List.append_nil]
    | cons c r =>
      have hpos : 0 < width c := hwidth c (by rw [hwhole]; exact List.mem_append_right _ List.mem_cons_self)
      have hmore : size width l < size width whole := by
        rw [hwhole, size_append, size_cons]
        omega
      set n := m.taken (m.start c) r with hn
      have hsplit : whole = (l ++ c :: r.take n) ++ r.drop n := by
        rw [hwhole, List.append_assoc, List.cons_append, List.take_append_drop]
      have hlen : (r.drop n).length ≤ fuel := by
        rw [List.length_drop]
        exact Nat.le_trans (Nat.sub_le _ _) (Nat.le_of_succ_le_succ hfuel)
      rw [walk, if_pos hmore, List.mem_cons, hnext l c r hwhole, ← hn, ih hsplit hlen]
      constructor
      · rintro (rfl | ⟨before, after, hrest, rfl, hcut⟩)
        · exact ⟨[], c :: r, rfl, by rw [List.append_nil], Machine.cut_nil⟩
        · have hall : c :: r.take n ++ before ++ after = c :: r := by
            rw [List.append_assoc, ← hrest, List.cons_append, List.take_append_drop]
          refine ⟨c :: r.take n ++ before, after, hall.symm, by rw [List.append_assoc], ?_⟩
          exact (Machine.cut_iff hall).mpr (.inr ⟨before, rfl, hcut⟩)
      · rintro ⟨before, after, hall, rfl, hcut⟩
        rcases (Machine.cut_iff hall.symm).mp hcut with rfl | ⟨more, rfl, hmore⟩
        · exact .inl (by rw [List.append_nil])
        · refine .inr ⟨more, after, ?_, by rw [List.append_assoc], hmore⟩
          rw [List.append_assoc, List.cons_append, List.cons.injEq] at hall
          exact List.append_cancel_left ((List.take_append_drop n r).trans hall.2)

end Walk

end Jacl.BreakMachines
