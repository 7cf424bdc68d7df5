import Mathlib.Data.List.Forall2

/-!
# Lists related entry by entry

Two lists related by `List.Forall₂` stay related when the same position is read,
replaced, inserted at or removed, and a fallible map over one of them is known from
the other.
-/

namespace Jacl.Entrywise
open List

variable {α β γ : Type} {R : α → β → Prop} {as : List α} {bs : List β}

theorem exists_left (h : Forall₂ R as bs) {i : Nat} {b : β} (hb : bs[i]? = some b) :
    ∃ a, as[i]? = some a ∧ R a b := by
  induction h generalizing i with
  | nil => simp at hb
  | @cons a b' as bs hab _ ih =>
    cases i with
    | zero =>
      obtain rfl : b' = b := by simpa using hb
      exact ⟨a, rfl, hab⟩
    | succ i => exact ih (by simpa using hb)

theorem mem_left (h : Forall₂ R as bs) {b : β} (hb : b ∈ bs) : ∃ a ∈ as, R a b := by
  obtain ⟨i, hi⟩ := List.mem_iff_getElem?.mp hb
  obtain ⟨a, ha, hab⟩ := exists_left h hi
  exact ⟨a, List.mem_of_getElem? ha, hab⟩

theorem mem_right (h : Forall₂ R as bs) {a : α} (ha : a ∈ as) : ∃ b ∈ bs, R a b :=
  mem_left h.flip ha

/-- Two lists are related through the entries of two others, paired one by one. -/
theorem forall₂_of_zip {δ : Type} {S : γ → δ → Prop} {T : α → γ → Prop} {cs : List γ} {ds : List δ}
    (h : Forall₂ R as bs) (h' : Forall₂ S cs ds) (hlen : bs.length = ds.length)
    (hT : ∀ a ∈ as, ∀ c ∈ cs, ∀ p ∈ bs.zip ds, R a p.1 → S c p.2 → T a c) : Forall₂ T as cs := by
  induction h generalizing cs ds with
  | nil =>
    obtain rfl := List.length_eq_zero_iff.mp hlen.symm
    rw [List.forall₂_nil_right_iff.mp h']
    exact Forall₂.nil
  | cons hab _ ih =>
    cases h' with
    | nil => cases hlen
    | cons hcd h' =>
      refine Forall₂.cons (hT _ mem_cons_self _ mem_cons_self (_, _) mem_cons_self hab hcd) ?_
      refine ih h' (by simpa using hlen) fun a ha c hc p hp => ?_
      exact hT a (mem_cons_of_mem _ ha) c (mem_cons_of_mem _ hc) p (mem_cons_of_mem _ hp)

theorem forall₂_set (h : Forall₂ R as bs) {a : α} {b : β} (hab : R a b) (i : Nat) :
    Forall₂ R (as.set i a) (bs.set i b) := by
  induction h generalizing i with
  | nil => exact .nil
  | cons hd tl ih =>
    cases i with
    | zero => exact .cons hab tl
    | succ i => exact .cons hd (ih i)

theorem forall₂_insertIdx (h : Forall₂ R as bs) {a : α} {b : β} (hab : R a b) (i : Nat) :
    Forall₂ R (as.insertIdx i a) (bs.insertIdx i b) := by
  induction i generalizing as bs with
  | zero => exact .cons hab h
  | succ i ih =>
    cases h with
    | nil => exact .nil
    | cons hd tl => exact .cons hd (ih tl)

theorem forall₂_eraseIdx (h : Forall₂ R as bs) (i : Nat) :
    Forall₂ R (as.eraseIdx i) (bs.eraseIdx i) := by
  induction h generalizing i with
  | nil => exact .nil
  | cons hd tl ih =>
    cases i with
    | zero => exact tl
    | succ i => exact .cons hd (ih i)

theorem forall₂_concat (h : Forall₂ R as bs) {a : α} {b : β} (hab : R a b) :
    Forall₂ R (as ++ [a]) (bs ++ [b]) :=
  rel_append h (.cons hab .nil)

/-- A fallible map that succeeds at every entry. -/
theorem mapM_eq_some (h : Forall₂ R as bs) {f : α → Option γ} {g : β → γ}
    (hfg : ∀ a b, R a b → f a = some (g b)) : as.mapM f = some (bs.map g) := by
  induction h with
  | nil => rfl
  | cons hd tl ih =>
    rw [mapM_cons, hfg _ _ hd, ih]
    rfl

/-- A fallible map that succeeds at every entry, by a function of the entry. -/
theorem mapM_eq_map {f : α → Option γ} {g : α → γ} (hf : ∀ a ∈ as, f a = some (g a)) :
    as.mapM f = some (as.map g) := by
  induction as with
  | nil => rfl
  | cons a as ih =>
    rw [mapM_cons, hf a mem_cons_self, ih fun b hb => hf b (mem_cons_of_mem a hb)]
    rfl

end Jacl.Entrywise
