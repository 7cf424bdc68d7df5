import Mathlib.Data.List.Nodup
import Mathlib.Data.Set.Basic
import Mathlib.Logic.Function.Basic

/-!
# Pools of resources

A pool keeps a list of what is free; whoever takes a resource owns it until it is given back.
Nothing is lost and nothing shared: each resource is in the list once or has one owner
(`Pooled`), and taking and giving back keep it so.
-/

namespace Jacl.ResourcePools
open Function

variable {K O : Type} {all : Set K} {free : List K} {owns : O → Option K} {k : K} {o : O}

/-- **Each resource is free, once, or has one owner.** -/
structure Pooled (all : Set K) (free : List K) (owns : O → Option K) : Prop where
  nodup : free.Nodup
  free_iff : ∀ k, k ∈ free ↔ k ∈ all ∧ ∀ o, owns o ≠ some k
  one_owner : ∀ o o' k, owns o = some k → owns o' = some k → o = o'
  mem_all : ∀ o k, owns o = some k → k ∈ all

variable [DecidableEq O]

/-- The first free resource is taken. -/
theorem Pooled.take (h : Pooled all (k :: free) owns) (ho : owns o = none) :
    Pooled all free (update owns o (some k)) := by
  obtain ⟨hk, hnd⟩ := List.nodup_cons.mp h.nodup
  have hfree := (h.free_iff k).mp List.mem_cons_self
  refine ⟨hnd, fun x => ?_, fun a b x ha hb => ?_, fun a x ha => ?_⟩
  · have hx := h.free_iff x
    by_cases hxk : x = k
    · subst hxk
      exact iff_of_false hk fun hall => hall.2 o (update_self ..)
    · rw [List.mem_cons, or_iff_right hxk] at hx
      rw [hx]
      refine and_congr_right fun _ => forall_congr' fun a => ?_
      by_cases hao : a = o
      · subst hao
        simp [ho, Ne.symm hxk]
      · rw [update_of_ne hao]
  · by_cases hao : a = o <;> by_cases hbo : b = o
    · rw [hao, hbo]
    · subst hao
      rw [update_self] at ha
      rw [update_of_ne hbo] at hb
      exact absurd (Option.some.inj ha ▸ hb) (hfree.2 b)
    · subst hbo
      rw [update_self] at hb
      rw [update_of_ne hao] at ha
      exact absurd (Option.some.inj hb ▸ ha) (hfree.2 a)
    · rw [update_of_ne hao] at ha
      rw [update_of_ne hbo] at hb
      exact h.one_owner a b x ha hb
  · by_cases hao : a = o
    · subst hao
      rw [update_self] at ha
      exact Option.some.inj ha ▸ hfree.1
    · rw [update_of_ne hao] at ha
      exact h.mem_all a x ha

/-- A resource is given back. -/
theorem Pooled.give (h : Pooled all free owns) (ho : owns o = some k) :
    Pooled all (k :: free) (update owns o none) := by
  have hk : k ∉ free := fun hf => ((h.free_iff k).mp hf).2 o ho
  have hold : ∀ a x, update owns o none a = some x → a ≠ o ∧ owns a = some x := by
    intro a x ha
    by_cases hao : a = o
    · subst hao
      simp at ha
    · exact ⟨hao, by rwa [update_of_ne hao] at ha⟩
  refine ⟨List.nodup_cons.mpr ⟨hk, h.nodup⟩, fun x => ?_, fun a b x ha hb => ?_, fun a x ha => ?_⟩
  · rw [List.mem_cons, h.free_iff]
    by_cases hxk : x = k
    · subst hxk
      refine iff_of_true (.inl rfl) ⟨h.mem_all o x ho, fun a ha => ?_⟩
      obtain ⟨hao, ha⟩ := hold a x ha
      exact hao (h.one_owner a o x ha ho)
    · rw [or_iff_right hxk]
      refine and_congr_right fun _ => forall_congr' fun a => ?_
      by_cases hao : a = o
      · subst hao
        simp [ho, Ne.symm hxk]
      · rw [update_of_ne hao]
  · exact h.one_owner a b x (hold a x ha).2 (hold b x hb).2
  · exact h.mem_all a x (hold a x ha).2

end Jacl.ResourcePools
