import Mathlib.Data.List.Range
import Mathlib.Tactic

/-!
# Deques as lists

A double-ended queue whose one end is its owner's: pushes and takes are at the end of the list,
steals at its head.  A history of such events that replays hands out what was pushed, each element
at most once, and the rest is in the list (`Replays.perm`).
-/

namespace Jacl.Deques

variable {α : Type}

/-- What happened to a deque. -/
inductive Event (α : Type) where
  | push (x : α)
  | take (x : α)
  | steal (x : α)
deriving DecidableEq

/-- A deque is a list: pushes and takes at its end, steals at its head. -/
inductive Event.Does : Event α → List α → List α → Prop
  | push (l : List α) (x : α) : Does (.push x) l (l ++ [x])
  | take (l : List α) (x : α) : Does (.take x) (l ++ [x]) l
  | steal (l : List α) (x : α) : Does (.steal x) (x :: l) l

/-- A history of events, and the list it leaves. -/
inductive Replays : List (Event α) → List α → Prop
  | nil : Replays [] []
  | snoc {es : List (Event α)} {l l' : List α} {e : Event α} :
      Replays es l → e.Does l l' → Replays (es ++ [e]) l'

/-- The elements of an event list that were pushed, and those that were handed out. -/
def pushed : List (Event α) → List α
  | [] => []
  | .push x :: es => x :: pushed es
  | _ :: es => pushed es

def returned : List (Event α) → List α
  | [] => []
  | .push _ :: es => returned es
  | .take x :: es => x :: returned es
  | .steal x :: es => x :: returned es

theorem pushed_append (es es' : List (Event α)) : pushed (es ++ es') = pushed es ++ pushed es' := by
  induction es with
  | nil => rfl
  | cons e es ih => cases e <;> simp [pushed, ih]

theorem returned_append (es es' : List (Event α)) :
    returned (es ++ es') = returned es ++ returned es' := by
  induction es with
  | nil => rfl
  | cons e es ih => cases e <;> simp [returned, ih]

/-- Nothing that was pushed is lost, and nothing is handed out twice. -/
theorem Replays.perm {es : List (Event α)} {l : List α} (h : Replays es l) :
    (returned es ++ l).Perm (pushed es) := by
  induction h with
  | nil => exact .refl _
  | snoc _ hd ih =>
    rw [pushed_append, returned_append]
    cases hd with
    | push l x => simpa [pushed, returned] using ih.append_right [x]
    | take l x =>
      simp only [pushed, returned, List.append_assoc, List.append_nil]
      refine .trans ?_ ih
      exact .append_left _ List.perm_append_comm
    | steal l x => simpa [pushed, returned, List.append_assoc] using ih

/-! ### The elements between two indices -/

/-- The values of `f` from `a` up to `b`. -/
def window (f : Int → α) (a b : Int) : List α := (List.range (b - a).toNat).map fun j : Nat => f (a + j)

variable {a b : Int} {f g : Int → α}

theorem window_congr (h : ∀ k, a ≤ k → k < b → f k = g k) : window f a b = window g a b := by
  apply List.map_congr_left
  intro k hk
  have hlt := List.mem_range.mp hk
  exact h _ (by omega) (by omega)

theorem window_empty (h : b ≤ a) : window f a b = [] := by
  rw [window, Int.toNat_of_nonpos (by omega)]
  rfl

/-- One more at the end. -/
theorem window_concat (h : a ≤ b) : window f a (b + 1) = window f a b ++ [f b] := by
  rw [window, window, show (b + 1 - a).toNat = (b - a).toNat + 1 by omega, List.range_succ,
    List.map_append, List.map_singleton, show a + ((b - a).toNat : Int) = b by omega]

/-- One less at the head. -/
theorem window_cons (h : a < b) : window f a b = f a :: window f (a + 1) b := by
  rw [window, window, show (b - a).toNat = (b - (a + 1)).toNat + 1 by omega, List.range_succ_eq_map,
    List.map_cons, List.map_map]
  congr 1
  · simp
  · apply List.map_congr_left
    intro k _
    simp only [Function.comp_apply, Nat.succ_eq_add_one, Nat.cast_add, Nat.cast_one]
    congr 1
    omega

end Jacl.Deques
