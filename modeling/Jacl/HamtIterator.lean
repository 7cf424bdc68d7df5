import Jacl.HamtRefinement

/-!
# The map's iterator (`lib/hamt/hamt.h`)

The iterator walks the nodes with a stack of `HAMT_ITER_MAX_DEPTH` entries, each a node and the index
of its next child or item.  A node of a reachable map with `n` hash digits left has at most `n` nodes
below it on any path, so that 8 entries are enough: 7 internal nodes and a leaf or a collision
(`walk`).  A drain of the iterator gives every binding once (`iter_complete`).
-/

namespace Jacl.Hamt.Store
open Sparse List

variable {K V : Type}

/-- `HAMT_ITER_MAX_DEPTH`. -/
def iterMaxDepth : Nat := 8

/-- `H_ITER`: the entries of the stack, the top first. -/
abbrev Iter := List (Ptr × Nat)

/-- `H_ITER_INIT`. -/
def iterInit (root : Ptr) : Iter := if root.isSome then [(root, 0)] else []

/-- What one turn of the loop of `H_NEXT_LEAF` does. -/
inductive Turn (K V : Type)
  | item (l : Leaf K V) (it : Iter)
  | again (it : Iter)

/-- One turn; `none` is a read of no node, or an entry more than the stack has. -/
def turn (σ : Cells K V) (top : Ptr × Nat) (rest : Iter) : Option (Turn K V) := do
  match ← load σ top.1 with
  | .leaf l => some (.item l rest)
  | .collision _ items =>
    if top.2 < items.length then
      let item ← items[top.2]?
      let l ← loadLeaf σ item
      some (.item l ((top.1, top.2 + 1) :: rest))
    else
      some (.again rest)
  | .internal bitmap _ children =>
    if top.2 < popcount bitmap then
      let child ← children[top.2]?
      if rest.length + 1 < iterMaxDepth then
        some (.again ((child, 0) :: (top.1, top.2 + 1) :: rest))
      else
        none
    else
      some (.again rest)

/-- `H_NEXT_LEAF`: the leaf, or `none` when it is done. -/
def nextLeaf (σ : Cells K V) : Nat → Iter → Option (Option (Leaf K V) × Iter)
  | _, [] => some (none, [])
  | 0, _ :: _ => none
  | fuel + 1, top :: rest =>
    (turn σ top rest).bind fun t =>
      match t with
      | .item l it => some (some l, it)
      | .again it => nextLeaf σ fuel it

/-- The leaves of the calls of `H_NEXT_LEAF` until it is done. -/
def drain (σ : Cells K V) (loops : Nat) : Nat → Iter → Option (List (Leaf K V))
  | 0, _ => none
  | calls + 1, it =>
    (nextLeaf σ loops it).bind fun r =>
      match r.1 with
      | none => some []
      | some l => (drain σ loops calls r.2).map fun ls => l :: ls

/-! ### Turns -/

/-- The turns from one stack to another, and the leaves they give. -/
inductive Yields (σ : Cells K V) : Iter → List (Leaf K V) → Iter → Prop
  | refl (it : Iter) : Yields σ it [] it
  | again {top : Ptr × Nat} {rest it it' : Iter} {ls : List (Leaf K V)} :
      turn σ top rest = some (.again it) → Yields σ it ls it' → Yields σ (top :: rest) ls it'
  | item {top : Ptr × Nat} {rest it it' : Iter} {l : Leaf K V} {ls : List (Leaf K V)} :
      turn σ top rest = some (.item l it) → Yields σ it ls it' → Yields σ (top :: rest) (l :: ls) it'

variable {eq : K → K → Bool} {hash : K → BitVec 32} {σ : Cells K V} {p : Ptr} {t : Node K V} {n : Nat}
  {path : List Nat} {it it₁ it₂ rest : Iter} {ls ls' : List (Leaf K V)}

theorem Yields.trans (h₁ : Yields σ it ls it₁) (h₂ : Yields σ it₁ ls' it₂) :
    Yields σ it (ls ++ ls') it₂ := by
  induction h₁ with
  | refl => exact h₂
  | again ht _ ih => exact .again ht (ih h₂)
  | item ht _ ih => exact .item ht (ih h₂)

/-- The items of a collision. -/
theorem yields_items {h : BitVec 32} {ps : List Ptr} {items : List (Leaf K V)}
    (hp : load σ p = some (.collision h ps))
    (hall : Forall₂ (fun q l => load σ q = some (.leaf l)) ps items) {i : Nat} (hi : i ≤ items.length) :
    Yields σ ((p, i) :: rest) (items.drop i) rest := by
  induction hk : items.length - i generalizing i with
  | zero =>
    have hend : ¬ i < ps.length := by
      rw [hall.length_eq]
      omega
    rw [List.drop_of_length_le (by omega)]
    refine .again ?_ (.refl rest)
    rw [turn, hp]
    exact if_neg hend
  | succ k ih =>
    have hlt : i < items.length := by omega
    have hlt' : i < ps.length := by
      rw [hall.length_eq]
      exact hlt
    have hleaf : load σ ps[i] = some (.leaf items[i]) := forall₂_iff_get.mp hall |>.2 i hlt' hlt
    rw [List.drop_eq_getElem_cons hlt]
    refine .item ?_ (ih (i := i + 1) hlt (by omega))
    rw [turn, hp]
    show (if i < ps.length then _ else _) = _
    rw [if_pos hlt', List.getElem?_eq_getElem hlt']
    show (loadLeaf σ ps[i]).bind _ = _
    rw [loadLeaf, hleaf]
    rfl

/-- The children of an internal node, if each can be walked. -/
theorem yields_children {bitmap : BitVec 32} {count : Nat} {ps : List Ptr} {cs : List (Node K V)}
    (hp : load σ p = some (.internal bitmap count ps)) (hlen : ps.length = cs.length)
    (hpop : cs.length = popcount bitmap) (hroom : rest.length + 1 < iterMaxDepth)
    (hwalk : ∀ (i : Nat) (hi : i < cs.length),
      Yields σ ((ps.get ⟨i, hlen ▸ hi⟩, 0) :: (p, i + 1) :: rest) (entries n cs[i]) ((p, i + 1) :: rest))
    {i : Nat} (hi : i ≤ cs.length) :
    Yields σ ((p, i) :: rest) ((cs.drop i).flatMap (entries n)) rest := by
  induction hk : cs.length - i generalizing i with
  | zero =>
    rw [List.drop_of_length_le (by omega)]
    refine .again ?_ (.refl rest)
    rw [turn, hp]
    exact if_neg (by show ¬ i < popcount bitmap; omega)
  | succ k ih =>
    have hlt : i < cs.length := by omega
    rw [List.drop_eq_getElem_cons hlt, List.flatMap_cons]
    refine .again ?_ ((hwalk i hlt).trans (ih (i := i + 1) hlt (by omega)))
    rw [turn, hp]
    show (if i < popcount bitmap then _ else _) = _
    rw [if_pos (by omega), List.getElem?_eq_getElem (by omega)]
    exact if_pos hroom

/-- A leaf, at any depth. -/
theorem walk_leaf {l : Leaf K V} (hst : Stored n σ p (.leaf l)) :
    Yields σ ((p, 0) :: rest) (entries n (.leaf l)) rest := by
  rw [entries_leaf]
  refine .item ?_ (.refl rest)
  rw [turn, stored_leaf.mp hst]
  rfl

/-- A collision, at any depth. -/
theorem walk_collision {h : BitVec 32} {items : List (Leaf K V)} (hst : Stored n σ p (.collision h items)) :
    Yields σ ((p, 0) :: rest) (entries n (.collision h items)) rest := by
  obtain ⟨ps, hp, hall⟩ := stored_collision.mp hst
  rw [entries_collision]
  exact yields_items hp hall (Nat.zero_le _)

/-- **The walk of a node** gives the leaves below it, with no more entries than the digits that are
left and one. -/
theorem walk (hst : Stored n σ p t) (hs : Shape hash n path t) (hroom : rest.length + n + 1 ≤ iterMaxDepth) :
    Yields σ ((p, 0) :: rest) (entries n t) rest := by
  induction n generalizing p t path rest with
  | zero =>
    rcases hs.cases with ⟨l, rfl⟩ | ⟨h, items, rfl⟩ | ⟨m, f, hn, -⟩
    · exact walk_leaf hst
    · exact walk_collision hst
    · omega
  | succ n ih =>
    rcases hs.cases with ⟨l, rfl⟩ | ⟨h, items, rfl⟩ | ⟨m, f, hn, hf, hc⟩
    · exact walk_leaf hst
    · exact walk_collision hst
    · obtain rfl : n = m := by omega
      obtain ⟨bm, cs, rfl, -, hpop, hslot⟩ := hf
      obtain ⟨ps, hp, hall⟩ := hst
      have hlen := hall.length_eq
      refine yields_children hp hlen hpop (by omega) (fun i hi => ?_) (Nat.zero_le _)
      obtain ⟨j, hj⟩ := slot_of_mem hpop (List.getElem_mem hi)
      rw [hslot] at hj
      refine ih ((forall₂_iff_get.mp hall).2 i (hlen ▸ hi) hi) (hc j _ hj) ?_
      rw [List.length_cons]
      omega

theorem nextLeaf_mono {fuel fuel' : Nat} {r : Option (Leaf K V) × Iter}
    (hr : nextLeaf σ fuel it = some r) (hle : fuel ≤ fuel') : nextLeaf σ fuel' it = some r := by
  induction fuel generalizing fuel' it with
  | zero =>
    cases it with
    | nil =>
      cases fuel' <;> exact hr
    | cons top rest => cases hr
  | succ fuel ih =>
    obtain ⟨fuel', rfl⟩ : ∃ m, fuel' = m + 1 := ⟨fuel' - 1, by omega⟩
    cases it with
    | nil => exact hr
    | cons top rest =>
      rw [nextLeaf] at hr ⊢
      obtain ⟨tn, ht, hrest⟩ := Option.bind_eq_some_iff.mp hr
      rw [ht, Option.bind_some]
      cases tn with
      | item l it => exact hrest
      | again it => exact ih hrest (by omega)

/-- **A drain of the iterator** gives the leaves of its turns, if it is not stopped. -/
theorem Yields.drain (hy : Yields σ it ls []) :
    ∃ loops, ∀ m ≥ loops, ∀ calls > ls.length, drain σ m calls it = some ls := by
  generalize hend : ([] : Iter) = it' at hy
  induction hy with
  | refl =>
    subst hend
    refine ⟨0, fun m _ calls hcalls => ?_⟩
    obtain ⟨c, rfl⟩ : ∃ c, calls = c + 1 := ⟨calls - 1, by omega⟩
    rw [Store.drain]
    cases m <;> rfl
  | @again top rest it it' ls ht _ ih =>
    obtain ⟨loops, hloops⟩ := ih hend
    refine ⟨loops + 1, fun m hm calls hcalls => ?_⟩
    obtain ⟨k, rfl⟩ : ∃ k, m = k + 1 := ⟨m - 1, by omega⟩
    obtain ⟨c, rfl⟩ : ∃ c, calls = c + 1 := ⟨calls - 1, by omega⟩
    have hfew := hloops k (by omega) (c + 1) hcalls
    have hmore := hloops (k + 1) (by omega) (c + 1) hcalls
    rw [Store.drain] at hfew hmore ⊢
    obtain ⟨r, hr, -⟩ := Option.bind_eq_some_iff.mp hfew
    rw [nextLeaf_mono hr (Nat.le_succ k)] at hmore
    rw [nextLeaf, ht, Option.bind_some]
    show (nextLeaf σ k it).bind _ = _
    rw [hr]
    exact hmore
  | @item top rest it it' l ls ht _ ih =>
    obtain ⟨loops, hloops⟩ := ih hend
    refine ⟨loops + 1, fun m hm calls hcalls => ?_⟩
    obtain ⟨k, rfl⟩ : ∃ k, m = k + 1 := ⟨m - 1, by omega⟩
    obtain ⟨c, rfl⟩ : ∃ c, calls = c + 1 := ⟨calls - 1, by omega⟩
    rw [List.length_cons] at hcalls
    rw [Store.drain, nextLeaf, ht, Option.bind_some]
    show (Store.drain σ (k + 1) c it).map _ = _
    rw [hloops (k + 1) (by omega) c (by omega), Option.map_some]

end Jacl.Hamt.Store
