import Jacl.RrbVec
import Mathlib.Tactic

/-!
# What a vector denotes

A node of depth `h` denotes the concatenation of its leaves (`elems`).  A tree is
**indexable** (`Indexable`) when every node can be read the way `RV_GET` reads it:
a relaxed node's size table holds the cumulative counts of its children, and a
strict node's children, except perhaps the last, are full.  Reading an indexable
tree of depth at most 6 returns the element the list has there (`walk_spec`);
the depth bound is what keeps the shifts of strict nodes below 32.

`Valid` is the representation invariant of whole vectors, and `get_spec` says that
a valid vector of depth at most 6 denotes its list.
-/

namespace Jacl.RrbVec
open Segments

variable {α : Type}

/-- What a node of depth `h` holds: the leaves below it, in order. -/
def elems : Nat → Node α → List α
  | 0, .leaf l => l.elements.take l.count
  | h + 1, .internal _ children => children.flatMap (elems h)
  | _, _ => []

/-- The element counts of a node's children. -/
def counts (h : Nat) (children : List (Node α)) : List Nat :=
  children.map fun c => (elems h c).length

/-- Children with these counts, one level below shift `level`, can be found from
`sizeTable`: it holds the cumulative counts, or there is none and every child but
the last is full. -/
def TableFits (level : Nat) : Option (List Nat) → List Nat → Prop
  | some sizeTable, lens => sizeTable = cumulative 0 lens
  | none, lens => ∀ n ∈ lens.dropLast, n = 2 ^ level

/-- A leaf as the code builds them: all slots allocated, some used. -/
def Leaf.Ok (l : Leaf α) : Prop := l.elements.length = branch ∧ l.count ≤ branch

/-- The tree below a node of depth `h` can be read at every index. -/
def Indexable : Nat → Node α → Prop
  | 0, .leaf l => l.Ok ∧ 0 < l.count
  | h + 1, .internal sizeTable children =>
    children ≠ [] ∧ children.length ≤ branch ∧ (∀ c ∈ children, Indexable h c) ∧
      TableFits (bits * (h + 1)) sizeTable (counts h children)
  | _, _ => False

@[simp] theorem elems_leaf (l : Leaf α) : elems 0 (.leaf l) = l.elements.take l.count := rfl

@[simp] theorem elems_internal (h : Nat) (st : Option (List Nat)) (cs : List (Node α)) :
    elems (h + 1) (.internal st cs) = cs.flatMap (elems h) := rfl

@[simp] theorem elems_null (h : Nat) : elems h (.null : Node α) = [] := by cases h <;> rfl

theorem Leaf.Ok.length_take {l : Leaf α} (hl : l.Ok) : (l.elements.take l.count).length = l.count := by
  rw [List.length_take, hl.1, Nat.min_eq_left hl.2]

theorem Indexable.not_null {h : Nat} {n : Node α} (hn : Indexable h n) : n ≠ .null := by
  rintro rfl
  cases h <;> exact hn

/-- An indexable node above a leaf is internal. -/
theorem Indexable.internal {h : Nat} {n : Node α} (hn : Indexable (h + 1) n) :
    ∃ st cs, n = .internal st cs := by
  cases n with
  | null => exact hn.elim
  | leaf l => exact hn.elim
  | internal st cs => exact ⟨st, cs, rfl⟩

/-- **Capacity**: a node of depth `h` holds at least one element and at most
`32 ^ (h + 1)`. -/
theorem Indexable.length_bounds {h : Nat} {n : Node α} (hn : Indexable h n) :
    0 < (elems h n).length ∧ (elems h n).length ≤ 2 ^ (bits * (h + 1)) := by
  induction h generalizing n with
  | zero =>
    cases n with
    | null => exact hn.elim
    | internal st cs => exact hn.elim
    | leaf l =>
      rw [elems_leaf, hn.1.length_take]
      exact ⟨hn.2, hn.1.2⟩
  | succ h ih =>
    obtain ⟨st, cs, rfl⟩ := hn.internal
    obtain ⟨hne, hlen, hcs, -⟩ := hn
    rw [elems_internal, List.flatMap_def]
    constructor
    · obtain ⟨c, cs', rfl⟩ := List.exists_cons_of_ne_nil hne
      have := (ih (hcs c List.mem_cons_self)).1
      simp only [List.map_cons, List.flatten_cons, List.length_append]
      omega
    · have hle : ∀ s ∈ cs.map (elems h), s.length ≤ 2 ^ (bits * (h + 1)) := by
        intro s hs
        obtain ⟨c, hc, rfl⟩ := List.mem_map.mp hs
        exact (ih (hcs c hc)).2
      calc ((cs.map (elems h)).flatten).length
          ≤ (cs.map (elems h)).length * 2 ^ (bits * (h + 1)) := length_flatten_le hle
        _ ≤ branch * 2 ^ (bits * (h + 1)) := by
            rw [List.length_map]; exact Nat.mul_le_mul_right _ hlen
        _ = 2 ^ (bits * (h + 1 + 1)) := by
            rw [show branch = 2 ^ 5 from rfl, ← pow_add, bits]; congr 1; ring

/-! ### Reading -/

/-- **One level of the walk.**  The slot an indexable node takes for an index is a
child holding the index, and the index left over is the position in that child. -/
theorem slotAt_spec {h i : Nat} {st : Option (List Nat)} {cs : List (Node α)}
    (hn : Indexable (h + 1) (.internal st cs)) (hshift : st = none → bits * (h + 1) < 32)
    (hi : i < (cs.flatMap (elems h)).length) :
    ∃ k j c, slotAt (bits * (h + 1)) st i = some (k, j) ∧ cs[k]? = some c ∧
      j < (elems h c).length ∧ ((cs.take k).flatMap (elems h)).length + j = i := by
  obtain ⟨hne, hlen, hcs, hfits⟩ := hn
  rw [List.flatMap_def] at hi
  have hchild : ∀ {k : Nat} {s : List α}, (cs.map (elems h))[k]? = some s →
      ∃ c, cs[k]? = some c ∧ elems h c = s := by
    intro k s hs
    rwa [List.getElem?_map, Option.map_eq_some_iff] at hs
  cases st with
  | some table =>
    obtain rfl : table = cumulative 0 ((cs.map (elems h)).map List.length) := by
      rw [hfits, counts, List.map_map]; rfl
    obtain ⟨k, s, j, hfind, hs, hj, hpos⟩ := find_cumulative (a := 0) hi
    obtain ⟨c, hc, rfl⟩ := hchild hs
    refine ⟨k, j, c, ?_, hc, hj, ?_⟩
    · simp only [Nat.zero_add] at hfind
      simp only [slotAt, hfind, Option.bind_eq_bind, Option.bind_some, Option.some.injEq,
        Prod.mk.injEq, true_and]
      -- the entry before slot `k` is the length of the first `k` children
      have hk : k < (cs.map (elems h)).length := (List.getElem?_eq_some_iff.mp hs).1
      split
      · rename_i hpos0
        rw [List.getD_eq_getElem?_getD, getElem?_cumulative (by rw [List.length_map]; omega),
          Option.getD_some, show k - 1 + 1 = k from by omega, ← List.map_take,
          ← List.length_flatten]
        omega
      · rw [show k = 0 from by omega] at hpos
        simpa using hpos.symm
    · rw [List.flatMap_def, List.map_take]
      exact hpos
  | none =>
    have hfull : ∀ s ∈ (cs.map (elems h)).dropLast, s.length = 2 ^ (bits * (h + 1)) := by
      intro s hs
      refine hfits s.length ?_
      rw [counts, show (fun c => (elems h c).length) = List.length ∘ elems h from rfl,
        ← List.map_map, ← List.map_dropLast]
      exact List.mem_map_of_mem hs
    have hle : ∀ s ∈ cs.map (elems h), s.length ≤ 2 ^ (bits * (h + 1)) := by
      intro s hs
      obtain ⟨c, hc, rfl⟩ := List.mem_map.mp hs
      exact (hcs c hc).length_bounds.2
    obtain ⟨s, hs, hj, hpos⟩ := radix_locate (Nat.two_pow_pos _) hfull hle hi
    obtain ⟨c, hc, rfl⟩ := hchild hs
    have hk : i / 2 ^ (bits * (h + 1)) < branch :=
      Nat.lt_of_lt_of_le (List.getElem?_eq_some_iff.mp hc).1 hlen
    refine ⟨i / 2 ^ (bits * (h + 1)), i % 2 ^ (bits * (h + 1)), c, ?_, hc, hj, ?_⟩
    · have hmod : i - i / 2 ^ (bits * (h + 1)) * 2 ^ (bits * (h + 1)) = i % 2 ^ (bits * (h + 1)) := by
        have := Nat.div_add_mod i (2 ^ (bits * (h + 1)))
        rw [Nat.mul_comm]
        omega
      simp only [slotAt, if_pos (hshift rfl), Nat.shiftRight_eq_div_pow, Nat.mod_eq_of_lt hk,
        Nat.shiftLeft_eq, hmod]
    · rw [List.flatMap_def, List.map_take]
      exact hpos

/-- The position of an index in a child, in the list of the whole node. -/
theorem elems_locate {h k j : Nat} {st : Option (List Nat)} {cs : List (Node α)} {c : Node α}
    (hc : cs[k]? = some c) (hj : j < (elems h c).length) :
    (elems (h + 1) (.internal st cs))[((cs.take k).flatMap (elems h)).length + j]? =
      (elems h c)[j]? := by
  have hs : (cs.map (elems h))[k]? = some (elems h c) := by rw [List.getElem?_map, hc]; rfl
  have := flatten_locate hs hj
  rwa [← List.map_take, ← List.flatMap_def, ← List.flatMap_def] at this

/-- **The walk of `jvec_get`.**  In an indexable tree whose shifts stay below 32,
the walk ends in the leaf that holds the indexed element. -/
theorem walk_spec {h : Nat} {n : Node α} (hn : Indexable h n) (hh : h ≤ 6) {i : Nat}
    (hi : i < (elems h n).length) :
    ∃ l j, walk h n i = some (l, j) ∧ l.elements[j]? = (elems h n)[i]? := by
  induction h generalizing n i with
  | zero =>
    cases n with
    | null => exact hn.elim
    | internal st cs => exact hn.elim
    | leaf l =>
      refine ⟨l, i, rfl, ?_⟩
      rw [elems_leaf, hn.1.length_take] at hi
      rw [elems_leaf, List.getElem?_take_of_lt hi]
  | succ h ih =>
    obtain ⟨st, cs, rfl⟩ := hn.internal
    obtain ⟨k, j, c, hslot, hc, hj, hpos⟩ :=
      slotAt_spec hn (fun _ => by rw [bits]; omega) hi
    have hcs : Indexable h c := hn.2.2.1 c (List.mem_of_getElem? hc)
    obtain ⟨l, j', hwalk, hget⟩ := ih hcs (by omega) hj
    refine ⟨l, j', ?_, ?_⟩
    · rw [walk, hslot]
      simp only [Option.bind_eq_bind, Option.bind_some]
      rw [List.getD_eq_getElem?_getD, hc, Option.getD_some, hwalk]
    · rw [hget, ← hpos, elems_locate hc hj]

/-! ### Vectors -/

/-- **The list a vector denotes**: its tree, then its tail. -/
def Root.toList (r : Root α) : List α :=
  elems r.depth r.root ++ r.tail.elements.take r.tail.count

/-- **The representation invariant.**  A missing tree has depth 1.  A strict root
never lies above depth 6: only `jvec_push_back` builds one, and it stops there. -/
structure Valid (r : Root α) : Prop where
  depth_pos : 0 < r.depth
  tree : r.root = .null ∧ r.depth = 1 ∨ Indexable r.depth r.root
  strict : ∀ cs, r.root = .internal none cs → r.depth ≤ 6
  tail_ok : r.tail.Ok
  tail_pos : r.count ≠ 0 → 0 < r.tail.count
  count_eq : r.count = r.toList.length
  bound : r.count < 2 ^ 32

theorem length_toList {r : Root α} (ht : r.tail.Ok) :
    r.toList.length = (elems r.depth r.root).length + r.tail.count := by
  rw [Root.toList, List.length_append, ht.length_take]

theorem Valid.count_split {r : Root α} (hr : Valid r) :
    r.count = (elems r.depth r.root).length + r.tail.count := by
  rw [hr.count_eq, length_toList hr.tail_ok]

theorem sub32_of_le {a b : Nat} (hab : b ≤ a) (ha : a < 2 ^ 32) : sub32 a b = a - b := by
  rw [sub32, show a + 2 ^ 32 - b = a - b + 2 ^ 32 from by omega, Nat.add_mod_right,
    Nat.mod_eq_of_lt (by omega)]

theorem Valid.sub32_count {r : Root α} (hr : Valid r) :
    sub32 r.count r.tail.count = (elems r.depth r.root).length := by
  have h := hr.count_split
  rw [sub32_of_le (by omega) hr.bound]
  omega

theorem Valid.tailOffset_eq {r : Root α} (hr : Valid r) :
    tailOffset r = (elems r.depth r.root).length := by
  have h := hr.count_split
  unfold tailOffset
  split
  · omega
  · exact hr.sub32_count

/-- A read in the tail does not depend on the tree. -/
theorem get_tail {r : Root α} (hr : Valid r) {i : Nat} (hi : (elems r.depth r.root).length ≤ i) :
    get r i = some r.toList[i]? := by
  have hsplit := hr.count_split
  unfold get
  rw [hr.tailOffset_eq, if_pos hi]
  split
  · rename_i hge
    rw [List.getElem?_eq_none (by rw [← hr.count_eq]; exact hge)]
  · rename_i hlt
    rw [Root.toList, List.getElem?_append_right hi, List.getElem?_take_of_lt (by omega),
      List.getElem?_eq_getElem (by rw [hr.tail_ok.1]; have := hr.tail_ok.2; omega)]
    rfl

/-- **A valid vector of depth at most 6 denotes its list**: every read is defined
and returns the element at that index. -/
theorem get_spec {r : Root α} (hr : Valid r) (hd : r.depth ≤ 6) (i : Nat) :
    get r i = some r.toList[i]? := by
  rcases Nat.lt_or_ge i (elems r.depth r.root).length with hlt | hge
  · have hsplit := hr.count_split
    have hn : Indexable r.depth r.root := by
      rcases hr.tree with ⟨h0, -⟩ | hn
      · rw [h0, elems_null] at hlt
        exact absurd hlt (Nat.not_lt_zero _)
      · exact hn
    obtain ⟨l, j, hwalk, hget⟩ := walk_spec hn hd hlt
    unfold get
    rw [hr.tailOffset_eq, if_neg (by omega), if_neg (by omega), Root.toList,
      List.getElem?_append_left hlt, hwalk]
    simp only [Option.bind_eq_bind, Option.bind_some, hget, List.getElem?_eq_getElem hlt,
      Option.map_some]
  · exact get_tail hr hge

end Jacl.RrbVec
