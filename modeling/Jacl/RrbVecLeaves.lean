import Jacl.RrbVecEdit
import Jacl.RrbVecInvariant

/-!
# The leaves of a vector

A vector's list is cut into its leaves (`leaves`, `Root.leaves`).  On a valid
vector of depth at most 6 `RV_FIND_LEAF_OFF` finds the leaf that holds an index and
the length of what stands before it (`findLeafOff_spec`).  The iterator keeps the
leaf it is in and asks for another one when it has passed its end, so that it gives
the list's elements in order, each once (`iterAll_spec`).
-/

namespace Jacl.RrbVec
open Segments

variable {α : Type}

/-! ### Leaves -/

/-- What a leaf holds. -/
def Leaf.toList (l : Leaf α) : List α := l.elements.take l.count

/-- The leaves of a tree of depth `h`, in order. -/
def leaves : Nat → Node α → List (Leaf α)
  | 0, .leaf l => [l]
  | h + 1, .internal _ children => children.flatMap (leaves h)
  | _, _ => []

/-- The leaves of the tree, then the tail. -/
def Root.leaves (r : Root α) : List (Leaf α) := RrbVec.leaves r.depth r.root ++ [r.tail]

@[simp] theorem leaves_null (h : Nat) : leaves h (.null : Node α) = [] := by cases h <;> rfl

@[simp] theorem leaves_internal (h : Nat) (st : Option (List Nat)) (cs : List (Node α)) :
    leaves (h + 1) (.internal st cs) = cs.flatMap (leaves h) := rfl

theorem Leaf.Ok.length_toList {l : Leaf α} (hl : l.Ok) : l.toList.length = l.count :=
  hl.length_take

theorem elems_eq_leaves (h : Nat) (n : Node α) : elems h n = (leaves h n).flatMap Leaf.toList := by
  induction h generalizing n with
  | zero => cases n <;> simp [elems, leaves, Leaf.toList]
  | succ h ih =>
    cases n with
    | null => rfl
    | leaf l => rfl
    | internal st cs =>
      rw [elems_internal, leaves_internal, List.flatMap_assoc]
      exact congrArg (fun f => cs.flatMap f) (funext ih)

theorem Root.toList_eq (r : Root α) : r.toList = r.leaves.flatMap Leaf.toList := by
  rw [Root.toList, Root.leaves, List.flatMap_append, ← elems_eq_leaves]
  simp [Leaf.toList]

theorem Indexable.leaf_ok {h : Nat} {n : Node α} (hn : Indexable h n) :
    ∀ l ∈ leaves h n, l.Ok ∧ 0 < l.count := by
  induction h generalizing n with
  | zero =>
    cases n with
    | null => exact hn.elim
    | internal st cs => exact hn.elim
    | leaf l =>
      intro l' hl'
      exact List.mem_singleton.mp hl' ▸ hn
  | succ h ih =>
    obtain ⟨st, cs, rfl⟩ := hn.internal
    intro l hl
    obtain ⟨c, hc, hl⟩ := List.mem_flatMap.mp hl
    exact ih (hn.2.2.1 c hc) l hl

theorem Indexable.length_leaves {h : Nat} {n : Node α} (hn : Indexable h n) :
    (leaves h n).length ≤ branch ^ h := by
  induction h generalizing n with
  | zero => cases n <;> simp [leaves]
  | succ h ih =>
    obtain ⟨st, cs, rfl⟩ := hn.internal
    have hle : ∀ s ∈ cs.map (leaves h), s.length ≤ branch ^ h := by
      intro s hs
      obtain ⟨c, hc, rfl⟩ := List.mem_map.mp hs
      exact ih (hn.2.2.1 c hc)
    have hlen := length_flatten_le hle
    rw [List.length_map] at hlen
    calc (leaves (h + 1) (.internal st cs)).length
        ≤ cs.length * branch ^ h := by rw [leaves_internal, List.flatMap_def]; exact hlen
      _ ≤ branch * branch ^ h := Nat.mul_le_mul_right _ hn.2.1
      _ = branch ^ (h + 1) := by rw [pow_succ, Nat.mul_comm]

/-- **The walk, leaf by leaf**: it ends in the leaf that holds the index, after the
leaves before it. -/
theorem walk_leaf {h : Nat} {n : Node α} (hn : Indexable h n) (hh : h ≤ 6) {i : Nat}
    (hi : i < (elems h n).length) :
    ∃ l j pre post, walk h n i = some (l, j) ∧ leaves h n = pre ++ l :: post ∧ j < l.count ∧
      (pre.flatMap Leaf.toList).length + j = i := by
  induction h generalizing n i with
  | zero =>
    cases n with
    | null => exact hn.elim
    | internal st cs => exact hn.elim
    | leaf l =>
      rw [elems_leaf, hn.1.length_take] at hi
      exact ⟨l, i, [], [], rfl, rfl, hi, by simp⟩
  | succ h ih =>
    obtain ⟨st, cs, rfl⟩ := hn.internal
    obtain ⟨k, j, c, hslot, hc, hj, hpos⟩ :=
      slotAt_spec hn (fun _ => by rw [bits]; omega) hi
    obtain ⟨l, j', pre, post, hwalk, hleaves, hj', hpos'⟩ :=
      ih (hn.2.2.1 c (List.mem_of_getElem? hc)) (by omega) hj
    obtain ⟨hk, rfl⟩ := List.getElem?_eq_some_iff.mp hc
    have hcs : cs = cs.take k ++ cs[k] :: cs.drop (k + 1) := by
      rw [← List.drop_eq_getElem_cons hk, List.take_append_drop]
    refine ⟨l, j', (cs.take k).flatMap (leaves h) ++ pre,
      post ++ (cs.drop (k + 1)).flatMap (leaves h), ?_, ?_, hj', ?_⟩
    · rw [walk, hslot]
      simp only [Option.bind_eq_bind, Option.bind_some]
      rw [List.getD_eq_getElem?_getD, hc, Option.getD_some, hwalk]
    · rw [leaves_internal]
      conv_lhs => rw [hcs]
      rw [List.flatMap_append, List.flatMap_cons, hleaves]
      simp
    · have hbefore : ((cs.take k).flatMap (leaves h)).flatMap Leaf.toList =
          (cs.take k).flatMap (elems h) := by
        rw [List.flatMap_assoc]
        exact congrArg (fun f => (cs.take k).flatMap f) (funext (elems_eq_leaves h)).symm
      rw [List.flatMap_append, List.length_append, hbefore, Nat.add_assoc, hpos', hpos]

/-- Leaf `l` holds index `i` of the vector, and stands after the leaves `pre`. -/
structure LeafAt (r : Root α) (i : Nat) (pre : List (Leaf α)) (l : Leaf α)
    (post : List (Leaf α)) : Prop where
  leaves : r.leaves = pre ++ l :: post
  le : (pre.flatMap Leaf.toList).length ≤ i
  lt : i < (pre.flatMap Leaf.toList).length + l.count

theorem Valid.leaf_ok {r : Root α} (hr : Valid r) (hne : r.count ≠ 0) :
    ∀ l ∈ r.leaves, l.Ok ∧ 0 < l.count := by
  intro l hl
  rcases List.mem_append.mp hl with hl | hl
  · rcases hr.tree with ⟨hnull, -⟩ | hn
    · rw [hnull, leaves_null] at hl
      cases hl
    · exact hn.leaf_ok l hl
  · rw [List.mem_singleton.mp hl]
    exact ⟨hr.tail_ok, hr.tail_pos hne⟩

theorem Valid.indexable {r : Root α} (hr : Valid r) {i : Nat}
    (hi : i < (elems r.depth r.root).length) : Indexable r.depth r.root := by
  rcases hr.tree with ⟨hnull, -⟩ | hn
  · rw [hnull, elems_null] at hi
    exact absurd hi (Nat.not_lt_zero _)
  · exact hn

/-- **`RV_FIND_LEAF_OFF`** finds the leaf that holds an index. -/
theorem findLeafOff_spec {r : Root α} (hr : Valid r) (hd : r.depth ≤ 6) {i : Nat}
    (hi : i < r.count) :
    ∃ l pre post, findLeafOff r i = some (l, (pre.flatMap Leaf.toList).length) ∧
      LeafAt r i pre l post := by
  have hsplit := hr.count_split
  have hbound := hr.bound
  have htree := elems_eq_leaves r.depth r.root
  rcases Nat.lt_or_ge i (elems r.depth r.root).length with hlt | hge
  · obtain ⟨l, j, pre, post, hwalk, hleaves, hj, hpos⟩ := walk_leaf (hr.indexable hlt) hd hlt
    refine ⟨l, pre, post ++ [r.tail], ?_, ?_, by omega, by omega⟩
    · rw [findLeafOff, hr.tailOffset_eq, if_neg (by omega), hwalk]
      simp only [Option.bind_eq_bind, Option.bind_some]
      rw [sub32_of_le (by omega) (by omega), show i - j = (pre.flatMap Leaf.toList).length by omega]
    · rw [Root.leaves, hleaves]
      simp
  · refine ⟨r.tail, RrbVec.leaves r.depth r.root, [], ?_, rfl, ?_, ?_⟩
    · rw [findLeafOff, hr.tailOffset_eq, if_pos hge, ← htree]
    · rw [← htree]
      exact hge
    · rw [← htree]
      omega

namespace LeafAt
variable {r : Root α} {i : Nat} {pre post : List (Leaf α)} {l : Leaf α}

theorem ok (h : LeafAt r i pre l post) (hr : Valid r) (hne : r.count ≠ 0) : l.Ok ∧ 0 < l.count :=
  hr.leaf_ok hne l (by rw [h.leaves]; simp)

theorem toList_eq (h : LeafAt r i pre l post) :
    r.toList = pre.flatMap Leaf.toList ++ (l.toList ++ post.flatMap Leaf.toList) := by
  rw [r.toList_eq, h.leaves, List.flatMap_append, List.flatMap_cons]

/-- The element at the index. -/
theorem elem (h : LeafAt r i pre l post) (hr : Valid r) (hne : r.count ≠ 0) :
    l.elements[i - (pre.flatMap Leaf.toList).length]? = r.toList[i]? := by
  have hlen := (h.ok hr hne).1.length_toList
  have hlt := h.lt
  have hle := h.le
  rw [h.toList_eq, List.getElem?_append_right h.le, List.getElem?_append_left (by omega),
    Leaf.toList, List.getElem?_take_of_lt (by omega)]

end LeafAt

/-! ### The iterator -/

/-- An iterator over `r` that gives element `i` next: unless the vector is empty,
it keeps a leaf that begins at or before `i`. -/
structure IterAt (r : Root α) (i : Nat) (it : Iter α) : Prop where
  root : it.root = r
  index : it.index = i
  leaf : r.count ≠ 0 → ∃ pre l post, it.leaf = some l ∧ r.leaves = pre ++ l :: post ∧
    it.leafBase = (pre.flatMap Leaf.toList).length ∧ it.leafBase ≤ i

theorem iterInit_spec {r : Root α} (hr : Valid r) (hd : r.depth ≤ 6) :
    ∃ it, iterInit r = some it ∧ IterAt r 0 it := by
  by_cases hpos : 0 < r.count
  · obtain ⟨l, pre, post, hfind, hat⟩ := findLeafOff_spec hr hd hpos
    refine ⟨⟨r, 0, some l, (pre.flatMap Leaf.toList).length⟩, ?_, rfl, rfl, ?_⟩
    · rw [iterInit, if_pos hpos, hfind]
      rfl
    · intro _
      exact ⟨pre, l, post, rfl, hat.leaves, rfl, hat.le⟩
  · refine ⟨⟨r, 0, none, 0⟩, by rw [iterInit, if_neg hpos], rfl, rfl, ?_⟩
    intro hne
    exact absurd (Nat.pos_of_ne_zero hne) hpos

/-- **One call of the iterator** gives the element it stands at and moves on. -/
theorem iterNext_spec {r : Root α} (hr : Valid r) (hd : r.depth ≤ 6) {i : Nat} {it : Iter α}
    (hit : IterAt r i it) (hi : i < r.count) :
    ∃ x it', iterNext it = some (some (x, it')) ∧ r.toList[i]? = some x ∧ IterAt r (i + 1) it' := by
  have hne : r.count ≠ 0 := by omega
  have hbound := hr.bound
  obtain ⟨pre, l, post, hleaf, hleaves, hbase, hle⟩ := hit.leaf hne
  have hlocal : sub32 it.index it.leafBase = i - it.leafBase := by
    rw [hit.index]
    exact sub32_of_le hle (by omega)
  -- the leaf the value is read from, kept or found anew
  obtain ⟨l', pre', post', hnext, hat⟩ : ∃ l' pre' post',
      (if l.count ≤ sub32 it.index it.leafBase then findLeafOff it.root it.index
        else some (l, it.leafBase)) = some (l', (pre'.flatMap Leaf.toList).length) ∧
      LeafAt r i pre' l' post' := by
    by_cases hend : l.count ≤ sub32 it.index it.leafBase
    · rw [if_pos hend, hit.root, hit.index]
      exact findLeafOff_spec hr hd hi
    · rw [if_neg hend]
      exact ⟨l, pre, post, by rw [hbase], hleaves, by omega, by omega⟩
  have helem := hat.elem hr hne
  obtain ⟨x, hx⟩ : ∃ x, r.toList[i]? = some x :=
    ⟨_, List.getElem?_eq_getElem (by rw [← hr.count_eq]; exact hi)⟩
  refine ⟨x, ⟨r, i + 1, some l', (pre'.flatMap Leaf.toList).length⟩, ?_, hx, rfl, rfl, ?_⟩
  · rw [iterNext, hit.root, hit.index, if_neg (by omega), hleaf]
    simp only [Option.bind_eq_bind, Option.bind_some]
    rw [hit.root, hit.index] at hnext
    rw [hnext]
    simp only [Option.bind_some]
    rw [sub32_of_le hat.le (by omega), helem, hx, Nat.mod_eq_of_lt (by omega)]
    rfl
  · intro _
    exact ⟨pre', l', post', rfl, hat.leaves, rfl, Nat.le_succ_of_le hat.le⟩

theorem iterAll_from {r : Root α} (hr : Valid r) (hd : r.depth ≤ 6) {fuel i : Nat} {it : Iter α}
    (hit : IterAt r i it) (hi : i ≤ r.count) (hfuel : r.count - i < fuel) :
    iterAll fuel it = some (r.toList.drop i) := by
  induction fuel generalizing i it with
  | zero => omega
  | succ fuel ih =>
    rcases Nat.lt_or_ge i r.count with hlt | hge
    · obtain ⟨x, it', hnext, hx, hit'⟩ := iterNext_spec hr hd hit hlt
      obtain ⟨hlen, hx⟩ := List.getElem?_eq_some_iff.mp hx
      rw [iterAll, hnext]
      simp only
      rw [ih hit' hlt (by omega), Option.map_some, List.drop_eq_getElem_cons hlen, hx]
    · have hdone : iterNext it = some none := by
        rw [iterNext, hit.root, hit.index, if_pos hge]
      rw [iterAll, hdone, List.drop_eq_nil_of_le (by rw [← hr.count_eq]; exact hge)]

/-- **The iterator gives the elements in order, each once**, and is then done. -/
theorem iterAll_spec {r : Root α} (hr : Valid r) (hd : r.depth ≤ 6) :
    ∃ it, iterInit r = some it ∧ iterAll (r.count + 1) it = some r.toList := by
  obtain ⟨it, hinit, hit⟩ := iterInit_spec hr hd
  have hall := iterAll_from hr hd hit (Nat.zero_le _) (show r.count - 0 < r.count + 1 by omega)
  exact ⟨it, hinit, by rw [hall, List.drop_zero]⟩

end Jacl.RrbVec
