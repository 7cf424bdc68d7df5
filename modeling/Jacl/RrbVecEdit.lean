import Jacl.RrbVec

/-!
# Editing a vector (`lib/rrb_vec/rrb_vec.h`)

The operations of the vector template besides `jvec_push_back` and `jvec_concat`:
`jvec_pop_back`, `jvec_slice`, `jvec_insert`, `jvec_remove`, `jvec_from_array` and
the iterator, with the helpers they call.  `jvec_push_front`, `jvec_pop_front`,
`jvec_map`, `jvec_filter` and `jvec_sort` build their results with these and with
`jvec_push_back` and `jvec_concat` alone.

As in `RrbVec`, `none` is an operation that leaves C's defined behaviour; an
operation that returns `NULL` or `found = false` returns `some none`.
-/

namespace Jacl.RrbVec
variable {α : Type}

/-! ### Pop -/

/-- A new leaf with a copy of `n` elements of `src` from `start`. -/
def partialLeaf [Zero α] (src : List α) (start n : Nat) : Option (Leaf α) :=
  if start + n ≤ src.length ∧ n ≤ branch then
    some ⟨n, (src.drop start).take n ++ List.replicate (branch - n) 0⟩
  else
    none

/-- `RV_RIGHTMOST_LEAF` at shift `bits * depth`. -/
def rightmostLeaf : Nat → Node α → Option (Leaf α)
  | 0, .leaf l => some l
  | depth + 1, .internal _ children =>
    rightmostLeaf depth (children.getD (children.length - 1) .null)
  | _, _ => none

/-- `RV_REMOVE_RIGHTMOST` at shift `bits * depth`.  The size table is copied as far
as there are children: where the last child was replaced, its entry is the old one. -/
def removeRightmost : Nat → Node α → Option (Node α)
  | 1, .internal sizeTable children =>
    if children.length = 0 then
      none
    else if children.length = 1 then
      some .null
    else
      some (.internal (sizeTable.map (List.take (children.length - 1)))
        (children.take (children.length - 1)))
  | depth + 2, .internal sizeTable children => do
    let newChild ← removeRightmost (depth + 1) (children.getD (children.length - 1) .null)
    match newChild with
    | .null =>
      if children.length = 1 then
        some .null
      else
        some (.internal (sizeTable.map (List.take (children.length - 1)))
          (children.take (children.length - 1)))
    | newChild =>
      some (.internal (sizeTable.map (List.take children.length))
        (children.set (children.length - 1) newChild))
  | _, _ => none

/-- The loop of `RV_POP_BACK` that drops roots with a single child. -/
def shrinkRoot : Nat → Node α → Option (Node α × Nat)
  | depth + 2, .internal _ [child] => shrinkRoot (depth + 1) child
  | _ + 2, .leaf _ => none
  | depth, node => some (node, depth)

section
variable [Zero α]

/-- `jvec_pop_back`. -/
def popBack (r : Root α) : Option (Option (α × Root α)) :=
  if r.count = 0 then
    some none
  else do
    let popped ← r.tail.elements[sub32 r.tail.count 1]?
    if r.count = 1 then
      some (some (popped, empty))
    else if 1 < r.tail.count then do
      let newTail ← partialLeaf r.tail.elements 0 (r.tail.count - 1)
      some (some (popped, ⟨r.root, newTail, r.count - 1, r.depth⟩))
    else do
      let leaf ← rightmostLeaf r.depth r.root
      let newTree ← removeRightmost r.depth r.root
      let (newTree, newDepth) ← shrinkRoot r.depth newTree
      some (some (popped, ⟨newTree, copyLeaf leaf, r.count - 1, newDepth⟩))

end

/-! ### Finding a leaf, and the iterator -/

/-- `RV_FIND_LEAF_OFF`: the leaf holding an index and the index of its first
element.  Its loop is that of `RV_GET`. -/
def findLeafOff (r : Root α) (index : Nat) : Option (Leaf α × Nat) :=
  if tailOffset r ≤ index then
    some (r.tail, tailOffset r)
  else do
    let (leaf, idx) ← walk r.depth r.root index
    some (leaf, sub32 index idx)

/-- An iterator.  `leaf` is `NULL` over an empty vector. -/
structure Iter (α : Type) where
  root : Root α
  index : Nat
  leaf : Option (Leaf α)
  leafBase : Nat

/-- `jvec_iter_init`. -/
def iterInit (r : Root α) : Option (Iter α) :=
  if 0 < r.count then do
    let (leaf, base) ← findLeafOff r 0
    some ⟨r, 0, some leaf, base⟩
  else
    some ⟨r, 0, none, 0⟩

/-- `jvec_iter_next`: `some none` when the iterator is done. -/
def iterNext (it : Iter α) : Option (Option (α × Iter α)) :=
  if it.root.count ≤ it.index then
    some none
  else do
    let leaf ← it.leaf
    let (leaf, base) ←
      (if leaf.count ≤ sub32 it.index it.leafBase then findLeafOff it.root it.index
       else some (leaf, it.leafBase))
    let val ← leaf.elements[sub32 it.index base]?
    some (some (val, ⟨it.root, (it.index + 1) % 2 ^ 32, some leaf, base⟩))

/-- The values an iterator gives until it is done, in at most `fuel` calls. -/
def iterAll : Nat → Iter α → Option (List α)
  | 0, _ => none
  | fuel + 1, it =>
    match iterNext it with
    | none => none
    | some none => some []
    | some (some (val, it)) => (iterAll fuel it).map (val :: ·)

/-! ### Building a tree over leaves -/

/-- The running sums of `RV_BUILD_TREE`, from `cum`. -/
def runningCounts : Nat → List Nat → List Nat
  | _, [] => []
  | cum, c :: cs => (cum + c) % 2 ^ 32 :: runningCounts ((cum + c) % 2 ^ 32) cs

/-- One node of `RV_BUILD_TREE` over a group of nodes with their counts. -/
def groupNode (group : List (Node α × Nat)) : Node α × Nat :=
  let sizeTable := runningCounts 0 (group.map Prod.snd)
  (.internal (some sizeTable) (group.map Prod.fst), sizeTable.getLastD 0)

/-- One level of `RV_BUILD_TREE`: groups of `RV_BRANCH` nodes. -/
def buildLevel (cur : List (Node α × Nat)) : List (Node α × Nat) :=
  (List.range ((cur.length + branch - 1) % 2 ^ 32 / branch)).map fun g =>
    groupNode ((cur.drop (g * branch)).take branch)

/-- The loop of `RV_BUILD_TREE`, whose next level is at shift `bits * depth`. -/
def buildLevels : Nat → Nat → List (Node α × Nat) → Option (Node α × Nat)
  | 0, _, _ => none
  | fuel + 1, depth, cur =>
    match buildLevel cur with
    | [(node, _)] => some (node, depth)
    | next => buildLevels fuel (depth + 1) next

/-- `RV_BUILD_TREE`, with the depth of the tree.  Seven levels hold any count. -/
def buildTree (nodes : List (Node α × Nat)) : Option (Node α × Nat) := buildLevels 7 1 nodes

/-! ### Slice -/

section
variable [Zero α]

/-- What `RV_SLICE` takes of one leaf: the leaf itself, or a copy of a part of it. -/
def cutLeaf (leaf : Leaf α) (localStart take : Nat) : Option (Leaf α) :=
  if localStart = 0 ∧ take = leaf.count then some leaf
  else partialLeaf leaf.elements localStart take

/-- The loop of `RV_SLICE` from `pos`: the leaves covering the rest of the slice,
each with the number of elements taken from it. -/
def coverLeaves (r : Root α) (stop : Nat) : Nat → Nat → Option (List (Leaf α × Nat))
  | 0, _ => none
  | fuel + 1, pos =>
    if pos < stop then do
      let (leaf, base) ← findLeafOff r pos
      let localStart := sub32 pos base
      let take := min (sub32 leaf.count localStart) (stop - pos)
      let piece ← cutLeaf leaf localStart take
      let rest ← coverLeaves r stop fuel ((pos + take) % 2 ^ 32)
      some ((piece, take) :: rest)
    else
      some []

/-- The end of `RV_SLICE` and of `RV_FROM_ARRAY`: a tree over some leaves, and a tail. -/
def rootOver (leaves : List (Leaf α × Nat)) (tail : Leaf α) (count : Nat) : Option (Root α) :=
  if leaves = [] then
    some ⟨.null, tail, count, 1⟩
  else do
    let (tree, depth) ← buildTree (leaves.map fun l => (.leaf l.1, l.2))
    some ⟨tree, tail, count, depth⟩

/-- `jvec_slice`. -/
def slice (r : Root α) (start stop : Nat) : Option (Option (Root α)) :=
  if stop ≤ start ∨ r.count < stop then
    some none
  else if start = 0 ∧ stop = r.count then
    some (some r)
  else do
    let leaves ← coverLeaves r stop (stop - start + 1) start
    let newTail ← leaves.getLast?
    let v ← rootOver leaves.dropLast newTail.1 (stop - start)
    some (some v)

/-! ### Insert and remove -/

/-- `jvec_insert`.  `RV_CONCAT` takes `NULL` for an empty vector. -/
def insert (r : Root α) (index : Nat) (value : α) : Option (Option (Root α)) :=
  if r.count < index then
    some none
  else do
    let s1 ← pushBack empty value
    if index = 0 then
      (concat s1 r).map some
    else if index = r.count then
      (concat r s1).map some
    else do
      let left ← slice r 0 index
      let right ← slice r index r.count
      let tmp ← concat (left.getD empty) s1
      (concat tmp (right.getD empty)).map some

/-- `jvec_remove`: the removed element and the vector without it. -/
def remove (r : Root α) (index : Nat) : Option (Option (α × Option (Root α))) :=
  if r.count ≤ index then
    some none
  else do
    let gr ← get r index
    let value ← gr
    let result ←
      (if r.count = 1 then
        some (some empty)
      else if index = 0 then
        slice r 1 r.count
      else if index = r.count - 1 then
        slice r 0 (r.count - 1)
      else do
        let left ← slice r 0 index
        let right ← slice r (index + 1) r.count
        (concat (left.getD empty) (right.getD empty)).map some)
    some (some (value, result))

/-! ### From an array -/

/-- `jvec_from_array`. -/
def fromArray (array : List α) : Option (Root α) :=
  if array.length = 0 then
    some empty
  else do
    let numLeaves := (array.length + branch - 1) % 2 ^ 32 / branch
    let treeLeafCount := sub32 numLeaves 1
    let tailStart := treeLeafCount * branch % 2 ^ 32
    let tail ← partialLeaf array tailStart (sub32 array.length tailStart)
    let leaves ← (List.range treeLeafCount).mapM fun i =>
      (partialLeaf array (i * branch % 2 ^ 32) branch).map fun leaf => (leaf, branch)
    rootOver leaves tail array.length

end

end Jacl.RrbVec
