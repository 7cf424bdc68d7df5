import Jacl.Segments

/-!
# The persistent vector (`lib/rrb_vec/rrb_vec.h`)

The runtime's vectors are RRB trees with a tail, instantiated by
`runtime/collections.c` for `JaclVal` elements under the prefix `jvec`.  This
module embeds `jvec_empty`, `jvec_push_back`, `jvec_get`, `jvec_set` and
`jvec_concat` with the helpers they call.  Elements are an arbitrary type with a
zero, the contents of a slot no element was written to.

An operation that leaves C's defined behaviour (writing `children[32]`, going
through a `NULL` child, reading past a size table, shifting by 32 or more)
returns `none`.  Counts are `uint32_t` and wrap.

The vectors of the runtime have stride 1 and no element hash handler, so the
stride and the structural hash, which is zero throughout, are left out.
-/

namespace Jacl.RrbVec

/-- `RV_BITS`. -/
def bits : Nat := 5

/-- `RV_BRANCH`, `1 << RV_BITS`. -/
def branch : Nat := 32

/-- `a - b` on `uint32_t`. -/
def sub32 (a b : Nat) : Nat := (a + 2 ^ 32 - b) % 2 ^ 32

/-- A leaf: `RV_BRANCH` allocated slots, of which the first `count` hold elements. -/
structure Leaf (α : Type) where
  count : Nat
  elements : List α

/-- A node pointer.  An internal node's child array is its first `child_count`
entries: the slots after them are `NULL`. -/
inductive Node (α : Type) where
  | null
  | leaf (l : Leaf α)
  | internal (sizeTable : Option (List Nat)) (children : List (Node α))

/-- A vector.  `depth` is `shift / RV_BITS`: the source keeps `depth * RV_BITS`. -/
structure Root (α : Type) where
  root : Node α
  tail : Leaf α
  count : Nat
  depth : Nat

/-- The source's `shift` field. -/
def Root.shift {α : Type} (r : Root α) : Nat := bits * r.depth

section Operations
variable {α : Type}

/-! ### Construction -/

def mkLeaf [Zero α] : Leaf α := ⟨0, List.replicate branch 0⟩

def copyLeaf [Zero α] (src : Leaf α) : Leaf α :=
  ⟨src.count, src.elements.take src.count ++ List.replicate (branch - src.count) 0⟩

/-- A path of internal nodes from `level` (here `level / RV_BITS`) down to the leaf. -/
def newPath : Nat → Node α → Node α
  | 0, leaf => leaf
  | level + 1, leaf => .internal none [newPath level leaf]

/-- The loops of `RV_PUSH_TAIL_FULL` and `RV_CONCAT` that put single-child nodes
above a node, from the bottom up. -/
def wrapLevels : Nat → Node α → Node α
  | 0, node => node
  | k + 1, node => wrapLevels k (.internal none [node])

/-! ### Reading -/

/-- The slot taken at a node whose shift is `level`, and the index left for the
child.  A relaxed node scans its size table; a strict one shifts. -/
def slotAt (level : Nat) : Option (List Nat) → Nat → Option (Nat × Nat)
  | some sizeTable, idx => do
    let slot ← sizeTable.findIdx? (fun s => decide (idx < s))
    some (slot, if 0 < slot then idx - sizeTable.getD (slot - 1) 0 else idx)
  | none, idx =>
    if level < 32 then
      let slot := (idx >>> level) % branch
      some (slot, idx - slot <<< level)
    else
      none

/-- The loop of `RV_GET` from a node at shift `bits * depth` to a leaf, with the
index in that leaf. -/
def walk : Nat → Node α → Nat → Option (Leaf α × Nat)
  | 0, .leaf l, idx => some (l, idx)
  | depth + 1, .internal sizeTable children, idx => do
    let (slot, idx) ← slotAt (bits * (depth + 1)) sizeTable idx
    walk depth (children.getD slot .null) idx
  | _, _, _ => none

/-- The number of elements stored in the tree. -/
def tailOffset (r : Root α) : Nat := if r.count = 0 then 0 else sub32 r.count r.tail.count

/-- `jvec_get`: `some none` when the index is out of range (`found = false`). -/
def get (r : Root α) (index : Nat) : Option (Option α) :=
  if r.count ≤ index then
    some none
  else if tailOffset r ≤ index then
    (r.tail.elements[index - tailOffset r]?).map some
  else do
    let (leaf, idx) ← walk r.depth r.root index
    (leaf.elements[idx]?).map some

/-! ### Push -/

/-- `jvec_empty`. -/
def empty [Zero α] : Root α := ⟨.null, mkLeaf, 0, 1⟩

/-- `RV_PUSH_TAIL` at shift `bits * depth`.  The new node never gets a size table. -/
def pushTail : Nat → Nat → Node α → Node α → Option (Node α)
  | 1, _, .internal _ children, tailNode =>
    if children.length < branch then
      some (.internal none (children ++ [tailNode]))
    else
      none
  | depth + 2, count, .internal _ children, tailNode =>
    if bits * (depth + 2) < 32 then
      let subidx := (sub32 count 1 >>> (bits * (depth + 2))) % branch
      if subidx < children.length then do
        let newChild ← pushTail (depth + 1) count (children.getD subidx .null) tailNode
        some (.internal none (children.set subidx newChild))
      else
        some (.internal none (children ++ List.replicate (subidx - children.length) .null ++
          [newPath (depth + 1) tailNode]))
    else
      none
  | _, _, _, _ => none

/-- `jvec_push_back`. -/
def pushBack [Zero α] (r : Root α) (value : α) : Option (Root α) :=
  if r.tail.count < branch then
    let newTail := copyLeaf r.tail
    some ⟨r.root, ⟨newTail.count + 1, newTail.elements.set newTail.count value⟩,
      (r.count + 1) % 2 ^ 32, r.depth⟩
  else
    let newTail : Leaf α := ⟨1, (mkLeaf : Leaf α).elements.set 0 value⟩
    match r.root with
    | .null =>
      some ⟨.internal none [.leaf r.tail], newTail, (r.count + 1) % 2 ^ 32, r.depth⟩
    | root =>
      -- the capacity test shifts `1` by `shift + RV_BITS`
      if r.shift + bits < 32 then
        let treeCount := tailOffset r
        if 1 <<< (r.shift + bits) ≤ treeCount then
          some ⟨.internal none [root, newPath r.depth (.leaf r.tail)], newTail,
            (r.count + 1) % 2 ^ 32, r.depth + 1⟩
        else do
          let newRoot ← pushTail r.depth treeCount root (.leaf r.tail)
          some ⟨newRoot, newTail, (r.count + 1) % 2 ^ 32, r.depth⟩
      else
        none

/-! ### Set -/

/-- `RV_SET_IN_TREE` at shift `bits * depth`. -/
def setInTree [Zero α] : Nat → Node α → Nat → α → Option (Node α)
  | 0, .leaf old, index, value =>
    if index < branch then
      some (.leaf ⟨old.count, (copyLeaf old).elements.set index value⟩)
    else
      none
  | depth + 1, .internal sizeTable children, index, value => do
    let (slot, childIndex) ← slotAt (bits * (depth + 1)) sizeTable index
    let newChild ← setInTree depth (children.getD slot .null) childIndex value
    some (.internal sizeTable (children.set slot newChild))
  | _, _, _, _ => none

/-- `jvec_set`: `some none` is the `NULL` of an index out of range. -/
def set [Zero α] (r : Root α) (index : Nat) (value : α) : Option (Option (Root α)) :=
  if r.count ≤ index then
    some none
  else if tailOffset r ≤ index then
    some (some { r with
      tail := ⟨r.tail.count, (copyLeaf r.tail).elements.set (index - tailOffset r) value⟩ })
  else do
    let newTree ← setInTree r.depth r.root index value
    some (some { r with root := newTree, tail := copyLeaf r.tail })

/-! ### Concat -/

/-- `RV_SUBTREE_COUNT` at shift `bits * depth`. -/
def subtreeCount : Nat → Node α → Option Nat
  | 0, .leaf l => some l.count
  | _ + 1, .internal (some sizeTable) children => sizeTable[children.length - 1]?
  | depth + 1, .internal none children =>
    if bits * (depth + 1) < 32 then do
      let last ← subtreeCount depth (children.getD (children.length - 1) .null)
      some (((children.length - 1) * 1 <<< (bits * (depth + 1)) + last) % 2 ^ 32)
    else
      none
  | _, _ => none

/-- The size table `RV_PUSH_TAIL_FULL` builds for a strict root, from the count `cum`. -/
def buildSizeTable (depth : Nat) : Nat → List (Node α) → Option (List Nat)
  | _, [] => some []
  | cum, child :: children => do
    let n ← subtreeCount depth child
    let rest ← buildSizeTable depth ((cum + n) % 2 ^ 32) children
    some ((cum + n) % 2 ^ 32 :: rest)

/-- The number of elements in the tree, as `RV_PUSH_TAIL_FULL` takes it from the root. -/
def treeCount (r : Root α) : Option (List Nat) → List (Node α) → Option Nat
  | some sizeTable, children => sizeTable[children.length - 1]?
  | none, _ => some (sub32 r.count r.tail.count)

/-- The entries `RV_PUSH_TAIL_FULL` starts the new size table with. -/
def oldTable (depth : Nat) : Option (List Nat) → List (Node α) → Option (List Nat)
  | some sizeTable, children => some (sizeTable.take children.length)
  | none, children => buildSizeTable depth 0 children

/-- `RV_PUSH_TAIL_FULL`: the tree with the tail pushed into it, and its depth. -/
def pushTailFull (r : Root α) : Option (Node α × Nat) :=
  match r.root with
  | .null => some (.internal (some [r.tail.count]) [.leaf r.tail], 1)
  | .leaf _ => none
  | .internal sizeTable children => do
    let treeCount ← treeCount r sizeTable children
    let wrapped := wrapLevels (r.depth - 1) (.leaf r.tail)
    if children.length < branch then do
      let st ← oldTable (r.depth - 1) sizeTable children
      some (.internal (some (st ++ [(treeCount + r.tail.count) % 2 ^ 32])) (children ++ [wrapped]),
        r.depth)
    else
      some (.internal (some [treeCount, (treeCount + r.tail.count) % 2 ^ 32])
        [.internal sizeTable children, .internal none [wrapped]], r.depth + 1)

/-- `jvec_concat`. -/
def concat [Zero α] (left right : Root α) : Option (Root α) :=
  if left.count = 0 then
    some right
  else if right.count = 0 then
    some left
  else do
    let newTail := copyLeaf right.tail
    let total := (left.count + right.count) % 2 ^ 32
    let (lTree, lDepth) ← pushTailFull left
    match right.root with
    | .null => some ⟨lTree, newTail, total, lDepth⟩
    | rTree =>
      let rCount := sub32 right.count right.tail.count
      let maxDepth := max lDepth right.depth
      let sizeTable := [left.count, (left.count + rCount) % 2 ^ 32]
      some ⟨.internal (some sizeTable)
          [wrapLevels (maxDepth - lDepth) lTree, wrapLevels (maxDepth - right.depth) rTree],
        newTail, total, maxDepth + 1⟩

end Operations

end Jacl.RrbVec
