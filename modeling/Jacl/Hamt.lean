import Jacl.Sparse

/-!
# The persistent map (`lib/hamt/hamt.h`)

The runtime's maps are hash array mapped tries, instantiated by
`runtime/collections.c` for `JaclVal` keys and values under the prefix `jmap`.
This module embeds `jmap_set`, `jmap_unset`, `jmap_get`, `jmap_has` and
`jmap_count` on trees, over arbitrary keys with an equality handler and a 32-bit
hash handler.  The pointers the trees stand for, with the allocations and the
pointer comparisons of the source, are in `HamtStore`.

The recursive functions count the hash digits that are left: with `digits` left
the source's `shift` is `5 * (7 - digits)`.  With no digit left it is 35, and code
that shifts by it has left C's defined behaviour; the result is then `none`.

Maps of the runtime have stride 1 and no structural hash handlers, so the strides
and the structural hash, which is zero throughout, are left out.
-/

namespace Jacl.Hamt
open Sparse

/-- `H_LEAF`. -/
structure Leaf (K V : Type) where
  key : K
  value : V
  hash : BitVec 32

/-- `H_NODE`: the three node types, and the `NULL` of the empty map. -/
inductive Node (K V : Type) where
  | null
  | leaf (l : Leaf K V)
  | collision (hash : BitVec 32) (items : List (Leaf K V))
  | internal (bitmap : BitVec 32) (count : Nat) (children : List (Node K V))

section Operations
variable {K V : Type}

/-- The source's `shift` with `digits` hash digits left. -/
def shift (digits : Nat) : Nat := 5 * (7 - digits)

/-- `(hash >> shift) & 0x1F`. -/
def bitIndex (hash : BitVec 32) (shift : Nat) : Nat := ((hash >>> shift) &&& 0x1F#32).toNat

/-- `H_GET_INDEX`. -/
def getIndex (bitmap bit : BitVec 32) : Nat := popcount (bitmap &&& (bit - 1#32))

/-- `H_GET_NODE_COUNT`. -/
def nodeCount : Node K V → Nat
  | .null => 0
  | .leaf _ => 1
  | .collision _ items => items.length
  | .internal _ count _ => count

/-- The internal node with these children; its count is the sum of theirs. -/
def mkInternal (bitmap : BitVec 32) (children : List (Node K V)) : Node K V :=
  .internal bitmap (children.map nodeCount).sum children

/-- `H_MK_INTERNAL_COPY`: inserts the child when the bitmap grew, replaces it otherwise. -/
def mkInternalCopy (bitmap : BitVec 32) (children : List (Node K V)) (newBitmap : BitVec 32)
    (newChild : Node K V) (insertIdx : Nat) : Node K V :=
  if popcount bitmap < popcount newBitmap then
    mkInternal newBitmap (children.insertIdx insertIdx newChild)
  else
    mkInternal newBitmap (children.set insertIdx newChild)

/-- The internal node over an old node and a new leaf in different slots. -/
def mkPair (oldIdx newIdx : Nat) (node : Node K V) (newLeaf : Leaf K V) : Node K V :=
  .internal (single 32 oldIdx ||| single 32 newIdx) (nodeCount node + 1)
    (if oldIdx < newIdx then [node, .leaf newLeaf] else [.leaf newLeaf, node])

/-- `H_SET_RECURSIVE`. -/
def setRecursive (eq : K → K → Bool) : Nat → Node K V → K → V → BitVec 32 → Option (Node K V)
  | _, .null, key, value, hash => some (.leaf ⟨key, value, hash⟩)
  | digits, .leaf leaf, key, value, hash =>
    if eq leaf.key key then
      some (.leaf ⟨key, value, hash⟩)
    else if leaf.hash = hash then
      some (.collision hash [leaf, ⟨key, value, hash⟩])
    else
      match digits with
      | 0 => none
      | n + 1 =>
        let oldIdx := bitIndex leaf.hash (shift (n + 1))
        let newIdx := bitIndex hash (shift (n + 1))
        if oldIdx = newIdx then do
          let child ← setRecursive eq n (.leaf leaf) key value hash
          some (.internal (single 32 oldIdx) (nodeCount child) [child])
        else
          some (mkPair oldIdx newIdx (.leaf leaf) ⟨key, value, hash⟩)
  | digits, .collision colHash items, key, value, hash =>
    if colHash ≠ hash then
      match digits with
      | 0 => none
      | n + 1 =>
        let colIdx := bitIndex colHash (shift (n + 1))
        let newIdx := bitIndex hash (shift (n + 1))
        if colIdx = newIdx then do
          let child ← setRecursive eq n (.collision colHash items) key value hash
          some (.internal (single 32 colIdx) (nodeCount child) [child])
        else
          some (mkPair colIdx newIdx (.collision colHash items) ⟨key, value, hash⟩)
    else
      match items.findIdx? (fun l => eq l.key key) with
      | some i => some (.collision hash (items.set i ⟨key, value, hash⟩))
      | none => some (.collision hash (items ++ [⟨key, value, hash⟩]))
  | 0, .internal _ _ _, _, _, _ => none
  | n + 1, .internal bitmap _ children, key, value, hash =>
    let bit := single 32 (bitIndex hash (shift (n + 1)))
    let arrIdx := getIndex bitmap bit
    if bitmap &&& bit ≠ 0#32 then do
      let child ← children[arrIdx]?
      let newChild ← setRecursive eq n child key value hash
      some (mkInternalCopy bitmap children bitmap newChild arrIdx)
    else
      some (mkInternalCopy bitmap children (bitmap ||| bit) (.leaf ⟨key, value, hash⟩) arrIdx)

/-- `H_UNSET_RECURSIVE`: the node returned, and whether it is the argument itself. -/
def unsetRecursive (eq : K → K → Bool) : Nat → Node K V → K → BitVec 32 →
    Option (Node K V × Bool)
  | _, .null, _, _ => some (.null, true)
  | _, .leaf leaf, key, _ =>
    if eq leaf.key key then some (.null, false) else some (.leaf leaf, true)
  | _, .collision colHash items, key, hash =>
    match items.findIdx? (fun l => eq l.key key) with
    | none => some (.collision colHash items, true)
    | some found =>
      if items.length = 2 then do
        let keep ← items[if found = 0 then 1 else 0]?
        some (.leaf keep, false)
      else
        some (.collision hash (items.eraseIdx found), false)
  | 0, .internal _ _ _, _, _ => none
  | n + 1, .internal bitmap count children, key, hash =>
    let bit := single 32 (bitIndex hash (shift (n + 1)))
    if bitmap &&& bit = 0#32 then
      some (.internal bitmap count children, true)
    else do
      let arrIdx := getIndex bitmap bit
      let child ← children[arrIdx]?
      let (resultChild, same) ← unsetRecursive eq n child key hash
      match resultChild with
      | .null =>
        let newBitmap := bitmap &&& ~~~ bit
        if newBitmap = 0#32 then
          some (.null, false)
        else
          some (mkInternal newBitmap (children.eraseIdx arrIdx), false)
      | resultChild =>
        if same then
          some (.internal bitmap count children, true)
        else
          some (mkInternalCopy bitmap children bitmap resultChild arrIdx, false)

/-- `H_GET_LEAF`, from a node with `digits` left; `some none` is the `NULL` of an absent key. -/
def getLeaf (eq : K → K → Bool) : Nat → Node K V → K → BitVec 32 → Option (Option (Leaf K V))
  | _, .null, _, _ => some none
  | _, .leaf leaf, key, _ => some (if eq leaf.key key then some leaf else none)
  | _, .collision colHash items, key, h =>
    if colHash ≠ h then some none else some (items.find? fun l => eq l.key key)
  | 0, .internal _ _ _, _, _ => none
  | n + 1, .internal bitmap _ children, key, h =>
    let bit := single 32 (bitIndex h (shift (n + 1)))
    if bitmap &&& bit = 0#32 then
      some none
    else do
      let node ← children[getIndex bitmap bit]?
      getLeaf eq n node key h

/-! ### The public operations -/

/-- `jmap_set`. -/
def set (eq : K → K → Bool) (hash : K → BitVec 32) (root : Node K V) (key : K) (value : V) :
    Option (Node K V) :=
  setRecursive eq 7 root key value (hash key)

/-- `jmap_unset`. -/
def unset (eq : K → K → Bool) (hash : K → BitVec 32) (root : Node K V) (key : K) :
    Option (Node K V) :=
  (unsetRecursive eq 7 root key (hash key)).map Prod.fst

/-- `jmap_has`. -/
def has (eq : K → K → Bool) (hash : K → BitVec 32) (root : Node K V) (key : K) : Option Bool :=
  (getLeaf eq 7 root key (hash key)).map Option.isSome

/-- `jmap_get`: the zero value for an absent key. -/
def get [Zero V] (eq : K → K → Bool) (hash : K → BitVec 32) (root : Node K V) (key : K) :
    Option V :=
  (getLeaf eq 7 root key (hash key)).map fun leaf => (leaf.map Leaf.value).getD 0

/-- `jmap_count`. -/
def count (root : Node K V) : Nat := nodeCount root

end Operations

end Jacl.Hamt
