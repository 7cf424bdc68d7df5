import Mathlib

/-!
# Sum trees (`lib/sum_tree/sum_tree.h`)

A persistent B-tree whose nodes cache a summary of what is below them.  The header is a template:
the elements and the summaries are arbitrary types, `identity` and `combine` are the unit and the
product of a monoid, and `leafMax` is `STREE_LEAF_MAX`, the size of a leaf and of a node.

No function writes to a node that it did not make, so trees are values here.  Counts are
`size_t`s and wrap.  The functions that walk from the root keep their path in arrays of 64
entries; with a longer path, or through a child that is not there, the behaviour is undefined,
and the result is `none`.  `Made` are the trees of the runs, which may use every tree that they
made before.
-/

namespace Jacl.SumTree

inductive Node (α σ : Type) where
  | leaf (elements : List α) (summary : σ)
  | internal (children : List (Node α σ)) (childCounts : List Nat) (count : Nat) (summary : σ)

structure Root (α σ : Type) where
  node : Option (Node α σ)
  count : Nat
  height : Nat

variable {α σ : Type}

/-! ### Nodes -/

def Node.count : Node α σ → Nat
  | .leaf es _ => es.length
  | .internal _ _ n _ => n

def Node.summary : Node α σ → σ
  | .leaf _ s => s
  | .internal _ _ _ s => s

def mkLeaf (summarize : List α → σ) (elems : List α) : Node α σ := .leaf elems (summarize elems)

section Summaries
variable [Monoid σ]

/-- `combine` over the summaries of the children, from `identity` on. -/
def combineAll (children : List (Node α σ)) : σ := children.foldl (fun s c => s * c.summary) 1

def mkInternal (children : List (Node α σ)) : Node α σ :=
  .internal children (children.map Node.count)
    (children.foldl (fun n c => (n + c.count) % 2 ^ 64) 0) (combineAll children)

end Summaries

def empty : Root α σ := ⟨none, 0, 0⟩

/-- The entries of the arrays that a path is kept in. -/
def pathMax : Nat := 64

/-! ### Building -/

/-- Runs of `m`, the last one with what is left. -/
def chunks {β : Type} (m : Nat) : Nat → List β → List (List β)
  | 0, _ => []
  | _ + 1, [] => []
  | n + 1, x :: xs => (x :: xs).take m :: chunks m n ((x :: xs).drop m)

section Operations
variable [Monoid σ] (leafMax : Nat) (summarize : List α → σ)

/-- The loop that builds levels until one node is left. -/
def buildUp : Nat → Nat → List (Node α σ) → Option (Node α σ × Nat)
  | _, height, [n] => some (n, height)
  | 0, _, _ => none
  | fuel + 1, height, ns =>
    buildUp fuel (height + 1) ((chunks leafMax ns.length ns).map mkInternal)

def fromArray (elems : List α) : Option (Root α σ) :=
  if elems = [] then some empty
  else do
    let leaves := (chunks leafMax elems.length elems).map (mkLeaf summarize)
    let (node, height) ← buildUp leafMax leaves.length 1 leaves
    pure ⟨some node, elems.length, height⟩

/-! ### Reading and setting -/

mutual

def getAt : Node α σ → Nat → Option α
  | .leaf es _, idx => es[idx]?
  | .internal cs ks _ _, idx => getIn cs ks idx

def getIn : List (Node α σ) → List Nat → Nat → Option α
  | c :: cs, k :: ks, idx => if idx < k then getAt c idx else getIn cs ks (idx - k)
  | _, _, _ => none

end

/-- `none` is `found = false`. -/
def get (r : Root α σ) (index : Nat) : Option α :=
  match r.node with
  | some n => if r.count ≤ index then none else getAt n index
  | none => none

mutual

def setAt (value : α) : Node α σ → Nat → Option (Node α σ)
  | .leaf es _, idx =>
    if idx < es.length then some (mkLeaf summarize (es.set idx value)) else none
  | .internal cs ks n _, idx =>
    (setIn value cs ks idx).map fun cs => .internal cs ks n (combineAll cs)

def setIn (value : α) : List (Node α σ) → List Nat → Nat → Option (List (Node α σ))
  | c :: cs, k :: ks, idx =>
    if idx < k then (setAt value c idx).map (· :: cs)
    else (setIn value cs ks (idx - k)).map (c :: ·)
  | _, _, _ => none

end

def set (r : Root α σ) (index : Nat) (value : α) : Option (Root α σ) :=
  match r.node with
  | some n =>
    if r.count ≤ index then some empty
    else if pathMax < r.height - 1 then none
    else (setAt summarize value n index).map fun n => ⟨some n, r.count, r.height⟩
  | none => some empty

/-! ### Split -/

/-- A node over the children that one side of a split got, if it got any. -/
def wrap (children : List (Node α σ)) : Option (Node α σ) :=
  if children.isEmpty then none else some (mkInternal children)

mutual

/-- The walk down to the leaf, and back up with what goes to the left and to the right. -/
def splitAt : Node α σ → Nat → Option (Option (Node α σ) × Option (Node α σ))
  | .leaf es s, idx =>
    if es.length ≤ idx then none
    else if idx = 0 then some (none, some (.leaf es s))
    else some (some (mkLeaf summarize (es.take idx)), some (mkLeaf summarize (es.drop idx)))
  | .internal cs ks _ _, idx => splitIn [] cs ks idx

/-- `before` are the children that the search passed. -/
def splitIn (before : List (Node α σ)) : List (Node α σ) → List Nat → Nat →
    Option (Option (Node α σ) × Option (Node α σ))
  | c :: cs, k :: ks, idx =>
    if idx < k then
      (splitAt c idx).map fun (l, r) => (wrap (before ++ l.toList), wrap (r.toList ++ cs))
    else splitIn (before ++ [c]) cs ks (idx - k)
  | _, _, _ => none

end

/-- A node with a single child gives way to it, and the height is one less. -/
def trim : Node α σ → Nat → Node α σ × Nat
  | .internal (c :: []) _ _ _, height => trim c (height - 1)
  | n, height => (n, height)

def trimmed (count height : Nat) : Option (Node α σ) → Root α σ
  | some n => ⟨some (trim n height).1, count, (trim n height).2⟩
  | none => empty

/-- `some none` is `ok = false`. -/
def split (r : Root α σ) (index : Nat) : Option (Option (Root α σ × Root α σ)) :=
  if r.count < index then some none
  else if index = 0 then some (some (empty, r))
  else if index = r.count then some (some (r, empty))
  else if pathMax < r.height - 1 then none
  else do
    let n ← r.node
    let (left, right) ← splitAt summarize n index
    pure (some (trimmed index r.height left, trimmed (r.count - index) r.height right))

/-! ### Concat -/

/-- Two nodes of one height are merged if there is room. -/
def merge : Node α σ → Node α σ → Option (Node α σ)
  | .leaf es s, .leaf es' s' =>
    if es.length + es'.length ≤ leafMax then some (.leaf (es ++ es') (s * s')) else none
  | .internal cs _ _ _, .internal cs' _ _ _ =>
    if cs.length + cs'.length ≤ leafMax then some (mkInternal (cs ++ cs')) else none
  | _, _ => none

/-- A node over `children`, or two with half of them each. -/
def divide (children : List (Node α σ)) : Node α σ × Option (Node α σ) :=
  if children.length ≤ leafMax then (mkInternal children, none)
  else
    let mid := children.length / 2
    (mkInternal (children.take mid), some (mkInternal (children.drop mid)))

/-- The graft of `right`, `delta` levels down the right spine: what the spine becomes, and what
overflows on its right. -/
def graftRight (right : Node α σ) : Nat → Node α σ → Option (Node α σ × Option (Node α σ))
  | 0, bottom =>
    match merge leafMax bottom right with
    | some m => some (m, none)
    | none => some (bottom, some right)
  | delta + 1, .internal cs _ _ _ => do
    let last ← cs.getLast?
    let (merged, overflow) ← graftRight right delta last
    pure (divide leafMax (cs.dropLast ++ [merged] ++ overflow.toList))
  | _ + 1, .leaf _ _ => none

/-- The graft of `left`, `delta` levels down the left spine: what overflows on its left, and what
the spine becomes. -/
def graftLeft (left : Node α σ) : Nat → Node α σ → Option (Option (Node α σ) × Node α σ)
  | 0, bottom =>
    match merge leafMax left bottom with
    | some m => some (none, m)
    | none => some (some left, bottom)
  | delta + 1, .internal cs _ _ _ => do
    let first ← cs.head?
    let (overflow, merged) ← graftLeft left delta first
    match divide leafMax (overflow.toList ++ [merged] ++ cs.tail) with
    | (n, none) => pure (none, n)
    | (l, some r) => pure (some l, r)
  | _ + 1, .leaf _ _ => none

def concat (left right : Root α σ) : Option (Root α σ) :=
  match left.node, right.node with
  | none, _ => some right
  | _, none => some left
  | some ln, some rn =>
    let total := (left.count + right.count) % 2 ^ 64
    if left.height = right.height then
      match merge leafMax ln rn with
      | some m => some ⟨some m, total, left.height⟩
      | none => some ⟨some (mkInternal [ln, rn]), total, left.height + 1⟩
    else if right.height < left.height then
      let delta := left.height - right.height
      if pathMax ≤ delta then none
      else
        (graftRight leafMax rn delta ln).map fun
          | (m, some o) => ⟨some (mkInternal [m, o]), total, left.height + 1⟩
          | (m, none) => ⟨some m, total, left.height⟩
    else
      let delta := right.height - left.height
      if pathMax ≤ delta then none
      else
        (graftLeft leafMax ln delta rn).map fun
          | (some o, m) => ⟨some (mkInternal [o, m]), total, right.height + 1⟩
          | (none, m) => ⟨some m, total, right.height⟩

def pushBack (r : Root α σ) (value : α) : Option (Root α σ) := do
  concat leafMax r (← fromArray leafMax summarize [value])

def pushFront (r : Root α σ) (value : α) : Option (Root α σ) := do
  concat leafMax (← fromArray leafMax summarize [value]) r

end Operations

/-! ### Copying a range

A path is kept as the children to the right of it, from the lowest level up. -/

mutual

def findLeaf : Node α σ → Nat → List (List (Node α σ)) →
    Option (List α × Nat × List (List (Node α σ)))
  | .leaf es _, idx, path => some (es, idx, path)
  | .internal cs ks _ _, idx, path => findLeafIn cs ks idx path

def findLeafIn : List (Node α σ) → List Nat → Nat → List (List (Node α σ)) →
    Option (List α × Nat × List (List (Node α σ)))
  | c :: cs, k :: ks, idx, path =>
    if idx < k then findLeaf c idx (cs :: path) else findLeafIn cs ks (idx - k) path
  | _, _, _, _ => none

end

def leftmostLeaf : Node α σ → List (List (Node α σ)) → Option (List α × List (List (Node α σ)))
  | .leaf es _, path => some (es, path)
  | .internal (c :: cs) _ _ _, path => leftmostLeaf c (cs :: path)
  | .internal [] _ _ _, _ => none

/-- Up to the next child on the right, and down to its leftmost leaf; `some none` if there is
none. -/
def nextLeaf : List (List (Node α σ)) → Option (Option (List α × List (List (Node α σ))))
  | [] => some none
  | [] :: path => nextLeaf path
  | (c :: cs) :: path => (leftmostLeaf c (cs :: path)).map some

/-- The leaves after the first, while elements remain to be copied. -/
def copyLoop : Nat → Nat → List (List (Node α σ)) → Option (List α)
  | _, 0, _ => some []
  | 0, _ + 1, _ => none
  | fuel + 1, remaining + 1, path => do
    match ← nextLeaf path with
    | none => pure []
    | some (es, path) =>
      let rest ← copyLoop fuel (remaining + 1 - es.length) path
      pure (es.take (remaining + 1) ++ rest)

/-- What is copied to the buffer. -/
def copyRange (r : Root α σ) (start count : Nat) : Option (List α) :=
  match r.node with
  | none => some []
  | some n =>
    if r.count ≤ start ∨ count = 0 then some []
    else if pathMax < r.height - 1 then none
    else do
      let count := if r.count < (start + count) % 2 ^ 64 then r.count - start else count
      let (es, idx, path) ← findLeaf n start []
      let remaining := count - (es.length - idx)
      let rest ← copyLoop remaining remaining path
      pure ((es.drop idx).take count ++ rest)

/-! ### Runs -/

/-- The trees that are made, by calls whose concatenations have operands that `ok` admits. -/
inductive Made [Monoid σ] (leafMax : Nat) (summarize : List α → σ)
    (ok : Root α σ → Root α σ → Prop) : Root α σ → Prop
  | empty : Made leafMax summarize ok empty
  | fromArray {elems r} : elems.length < 2 ^ 64 → fromArray leafMax summarize elems = some r →
      Made leafMax summarize ok r
  | set {r index value r'} : Made leafMax summarize ok r →
      set summarize r index value = some r' → Made leafMax summarize ok r'
  | splitLeft {r index left right} : Made leafMax summarize ok r →
      split summarize r index = some (some (left, right)) → Made leafMax summarize ok left
  | splitRight {r index left right} : Made leafMax summarize ok r →
      split summarize r index = some (some (left, right)) → Made leafMax summarize ok right
  | concat {left right r} : Made leafMax summarize ok left → Made leafMax summarize ok right →
      ok left right → concat leafMax left right = some r → Made leafMax summarize ok r
  | pushBack {r value single r'} : Made leafMax summarize ok r →
      SumTree.fromArray leafMax summarize [value] = some single → ok r single →
      pushBack leafMax summarize r value = some r' → Made leafMax summarize ok r'
  | pushFront {r value single r'} : Made leafMax summarize ok r →
      SumTree.fromArray leafMax summarize [value] = some single → ok single r →
      pushFront leafMax summarize r value = some r' → Made leafMax summarize ok r'

end Jacl.SumTree
