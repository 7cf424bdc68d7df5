import Jacl.Marking
import Jacl.HeapAllocSweep

/-!
# The mark phase (`runtime/heap_gc.c`)

A word keeps a cell if it points into it: at its header, its payload, or anywhere inside.  Roots are
what `gc.roots` found on the stacks, at most 8192 words of it, and the words that the runtime and the
scheduler mark on their own; from a `JOBJ_NODE` or a `JOBJ_FUNC` every word of the payload is
followed, both as it is and without its tag byte.  The cell that a word points into is found by
scanning the start bitmap backwards, over at most `INTERIOR_SCAN_GRANULES` granules.

Which words the runtime and the scheduler mark is left open, and the marks, which are header bits that
the collection clears first, are a function.
-/

namespace Jacl.HeapAlloc
open Marking

/-- `INTERIOR_SCAN_GRANULES`. -/
def interiorScanGranules : Nat := 8192
/-- `JACL_TAG_SHIFT`. -/
def tagShift : Nat := 56
/-- `JACL_HEAP_TAG_MASK`. -/
def heapTagMask : Nat :=
  0x07D7DFE0 ||| 1 <<< 0x15 ||| 1 <<< 0x1A ||| 1 <<< 0x1B ||| 1 <<< 0x1C ||| 1 <<< 0x1D |||
    1 <<< 0x1E ||| 1 <<< 0x1F

/-- A `uint64_t`, read as a `long` by `BitVec.toInt`. -/
abbrev Word := BitVec 64

/-- `w & JACL_PAYLOAD_MASK`. -/
def payloadMask (w : Word) : Word := w &&& (1 <<< tagShift - 1)

/-- `jaclrt_is_heap`. -/
def isHeap (v : Word) : Bool := heapTagMask.testBit (v >>> tagShift &&& 0x1F).toNat

/-- The `obj_type` of a cell that is not free. -/
inductive ObjType
  | blob
  | node
  | str
  | func
deriving DecidableEq

/-- The heap with what is in its cells. -/
structure Memory where
  heap : Heap
  /-- `jacl_heap_lo`. -/
  lo : Nat
  objType : Nat → ObjType
  /-- The 8 bytes at an offset. -/
  word : Nat → Word

/-- What is marked as a root. -/
inductive Root
  /-- A word of `rootbuf`. -/
  | found (w : Word)
  /-- `jacl_gc_mark`, and `jacl_gc_mark_word`. -/
  | val (v : Word)
  | word (w : Word)

/-- The words that are pushed for it. -/
def Root.words : Root → List Word
  | .found w => [w]
  | .val v => if isHeap v then [payloadMask v] else []
  | .word w => [payloadMask w, w]

namespace Memory
variable (m : Memory)

/-- `startbit_test`. -/
def startbitTest (off : Nat) : Bool := (m.heap.cells (off / granule * granule)).isSome

/-- Back from granule `g` to the nearest start bit, but not below `limit`. -/
def scanBack (limit : Nat) : Nat → Nat
  | 0 => 0
  | g + 1 =>
      if limit < g + 1 then if m.startbitTest ((g + 1) * granule) then g + 1 else scanBack limit g
      else g + 1

/-- The cell that `mark_push_word` finds. -/
def resolve (w : Word) : Option Nat :=
  if w.toInt < m.lo ∨ m.lo + heapBytes ≤ w.toInt then none
  else
    let off := w.toNat - m.lo
    let g := off / granule
    let limit := if interiorScanGranules < g then g - interiorScanGranules else 0
    let soff := m.scanBack limit g * granule
    match m.heap.cells soff with
    | none => none
    | some c => if u32 (soff + c.size) ≤ off ∨ c.free then none else some soff

/-- The words that `mark_trace` pushes for a cell. -/
def outgoing (off : Nat) : List Word :=
  match m.heap.cells off with
  | some c =>
      if m.objType off = .node ∨ m.objType off = .func then
        (List.range ((c.size - sizeofObj) / 8)).flatMap fun i =>
          let w := m.word (off + sizeofObj + 8 * i)
          [payloadMask w, w]
      else []
  | none => []

/-- **A word keeps a cell**: it points into the cell, and not too far from its start. -/
def Points (w : Word) (off : Nat) : Prop :=
  ∃ (c : Cell) (d : Nat), m.heap.cells off = some c ∧ c.free = false ∧ w.toInt = m.lo + off + d ∧ d < c.size ∧
    d < (interiorScanGranules + 1) * granule

/-- The cells that a collection keeps. -/
inductive Kept (roots : List Word) : Nat → Prop
  | root {w : Word} {off : Nat} : w ∈ roots → m.Points w off → Kept roots off
  | step {w : Word} {off off' : Nat} : Kept roots off → w ∈ m.outgoing off → m.Points w off' → Kept roots off'

end Memory

end Jacl.HeapAlloc
