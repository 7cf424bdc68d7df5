import Jacl.Arrays
import Mathlib.Logic.Relation

/-!
# Snapshots of mutable values (`runtime/builtins.c`, `runtime/collections.c`)

`[box V]` stores a copy of `V`: `jacl_deep_copy` copies arrays and structs, and every other word is
shared.  A heap here holds the containers of the language: mutable arrays and structs, the header of
a flat buffer, which is a window of the elements of a blob, boxes, and the vectors and maps, which do
not change.  Strings and numbers are words without a cell.

A copy is placed when its parts have been copied; the code makes the cell first and fills it, and
nothing refers to it before it is full.
-/

namespace Jacl.Snapshots
open Function JaclVal

/-- A cell. -/
inductive Cell
  | arr (elems : List JaclVal)
  /-- The name of the type, and the names and values of the fields. -/
  | struct (typename : JaclVal) (fields : List (JaclVal × JaclVal))
  /-- The header of a flat buffer, or of a row of one. -/
  | view (blob start len : Nat)
  | data (nums : List (BitVec 64))
  | box (v : JaclVal)
  | vec (elems : List JaclVal)
  | map (entries : List (JaclVal × JaclVal))

namespace Cell

/-- The types of the words that point to the cell; only a header points to a blob. -/
def types : Cell → List Nat
  | .arr _ => [0x1A]
  | .struct .. => [0x12]
  | .view .. => [0x1E]
  | .data _ => []
  | .box _ => [0x0A, 0x0B, 0x0C]
  | .vec _ => [0x06, 0x1B]
  | .map _ => [0x07]

/-- The words of the cell. -/
def words : Cell → List JaclVal
  | .arr elems => elems
  | .struct _ fields => fields.map Prod.snd
  | .view .. => []
  | .data _ => []
  | .box v => [v]
  | .vec elems => elems
  | .map entries => entries.flatMap fun e => [e.1, e.2]

/-- The names in the cell. -/
def names : Cell → List JaclVal
  | .struct typename fields => typename :: fields.map Prod.fst
  | _ => []

/-- A cell that an operation can change. -/
def Mutable : Cell → Prop
  | .arr _ => True
  | .struct _ fields => fields ≠ []
  | .data nums => nums ≠ []
  | _ => False

end Cell

/-- The cells. -/
structure Heap where
  cells : Nat → Option Cell
  next : Nat

/-- The types of the words that point to a cell. -/
def heapTypes : List Nat := [0x1A, 0x12, 0x1E, 0x0A, 0x0B, 0x0C, 0x06, 0x1B, 0x07]

namespace Heap

/-- A new cell. -/
def alloc (h : Heap) (c : Cell) : Heap × Nat :=
  (⟨update h.cells h.next (some c), h.next + 16⟩, h.next)

/-- A store into a cell. -/
def put (h : Heap) (p : Nat) (c : Cell) : Heap := { h with cells := update h.cells p (some c) }

/-- The cell of a word. -/
def cellOf (h : Heap) (v : JaclVal) : Option Cell :=
  match h.cells v.payload with
  | some c => if v.type ∈ c.types then some c else none
  | none => none

/-- The elements of a window. -/
def window (h : Heap) : Cell → List (BitVec 64)
  | .view blob start len =>
    match h.cells blob with
    | some (.data nums) => (nums.drop start).take len
    | _ => []
  | _ => []

/-- The word points to no cell that is still to be made. -/
def Refs (h : Heap) (v : JaclVal) : Prop := v.type ∈ heapTypes → v.payload < h.next

/-- A cell as the program makes it: a window is inside of its blob, and empty only if that is. -/
def Fits (h : Heap) : Cell → Prop
  | .view blob start len =>
    ∃ nums, h.cells blob = some (.data nums) ∧ start + len ≤ nums.length ∧ (len = 0 → nums = [])
  | c => ∀ y ∈ c.words, h.Refs y

/-- **A heap of a program.** -/
structure Ok (h : Heap) : Prop where
  fresh : ∀ p, h.next ≤ p → h.cells p = none
  fits : ∀ p c, h.cells p = some c → h.Fits c

end Heap

/-! ### The copy -/

/-- The copies of the parts, in order. -/
def copyEach (copy : Heap → JaclVal → Option (Heap × JaclVal)) :
    List JaclVal → Heap → Option (Heap × List JaclVal)
  | [], h => some (h, [])
  | e :: es, h =>
    (copy h e).bind fun r => (copyEach copy es r.1).map fun rs => (rs.1, r.2 :: rs.2)

/-- `jacl_arr_copy` of an array: an element that is an array is copied, every other is shared.  A
cycle of arrays is copied without end. -/
def arrCopy : Nat → Heap → JaclVal → Option (Heap × JaclVal)
  | 0, _, _ => none
  | fuel + 1, h, a =>
    match h.cellOf a with
    | some (.arr elems) =>
      (copyEach (fun h e => if e.type = 0x1A then arrCopy fuel h e else some (h, e)) elems h).map
        fun r => ((r.1.alloc (.arr r.2)).1, plain 0x1A (r.1.alloc (.arr r.2)).2)
    | _ => some (h, a)

/-- `jacl_deep_copy`. -/
def deepCopy : Nat → Heap → JaclVal → Option (Heap × JaclVal)
  | 0, _, _ => none
  | fuel + 1, h, v =>
    if v.type = 0x1A then arrCopy (fuel + 1) h v
    else
      match h.cellOf v with
      | some (.struct typename fields) =>
        (copyEach (deepCopy fuel) (fields.map Prod.snd) h).map fun r =>
          let new := r.1.alloc (.struct typename ((fields.map Prod.fst).zip r.2))
          (new.1, plain 0x12 new.2)
      | _ => some (h, v)

/-- `jacl_box_new`. -/
def boxNew (fuel : Nat) (h : Heap) (v : JaclVal) : Option (Heap × JaclVal) :=
  (if v.type = 0x1A ∨ v.type = 0x12 then deepCopy fuel h v else some (h, v)).map fun r =>
    ((r.1.alloc (.box r.2)).1, plain 0x0B (r.1.alloc (.box r.2)).2)

/-- `jacl_box_get`. -/
def boxGet (h : Heap) (b : JaclVal) : JaclVal :=
  if b.error then b
  else
    match h.cellOf b with
    | some (.box v) => v
    | _ => errorVal

/-! ### Mutations -/

/-- A mutation of a container: push, pop and set of an array, the field of a struct that
`struct_field_slot` finds, and a set of a flat buffer. -/
inductive Write
  | push (x : JaclVal)
  | pop
  | set (i : Int) (x : JaclVal)
  | field (k : Nat) (x : JaclVal)
  | num (i : Nat) (bits : BitVec 64)

namespace Write

/-- The word that it stores. -/
def stored : Write → Option JaclVal
  | .push x => some x
  | .set _ x => some x
  | .field _ x => some x
  | _ => none

end Write

/-- What it makes of the cell. -/
def Cell.write : Cell → Write → Cell
  | .arr elems, .push x => .arr (elems ++ [x])
  | .arr elems, .pop => .arr elems.dropLast
  | .arr elems, .set i x => .arr (Arrays.listSet nil elems i x).1
  | .struct typename fields, .field k x => .struct typename (fields.modify k fun f => (f.1, x))
  | c, _ => c

/-- What it makes of a blob, through a window. -/
def Cell.writeNum (start len : Nat) : Cell → Write → Cell
  | .data nums, .num i bits => .data (if i < len then nums.set (start + i) bits else nums)
  | c, _ => c

/-- The cell that a mutation of the container changes. -/
def targetOf (c : Cell) (a : JaclVal) : Nat :=
  match c with
  | .view blob _ _ => blob
  | _ => a.payload

/-- A mutation through the word `a`. -/
def write (h : Heap) (a : JaclVal) (op : Write) : Heap :=
  match h.cellOf a with
  | some (.view blob start len) =>
    match h.cells blob with
    | some c => h.put blob (c.writeNum start len op)
    | none => h
  | some c => h.put a.payload (c.write op)
  | none => h

/-! ### Reading -/

/-- `y` is a word in the cell of `v`. -/
def Part (h : Heap) (v y : JaclVal) : Prop := ∃ c, h.cellOf v = some c ∧ y ∈ c.words

/-- A program that has `v` finds `x`. -/
def Finds (h : Heap) : JaclVal → JaclVal → Prop := Relation.ReflTransGen (Part h)

/-- The cell at `q` is reached from `v`. -/
def Reach (h : Heap) (v : JaclVal) (q : Nat) : Prop :=
  ∃ x c, Finds h v x ∧ h.cellOf x = some c ∧ (q = x.payload ∨ q = targetOf c x)

/-- What a program reads of a value. -/
inductive Reading
  | cut
  | word (v : JaclVal)
  | node (type : Nat) (names : List JaclVal) (nums : List (BitVec 64)) (parts : List Reading)

/-- What it reads to a depth; where a cell is cannot be read. -/
def read : Nat → Heap → JaclVal → Reading
  | 0, _, _ => .cut
  | n + 1, h, v =>
    match h.cellOf v with
    | none => .word v
    | some c => .node v.type c.names (h.window c) (c.words.map (read n h))

/-! ### Independence -/

/-- No cell that can change is reached from both. -/
def Apart (h : Heap) (v w : JaclVal) : Prop :=
  ∀ q c, Reach h v q → Reach h w q → h.cells q = some c → ¬ c.Mutable

/-- The word that a mutation stores brings in nothing of `w`. -/
def Write.Clear (op : Write) (h : Heap) (w : JaclVal) : Prop :=
  ∀ x, op.stored = some x → h.Refs x ∧ Apart h x w

/-- **What a program does with `v` and `w`**: it makes cells, and mutates whatever it finds through
one of them, without storing what belongs to the other. -/
inductive Steps (v w : JaclVal) (h : Heap) : Heap → Prop
  | refl : Steps v w h h
  | alloc {h₁ : Heap} {c : Cell} : Steps v w h h₁ → h₁.Fits c → Steps v w h (h₁.alloc c).1
  | left {h₁ : Heap} {a : JaclVal} {op : Write} : Steps v w h h₁ → Finds h₁ v a → op.Clear h₁ w →
      Steps v w h (write h₁ a op)
  | right {h₁ : Heap} {a : JaclVal} {op : Write} : Steps v w h h₁ → Finds h₁ w a → op.Clear h₁ v →
      Steps v w h (write h₁ a op)

/-- No mutation through the one changes what is read of the other, ever. -/
def Independent (h : Heap) (v w : JaclVal) : Prop :=
  ∀ h₁, Steps v w h h₁ → ∀ (a : JaclVal) (op : Write),
    (Finds h₁ v a → op.Clear h₁ w → ∀ n, read n (write h₁ a op) w = read n h₁ w) ∧
      (Finds h₁ w a → op.Clear h₁ v → ∀ n, read n (write h₁ a op) v = read n h₁ v)

/-- **A snapshot**: the box is made, and what it holds is independent of the value it was made
from. -/
def Snapshot (h : Heap) (v : JaclVal) : Prop :=
  ∃ fuel h' b w, boxNew fuel h v = some (h', b) ∧ (∀ h₁, Steps v w h' h₁ → boxGet h₁ b = w) ∧
    Independent h' v w

/-! ### When there is one -/

/-- The word is a container that can be changed. -/
def Changeable (h : Heap) (x : JaclVal) : Prop :=
  ∃ c, h.cellOf x = some c ∧ ∃ c', h.cells (targetOf c x) = some c' ∧ c'.Mutable

/-- **What is copied, to a depth**: an array, if what holds of its elements inside an array; a struct
that is not in an array; and what reaches nothing that can be changed is shared. -/
inductive Copied (h : Heap) : Nat → Bool → JaclVal → Prop
  | shared {n : Nat} {inArr : Bool} {v : JaclVal} : (∀ x, Finds h v x → ¬ Changeable h x) →
      Copied h n inArr v
  | arr {n : Nat} {inArr : Bool} {v : JaclVal} {elems : List JaclVal} :
      h.cellOf v = some (.arr elems) → (∀ e ∈ elems, Copied h n true e) → Copied h (n + 1) inArr v
  | struct {n : Nat} {v typename : JaclVal} {fields : List (JaclVal × JaclVal)} :
      h.cellOf v = some (.struct typename fields) → (∀ f ∈ fields, Copied h n false f.2) →
      Copied h (n + 1) false v

end Jacl.Snapshots
