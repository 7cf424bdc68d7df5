import Jacl.FlatBuffers
import Jacl.Ranges
import Mathlib.Data.List.Basic

/-!
# Mutable arrays (`runtime/collections.c`)

An array is a header cell, with the count and the capacity, and a cell of slots that it points to; a
push into a full one moves the elements to a cell of twice the slots.  A word of the type `0x1A`
points to the header, so that any copy of it is the same array; a fat pointer is an array and an
offset into it.

`none` is the end of the program: a cell that is larger than the heap (`jacl_alloc` traps), or an
access outside of the slots.  Where a cell is placed is the allocator's business: a new one takes the
next address.
-/

namespace Jacl.Arrays
open Function JaclVal FlatBuf HeapAlloc

/-- The payload of a header cell. -/
structure Header where
  count : Int
  cap : Int
  data : Nat

/-- A cell of an array. -/
inductive Cell
  | header (hd : Header)
  | data (slots : List JaclVal)

/-- The cells. -/
structure Heap where
  cells : Nat → Option Cell
  next : Nat

namespace Heap

/-- No cell. -/
def empty : Heap := ⟨fun _ => none, granule⟩

/-- A new cell. -/
def alloc (h : Heap) (c : Cell) : Heap × Nat :=
  (⟨update h.cells h.next (some c), h.next + granule⟩, h.next)

/-- A store into a cell. -/
def put (h : Heap) (p : Nat) (c : Cell) : Heap := { h with cells := update h.cells p (some c) }

/-- The slots of a data cell. -/
def slots (h : Heap) (d : Nat) : List JaclVal :=
  match h.cells d with
  | some (.data s) => s
  | _ => []

/-- A store into a slot. -/
def putSlot (h : Heap) (d i : Nat) (v : JaclVal) : Option Heap :=
  if i < (h.slots d).length then some (h.put d (.data ((h.slots d).set i v))) else none

end Heap

/-- `JACL_ARR_MIN_CAP`. -/
def minCap : Int := 8

/-- The bytes that `arr_data_new` asks for: `(uint32_t)cap * 8u`. -/
def dataBytes (cap : Int) : Nat := u32 ((cap % 2 ^ 32).toNat * 8)

/-- `arr_data_new`: the slots are zeroed. -/
def arrDataNew (h : Heap) (cap : Int) : Option (Heap × Nat) :=
  if heapBytes < cellFor (dataBytes cap) then none
  else some (h.alloc (.data (List.replicate (dataBytes cap / 8) nil)))

/-- `jacl_arr_new`. -/
def arrNew (h : Heap) : Option (Heap × JaclVal) :=
  let new := h.alloc (.header ⟨0, minCap, 0⟩)
  (arrDataNew new.1 minCap).map fun data =>
    (data.1.put new.2 (.header ⟨0, minCap, data.2⟩), plain 0x1A new.2)

/-- `arr_hdr`. -/
def arrHdr (h : Heap) (a : JaclVal) : Option Header :=
  if a.type ≠ 0x1A then none
  else
    match h.cells a.payload with
    | some (.header hd) => some hd
    | _ => none

/-- `jacl_arr_count`. -/
def arrCount (h : Heap) (a : JaclVal) : Nat :=
  match arrHdr h a with
  | some hd => (hd.count % 2 ^ 32).toNat
  | none => 0

/-- `jacl_arr_get`. -/
def arrGet (h : Heap) (a : JaclVal) (i : Nat) : Option JaclVal :=
  match arrHdr h a with
  | none => some errorVal
  | some hd => if (hd.count % 2 ^ 32).toNat ≤ i then some nil else (h.slots hd.data)[i]?

/-- The growth of a full array at `p`: the elements are copied to a cell of twice the slots. -/
def grow (h : Heap) (p : Nat) (hd : Header) : Option (Heap × Header) :=
  (arrDataNew h (int32 (hd.cap * 2))).bind fun new =>
    if (h.slots hd.data).length < hd.count.toNat ∨ (new.1.slots new.2).length < hd.count.toNat then none
    else
      let moved := new.1.put new.2
        (.data ((h.slots hd.data).take hd.count.toNat ++ (new.1.slots new.2).drop hd.count.toNat))
      let hd' : Header := ⟨hd.count, int32 (hd.cap * 2), new.2⟩
      some (moved.put p (.header hd'), hd')

/-- `jacl_arr_push`. -/
def arrPush (h : Heap) (a v : JaclVal) : Option (Heap × JaclVal) :=
  match arrHdr h a with
  | none => some (h, errorVal)
  | some hd =>
    (if hd.count = hd.cap then grow h a.payload hd else some (h, hd)).bind fun room =>
      (room.1.putSlot room.2.data room.2.count.toNat v).map fun h' =>
        (h'.put a.payload (.header ⟨int32 (room.2.count + 1), room.2.cap, room.2.data⟩), a)

/-- `jacl_arr_push_v`: the new length. -/
def arrPushV (h : Heap) (a e : JaclVal) : Option (Heap × JaclVal) :=
  if a.error then some (h, a)
  else if e.error then some (h, e)
  else (arrPush h a e).map fun r => if r.2.error then r else (r.1, i32 (arrCount r.1 a))

/-- `jacl_arr_pop`. -/
def arrPop (h : Heap) (a : JaclVal) : Option (Heap × JaclVal) :=
  match arrHdr h a with
  | none => some (h, errorVal)
  | some hd =>
    if hd.count ≤ 0 then some (h, nil)
    else
      (h.slots hd.data)[hd.count.toNat - 1]?.bind fun v =>
        (h.putSlot hd.data (hd.count.toNat - 1) nil).map fun h' =>
          (h'.put a.payload (.header { hd with count := hd.count - 1 }), v)

/-- `jacl_arr_get_at` of an array. -/
def arrGetAt (h : Heap) (a idx : JaclVal) : Option JaclVal :=
  if a.error then some a
  else if idx.isI32 = false then some errorVal
  else if idx.asI32 < 0 then some nil
  else arrGet h a (idx.asI32 % 2 ^ 32).toNat

/-- The largest gap that a set may fill. -/
def maxGap : Int := 1 <<< 20

/-- The loop that grows an array past the index `i`. -/
def fillTo (fill a : JaclVal) (i : Int) : Nat → Heap → Option Heap
  | 0, _ => none
  | fuel + 1, h =>
    if (BitVec.ofNat 32 (arrCount h a)).toInt ≤ i then
      (arrPush h a fill).bind fun r => fillTo fill a i fuel r.1
    else some h

/-- `jacl_arr_set_at` and `jacl_arr_set_at_zero` of an array, which fill a gap with `fill`. -/
def setWith (fill : JaclVal) (h : Heap) (a idx v : JaclVal) : Option (Heap × JaclVal) :=
  if a.error then some (h, a)
  else
    match arrHdr h a with
    | none => some (h, errorVal)
    | some hd =>
      if idx.isI32 = false then some (h, errorVal)
      else if idx.asI32 < 0 then some (h, errorVal)
      else if maxGap < idx.asI32 - hd.count then some (h, errorVal)
      else
        -- one turn for each slot of the gap, and the last test
        (fillTo fill a idx.asI32 ((idx.asI32 + 1 - hd.count).toNat + 1) h).bind fun h' =>
          match arrHdr h' a with
          | none => none
          | some hd' => (h'.putSlot hd'.data idx.asI32.toNat v).map fun h'' => (h'', v)

/-- `jacl_arr_set_at`. -/
def arrSetAt (h : Heap) (a idx v : JaclVal) : Option (Heap × JaclVal) := setWith nil h a idx v

/-- `jacl_arr_set_at_zero`. -/
def arrSetAtZero (h : Heap) (a idx v : JaclVal) : Option (Heap × JaclVal) := setWith (i32 0) h a idx v

/-- `jacl_len` of an array. -/
def len (h : Heap) (a : JaclVal) : JaclVal := if a.error then a else i32 (arrCount h a)

/-- **A way to an array**: a word, or a fat pointer, with its parts as `jacl_fatptr_parts` reads
them. -/
inductive Alias
  | array (a : JaclVal)
  | fat (base : Alias) (off : JaclVal)

namespace Alias

/-- `jacl_index_get`. -/
def get (h : Heap) : Alias → JaclVal → Option JaclVal
  | .array a, idx => arrGetAt h a idx
  | .fat base off, idx =>
    -- the sum is an `int32_t`
    if idx.isI32 then base.get h (i32 (off.asI32 + idx.asI32)) else some errorVal

/-- `jacl_arr_set_at` through a fat pointer. -/
def setAt (h : Heap) : Alias → JaclVal → JaclVal → Option (Heap × JaclVal)
  | .array a, idx, v => arrSetAt h a idx v
  | .fat base off, idx, v =>
    if idx.isI32 then base.setAt h (i32 (off.asI32 + idx.asI32)) v else some (h, errorVal)

/-- The array. -/
def root : Alias → JaclVal
  | .array a => a
  | .fat base _ => base.root

end Alias

/-- An operation of a program on an array. -/
inductive Op
  | push (a v : JaclVal)
  | pushV (a v : JaclVal)
  | pop (a : JaclVal)
  | get (t : Alias) (idx : JaclVal)
  | set (t : Alias) (idx v : JaclVal)
  | setZero (a idx v : JaclVal)
  | len (a : JaclVal)

namespace Op

/-- The array of an operation. -/
def target : Op → JaclVal
  | .push a _ | .pushV a _ | .pop a | .setZero a _ _ | .len a => a
  | .get t _ | .set t _ _ => t.root

/-- What the code does. -/
def exec (h : Heap) : Op → Option (Heap × JaclVal)
  | .push a v => arrPush h a v
  | .pushV a v => arrPushV h a v
  | .pop a => arrPop h a
  | .get t idx => (t.get h idx).map fun v => (h, v)
  | .set t idx v => t.setAt h idx v
  | .setZero a idx v => arrSetAtZero h a idx v
  | .len a => some (h, Arrays.len h a)

end Op

/-! ### Lists -/

/-- The element at an index; outside of the list there is `nil`. -/
def listGet (l : List JaclVal) (i : Int) : JaclVal := if i < 0 then nil else l.getD i.toNat nil

/-- **The rule of a set**: an index below 0 and one more than `2 ^ 20` past the end are errors; the
gap before an index past the end is filled. -/
def listSet (fill : JaclVal) (l : List JaclVal) (i : Int) (v : JaclVal) : List JaclVal × JaclVal :=
  if i < 0 ∨ maxGap < i - l.length then (l, errorVal)
  else ((l.rightpad (i.toNat + 1) fill).set i.toNat v, v)

/-- A read through an alias: a word with the error flag is returned as it is. -/
def Alias.read (l : List JaclVal) : Alias → JaclVal → JaclVal
  | .array a, idx => if a.error then a else if idx.isI32 then listGet l idx.asI32 else errorVal
  | .fat base off, idx => if idx.isI32 then base.read l (i32 (off.asI32 + idx.asI32)) else errorVal

/-- A set of an element of a list, by a word and an index. -/
def wordSet (fill : JaclVal) (l : List JaclVal) (a idx v : JaclVal) : List JaclVal × JaclVal :=
  if a.error then (l, a) else if idx.isI32 then listSet fill l idx.asI32 v else (l, errorVal)

/-- A set through an alias. -/
def Alias.write (l : List JaclVal) : Alias → JaclVal → JaclVal → List JaclVal × JaclVal
  | .array a, idx, v => wordSet nil l a idx v
  | .fat base off, idx, v =>
    if idx.isI32 then base.write l (i32 (off.asI32 + idx.asI32)) v else (l, errorVal)

/-- **What an operation does to the list** that the array stands for, and what it returns. -/
def Op.apply (l : List JaclVal) : Op → List JaclVal × JaclVal
  | .push a v => (l ++ [v], a)
  | .pushV a v =>
    if a.error then (l, a) else if v.error then (l, v) else (l ++ [v], i32 (l.length + 1))
  | .pop _ => (l.dropLast, l.getLastD nil)
  | .get t idx => (l, t.read l idx)
  | .set t idx v => t.write l idx v
  | .setZero a idx v => wordSet (i32 0) l a idx v
  | .len a => (l, if a.error then a else i32 l.length)

end Jacl.Arrays
