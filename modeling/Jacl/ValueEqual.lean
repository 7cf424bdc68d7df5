import Jacl.BigInt
import Jacl.HamtInvariant

/-!
# Equality of values and the hash of map keys

`jacl_val_equal` (`runtime/builtins.c`) is structural equality, and it is the key
equality of maps; `jmap_key_hash` (`runtime/collections.c`) is their key hash.  Both
recurse through vectors, and the equality through structs and maps as well.  The
source has no bound on that recursion; here a step of it uses one unit of `fuel`, and
a comparison or a hash that reads a cell of the wrong kind, or runs out, is `false` or
`0`.  A map's equality looks keys up in the other map, with this equality and this
hash as handlers.
-/

namespace Jacl
open JaclVal

/-! ### Strings (`runtime/string.c`) -/

/-- The bytes of an inline string: seven at most, up to the first NUL. -/
def inlineBytes (payload : Nat) : List (BitVec 8) :=
  ((List.range 7).map fun i => BitVec.ofNat 8 (payload >>> (i * 8))).takeWhile (· != 0#8)

/-- The bytes of a string: those `jacl_str_len` counts. -/
def strBytes (h : Heap) (v : JaclVal) : Option (List (BitVec 8)) :=
  if v.type == 0x04 then
    some (inlineBytes v.payload)
  else
    match h.cells v.payload with
    | some (.str bytes) => some bytes
    | _ => none

/-- `jacl_str_eq`.  The short strings it copies to a buffer and the long ones it
compares in place are compared by the same bytes. -/
def strEq (h : Heap) (a b : JaclVal) : Bool :=
  if a = b then
    true
  else
    match strBytes h a, strBytes h b with
    | some x, some y => x == y
    | _, _ => false

/-- `jacl_str_hash`, FNV-1a. -/
def strHash (h : Heap) (v : JaclVal) : BitVec 32 :=
  ((strBytes h v).getD []).foldl (fun h c => (h ^^^ c.setWidth 32) * 16777619#32) 2166136261#32

/-! ### Numbers -/

/-- `jacl_num_f64`. -/
def numF64 (fl : FloatOps) (h : Heap) (v : JaclVal) : Option (BitVec 64) :=
  if v.isI32 then
    some (fl.intToF64 v.asI32)
  else if v.type == 0x03 then
    some (fl.f32ToF64 (BitVec.ofNat 32 v.payload))
  else if v.isF64 then
    match h.cells v.payload with
    | some (.wide bits) => some bits
    | _ => none
  else if v.isBigint then
    match h.cells v.payload with
    | some (.big sign limb) => some (fl.bigToF64 sign limb)
    | _ => none
  else
    (BigInt.wideBits h v).map fl.intToF64

/-- The branch of `jacl_val_equal` on two numbers. -/
def numEqual (fl : FloatOps) (h : Heap) (a b : JaclVal) : Bool :=
  if a.isAnyint && b.isAnyint then
    if a.isBigint || b.isBigint then
      BigInt.bigCmp h a b == some 0
    else
      match BigInt.intVal h a, BigInt.intVal h b with
      | some x, some y => x == y
      | _, _ => false
  else
    match numF64 fl h a, numF64 fl h b with
    | some x, some y => fl.eqF64 x y
    | _, _ => false

/-! ### Collections (`runtime/collections.c`) -/

/-- The root a vector points to. -/
def vecRoot (h : Heap) (v : JaclVal) : Option (RrbVec.Root JaclVal) :=
  match h.cells v.payload with
  | some (.vec r) => some r
  | _ => none

/-- `jacl_vec_get`: nil when there is no such element. -/
def vecGet (r : RrbVec.Root JaclVal) (i : Nat) : JaclVal :=
  match RrbVec.get r i with
  | some (some x) => x
  | _ => nil

/-- The elements `0 .. count - 1` as the loops over a vector read them. -/
def vecElems (r : RrbVec.Root JaclVal) : List JaclVal := (List.range r.count).map (vecGet r)

/-- The trie a map points to; the empty map is over `NULL`. -/
def mapRoot (h : Heap) (m : JaclVal) : Option (Hamt.Node JaclVal JaclVal) :=
  if m.payload = 0 then
    some .null
  else
    match h.cells m.payload with
    | some (.map r) => some r
    | _ => none

/-- `jacl_map_has`, over the key handlers. -/
def mapHasWith (eq : JaclVal → JaclVal → Bool) (hash : JaclVal → BitVec 32) (h : Heap)
    (m key : JaclVal) : Option Bool := do
  let root ← mapRoot h m
  Hamt.has eq hash root key

/-- `jacl_map_get`, over the key handlers. -/
def mapGetWith (eq : JaclVal → JaclVal → Bool) (hash : JaclVal → BitVec 32) (h : Heap)
    (m key : JaclVal) : Option JaclVal :=
  if m.error then
    some m
  else if key.error then
    some key
  else do
    let root ← mapRoot h m
    let found ← Hamt.has eq hash root key
    if found then Hamt.get eq hash root key else some nil

/-- `JACL_EQ_MAP_CAP`. -/
def eqMapCap : Nat := 64

/-- `x ^= x >> 33; x *= …; x ^= x >> 33`, the low half. -/
def mixWord (x : BitVec 64) : BitVec 32 :=
  let x := x ^^^ (x >>> 33)
  let x := x * 0xff51afd7ed558ccd#64
  (x ^^^ (x >>> 33)).setWidth 32

/-- `jmap_key_hash`. -/
def keyHash (h : Heap) : Nat → JaclVal → BitVec 32
  | 0, _ => 0
  | fuel + 1, k =>
    if k.isString then
      strHash h k
    else if k.type == 0x06 then
      match vecRoot h k with
      | some r =>
        (vecElems r).foldl (fun acc x => (acc ^^^ keyHash h fuel x) * 16777619#32)
          (0x811c9dc5#32 ^^^ BitVec.ofNat 32 r.count)
      | none => 0
    else if k.isBigint then
      match h.cells k.payload with
      | some (.big sign limb) => BigInt.bigHash sign limb
      | _ => 0
    else
      mixWord k.toWord

/-- A typed vector compares as a vector. -/
def kindOf (v : JaclVal) : Nat := if v.type = 0x1B then 0x06 else v.type

/-- `jacl_val_equal`. -/
def valEqual (fl : FloatOps) (h : Heap) : Nat → JaclVal → JaclVal → Bool
  | 0, _, _ => false
  | fuel + 1, a, b =>
    if a.type = b.type ∧ a.payload = b.payload then
      true
    else if a.isString && b.isString then
      strEq h a b
    else if (a.isAnyint || a.isAnyfloat) && (b.isAnyint || b.isAnyfloat) then
      numEqual fl h a b
    else if kindOf a ≠ kindOf b then
      false
    else if kindOf a = 0x06 then
      match vecRoot h a, vecRoot h b with
      | some ra, some rb =>
        ra.count == rb.count &&
          ((vecElems ra).zip (vecElems rb)).all fun (x, y) => valEqual fl h fuel x y
      | _, _ => false
    else if kindOf a = 0x12 then
      match h.cells a.payload, h.cells b.payload with
      | some (.struct na fa), some (.struct nb fb) =>
        strEq h na nb && fa.length == fb.length &&
          (fa.zip fb).all fun (x, y) => strEq h x.1 y.1 && valEqual fl h fuel x.2 y.2
      | _, _ => false
    else if kindOf a = 0x07 then
      match mapRoot h a, mapRoot h b with
      | some ra, some rb =>
        Hamt.count ra == Hamt.count rb && decide (Hamt.count ra ≤ eqMapCap) &&
          (Hamt.entries 7 ra).all fun l =>
            mapHasWith (valEqual fl h fuel) (keyHash h fuel) h b l.key == some true &&
              match mapGetWith (valEqual fl h fuel) (keyHash h fuel) h b l.key with
              | some v => valEqual fl h fuel l.value v
              | none => false
      | _, _ => false
    else
      false

end Jacl
