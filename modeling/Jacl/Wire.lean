import Jacl.Bytes
import Jacl.Collections

/-!
# Values as messages (`runtime/value.c`)

A value crosses to another vat as a frame: a 16-byte head at 0, then one 8-aligned tail
segment for every slot that is not empty.  `jv_put` writes a head and appends the
segments below it; it runs once without a buffer, for the size, and once with one.
`jv_get` reads the value of a head back and builds it on the reader's heap.

Buffers are byte memories, so a write past the buffer's end is a write to its
position.  The encoder's record also keeps the heads and the segments it has placed,
which the source does not.  A read of a cell that is not what the word's type says is `none`; so
is a decoded vector push that leaves C's defined behaviour.
-/

namespace Jacl.Wire
open JaclVal Bytes BigInt

/-- `JV_MAX_DEPTH`. -/
def maxDepth : Nat := 128

/-- `JV_HEAD`. -/
def headSize : Nat := 16

/-- The variants' tags (`runtime/unir/jacl_value.h`). -/
inductive Tag where
  | nil | bool | i32 | i64 | u32 | u64 | f32 | f64 | text | bytes | vec | map | error
deriving DecidableEq, Repr

/-- The tag's byte. -/
def Tag.code : Tag → Nat
  | .nil => 0
  | .bool => 1
  | .i32 => 2
  | .i64 => 3
  | .u32 => 4
  | .u64 => 5
  | .f32 => 6
  | .f64 => 7
  | .text => 8
  | .bytes => 9
  | .vec => 10
  | .map => 11
  | .error => 12

/-- The arguments of `jv_err`: the message, and the value whose type ends it. -/
structure JvErr where
  what : String
  subject : JaclVal
deriving DecidableEq, Repr

/-- `JvEnc`, with the positions of the heads and the (offset, size) of the segments
placed so far. -/
structure JvEnc where
  buf : Option Memory
  len : Nat
  err : Option JvErr
  heads : List Nat
  segs : List (Nat × Nat)

/-! ### Encoding -/

/-- `jv_put_le`. -/
def putLe (e : JvEnc) (pos x n : Nat) : JvEnc :=
  { e with buf := e.buf.map fun m => Bytes.putLe m pos x n }

/-- Where the next segment goes: `(len + 7) & ~7`. -/
def align (len : Nat) : Nat := (len + 7) / 8 * 8

/-- `jv_segment`: the encoder after it, and the segment's offset. -/
def segment (e : JvEnc) (pos n count : Nat) : JvEnc × Nat :=
  if n = 0 then
    (e, 0)
  else
    let off := align e.len
    let err := if 0xFFFFFFFF < off + n ∧ e.err = none then
      some ⟨"value: too large to cross", nil⟩ else e.err
    let e := { e with len := off + n, err := err, segs := e.segs ++ [(off, n)] }
    (putLe (putLe e pos off 4) (pos + 4) count 4, off)

/-- `jv_bytes`. -/
def putBytes (e : JvEnc) (pos : Nat) (s : List (BitVec 8)) : JvEnc :=
  let (e, off) := segment e pos s.length s.length
  { e with buf := e.buf.map fun m => copy m off s }

/-- The loop over the heads of a segment, 16 bytes apart; `put` is `jv_put`. -/
def putHeads (put : JvEnc → JaclVal → Nat → Option JvEnc) :
    JvEnc → List JaclVal → Nat → Option JvEnc
  | e, [], _ => some e
  | e, c :: cs, off =>
    if e.err.isSome then
      some e
    else do
      let e ← put e c off
      putHeads put e cs (off + headSize)

/-- A segment of `n` bytes of heads, its slot at `pos`; `count` is what the slot counts. -/
def putList (put : JvEnc → JaclVal → Nat → Option JvEnc) (e : JvEnc) (cs : List JaclVal)
    (n count pos : Nat) : Option JvEnc :=
  let (e, off) := segment e pos n count
  putHeads put e cs off

/-- `jacl_big_to_u64`. -/
def bigToU64 (sign : Int) (limb : List Nat) : Option Nat :=
  if sign < 0 ∨ 2 < limb.length then
    none
  else
    some (limb.getD 0 0 + (if limb.length = 2 then limb.getD 1 0 * 2 ^ 32 else 0))

/-- The tag and then the payload's bytes. -/
def putScalar (e : JvEnc) (pos : Nat) (tag : Tag) (x n : Nat) : JvEnc :=
  putLe (putLe e pos tag.code 1) (pos + 8) x n

/-- `JV_ENTRY`: a map's entry is two heads. -/
def entrySize : Nat := 32

/-- `jv_put`: the value `v` as a head at `pos`, `depth` steps below the root. -/
def put (h : Heap) : Nat → JvEnc → JaclVal → Nat → Nat → Option JvEnc
  | 0, _, _, _, _ => none
  | fuel + 1, e, v, pos, depth =>
    let u := pos + 8
    if e.err.isSome then
      some e
    else if maxDepth < depth ∨ (depth = maxDepth ∧ v ≠ nil) then
      some { e with err := some ⟨"value: nested too deeply to cross", nil⟩ }
    else if v.tainted || v.secret then
      some { e with err := some ⟨"value: a tainted or secret value cannot cross", nil⟩ }
    else
    let e := { e with heads := e.heads ++ [pos] }
    if v.error then
      -- the payload as a one-element list
      let (e, off) := segment (putLe e pos Tag.error.code 1) u headSize 1
      put h fuel e { v with error := false } off (depth + 2)
    else if v.type = 0x00 then
      some e
    else if v.type = 0x01 then
      some (putScalar e pos .bool (v.payload % 2) 1)
    else if v.type = 0x02 then
      some (putScalar e pos .i32 (v.payload % 2 ^ 32) 4)
    else if v.type = 0x03 then
      some (putScalar e pos .f32 (v.payload % 2 ^ 32) 4)
    else if v.type = 0x0E then
      match h.cells v.payload with
      | some (.wide bits) => some (putScalar e pos .i64 bits.toNat 8)
      | _ => none
    else if v.type = 0x10 then
      match h.cells v.payload with
      | some (.wide bits) => some (putScalar e pos .f64 bits.toNat 8)
      | _ => none
    else if v.type = 0x09 then
      match h.cells v.payload with
      | some (.big sign limb) =>
        match bigToU64 sign limb with
        | some x => some (putScalar e pos .u64 x 8)
        | none => some { e with err := some ⟨"value: an integer past 64 bits cannot cross", nil⟩ }
      | _ => none
    else if v.type = 0x04 then
      some (putBytes (putLe e pos Tag.text.code 1) u (inlineBytes v.payload))
    else if v.type = 0x05 then
      match h.cells v.payload with
      | some (.str s) => some (putBytes (putLe e pos Tag.text.code 1) u s)
      | _ => none
    else if v.type = 0x1E then
      match h.cells v.payload with
      | some (.fbuf ndims code data) =>
        if ndims = 1 ∧ code ≤ 1 then
          some (putBytes (putLe e pos Tag.bytes.code 1) u data)
        else
          some { e with err := some ⟨"value: cannot cross a vat boundary: ", v⟩ }
      | _ => none
    else if v.type = 0x06 ∨ v.type = 0x1B then
      match vecRoot h v with
      | some r => putList (fun e c pos => put h fuel e c pos (depth + 2))
          (putLe e pos Tag.vec.code 1) (vecElems r) (r.count * headSize) r.count u
      | none => none
    else if v.type = 0x07 then
      match mapRoot h v with
      | some t =>
        putList (fun e c pos => put h fuel e c pos (depth + 3)) (putLe e pos Tag.map.code 1)
          (((Hamt.entries 7 t).take (Hamt.count t)).flatMap fun l => [l.key, l.value])
          (Hamt.count t * entrySize) (Hamt.count t) u
      | none => none
    else
      some { e with err := some ⟨"value: cannot cross a vat boundary: ", v⟩ }

/-- The recursion goes down a step of `depth` at least, so this is never used up. -/
def putFuel : Nat := maxDepth + 2

/-- `jv_size`: the size of the encoding, or why the value cannot cross. -/
def size (h : Heap) (v : JaclVal) : Option (Except JvErr Nat) := do
  let e ← put h putFuel ⟨none, headSize, none, [], []⟩ v 0 0
  match e.err with
  | some err => some (.error err)
  | none => some (.ok e.len)

/-- `jv_write` into a buffer: the encoder after it. -/
def write (h : Heap) (v : JaclVal) (buf : Memory) : Option JvEnc :=
  put h putFuel ⟨some buf, headSize, none, [], []⟩ v 0 0

/-! ### Decoding -/

/-- `jaclrt_inline_string`. -/
def inlineString (s : List (BitVec 8)) : JaclVal :=
  plain 0x04 (Nat.ofDigits 256 (((s.take 7).takeWhile (· != 0#8)).map BitVec.toNat))

/-- `jacl_str_new`. -/
def strNew (h : Heap) (s : List (BitVec 8)) : Heap × JaclVal :=
  if s.length ≤ 7 then
    (h, inlineString s)
  else
    let (h, p) := h.alloc (.str s)
    (h, plain 0x05 p)

/-- `jv_err`, without a value. -/
def errVal (h : Heap) (what : String) : Heap × JaclVal :=
  let (h, v) := strNew h (what.toList.map fun c => BitVec.ofNat 8 c.toNat)
  (h, v.setError)

/-- The loop of `jv_get_vec`; `get` is `jv_get`. -/
def getVec (get : Heap → Nat → Option (Heap × JaclVal)) :
    Nat → Heap → JaclVal → Nat → Option (Heap × JaclVal)
  | 0, h, vec, _ => some (h, vec)
  | n + 1, h, vec, pos => do
    let (h, x) ← get h pos
    let (h, vec) ← vecPush h vec x
    getVec get n h vec (pos + headSize)

/-- The loop over a map's entries. -/
def getMap (get : Heap → Nat → Option (Heap × JaclVal))
    (set : Heap → JaclVal → JaclVal → JaclVal → Option (Heap × JaclVal)) :
    Nat → Heap → JaclVal → Nat → Option (Heap × JaclVal)
  | 0, h, m, _ => some (h, m)
  | n + 1, h, m, pos => do
    let (h, k) ← get h pos
    let (h, x) ← get h (pos + headSize)
    let (h, m) ← set h m k x
    getMap get set n h m (pos + entrySize)

/-- `jv_get`: the value whose head is at `pos` in the frame `m`.  The maps it builds
compare keys to the depth `keyFuel`. -/
def get (fl : FloatOps) (keyFuel : Nat) (m : Memory) : Nat → Heap → Nat → Option (Heap × JaclVal)
  | 0, _, _ => none
  | fuel + 1, h, pos =>
    let u := pos + 8
    let tag := (m pos).toNat
    if tag = Tag.nil.code then
      some (h, nil)
    else if tag = Tag.bool.code then
      some (h, bool (m u != 0#8))
    else if tag = Tag.i32.code then
      some (h, i32 (le m u 4))
    else if tag = Tag.i64.code then
      some (intResult h (BitVec.ofNat 64 (le m u 8)).toInt)
    else if tag = Tag.u32.code then
      some (intResult h (le m u 4))
    else if tag = Tag.u64.code then
      some (canon h 1 [le m u 8 % 2 ^ 32, le m u 8 / 2 ^ 32 % 2 ^ 32])
    else if tag = Tag.f32.code then
      some (h, plain 0x03 (le m u 4))
    else if tag = Tag.f64.code then
      some (wideNew h 0x10 (BitVec.ofNat 64 (le m u 8)).toInt)
    else if tag = Tag.text.code then
      some (strNew h (slice m (le m u 4) (le m (u + 4) 4)))
    else if tag = Tag.bytes.code then
      -- the length is taken as an `int32_t`
      if le m (u + 4) 4 < 2 ^ 31 then
        let (h, p) := h.alloc (.fbuf 1 1 (slice m (le m u 4) (le m (u + 4) 4)))
        some (h, plain 0x1E p)
      else
        none
    else if tag = Tag.vec.code then
      let (h, vec) := vecEmpty h
      getVec (get fl keyFuel m fuel) (le m (u + 4) 4) h vec (le m u 4)
    else if tag = Tag.map.code then
      getMap (get fl keyFuel m fuel) (mapSet fl keyFuel) (le m (u + 4) 4) h mapEmpty (le m u 4)
    else if tag = Tag.error.code then
      if le m (u + 4) 4 ≠ 1 then
        some (errVal h "value: an error must carry one payload")
      else do
        let (h, x) ← get fl keyFuel m fuel h (le m u 4)
        some (h, x.setError)
    else
      some (errVal h "value: unknown variant")

end Jacl.Wire
