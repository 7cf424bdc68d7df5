import Jacl.RrbVec
import Jacl.Hamt

/-!
# Values and the cells they point to (`runtime/jaclrt.h`)

A `JaclVal` is a 64-bit word: three flag bits, a 5-bit type and a 56-bit payload,
which is an inline scalar or the window offset of a heap cell.  The word is modelled
by its fields; heap cells are objects (`Obj`) at offsets.  Where a cell is placed is
the allocator's business: here a new cell takes the next granule of the heap.

Only the parts of a cell that some modelled function reads are kept.  A vector's and
a map's nodes are one object each: `RrbVec.Root` and the trie of `Hamt`.
-/

namespace Jacl

/-- A tagged word. -/
structure JaclVal where
  type : Nat
  payload : Nat
  tainted : Bool
  secret : Bool
  error : Bool
deriving DecidableEq, Repr

namespace JaclVal

/-- A word without flags. -/
def plain (type payload : Nat) : JaclVal := ⟨type, payload, false, false, false⟩

/-- `JACL_NIL`. -/
def nil : JaclVal := plain 0x00 0

instance : Zero JaclVal := ⟨nil⟩

instance : Inhabited JaclVal := ⟨nil⟩

/-- `jaclrt_bool`. -/
def bool (b : Bool) : JaclVal := plain 0x01 b.toNat

/-- `jaclrt_i32`. -/
def i32 (x : Int) : JaclVal := plain 0x02 (x % 2 ^ 32).toNat

/-- `jaclrt_as_i32`. -/
def asI32 (v : JaclVal) : Int := (BitVec.ofNat 32 v.payload).toInt

/-- `jaclrt_set_error`. -/
def setError (v : JaclVal) : JaclVal := { v with error := true }

/-- `jaclrt_error`. -/
def errorVal : JaclVal := nil.setError

/-- `v | prop_flags(a, b)`. -/
def propFlags (v a b : JaclVal) : JaclVal :=
  { v with
    tainted := v.tainted || (a.tainted || b.tainted)
    secret := v.secret || (a.secret || b.secret) }

/-- The word itself, as the map's scalar hash mixes it. -/
def toWord (v : JaclVal) : BitVec 64 :=
  BitVec.ofNat 64 (v.tainted.toNat * 2 ^ 63 + v.secret.toNat * 2 ^ 62 + v.error.toNat * 2 ^ 61 +
    v.type * 2 ^ 56 + v.payload)

/-! ### Type tests -/

def isString (v : JaclVal) : Bool := v.type == 0x04 || v.type == 0x05 || v.type == 0x14

def isI32 (v : JaclVal) : Bool := v.type == 0x02

def isIwide (v : JaclVal) : Bool := v.type == 0x0E

def isBigint (v : JaclVal) : Bool := v.type == 0x09

def isAnyint (v : JaclVal) : Bool := v.isI32 || v.isIwide || v.isBigint

def isF64 (v : JaclVal) : Bool := v.type == 0x10

def isAnyfloat (v : JaclVal) : Bool := v.type == 0x03 || v.isF64

/-- `jacl_is_num`. -/
def isNum (v : JaclVal) : Bool := v.type == 0x02 || v.type == 0x03

end JaclVal

/-- The contents of a heap cell. -/
inductive Obj where
  /-- The 8 payload bytes of an `i64` or an `f64` cell. -/
  | wide (bits : BitVec 64)
  /-- `JaclBig`. -/
  | big (sign : Int) (limb : List Nat)
  /-- `JaclStr`. -/
  | str (bytes : List (BitVec 8))
  | vec (root : RrbVec.Root JaclVal)
  | map (root : Hamt.Node JaclVal JaclVal)
  /-- A struct's name and its fields' names and values. -/
  | struct (name : JaclVal) (fields : List (JaclVal × JaclVal))
  /-- A one-dimensional flat buffer of element code `code`. -/
  | fbuf (ndims code : Nat) (data : List (BitVec 8))

/-- The heap: objects at window offsets, and where the next one goes. -/
structure Heap where
  cells : Nat → Option Obj
  next : Nat

namespace Heap

/-- A cell for a new object. -/
def alloc (h : Heap) (o : Obj) : Heap × Nat :=
  (⟨fun a => if a = h.next then some o else h.cells a, h.next + 16⟩, h.next)

/-- No cell at or past `next` is in use. -/
def Ok (h : Heap) : Prop := 0 < h.next ∧ ∀ a, h.next ≤ a → h.cells a = none

/-- Every cell of `h` is still there, with its contents, in `h'`. -/
def Le (h h' : Heap) : Prop := ∀ a o, h.cells a = some o → h'.cells a = some o

theorem Le.refl (h : Heap) : h.Le h := fun _ _ ha => ha

theorem Le.trans {h₁ h₂ h₃ : Heap} (h12 : h₁.Le h₂) (h23 : h₂.Le h₃) : h₁.Le h₃ :=
  fun a o ha => h23 a o (h12 a o ha)

theorem le_alloc {h : Heap} (hok : h.Ok) (o : Obj) : h.Le (h.alloc o).1 := by
  intro a o' ha
  have hne : a ≠ h.next := by
    rintro rfl
    rw [hok.2 _ (Nat.le_refl _)] at ha
    cases ha
  simp only [alloc, if_neg hne, ha]

theorem ok_alloc {h : Heap} (hok : h.Ok) (o : Obj) : (h.alloc o).1.Ok := by
  refine ⟨show 0 < h.next + 16 by omega, fun a ha => ?_⟩
  have hlt : h.next + 16 ≤ a := ha
  simp only [alloc, if_neg (show a ≠ h.next by omega)]
  exact hok.2 a (by omega)

theorem cells_alloc (h : Heap) (o : Obj) : (h.alloc o).1.cells (h.alloc o).2 = some o := by
  simp [alloc]

end Heap

/-- Floating point, which this development leaves open: the operations and conversions
the runtime takes from C, on the bits of its values. -/
structure FloatOps where
  addF32 : BitVec 32 → BitVec 32 → BitVec 32
  subF32 : BitVec 32 → BitVec 32 → BitVec 32
  mulF32 : BitVec 32 → BitVec 32 → BitVec 32
  addF64 : BitVec 64 → BitVec 64 → BitVec 64
  subF64 : BitVec 64 → BitVec 64 → BitVec 64
  mulF64 : BitVec 64 → BitVec 64 → BitVec 64
  eqF64 : BitVec 64 → BitVec 64 → Bool
  ltF64 : BitVec 64 → BitVec 64 → Bool
  leF64 : BitVec 64 → BitVec 64 → Bool
  /-- `(float)x` for an `int32_t`. -/
  intToF32 : Int → BitVec 32
  /-- `(double)x` for an `int32_t` or an `int64_t`. -/
  intToF64 : Int → BitVec 64
  f32ToF64 : BitVec 32 → BitVec 64
  /-- `jacl_big_to_f64`. -/
  bigToF64 : Int → List Nat → BitVec 64

namespace FloatOps

def f64 (x : BitVec 64) : Float := Float.ofBits (UInt64.ofBitVec x)

def f64Bits (x : Float) : BitVec 64 := x.toBits.toBitVec

def f32 (x : BitVec 32) : Float32 := Float32.ofBits (UInt32.ofBitVec x)

def f32Bits (x : Float32) : BitVec 32 := x.toBits.toBitVec

/-- The operations of the machine, which the runtime is compiled to. -/
def ieee : FloatOps where
  addF32 x y := f32Bits (f32 x + f32 y)
  subF32 x y := f32Bits (f32 x - f32 y)
  mulF32 x y := f32Bits (f32 x * f32 y)
  addF64 x y := f64Bits (f64 x + f64 y)
  subF64 x y := f64Bits (f64 x - f64 y)
  mulF64 x y := f64Bits (f64 x * f64 y)
  eqF64 x y := f64 x == f64 y
  ltF64 x y := decide (f64 x < f64 y)
  leF64 x y := decide (f64 x ≤ f64 y)
  intToF32 x := f32Bits (Float32.ofInt x)
  intToF64 x := f64Bits (Float.ofInt x)
  f32ToF64 x := f64Bits (f32 x).toFloat
  bigToF64 sign limb :=
    let d := limb.foldr (fun x d => d * 4294967296.0 + Float.ofNat x) 0
    f64Bits (if sign < 0 then -d else d)

end FloatOps

end Jacl
