import Jacl.ValueEqual

/-!
# The arithmetic and the comparisons of dynamic numbers (`runtime/builtins.c`)

`jacl_add`, `jacl_sub` and `jacl_mul` try the pairs of representations in one order:
two inline integers, an `f64` with any number, a bigint with any integer, a boxed
integer with an inline or a boxed one, and last two 32-bit numbers as floats.  They
differ in the operation only, and so do `jacl_lt`, `jacl_le`, `jacl_gt` and `jacl_ge`.
`__builtin_*_overflow` on a width is: the exact result does not fit it.
-/

namespace Jacl.Builtins
open JaclVal BigInt

/-- The values an `int32_t` takes. -/
def FitsI32 (x : Int) : Prop := -2 ^ 31 ≤ x ∧ x ≤ 2 ^ 31 - 1

/-- The values an `int64_t` takes. -/
def FitsI64 (x : Int) : Prop := -2 ^ 63 ≤ x ∧ x ≤ 2 ^ 63 - 1

instance (x : Int) : Decidable (FitsI32 x) := inferInstanceAs (Decidable (_ ∧ _))

instance (x : Int) : Decidable (FitsI64 x) := inferInstanceAs (Decidable (_ ∧ _))

/-- `jacl_num_f32`. -/
def numF32 (fl : FloatOps) (v : JaclVal) : BitVec 32 :=
  if v.isI32 then fl.intToF32 v.asI32 else BitVec.ofNat 32 v.payload

/-- `jacl_f64_new`. -/
def f64New (h : Heap) (bits : BitVec 64) : Heap × JaclVal := wideNew h 0x10 bits.toInt

/-- `v | prop_flags(a, b)` on a result with its heap. -/
def withFlags (r : Heap × JaclVal) (a b : JaclVal) : Heap × JaclVal := (r.1, r.2.propFlags a b)

/-- Either side an `f64` and the other a number. -/
def f64Pair (a b : JaclVal) : Bool :=
  (a.isF64 && (b.isAnyfloat || b.isAnyint)) || (b.isF64 && (a.isAnyfloat || a.isAnyint))

/-- Two integers, one of them a bigint. -/
def bigPair (a b : JaclVal) : Bool := a.isAnyint && b.isAnyint && (a.isBigint || b.isBigint)

/-- Two integers, one of them boxed. -/
def widePair (a b : JaclVal) : Bool := a.isAnyint && b.isAnyint && (a.isIwide || b.isIwide)

/-- What `jacl_add`, `jacl_sub` and `jacl_mul` differ in. -/
structure ArithOp where
  int : Int → Int → Int
  big : Heap → JaclVal → JaclVal → Option (Heap × JaclVal)
  f64 : BitVec 64 → BitVec 64 → BitVec 64
  f32 : BitVec 32 → BitVec 32 → BitVec 32

/-- `JACL_WIDE_OP`. -/
def wideOp (op : ArithOp) (h : Heap) (a b : JaclVal) : Option (Heap × JaclVal) := do
  let x ← intVal h a
  let y ← intVal h b
  if FitsI64 (op.int x y) then
    some (withFlags (intResult h (op.int x y)) a b)
  else do
    let r ← op.big h a b
    some (withFlags r a b)

/-- The body that `jacl_add`, `jacl_sub` and `jacl_mul` share. -/
def arith (op : ArithOp) (fl : FloatOps) (h : Heap) (a b : JaclVal) : Option (Heap × JaclVal) :=
  if a.error then
    some (h, a)
  else if b.error then
    some (h, b)
  else if a.isI32 && b.isI32 then
    if FitsI32 (op.int a.asI32 b.asI32) then
      some (withFlags (h, i32 (op.int a.asI32 b.asI32)) a b)
    else
      some (withFlags (intResult h (op.int a.asI32 b.asI32)) a b)
  else if f64Pair a b then do
    let x ← numF64 fl h a
    let y ← numF64 fl h b
    some (withFlags (f64New h (op.f64 x y)) a b)
  else if bigPair a b then do
    let r ← op.big h a b
    some (withFlags r a b)
  else if widePair a b then
    wideOp op h a b
  else if a.isNum && b.isNum then
    some (withFlags (h, plain 0x03 (op.f32 (numF32 fl a) (numF32 fl b)).toNat) a b)
  else
    some (h, errorVal)

/-- `jacl_add`. -/
def add (fl : FloatOps) : Heap → JaclVal → JaclVal → Option (Heap × JaclVal) :=
  arith ⟨(· + ·), bigAdd, fl.addF64, fl.addF32⟩ fl

/-- `jacl_sub`. -/
def sub (fl : FloatOps) : Heap → JaclVal → JaclVal → Option (Heap × JaclVal) :=
  arith ⟨(· - ·), bigSub, fl.subF64, fl.subF32⟩ fl

/-- `jacl_mul`. -/
def mul (fl : FloatOps) : Heap → JaclVal → JaclVal → Option (Heap × JaclVal) :=
  arith ⟨(· * ·), bigMul, fl.mulF64, fl.mulF32⟩ fl

/-! ### Comparisons -/

/-- The body that `jacl_lt`, `jacl_le`, `jacl_gt` and `jacl_ge` share. -/
def compareWith (int : Int → Int → Bool) (f64 : BitVec 64 → BitVec 64 → Bool) (fl : FloatOps)
    (h : Heap) (a b : JaclVal) : Option JaclVal :=
  if a.error then
    some a
  else if b.error then
    some b
  else if a.isI32 && b.isI32 then
    some ((bool (int a.asI32 b.asI32)).propFlags a b)
  else if bigPair a b then do
    let c ← bigCmp h a b
    some ((bool (int c 0)).propFlags a b)
  else if widePair a b then do
    let x ← intVal h a
    let y ← intVal h b
    some ((bool (int x y)).propFlags a b)
  else if (a.isAnyfloat || a.isAnyint) && (b.isAnyfloat || b.isAnyint) then do
    let x ← numF64 fl h a
    let y ← numF64 fl h b
    some ((bool (f64 x y)).propFlags a b)
  else
    some errorVal

/-- `jacl_lt`. -/
def lt (fl : FloatOps) : Heap → JaclVal → JaclVal → Option JaclVal :=
  compareWith (fun x y => decide (x < y)) fl.ltF64 fl

/-- `jacl_le`. -/
def le (fl : FloatOps) : Heap → JaclVal → JaclVal → Option JaclVal :=
  compareWith (fun x y => decide (x ≤ y)) fl.leF64 fl

/-- `jacl_gt`. -/
def gt (fl : FloatOps) : Heap → JaclVal → JaclVal → Option JaclVal :=
  compareWith (fun x y => decide (x > y)) (fun x y => fl.ltF64 y x) fl

/-- `jacl_ge`. -/
def ge (fl : FloatOps) : Heap → JaclVal → JaclVal → Option JaclVal :=
  compareWith (fun x y => decide (x ≥ y)) (fun x y => fl.leF64 y x) fl

/-- `jacl_scalar_equal`; `none` is its `-1`. -/
def scalarEqual (a b : JaclVal) : Option Bool :=
  if a.type ≠ b.type then
    none
  else if a.type = 0x02 then
    some (a.asI32 == b.asI32)
  else if a.type = 0x00 ∨ a.type = 0x01 then
    some (a.payload == b.payload)
  else
    none

/-- `jacl_eq`. -/
def eq (fl : FloatOps) (fuel : Nat) (h : Heap) (a b : JaclVal) : JaclVal :=
  if a.error then
    a
  else if b.error then
    b
  else
    match scalarEqual a b with
    | some s => (bool s).propFlags a b
    | none => (bool (valEqual fl h fuel a b)).propFlags a b

end Jacl.Builtins
