import Jacl.Value
import Jacl.Limbs

/-!
# Integers of any size (`runtime/bigint.c`)

Sign and magnitude, base `2 ^ 32`, least significant limb first.  The magnitude
routines are schoolbook loops over the limbs; `jbig_read` gives every dynamic integer
this form and `jbig_canon` builds the narrowest representation of a result.  Sums and
products of limbs are taken in `uint64_t` and wrap at `2 ^ 64`.  The
source's `while (n && !limb[n - 1]) n--` is `Limbs.trim`.

A read of a cell that is not what the word's type says returns `none`.
-/

namespace Jacl.BigInt
open Limbs

/-- The limb base. -/
def base : Nat := 2 ^ 32

/-- `JBIG_MAX_LIMBS`. -/
def maxLimbs : Nat := 128

/-- `JBIG_SCRATCH`. -/
def scratch : Nat := 2 * maxLimbs + 2

/-! ### Magnitudes -/

/-- The limbs from the top down: the first difference decides. -/
def cmpFrom : List Nat → List Nat → Int
  | a :: as, b :: bs => if a ≠ b then (if a < b then -1 else 1) else cmpFrom as bs
  | _, _ => 0

/-- `jbig_mag_cmp`. -/
def magCmp (a b : List Nat) : Int :=
  if (trim a).length ≠ (trim b).length then
    if (trim a).length < (trim b).length then -1 else 1
  else
    cmpFrom (trim a).reverse (trim b).reverse

/-- The loop of `jbig_mag_add`, and the limb for the last carry. -/
def magAddLoop : List Nat → List Nat → Nat → List Nat
  | [], _, carry => if carry = 0 then [] else [carry % base]
  | a :: as, bs, carry =>
    let s := (a + carry + bs.headD 0) % 2 ^ 64
    s % base :: magAddLoop as bs.tail (s / base)

/-- `jbig_mag_add`. -/
def magAdd (a b : List Nat) : List Nat :=
  if a.length < b.length then magAddLoop b a 0 else magAddLoop a b 0

/-- The loop of `jbig_mag_sub`. -/
def magSubLoop : List Nat → List Nat → Nat → List Nat
  | [], _, _ => []
  | a :: as, bs, borrow =>
    let d : Int := (a : Int) - borrow - (bs.headD 0 : Nat)
    if d < 0 then
      (d + 2 ^ 32).toNat % base :: magSubLoop as bs.tail 1
    else
      d.toNat % base :: magSubLoop as bs.tail 0

/-- `jbig_mag_sub`. -/
def magSub (a b : List Nat) : List Nat := trim (magSubLoop a b 0)

/-- The inner loop of `jbig_mag_mul`: `out` is the result from limb `i` on, and the
last carry is stored over limb `i + nb`. -/
def magMulRow (x : Nat) : List Nat → List Nat → Nat → List Nat
  | [], _, carry => [carry % base]
  | b :: bs, out, carry =>
    let t := (x * b + out.headD 0 + carry) % 2 ^ 64
    t % base :: magMulRow x bs out.tail (t / base)

/-- The outer loop of `jbig_mag_mul`: after row `i`, limb `i` is final. -/
def magMulLoop : List Nat → List Nat → List Nat → List Nat
  | [], _, out => out
  | a :: as, bs, out =>
    let row := magMulRow a bs out 0
    row.headD 0 :: magMulLoop as bs row.tail

/-- `jbig_mag_mul`. -/
def magMul (a b : List Nat) : List Nat := trim (magMulLoop a b (List.replicate b.length 0))

/-! ### Reading and building values -/

/-- `jacl_wide_bits`. -/
def wideBits (h : Heap) (v : JaclVal) : Option Int :=
  match h.cells v.payload with
  | some (.wide bits) => some bits.toInt
  | _ => none

/-- `jacl_int_val`. -/
def intVal (h : Heap) (v : JaclVal) : Option Int :=
  if v.isI32 then some v.asI32 else wideBits h v

/-- `jbig_read`: the sign and the limbs of a dynamic integer. -/
def read (h : Heap) (v : JaclVal) : Option (Int × List Nat) :=
  if v.isBigint then
    match h.cells v.payload with
    | some (.big sign limb) => some (sign, limb)
    | _ => none
  else do
    let x ← intVal h v
    let u := x.natAbs
    let sign := if x < 0 then -1 else 1
    if u / base % base ≠ 0 then
      some (sign, [u % base, u / base % base])
    else
      some (sign, [u % base])

/-- `jacl_wide_new`. -/
def wideNew (h : Heap) (type : Nat) (bits : Int) : Heap × JaclVal :=
  let (h, a) := h.alloc (.wide (BitVec.ofInt 64 bits))
  (h, .plain type a)

/-- `jacl_int_result`. -/
def intResult (h : Heap) (bits : Int) : Heap × JaclVal :=
  if -2 ^ 31 ≤ bits ∧ bits ≤ 2 ^ 31 - 1 then (h, .i32 bits) else wideNew h 0x0E bits

/-- The cell of a new bigint. -/
def bigNew (h : Heap) (sign : Int) (limb : List Nat) : Heap × JaclVal :=
  let (h, a) := h.alloc (.big sign limb)
  (h, .plain 0x09 a)

/-- The end of `jbig_canon`: a bigint, or an error past the limb bound. -/
def bigOrError (h : Heap) (sign : Int) (limb : List Nat) : Heap × JaclVal :=
  if maxLimbs < limb.length then (h, (JaclVal.i32 0).setError) else bigNew h sign limb

/-- `jbig_canon`. -/
def canon (h : Heap) (sign : Int) (limb : List Nat) : Heap × JaclVal :=
  let limb := trim limb
  if limb.length = 0 then
    (h, .i32 0)
  else if limb.length ≤ 2 then
    let u := limb.getD 0 0 + (if limb.length = 2 then limb.getD 1 0 * 2 ^ 32 else 0)
    if 0 < sign ∧ u ≤ 2 ^ 63 - 1 then
      intResult h u
    else if sign < 0 ∧ u = 2 ^ 63 then
      intResult h (-2 ^ 63)
    else if sign < 0 ∧ u ≤ 2 ^ 63 - 1 then
      intResult h (-u)
    else
      bigOrError h sign limb
  else
    bigOrError h sign limb

/-- `jbig_addsub`. -/
def addsub (h : Heap) (av bv : JaclVal) (negateB : Bool) : Option (Heap × JaclVal) := do
  let (siga, la) ← read h av
  let (sigb, lb) ← read h bv
  let sigb := if negateB then -sigb else sigb
  if maxLimbs < la.length ∨ maxLimbs < lb.length then
    some (h, (JaclVal.i32 0).setError)
  else if siga = sigb then
    some (canon h siga (magAdd la lb))
  else
    let c := magCmp la lb
    if c = 0 then
      some (h, .i32 0)
    else if 0 < c then
      some (canon h siga (magSub la lb))
    else
      some (canon h sigb (magSub lb la))

/-- `jacl_big_add`. -/
def bigAdd (h : Heap) (a b : JaclVal) : Option (Heap × JaclVal) := addsub h a b false

/-- `jacl_big_sub`. -/
def bigSub (h : Heap) (a b : JaclVal) : Option (Heap × JaclVal) := addsub h a b true

/-- `jacl_big_mul`. -/
def bigMul (h : Heap) (a b : JaclVal) : Option (Heap × JaclVal) := do
  let (siga, la) ← read h a
  let (sigb, lb) ← read h b
  if maxLimbs < la.length ∨ maxLimbs < lb.length then
    some (h, (JaclVal.i32 0).setError)
  else if scratch < la.length + lb.length then
    some (h, (JaclVal.i32 0).setError)
  else
    some (canon h (siga * sigb) (magMul la lb))

/-- `jacl_big_cmp`. -/
def bigCmp (h : Heap) (a b : JaclVal) : Option Int := do
  let (siga, la) ← read h a
  let (sigb, lb) ← read h b
  let za := la = [0]
  let zb := lb = [0]
  if za ∧ zb then
    some 0
  else if za then
    some (if 0 < sigb then -1 else 1)
  else if zb then
    some (if 0 < siga then 1 else -1)
  else if siga ≠ sigb then
    some (if siga < sigb then -1 else 1)
  else
    let c := magCmp la lb
    some (if 0 < siga then c else -c)

/-- `jacl_big_hash`. -/
def bigHash (sign : Int) (limb : List Nat) : BitVec 32 :=
  limb.foldl (fun h x => (h ^^^ BitVec.ofNat 32 x) * 16777619#32)
    (0x811c9dc5#32 ^^^ (if sign < 0 then 1#32 else 0#32))

end Jacl.BigInt
