import Jacl.Limbs

/-!
# The bignum library: integers (`bigint.h`)

A `BigInt` is a sign and 64-bit limbs, least significant first; up to two limbs are
stored inline (`cap` is 0), more in an arena.  Lengths, shifts and capacities are
32-bit: a write outside of the limbs that were allocated makes an operation fail
(`none`).  The loops over limb arrays are recursions over the limbs still to be read
that return the limbs they write.

`mulMag` and Karatsuba's `karatsuba` call each other, at most `fuel` deep; the
threshold of the dispatch is a compile-time parameter, 4096 unless overridden.
-/

namespace Jacl.Bignum
open Limbs

/-- The limb base. -/
def base : Nat := 2 ^ 64

/-- A `uint64_t`. -/
def u64 (n : Nat) : Nat := n % 2 ^ 64

/-- A `uint32_t`. -/
def u32 (n : Nat) : Nat := n % 2 ^ 32

/-- `BIGINT_KARATSUBA_THRESHOLD`. -/
def karatsubaThreshold : Nat := 4096

/-- `BigInt`, with its `len` active limbs. -/
structure BigInt where
  sign : Bool
  cap : Nat
  limbs : List Nat
deriving DecidableEq, Repr

/-- `x->len`. -/
def BigInt.len (x : BigInt) : Nat := x.limbs.length

/-- `_bigint_alloc(n)`, filled with the limbs a loop writes. -/
def alloc (sign : Bool) (n : Nat) (limbs : List Nat) : Option BigInt :=
  if limbs.length = u32 n then some ⟨sign, if u32 n ≤ 2 then 0 else u32 n, limbs⟩ else none

/-- The loop of `_bigint_normalize`, from the top limb down. -/
def stripTop : List Nat → List Nat
  | 0 :: x :: l => stripTop (x :: l)
  | l => l

/-- `_bigint_normalize`. -/
def normalize (x : BigInt) : BigInt :=
  let limbs := (stripTop x.limbs.reverse).reverse
  let sign := if limbs = [0] then false else x.sign
  let cap := if limbs.length ≤ 2 ∧ x.cap > 0 then 0 else x.cap
  ⟨sign, cap, limbs⟩

/-- `bigint_zero`. -/
def zero : BigInt := ⟨false, 0, [0]⟩

/-- `bigint_from_u64`. -/
def fromU64 (v : Nat) : BigInt := ⟨false, 0, [v]⟩

/-- `bigint_clone`. -/
def clone (src : BigInt) : BigInt :=
  ⟨src.sign, if src.len ≤ 2 then 0 else src.len, src.limbs⟩

/-! ### Comparison -/

/-- The loop of `_bigint_cmp_abs`, from the top limb down. -/
def cmpFrom : List Nat → List Nat → Int
  | a :: as, b :: bs => if a ≠ b then (if a > b then 1 else -1) else cmpFrom as bs
  | _, _ => 0

/-- `_bigint_cmp_abs`. -/
def cmpAbs (a b : BigInt) : Int :=
  if a.len ≠ b.len then (if a.len > b.len then 1 else -1)
  else cmpFrom a.limbs.reverse b.limbs.reverse

/-- `bigint_is_zero`. -/
def isZero (x : BigInt) : Bool := x.limbs = [0]

/-- `bigint_cmp`. -/
def cmp (a b : BigInt) : Int :=
  if isZero a ∧ isZero b then 0
  else if a.sign ∧ ¬ b.sign then -1
  else if ¬ a.sign ∧ b.sign then 1
  else if a.sign then -(cmpAbs a b) else cmpAbs a b

/-! ### Shifts -/

/-- One step of the leading zero count: `tmp` below `2 ^ (64 - k)` moves up by `k`. -/
def clzStep (k : Nat) (st : Nat × Nat) : Nat × Nat :=
  if st.2 ≤ 2 ^ (64 - k) - 1 then (st.1 + k, u64 (st.2 <<< k)) else st

/-- The leading zero count of `bigint_bit_len`. -/
def clz (top : Nat) : Nat :=
  let st := clzStep 2 (clzStep 4 (clzStep 8 (clzStep 16 (clzStep 32 (0, top)))))
  if st.2 ≤ 2 ^ 63 - 1 then st.1 + 1 else st.1

/-- `bigint_bit_len`. -/
def bitLen (x : BigInt) : Nat :=
  if isZero x then 0
  else
    let top := x.limbs.getLastD 0
    if top = 0 then 0 else u32 ((x.len - 1) * 64 + (64 - clz top))

/-- The loop of `bigint_shift_left` for a bit shift of `s > 0`, and the top limb. -/
def shlLoop (s : Nat) : List Nat → Nat → List Nat
  | [], carry => [carry]
  | val :: l, carry => (u64 (val <<< s) ||| carry) :: shlLoop s l (val >>> (64 - s))

/-- `bigint_shift_left`. -/
def shiftLeft (x : BigInt) (bits : Nat) : Option BigInt :=
  if isZero x ∨ bits = 0 then some (clone x)
  else do
    let limb_shift := bits / 64
    let bit_shift := bits % 64
    let new_len := x.len + limb_shift + (if bit_shift > 0 then 1 else 0)
    let limbs := List.replicate limb_shift 0 ++
      (if bit_shift > 0 then shlLoop bit_shift x.limbs 0 else x.limbs)
    let result ← alloc x.sign new_len limbs
    some (normalize result)

/-- The loop of `bigint_shift_right` for a bit shift of `s > 0`. -/
def shrLoop (s : Nat) : List Nat → List Nat
  | val :: next :: l => (val >>> s ||| u64 (next <<< (64 - s))) :: shrLoop s (next :: l)
  | [val] => [val >>> s]
  | [] => []

/-- `bigint_shift_right`. -/
def shiftRight (x : BigInt) (bits : Nat) : Option BigInt :=
  if isZero x ∨ bits = 0 then some (clone x)
  else if bits ≥ bitLen x then some zero
  else do
    let limb_shift := bits / 64
    let bit_shift := bits % 64
    let new_len := x.len - limb_shift
    let limbs := x.limbs.drop limb_shift
    let result ← alloc x.sign new_len (if bit_shift > 0 then shrLoop bit_shift limbs else limbs)
    some (normalize result)

/-! ### Signs, addition and subtraction -/

/-- `bigint_neg`. -/
def neg (x : BigInt) : BigInt :=
  if isZero x then { x with sign := false } else { x with sign := !x.sign }

/-- `bigint_abs`. -/
def abs (x : BigInt) : BigInt := { x with sign := false }

/-- The loop of `_bigint_add_abs` over `n` limbs, and the limb for the last carry. -/
def addLoop : Nat → List Nat → List Nat → Nat → List Nat
  | 0, _, _, carry => [carry]
  | n + 1, as, bs, carry =>
    let av := as.headD 0
    let bv := bs.headD 0
    let sum := u64 (av + bv + carry)
    sum :: addLoop n as.tail bs.tail (if sum < av ∨ (carry ≠ 0 ∧ sum = av) then 1 else 0)

/-- `_bigint_add_abs`. -/
def addAbs (a b : BigInt) : Option BigInt := do
  let maxlen := if a.len > b.len then a.len else b.len
  let result ← alloc false (maxlen + 1) (addLoop maxlen a.limbs b.limbs 0)
  some (normalize result)

/-- The loop of `_bigint_sub_abs`. -/
def subLoop : List Nat → List Nat → Nat → List Nat
  | [], _, _ => []
  | av :: as, bs, borrow =>
    let bv := bs.headD 0
    let diff := u64 (av + (2 ^ 64 - bv) + (2 ^ 64 - borrow))
    diff :: subLoop as bs.tail (if av < bv ∨ (borrow ≠ 0 ∧ av = bv) then 1 else 0)

/-- `_bigint_sub_abs`. -/
def subAbs (a b : BigInt) : Option BigInt := do
  let result ← alloc false a.len (subLoop a.limbs b.limbs 0)
  some (normalize result)

/-- The sign a result of `bigint_add` and `bigint_mul` is given. -/
def withSign (sign : Bool) (result : BigInt) : BigInt :=
  { result with sign := if isZero result then false else sign }

/-- `bigint_add`. -/
def add (x y : BigInt) : Option BigInt :=
  if x.sign = y.sign then do
    let result ← addAbs x y
    some (withSign x.sign result)
  else if cmpAbs x y = 0 then some zero
  else if cmpAbs x y > 0 then do
    let result ← subAbs x y
    some (withSign x.sign result)
  else do
    let result ← subAbs y x
    some (withSign y.sign result)

/-- `bigint_sub`. -/
def sub (x y : BigInt) : Option BigInt := add x (neg y)

/-! ### Multiplication -/

/-- The loop of `bigint_mul_u64`, and the limb for the last carry. -/
def mulU64Loop (y : Nat) : List Nat → Nat → List Nat
  | [], carry => [carry]
  | x :: l, carry => u64 (x * y + carry) :: mulU64Loop y l (u64 ((x * y + carry) / 2 ^ 64))

/-- `bigint_mul_u64`. -/
def mulU64 (x : BigInt) (y : Nat) : Option BigInt :=
  if y = 0 ∨ isZero x then some zero
  else do
    let result ← alloc x.sign (x.len + 1) (mulU64Loop y x.limbs 0)
    some (normalize result)

/-- `_bigint_from_limbs`. -/
def fromLimbs (limbs : List Nat) : Option BigInt :=
  if limbs.length = 0 then some zero
  else do
    let limbs := (stripTop limbs.reverse).reverse
    let r ← alloc false limbs.length limbs
    some (normalize r)

/-- The inner loop of `_bigint_mul_schoolbook` over the limbs of `y`: `out` is the
result from limb `i` on, and the last carry is added to limb `i + ylen`. -/
def mulRow (x : Nat) : List Nat → List Nat → Nat → List Nat
  | [], out, carry => u64 (out.headD 0 + carry) :: out.tail
  | y :: ys, out, carry =>
    let prod := x * y + out.headD 0 + carry
    u64 prod :: mulRow x ys out.tail (u64 (prod / 2 ^ 64))

/-- The outer loop of `_bigint_mul_schoolbook`: after row `i`, limb `i` is final. -/
def mulLoop : List Nat → List Nat → List Nat → List Nat
  | [], _, out => out
  | x :: xs, ys, out =>
    let row := mulRow x ys out 0
    row.headD 0 :: mulLoop xs ys row.tail

/-- `_bigint_mul_schoolbook`. -/
def mulSchoolbook (x y : BigInt) : Option BigInt := do
  let rlen := x.len + y.len
  let result ← alloc false rlen (mulLoop x.limbs y.limbs (List.replicate rlen 0))
  some (normalize result)

/-- The middle term of `_bigint_karatsuba`: the product of the sums, less the outer
products. -/
def karatsubaMiddle (mul : BigInt → BigInt → Option BigInt) (x0 x1 y0 y1 z0 z2 : BigInt) :
    Option BigInt := do
  let x_sum ← add x0 x1
  let y_sum ← add y0 y1
  let z1_full ← mul x_sum y_sum
  let z1_temp ← sub z1_full z0
  sub z1_temp z2

/-- The end of `_bigint_karatsuba`. -/
def karatsubaCombine (m : Nat) (z0 z1 z2 : BigInt) : Option BigInt := do
  let z2_shifted ← shiftLeft z2 (u32 (2 * m * 64))
  let z1_shifted ← shiftLeft z1 (u32 (m * 64))
  let result ← add z2_shifted z1_shifted
  add result z0

/-- The part of `_bigint_karatsuba` after the base case; `mul` is `_bigint_mul_mag`. -/
def karatsubaStep (mul : BigInt → BigInt → Option BigInt) (x y : BigInt) : Option BigInt := do
  let m := (if x.len < y.len then x.len else y.len) / 2
  let x0 ← fromLimbs (x.limbs.take m)
  let x1 ← fromLimbs (x.limbs.drop m)
  let y0 ← fromLimbs (y.limbs.take m)
  let y1 ← fromLimbs (y.limbs.drop m)
  let z0 ← mul x0 y0
  let z2 ← mul x1 y1
  let z1 ← karatsubaMiddle mul x0 x1 y0 y1 z0 z2
  karatsubaCombine m z0 z1 z2

/-- `_bigint_mul_mag`, for a dispatch threshold of `t` limbs. -/
def mulMag (t : Nat) : Nat → BigInt → BigInt → Option BigInt
  | 0, _, _ => none
  | fuel + 1, x, y =>
    if x.len ≥ t ∧ y.len ≥ t then karatsubaStep (mulMag t fuel) x y else mulSchoolbook x y

/-- `_bigint_karatsuba`. -/
def karatsuba (t fuel : Nat) (x y : BigInt) : Option BigInt :=
  if x.len < t ∨ y.len < t then mulSchoolbook x y else karatsubaStep (mulMag t fuel) x y

/-- `bigint_mul`. -/
def mul (t fuel : Nat) (x y : BigInt) : Option BigInt :=
  if isZero x ∨ isZero y then some zero
  else do
    let result ← mulMag t fuel (abs x) (abs y)
    some (withSign (x.sign ^^ y.sign) result)

end Jacl.Bignum
