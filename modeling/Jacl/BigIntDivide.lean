import Jacl.IntTower

/-!
# Division of integers of any size (`runtime/bigint.c`, `runtime/builtins.c`)

Knuth's algorithm D on limbs, the one-limb division beside it, and the two operations
of the integer tower that lead there.

Algorithm D works on two arrays on the stack.  Here an array is the list of the limbs
written so far.  A read past it, a write past its capacity, a division by zero and a
sum, product or difference that leaves its 64-bit type are all `none`.  Shifts and
casts keep the low bits, as in C.
-/

namespace Jacl.BigInt

/-! ### Checked words and arrays -/

/-- A `uint64_t` sum or product. -/
def u64 (x : Nat) : Option Nat := if x < 2 ^ 64 then some x else none

/-- An `int64_t` difference. -/
def i64 (x : Int) : Option Int := if -2 ^ 63 ≤ x ∧ x < 2 ^ 63 then some x else none

/-- `x--` on a `uint64_t`. -/
def decr (x : Nat) : Option Nat := if x = 0 then none else some (x - 1)

/-- `(uint32_t)x`. -/
def low32 (x : Int) : Nat := (x % base).toNat

/-- `a[i] = x`. -/
def put (a : List Nat) (i x : Nat) : Option (List Nat) :=
  if i < a.length then some (a.set i x) else none

/-! ### One limb -/

/-- `jbig_divmod_small`, on the limbs from the top down: the quotient in place and the
remainder. -/
def divmodSmall : List Nat → Nat → List Nat × Nat
  | [], _ => ([], 0)
  | a :: as, d =>
    let (q, rem) := divmodSmall as d
    let cur := (rem * base + a) % 2 ^ 64
    (cur / d % base :: q, cur % d)

/-- A line of `jbig_clz32`. -/
def clzTest (mask s : Nat) (nx : Nat × Nat) : Nat × Nat :=
  if nx.2 &&& mask = 0 then (nx.1 + s, nx.2 * 2 ^ s % base) else nx

/-- `jbig_clz32`. -/
def clz32 (x : Nat) : Nat :=
  (clzTest 0x80000000 1 <| clzTest 0xC0000000 2 <| clzTest 0xF0000000 4 <|
    clzTest 0xFF000000 8 <| clzTest 0xFFFF0000 16 (0, x)).1

/-! ### Algorithm D -/

/-- `jbig_shl_limb`: limb `i` of `a << sh` from a window of two limbs. -/
def shlLimb (a : List Nat) (sh i : Nat) : Option Nat := do
  let hi ← (if i < a.length then a[i]? else some 0 : Option Nat)
  let lo ← (if 0 < i then a[i - 1]? else some 0 : Option Nat)
  some ((hi * base + lo) * 2 ^ sh % 2 ^ 64 / base)

/-- An array of `cap` limbs, the first `n` of which a loop writes. -/
def fill (cap n : Nat) (limb : Nat → Option Nat) : Option (List Nat) :=
  if n ≤ cap then (List.range n).mapM limb else none

/-- D3's test on the estimate and its remainder. -/
def tooBig (v0 u0 qhat rhat : Nat) : Option Bool :=
  if base ≤ qhat then some true else do
    let l ← u64 (qhat * v0)
    let r ← u64 (rhat * base + u0)
    some (decide (r < l))

/-- D3's loop: the estimate is corrected down while the next limb says it is too big.
Three rounds are enough (`estimate_spec`). -/
def correct (v1 v0 u0 : Nat) : Nat → Nat → Nat → Option Nat
  | 0, _, _ => none
  | fuel + 1, qhat, rhat => do
    let big ← tooBig v0 u0 qhat rhat
    if big then do
      let qhat ← decr qhat
      let rhat ← u64 (rhat + v1)
      if rhat < base then correct v1 v0 u0 fuel qhat rhat else some qhat
    else
      some qhat

/-- D3: estimate from the top two limbs over the top divisor limb, then correct. -/
def estimate (v1 v0 u2 u1 u0 : Nat) : Option Nat := do
  let num ← u64 (u2 * base + u1)
  if v1 = 0 then none else correct v1 v0 u0 3 (num / v1) (num % v1)

/-- D4's loop, from limb `i` of the divisor on. -/
def mulSubLoop (qhat j : Nat) :
    List Nat → Nat → List Nat → Nat → Nat → Option (List Nat × Nat × Nat)
  | [], _, un, carry, borrow => some (un, carry, borrow)
  | v :: vn, i, un, carry, borrow => do
    let prod ← u64 (qhat * v + carry)
    let x ← un[i + j]?
    let t ← i64 ((x : Int) - (prod % base : Nat) - borrow)
    let un ← put un (i + j) (low32 t)
    mulSubLoop qhat j vn (i + 1) un (prod / base) (if t < 0 then 1 else 0)

/-- D6's loop. -/
def addBackLoop (j : Nat) : List Nat → Nat → List Nat → Nat → Option (List Nat × Nat)
  | [], _, un, c => some (un, c)
  | v :: vn, i, un, c => do
    let x ← un[i + j]?
    let sum ← u64 (x + v + c)
    let un ← put un (i + j) (sum % base)
    addBackLoop j vn (i + 1) un (sum / base)

/-- D6: add the divisor back, and the last carry to the top limb. -/
def addBack (vn un : List Nat) (j : Nat) : Option (List Nat) := do
  let (un, c) ← addBackLoop j vn 0 un 0
  let x ← un[j + vn.length]?
  let sum ← u64 (x + c)
  put un (j + vn.length) (sum % base)

/-- The body of the loop over `j`: the dividend's next state and limb `j` of the
quotient. -/
def divStep (vn un : List Nat) (j : Nat) : Option (List Nat × Nat) :=
  let nb := vn.length
  -- with one limb, `vn[nb - 2]` would be below the array
  if nb < 2 then none else do
    let v1 ← vn[nb - 1]?
    let v0 ← vn[nb - 2]?
    let u2 ← un[j + nb]?
    let u1 ← un[j + nb - 1]?
    let u0 ← un[j + nb - 2]?
    let qhat ← estimate v1 v0 u2 u1 u0
    let (un, carry, borrow) ← mulSubLoop qhat j vn 0 un 0 0
    let x ← un[j + nb]?
    let top ← i64 ((x : Int) - carry - borrow)
    let un ← put un (j + nb) (low32 top)
    if top < 0 then do
      let qhat ← decr qhat
      let un ← addBack vn un j
      some (un, qhat % base)
    else
      some (un, qhat % base)

/-- The loop over `j`, downwards; `q` is the quotient from limb `j` on. -/
def divLoop (vn : List Nat) : Nat → List Nat → List Nat → Option (List Nat × List Nat)
  | 0, un, q => some (un, q)
  | j + 1, un, q => do
    let (un, qhat) ← divStep vn un j
    divLoop vn j un (qhat :: q)

/-- D8: limb `i` of the remainder. -/
def unshlLimb (un : List Nat) (sh i : Nat) : Option Nat := do
  let hi ← un[i + 1]?
  let lo ← un[i]?
  some ((hi * base + lo) / 2 ^ sh % base)

/-- `jbig_mag_divmod`: the quotient and the remainder, for a caller whose two arrays
have `cap` limbs. -/
def magDivmod (cap : Nat) (u v : List Nat) : Option (List Nat × List Nat) := do
  let na := u.length
  let nb := v.length
  let vtop ← v[nb - 1]?
  let sh := clz32 vtop
  let vn ← fill maxLimbs nb (shlLimb v sh)
  let un ← fill (maxLimbs + 1) (na + 1) (shlLimb u sh)
  let (un, q) ← divLoop vn (na - nb + 1) un []
  let r ← fill cap nb (unshlLimb un sh)
  if q.length ≤ cap then some (q, r) else none

/-- `jacl_big_divmod`. -/
def bigDivmod (h : Heap) (a b : JaclVal) (wantRem : Bool) : Option (Heap × JaclVal) := do
  let (siga, la) ← read h a
  let (sigb, lb) ← read h b
  if lb = [0] then
    some (h, (JaclVal.i32 0).setError)
  else if maxLimbs < la.length ∨ maxLimbs < lb.length then
    some (h, (JaclVal.i32 0).setError)
  else if la.length < lb.length then
    some (if wantRem then canon h siga la else (h, .i32 0))
  else if lb.length = 1 then
    let (q, rem) := divmodSmall la (lb.headD 0)
    some (if wantRem then canon h siga [rem] else canon h (siga * sigb) q)
  else do
    let (q, r) ← magDivmod maxLimbs la lb
    some (if wantRem then canon h siga r else canon h (siga * sigb) q)

end Jacl.BigInt

namespace Jacl.Builtins
open JaclVal BigInt

/-- The two divisions of floats, which `FloatOps` leaves out. -/
structure FloatDiv where
  divF32 : BitVec 32 → BitVec 32 → BitVec 32
  divF64 : BitVec 64 → BitVec 64 → BitVec 64

/-- `jacl_div`. -/
def div (fl : FloatOps) (fd : FloatDiv) (h : Heap) (a b : JaclVal) : Option (Heap × JaclVal) :=
  if a.error then
    some (h, a)
  else if b.error then
    some (h, b)
  else if (a.isF64 || b.isF64) && (a.isAnyint || a.isAnyfloat) && (b.isAnyint || b.isAnyfloat) then do
    let x ← numF64 fl h a
    let y ← numF64 fl h b
    some (withFlags (f64New h (fd.divF64 x y)) a b)
  else if bigPair a b then do
    let r ← bigDivmod h a b false
    some (withFlags r a b)
  else if widePair a b then do
    let x ← intVal h a
    let y ← intVal h b
    if y = 0 then
      some (withFlags (h, (i32 0).setError) a b)
    else if x = -2 ^ 63 ∧ y = -1 then do
      let r ← bigDivmod h a b false
      some (withFlags r a b)
    else
      some (withFlags (intResult h (x.tdiv y)) a b)
  else if a.isNum && b.isNum && !(a.isI32 && b.isI32) then
    some (withFlags (h, plain 0x03 (fd.divF32 (numF32 fl a) (numF32 fl b)).toNat) a b)
  else if !a.isI32 || !b.isI32 then
    some (h, errorVal)
  else if b.asI32 = 0 then
    some (withFlags (h, (i32 0).setError) a b)
  else if a.asI32 = -2 ^ 31 ∧ b.asI32 = -1 then
    some (withFlags (intResult h (2 ^ 31)) a b)
  else
    some (withFlags (h, i32 (a.asI32.tdiv b.asI32)) a b)

/-- `jacl_mod`. -/
def mod (h : Heap) (a b : JaclVal) : Option (Heap × JaclVal) :=
  if a.error then
    some (h, a)
  else if b.error then
    some (h, b)
  else if bigPair a b then do
    let r ← bigDivmod h a b true
    some (withFlags r a b)
  else if widePair a b then do
    let x ← intVal h a
    let y ← intVal h b
    if y = 0 then
      some (withFlags (h, (i32 0).setError) a b)
    else if x = -2 ^ 63 ∧ y = -1 then
      some (withFlags (h, i32 0) a b)
    else
      some (withFlags (intResult h (x.tmod y)) a b)
  else if !a.isI32 || !b.isI32 then
    some (h, errorVal)
  else if b.asI32 = 0 then
    some (withFlags (h, (i32 0).setError) a b)
  else
    some (withFlags
      (h, i32 (if a.asI32 = -2 ^ 31 ∧ b.asI32 = -1 then 0 else a.asI32.tmod b.asI32)) a b)

end Jacl.Builtins
