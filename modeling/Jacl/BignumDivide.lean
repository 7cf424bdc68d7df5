import Jacl.Bignum

/-!
# Division and the greatest common divisor (`bigint.h`)

Knuth's algorithm D over 64-bit limbs, with the estimate of a digit in
`__uint128_t`, the division by one limb, and Stein's binary gcd.

Algorithm D works on an array `u` from its top down: at `j` it reads and writes
`u[j .. j + n]` and never looks at a higher limb again.  So the loop keeps the window
`u[j .. j + n]` and the limbs below it, the next one first.

`*q` and `*r` are left alone when the divisor is zero.  `div` and `mod` return the
local variable all the same: what it holds without having been assigned is an argument
of theirs.
-/

namespace Jacl.Bignum

/-- A `__uint128_t`. -/
def u128 (n : Nat) : Nat := n % 2 ^ 128

/-! ### Division -/

/-- The loop of `_bigint_divmod_u64`, from the top limb down: the quotient in place and
the remainder. -/
def divLimbs (d : Nat) : List Nat → List Nat × Nat
  | [] => ([], 0)
  | x :: l =>
    let (q, carry) := divLimbs d l
    let cur := u128 (carry <<< 64) ||| x
    (u64 (cur / d) :: q, cur % d)

/-- `_bigint_divmod_u64`. -/
def divmodU64 (x : BigInt) (d : Nat) : Option (BigInt × Nat) := do
  let (limbs, remainder) := divLimbs d x.limbs
  let result ← alloc false x.len limbs
  some (normalize result, remainder)

/-- D4, at most `fuel` rounds. -/
def refineEstimate (v1 v0 u0 : Nat) : Nat → Nat → Nat → Option Nat
  | 0, _, _ => none
  | fuel + 1, qhat, rhat =>
    if qhat < 2 ^ 64 ∧ u128 (qhat * v0) ≤ u128 (rhat <<< 64) ||| u0 then some qhat
    else
      let qhat := u128 (qhat + 2 ^ 128 - 1)
      let rhat := u128 (rhat + v1)
      if rhat ≥ 2 ^ 64 then some qhat else refineEstimate v1 v0 u0 fuel qhat rhat

/-- The loop of D5. -/
def mulSubLoop (qd : Nat) : List Nat → List Nat → Nat → List Nat × Nat
  | v :: vs, u :: us, carry =>
    let prod := qd * v + carry
    let prod_lo := u64 prod
    let carry := u64 (prod / 2 ^ 64)
    let carry := if u < prod_lo then u64 (carry + 1) else carry
    let (rest, last) := mulSubLoop qd vs us carry
    (u64 (u + 2 ^ 64 - prod_lo) :: rest, last)
  | _, us, carry => (us, carry)

/-- The loop of D6. -/
def addBackLoop : List Nat → List Nat → Nat → List Nat × Nat
  | v :: vs, u :: us, c =>
    let sum := u + v + c
    let (rest, last) := addBackLoop vs us (u64 (sum / 2 ^ 64))
    (u64 sum :: rest, last)
  | _, us, c => (us, c)

/-- The body of the main loop: the window `u[j .. j + n]` and digit `j`. -/
def knuthStep (v w : List Nat) : Option (List Nat × Nat) :=
  let n := v.length
  if n < 2 then none else do
    let v1 ← v[n - 1]?
    let v0 ← v[n - 2]?
    let u2 ← w[n]?
    let u1 ← w[n - 1]?
    let u0 ← w[n - 2]?
    let uu := u128 (u2 <<< 64) ||| u1
    if v1 = 0 then none else do
      -- D4 says that three rounds are enough
      let qhat ← refineEstimate v1 v0 u0 3 (uu / v1) (uu % v1)
      let qd := u64 qhat
      let (us, carry) := mulSubLoop qd v (w.take n) 0
      let top := u64 (u2 + 2 ^ 64 - carry)
      if u2 < carry then
        let (us, c) := addBackLoop v us 0
        some (us ++ [u64 (top + c)], u64 (qd + 2 ^ 64 - 1))
      else some (us ++ [top], qd)

/-- The main loop: the limbs of `u` below the window, the next one first, and the
quotient from digit `j + 1` on.  The result is the quotient and the last window. -/
def knuthLoop (v : List Nat) : List Nat → List Nat → List Nat → Option (List Nat × List Nat)
  | [], w, ql => do
    let (w, qd) ← knuthStep v w
    some (qd :: ql, w)
  | x :: lows, w, ql => do
    let (w, qd) ← knuthStep v w
    knuthLoop v lows (x :: w.take v.length) (qd :: ql)

/-- `_bigint_divmod_knuth`. -/
def divmodKnuth (x y : BigInt) : Option (BigInt × BigInt) := do
  let n := y.len
  let m := x.len - n
  let d := clz (y.limbs.getLastD 0)
  let v := if d > 0 then (shlLoop d y.limbs 0).take n else y.limbs
  let u := if d > 0 then shlLoop d x.limbs 0 else x.limbs ++ [0]
  let (ql, w) ← knuthLoop v (u.take m).reverse (u.drop m) []
  let q ← fromLimbs ql
  let r ← fromLimbs (if d > 0 then shrLoop d (w.take n) else w.take n)
  some (q, r)

/-- `bigint_divmod`: what it assigns to `*q` and `*r`, nothing when it returns
`BIGINT_ERR_DIV_ZERO`. -/
def divmod (x y : BigInt) : Option (Option (BigInt × BigInt)) :=
  if isZero y then some none
  else if isZero x then some (some (zero, zero))
  else if cmpAbs (abs x) (abs y) < 0 then
    some (some (zero, withSign x.sign (clone (abs x))))
  else if y.len = 1 then do
    let (quotient, remainder) ← divmodU64 (abs x) (y.limbs.headD 0)
    some (some (withSign (x.sign ^^ y.sign) quotient, withSign x.sign (fromU64 remainder)))
  else do
    let (quotient, remainder) ← divmodKnuth (abs x) (abs y)
    some (some (withSign (x.sign ^^ y.sign) quotient, withSign x.sign remainder))

/-- `bigint_div`; `q` is the local variable before the call. -/
def div (q x y : BigInt) : Option BigInt := do
  let result ← divmod x y
  some (match result with
    | some (q, _) => q
    | none => q)

/-- `bigint_mod`; `r` is the local variable before the call. -/
def mod (r x y : BigInt) : Option BigInt := do
  let result ← divmod x y
  some (match result with
    | some (_, r) => r
    | none => r)

/-! ### The greatest common divisor -/

end Jacl.Bignum
