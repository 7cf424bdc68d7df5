import Jacl.BignumDivide

/-!
# The bignum library: floating point (`bigfloat.h`)

A `BigFloat` is zero, an infinity, a NaN, or a sign, a significand and a binary exponent;
every operation rounds to the precision of a context.  Exponents are `int64_t`: a sum or
a difference that does not fit makes an operation fail (`none`), as do the failures of
the integers below.
-/

namespace Jacl.Bigfloat
open Bignum (BigInt)

/-- `BIGFLOAT_NORMAL` and the special values. -/
inductive Flags | normal | zero | inf | nan
deriving DecidableEq, Repr

/-- `BIGFLOAT_ROUND_*`. -/
inductive RoundMode | nearestEven | towardZero | towardPosInf | towardNegInf
deriving DecidableEq, Repr

/-- `BigFloatCtx`. -/
structure BigFloatCtx where
  precision : Nat
  round_mode : RoundMode
deriving DecidableEq, Repr

/-- `BigFloat`. -/
structure BigFloat where
  sign : Bool
  flags : Flags
  exponent : Int
  significand : BigInt
  precision : Nat
deriving DecidableEq, Repr

/-- An `int64_t`. -/
def i64 (n : Int) : Option Int := if -2 ^ 63 ≤ n ∧ n < 2 ^ 63 then some n else none

/-- `bigfloat_zero`. -/
def zero (precision : Nat) : BigFloat := ⟨false, .zero, 0, Bignum.zero, precision⟩

/-- `bigfloat_inf`. -/
def inf (sign : Bool) : BigFloat := ⟨sign, .inf, 0, Bignum.zero, 0⟩

/-- `bigfloat_nan`. -/
def nan : BigFloat := ⟨false, .nan, 0, Bignum.zero, 0⟩

/-- A zero with a sign. -/
def signedZero (sign : Bool) (precision : Nat) : BigFloat := { zero precision with sign := sign }

/-! ### Normalization -/

/-- `bigint_test_bit`. -/
def testBit (x : BigInt) (bit : Nat) : Bool :=
  match x.limbs[bit / 64]? with
  | none => false
  | some limb => (limb >>> (bit % 64)) &&& 1 = 1

/-- The decision of `_bigfloat_normalize` to round up. -/
def roundUp (mode : RoundMode) (sign guard round_bit sticky lsb : Bool) : Bool :=
  match mode with
  | .nearestEven => guard && (round_bit || sticky || lsb)
  | .towardZero => false
  | .towardPosInf => !sign && (guard || round_bit || sticky)
  | .towardNegInf => sign && (guard || round_bit || sticky)

/-- The case of `_bigfloat_normalize` that shifts right by `shift`. -/
def normalizeRight (ctx : BigFloatCtx) (significand : BigInt) (exponent : Int) (sign : Bool)
    (shift : Nat) : Option BigFloat := do
  let guard := shift ≥ 1 ∧ testBit significand (shift - 1)
  let round_bit := shift ≥ 2 ∧ testBit significand (shift - 2)
  let sticky := shift ≥ 3 ∧ (List.range (shift - 2)).any (testBit significand)
  let shifted ← Bignum.shiftRight significand shift
  let (shifted, shift) ←
    if roundUp ctx.round_mode sign guard round_bit sticky (testBit shifted 0) then do
      let sum ← Bignum.add shifted (Bignum.fromU64 1)
      if Bignum.bitLen sum > ctx.precision then do
        let half ← Bignum.shiftRight sum 1
        some (half, shift + 1)
      else some (sum, shift)
    else some (shifted, shift)
  if Bignum.isZero shifted then some (signedZero sign ctx.precision)
  else do
    let e ← i64 (exponent + shift)
    some ⟨sign, .normal, e, shifted, ctx.precision⟩

/-- `_bigfloat_normalize`. -/
def normalize (ctx : BigFloatCtx) (significand : BigInt) (exponent : Int) (sign : Bool) :
    Option BigFloat :=
  if Bignum.isZero significand then some (signedZero sign ctx.precision)
  else
    let bit_len := Bignum.bitLen significand
    let prec := ctx.precision
    if bit_len = prec then some ⟨sign, .normal, exponent, significand, prec⟩
    else if bit_len < prec then do
      let shift := prec - bit_len
      let s ← Bignum.shiftLeft significand shift
      let e ← i64 (exponent - shift)
      some ⟨sign, .normal, e, s, prec⟩
    else normalizeRight ctx significand exponent sign (bit_len - prec)

/-- `bigfloat_from_bigint`. -/
def fromBigint (ctx : BigFloatCtx) (v : BigInt) : Option BigFloat :=
  if Bignum.isZero v then some (zero ctx.precision)
  else normalize ctx (Bignum.abs v) 0 v.sign

/-! ### Comparison and signs -/

/-- `bigfloat_cmp`, of numbers that are not NaN. -/
def cmp (a b : BigFloat) : Int :=
  if a.flags = .zero ∧ b.flags = .zero then 0
  else if a.flags = .inf ∧ b.flags = .inf then
    if a.sign = b.sign then 0 else if a.sign then -1 else 1
  else if a.flags = .inf then (if a.sign then -1 else 1)
  else if b.flags = .inf then (if b.sign then 1 else -1)
  else if a.flags = .zero then (if b.sign then 1 else -1)
  else if b.flags = .zero then (if a.sign then -1 else 1)
  else if a.sign ≠ b.sign then (if a.sign then -1 else 1)
  else
    let sign : Int := if a.sign then -1 else 1
    if a.exponent > b.exponent then sign
    else if a.exponent < b.exponent then -sign
    else Bignum.cmp a.significand b.significand * sign

/-- `bigfloat_neg`. -/
def neg (x : BigFloat) : BigFloat :=
  if x.flags = .nan then x else { x with sign := !x.sign }

end Jacl.Bigfloat
