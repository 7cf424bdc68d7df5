import Jacl.BignumDivide

/-!
# Integers and strings (`bigint.h`)

`bigint_to_str` sizes its buffer from the bit length and writes the digits, the sign and
a final `'\0'`; a write outside of the buffer makes it fail (`none`).  In bases 2 and 16
the digits are bit fields of the limbs, in base 10 the remainders of divisions by
`10 ^ 18`.

`bigint_from_str` reads a string without its final `'\0'`, as bytes.  Its result is
`none` where the code would write outside of the limbs it allocated, and `some none` is
`BIGINT_ERR_INVALID_INPUT`.
-/

namespace Jacl.Bignum

/-! ### `bigint_to_str` -/

/-- The bytes of a string and its `'\0'` in a buffer of `size` bytes. -/
def emit (size : Nat) (s : List Nat) : Option (List Nat) :=
  if s.length + 1 ≤ size then some s else none

/-- `"0123456789abcdef"[d]`. -/
def hexChar (d : Nat) : Nat := if d < 10 then '0'.toNat + d else 'a'.toNat + (d - 10)

/-- `chunk`. -/
def chunk : Nat := 1000000000000000000

/-- A hexadecimal digit. -/
def hexVal (c : Nat) : Option Nat :=
  if '0'.toNat ≤ c ∧ c ≤ '9'.toNat then some (c - '0'.toNat)
  else if 'a'.toNat ≤ c ∧ c ≤ 'f'.toNat then some (c - 'a'.toNat + 10)
  else if 'A'.toNat ≤ c ∧ c ≤ 'F'.toNat then some (c - 'A'.toNat + 10)
  else none

/-- A binary digit. -/
def binVal (c : Nat) : Option Nat :=
  if c = '0'.toNat then some 0 else if c = '1'.toNat then some 1 else none

/-- A decimal digit. -/
def decVal (c : Nat) : Option Nat :=
  if c < '0'.toNat ∨ c > '9'.toNat then none else some (c - '0'.toNat)

/-- One limb of the result, from the digits in it; `shift` is the place of the next. -/
def orLimb (w : Nat) : Nat → List Nat → Nat
  | _, [] => 0
  | shift, d :: ds => u64 (d <<< shift) ||| orLimb w (shift + w) ds

/-- The limbs of the result, from the digits of `w` bits, the lowest first. -/
def orDigits (w : Nat) : Nat → List Nat → List Nat
  | 0, _ => []
  | n + 1, ds => orLimb w 0 (ds.take (64 / w)) :: orDigits w n (ds.drop (64 / w))

/-- The cases of base 16 and base 2, from the digits of `w` bits, the highest first. -/
def fieldsFromStr (w : Nat) (sign : Bool) (digits : List Nat) : Option BigInt := do
  let n_limbs := u32 (digits.length + (64 / w - 1)) / (64 / w)
  let result ← alloc sign n_limbs (orDigits w n_limbs digits.reverse)
  some (normalize result)

/-- The loop of base 10, at most `fuel` chunks. -/
def decChunks : Nat → BigInt → List Nat → Option BigInt
  | 0, result, digits => if digits = [] then some result else none
  | fuel + 1, result, digits =>
    if digits = [] then some result
    else do
      let remaining := digits.length
      let chunk_len := if remaining % 18 = 0 then 18 else remaining % 18
      let multiplier := (List.range chunk_len).foldl (fun m _ => u64 (m * 10)) 1
      let chunk_val := (digits.take chunk_len).foldl (fun v d => u64 (v * 10 + d)) 0
      let result ← mulU64 result multiplier
      let result ← add result (fromU64 chunk_val)
      decChunks fuel result (digits.drop chunk_len)

/-- The digits of a string in base `base`. -/
def fromDigits (base : Nat) (sign : Bool) (digits : List Nat) : Option BigInt :=
  if base = 16 then fieldsFromStr 4 sign digits
  else if base = 2 then fieldsFromStr 1 sign digits
  else decChunks digits.length zero digits

/-- `bigint_from_str`. -/
def fromStr (base : Nat) (str : List Nat) : Option (Option BigInt) :=
  let sign : Bool := str.head? = some '-'.toNat
  let rest := if sign then str.tail else str
  if rest = [] then some none
  else
    let digit := if base = 16 then hexVal else if base = 2 then binVal else decVal
    match rest.mapM digit with
    | none => some none
    | some digits => do
      let result ← fromDigits base sign digits
      some (some (withSign sign result))

end Jacl.Bignum
