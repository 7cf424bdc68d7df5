import Jacl.BignumDivideExact
import Jacl.BignumStrings
import Jacl.Entrywise
import Jacl.Numerals

/-!
# Printing integers

In bases 2 and 16 the fields of the limbs are the digits and the buffer has their exact
size (`fieldsToStr_spec`).  In base 10 the chunks are the digits too (`decLoop_spec`),
but the buffer has room for `⌊3 · bit_len / 10⌋ + 2` of them, and three tenths are less
than `log10 2`.
-/

namespace Jacl.Bignum
open Limbs LongDivision Numerals Entrywise

variable {x y z : BigInt} {m n s bits fuel i w : Nat} {l : List Nat}

theorem hexChar_eq (d : Nat) : hexChar d = charOf d := rfl

/-- The bases `bigint_to_str` supports. -/
def Supported (b : Nat) : Prop := b = 2 ∨ b = 10 ∨ b = 16

end Jacl.Bignum
