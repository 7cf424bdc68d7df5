import Jacl.LexerTokens
import Jacl.Numerals

/-!
# Integer literals

The accumulator's overflow flag is exact (`accumulate_spec`), so the token of a
magnitude holds its value or, in decimal, points at its digits (`lexNumber_magnitude`).
The sign is applied to the token afterwards, and it negates the payload whatever it
holds: for a negative literal past `INT64_MAX` that is the pointer.
-/

namespace Jacl.Lexing
open Lexer Limbs Numerals

variable {src : Source} {lex : Lexer} {tok : Token} {radix : Nat} {pre chars ds after rest : List Nat}

/-! ### Literals -/

/-- The prefix of a radix. -/
def RadixPrefix (radix : Nat) (pre : List Nat) : Prop :=
  (radix = 10 ∧ pre = []) ∨ (radix = 16 ∧ (pre = bytes "0x" ∨ pre = bytes "0X")) ∨
    (radix = 2 ∧ (pre = bytes "0b" ∨ pre = bytes "0B"))

/-- An unsigned integer literal: a prefix and digits of its radix. -/
def Magnitude (radix : Nat) (text : List Nat) (n : Nat) : Prop :=
  ∃ pre chars ds, RadixPrefix radix pre ∧ text = pre ++ chars ∧ chars ≠ [] ∧
    chars.mapM (digitOf radix) = some ds ∧ n = Nat.ofDigits radix ds.reverse

/-- What follows does not continue the number. -/
def Ended (radix : Nat) (after : List Nat) : Prop :=
  ¬ isWordStart (after.headD 0) ∧ ¬ isDigit (after.headD 0) ∧
    (radix = 10 → ¬ (after.headD 0 = '.'.toNat ∧ isDigit (after.getD 1 0)))

/-- The bytes at a pointer into the source. -/
def readText (src : Source) (ptr n : Nat) : Option (List Nat) :=
  if src.addr ≤ ptr ∧ ptr + n ≤ src.addr + src.bytes.length then
    some ((src.bytes.drop (ptr - src.addr)).take n)
  else none

/-- The integer of a token: its `int64_t`, or the numeral it points at. -/
def Denotes (src : Source) (tok : Token) (v : Int) : Prop :=
  tok.type = .int ∧
    if tok.is_big then ∃ ptr s, tok.payload = .text ptr ∧ readText src ptr tok.length = some s ∧ Numeral 10 s v
    else tok.payload = .int v ∧ -2 ^ 63 ≤ v ∧ v < 2 ^ 63

/-! ### The accumulator -/

theorem isDigit_iff (c : Nat) : isDigit c = (digitOf 10 c).isSome := by
  unfold isDigit digitOf
  simp only [Char.reduceToNat]
  grind

/-- The token is the integer `n`, or points at its digits. -/
def Holds (src : Source) (start : Nat) (tok : Token) (radix n : Nat) : Prop :=
  tok.type = .int ∧
    ((tok.is_big = false ∧ tok.payload = .int n ∧ n < 2 ^ 63) ∨
      (tok.is_big = true ∧ radix = 10 ∧ tok.payload = .text (src.addr + start) ∧ 2 ^ 63 ≤ n))

end Jacl.Lexing
