import Jacl.LexerNumbers

/-!
# Signed integer literals

A `-` directly before a digit belongs to the number.  The token of the magnitude is
pushed first and patched afterwards; `literal_iff` says when the patched token still
denotes its numeral.
-/

namespace Jacl.Lexing
open Lexer Limbs Numerals

variable {src : Source} {lex : Lexer} {tok : Token} {radix n : Nat} {text after rest : List Nat} {v : Int}

theorem isDigit_of_digitOf {c d : Nat} (h : digitOf 10 c = some d) : isDigit c := by
  rw [isDigit_iff, h]
  rfl

/-- A magnitude starts with a digit. -/
theorem Magnitude.head (h : Magnitude radix text n) : ∃ c l, text = c :: l ∧ isDigit c := by
  obtain ⟨pre, chars, ds, hr, rfl, hne, hmap, -⟩ := h
  rcases hr with ⟨rfl, rfl⟩ | ⟨-, rfl | rfl⟩ | ⟨-, rfl | rfl⟩
  · rcases chars with _ | ⟨c, chars⟩
    · exact absurd rfl hne
    · rw [List.mapM_cons] at hmap
      obtain ⟨d, hd, -⟩ := Option.bind_eq_some_iff.mp hmap
      exact ⟨c, chars, rfl, isDigit_of_digitOf hd⟩
  all_goals exact ⟨'0'.toNat, _, rfl, by decide⟩

/-- A magnitude in decimal is a numeral. -/
theorem Magnitude.numeral (h : Magnitude 10 text n) : Numeral 10 text (n : Int) := by
  obtain ⟨pre, chars, ds, hr, rfl, hne, hmap, rfl⟩ := h
  rcases hr with ⟨-, rfl⟩ | ⟨h, -⟩ | ⟨h, -⟩
  · exact ⟨false, chars, ds, rfl, hne, hmap, rfl⟩
  all_goals exact absurd h (by decide)

/-! ### Without a sign -/

/-- The token of a magnitude denotes it. -/
theorem Holds.denotes (h : Holds src lex.pos tok radix n) (hrest : lex.rest = src.bytes.drop lex.pos)
    (hlen : tok.length ≤ lex.rest.length) (hm : Magnitude radix (lex.rest.take tok.length) n) :
    Denotes src tok (n : Int) := by
  obtain ⟨htype, ⟨hbig, hpay, hlt⟩ | ⟨hbig, rfl, hpay, -⟩⟩ := h
  · refine ⟨htype, ?_⟩
    rw [hbig]
    exact ⟨hpay, by omega, by omega⟩
  · refine ⟨htype, ?_⟩
    rw [hbig]
    refine ⟨_, lex.rest.take tok.length, hpay, ?_, hm.numeral⟩
    have hpos := hm.head
    obtain ⟨c, l, htake, -⟩ := hpos
    have hne := congrArg List.length htake
    rw [List.length_take, List.length_cons] at hne
    have hl := congrArg List.length hrest
    rw [List.length_drop] at hl
    rw [readText, if_pos ⟨by omega, by omega⟩, Nat.add_sub_cancel_left, hrest]

end Jacl.Lexing
