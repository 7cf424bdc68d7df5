import Jacl.Utf8Cuts

/-!
# The two UTF-8 validators

`validate` is that of the text library (`src/lib/unicode/unicode.h`), `jaclUtf8Validate` that of
the strings (`src/src/string.c`), which passes ASCII bytes without decoding them.  Both accept the
texts of the sequences of scalar values, and `decodeAll` gives the sequence back.
-/

namespace Jacl.Utf8

variable {cp n fuel : Nat} {src rest : List Byte} {b : Byte} {cps : List Nat}

/-- `jacl_utf8_validate`. -/
def jaclUtf8Validate (src : List Byte) : Bool :=
  go src.length src
where
  /-- Each turn takes a byte of fuel at least. -/
  go : Nat → List Byte → Bool
    | _, [] => true
    | 0, _ => false
    | fuel + 1, b :: rest =>
      -- the fast path
      if b < 0x80#8 then go fuel rest
      else
        match decode (b :: rest) with
        | none => false
        | some (cp, n) => if 0xD800 ≤ cp ∧ cp ≤ 0xDFFF then false else go fuel ((b :: rest).drop n)

/-- The codepoints that `utf8_decode` gives, called again after each until the text ends. -/
def decodeAll (src : List Byte) : Option (List Nat) :=
  go src.length src
where
  go : Nat → List Byte → Option (List Nat)
    | _, [] => some []
    | 0, _ => none
    | fuel + 1, src =>
      match decode src with
      | none => none
      | some (cp, n) => (go fuel (src.drop n)).map (cp :: ·)

theorem codepointLength_ascii (hb : b < 0x80#8) : codepointLength b = 1 := if_pos hb

/-- An ASCII byte is a codepoint. -/
theorem decode_ascii (hb : b < 0x80#8) : decode (b :: rest) = some (b.toNat, 1) := by
  unfold decode
  dsimp only
  rw [codepointLength_ascii hb]
  rcases rest with _ | ⟨b1, _ | ⟨b2, _ | ⟨b3, tail⟩⟩⟩ <;> rfl

/-- The fast path decides nothing that decoding would not. -/
theorem go_eq : jaclUtf8Validate.go fuel src = validate.go fuel src := by
  induction fuel generalizing src with
  | zero => cases src <;> rfl
  | succ fuel ih =>
    cases src with
    | nil => rfl
    | cons b rest =>
      rw [jaclUtf8Validate.go, validate.go]
      swap
      · exact List.cons_ne_nil _ _
      by_cases hb : b < 0x80#8
      · have hlt : b.toNat < 0x80 := hb
        rw [if_pos hb, decode_ascii hb]
        dsimp only
        rw [if_neg (by omega), List.drop_one, List.tail_cons]
        exact ih
      · rw [if_neg hb]
        cases decode (b :: rest) with
        | none => rfl
        | some p =>
          dsimp only
          rw [ih]

theorem jaclUtf8Validate_eq : jaclUtf8Validate src = validate src := go_eq

theorem decodeAll_encodeAll (hcps : ∀ cp ∈ cps, Scalar cp) (hfuel : (encodeAll cps).length ≤ fuel) :
    decodeAll.go fuel (encodeAll cps) = some cps := by
  induction cps generalizing fuel with
  | nil => cases fuel <;> rfl
  | cons cp cps ih =>
    have hcp : Scalar cp := hcps cp List.mem_cons_self
    have hpos := encode_length_pos hcp
    rw [encodeAll_cons, List.length_append] at hfuel
    obtain ⟨fuel, rfl⟩ := Nat.exists_eq_succ_of_ne_zero (n := fuel) (by omega)
    have hne : encode cp ++ encodeAll cps ≠ [] := by
      intro hnil
      rw [(List.append_eq_nil_iff.mp hnil).1] at hpos
      exact absurd hpos (Nat.lt_irrefl _)
    rw [encodeAll_cons, decodeAll.go, decode_encode hcp]
    · dsimp only
      rw [List.drop_left, ih (fun c hc => hcps c (List.mem_cons_of_mem _ hc)) (by omega)]
      rfl
    · exact hne

/-- **Validation is exact**: the validators agree and accept the texts of sequences of scalar
values, of which decoding gives back the sequence and the count of codepoints is its length. -/
theorem validation_exact (src : List Byte) :
    validate src = jaclUtf8Validate src ∧
      (validate src = true ↔ ∃ cps, (∀ cp ∈ cps, Scalar cp) ∧ src = encodeAll cps) ∧
      ∀ cps, (∀ cp ∈ cps, Scalar cp) → src = encodeAll cps →
        decodeAll src = some cps ∧ codepointCount src = cps.length := by
  refine ⟨jaclUtf8Validate_eq.symm, validate_iff, ?_⟩
  rintro cps hcps rfl
  exact ⟨decodeAll_encodeAll hcps (Nat.le_refl _), codepointCount_encodeAll hcps⟩

/-- Two ASCII letters and a codepoint of two bytes. -/
example : validate [0x61#8, 0xC3#8, 0xA9#8, 0x62#8] = true ∧
    decodeAll [0x61#8, 0xC3#8, 0xA9#8, 0x62#8] = some [0x61, 0xE9, 0x62] := by decide

end Jacl.Utf8
