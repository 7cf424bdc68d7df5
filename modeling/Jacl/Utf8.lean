import Mathlib.Data.List.Basic
import Mathlib.Tactic

/-!
# The UTF-8 codec (`src/lib/unicode/unicode.h`)

`decode` reads one codepoint from the front of a text and gives its length; `none` is the
length 0 of the source, which stands for an error or no text.  `encode` writes the bytes of
one codepoint and nothing for what is none.
-/

namespace Jacl.Utf8

abbrev Byte : Type := BitVec 8

/-- 1 to 4 for a lead byte, 0 for any other. -/
def codepointLength (first : Byte) : Nat :=
  if first < 0x80#8 then 1
  else if first &&& 0xE0#8 = 0xC0#8 then 2
  else if first &&& 0xF0#8 = 0xE0#8 then 3
  else if first &&& 0xF8#8 = 0xF0#8 then 4
  else 0

def isContinuation (b : Byte) : Bool := b &&& 0xC0#8 == 0x80#8

/-- The low bits of a byte that `mask` keeps. -/
def bits (mask : Nat) (b : Byte) : Nat := b.toNat &&& mask

/-- The codepoint at the front of `src` and the bytes it takes. -/
def decode (src : List Byte) : Option (Nat × Nat) :=
  match src with
  | [] => none
  | b0 :: rest =>
    match codepointLength b0, rest with
    | 1, _ => some (b0.toNat, 1)
    | 2, b1 :: _ =>
      if isContinuation b1 then
        let cp := bits 0x1F b0 <<< 6 ||| bits 0x3F b1
        if cp < 0x80 then none else some (cp, 2)
      else none
    | 3, b1 :: b2 :: _ =>
      if isContinuation b1 && isContinuation b2 then
        let cp := bits 0x0F b0 <<< 12 ||| bits 0x3F b1 <<< 6 ||| bits 0x3F b2
        if cp < 0x800 then none else some (cp, 3)
      else none
    | 4, b1 :: b2 :: b3 :: _ =>
      if isContinuation b1 && isContinuation b2 && isContinuation b3 then
        let cp := bits 0x07 b0 <<< 18 ||| bits 0x3F b1 <<< 12 ||| bits 0x3F b2 <<< 6 ||| bits 0x3F b3
        if cp < 0x10000 ∨ 0x10FFFF < cp then none else some (cp, 4)
      else none
    | _, _ => none

/-- A byte made of a tag and the bits of a codepoint. -/
def tagged (tag x : Nat) : Byte := BitVec.ofNat 8 (tag ||| x)

def encode (cp : Nat) : List Byte :=
  if cp < 0x80 then [BitVec.ofNat 8 cp]
  else if cp < 0x800 then [tagged 0xC0 (cp >>> 6), tagged 0x80 (cp &&& 0x3F)]
  else if cp < 0x10000 then
    if 0xD800 ≤ cp ∧ cp ≤ 0xDFFF then []
    else [tagged 0xE0 (cp >>> 12), tagged 0x80 (cp >>> 6 &&& 0x3F), tagged 0x80 (cp &&& 0x3F)]
  else if cp ≤ 0x10FFFF then
    [tagged 0xF0 (cp >>> 18), tagged 0x80 (cp >>> 12 &&& 0x3F), tagged 0x80 (cp >>> 6 &&& 0x3F),
      tagged 0x80 (cp &&& 0x3F)]
  else []

/-- The whole text is UTF-8. -/
def validate (src : List Byte) : Bool :=
  go src.length src
where
  /-- At most `fuel` codepoints: each takes a byte at least. -/
  go : Nat → List Byte → Bool
    | _, [] => true
    | 0, _ => false
    | fuel + 1, src =>
      match decode src with
      | none => false
      | some (cp, n) => if 0xD800 ≤ cp ∧ cp ≤ 0xDFFF then false else go fuel (src.drop n)

/-- What UTF-8 encodes. -/
def Scalar (cp : Nat) : Prop := cp ≤ 0x10FFFF ∧ ¬ (0xD800 ≤ cp ∧ cp ≤ 0xDFFF)

instance (cp : Nat) : Decidable (Scalar cp) := inferInstanceAs (Decidable (_ ∧ _))

/-- The text of a sequence of codepoints. -/
def encodeAll (cps : List Nat) : List Byte := cps.flatMap encode

variable {cp n : Nat} {src rest : List Byte} {cps : List Nat}

@[simp] theorem encodeAll_nil : encodeAll [] = [] := rfl

@[simp] theorem encodeAll_cons : encodeAll (cp :: cps) = encode cp ++ encodeAll cps := rfl

@[simp] theorem encodeAll_append {cps' : List Nat} :
    encodeAll (cps ++ cps') = encodeAll cps ++ encodeAll cps' := List.flatMap_append

/-! ### The bytes of a codepoint -/

theorem ascii_byte : ∀ x < 0x80, codepointLength (BitVec.ofNat 8 x) = 1 := by decide

theorem lead_two : ∀ x < 0x20, codepointLength (tagged 0xC0 x) = 2 ∧ bits 0x1F (tagged 0xC0 x) = x := by
  decide

theorem lead_three : ∀ x < 0x10, codepointLength (tagged 0xE0 x) = 3 ∧ bits 0x0F (tagged 0xE0 x) = x := by
  decide

theorem lead_four : ∀ x < 0x08, codepointLength (tagged 0xF0 x) = 4 ∧ bits 0x07 (tagged 0xF0 x) = x := by
  decide

theorem tail_byte :
    ∀ x < 0x40, isContinuation (tagged 0x80 x) = true ∧ bits 0x3F (tagged 0x80 x) = x := by
  decide

theorem tail_of_isContinuation :
    ∀ b : Byte, isContinuation b = true → tagged 0x80 (bits 0x3F b) = b ∧ bits 0x3F b < 0x40 := by
  decide +kernel

theorem lead_of_codepointLength : ∀ b : Byte,
    (codepointLength b = 1 → b.toNat < 0x80) ∧
    (codepointLength b = 2 → tagged 0xC0 (bits 0x1F b) = b ∧ bits 0x1F b < 0x20) ∧
    (codepointLength b = 3 → tagged 0xE0 (bits 0x0F b) = b ∧ bits 0x0F b < 0x10) ∧
    (codepointLength b = 4 → tagged 0xF0 (bits 0x07 b) = b ∧ bits 0x07 b < 0x08) := by
  decide +kernel

/-- Bits above others stand for their sum. -/
theorem join_bits {x y k : Nat} (h : y < 2 ^ k) : x <<< k ||| y = x * 2 ^ k + y := by
  rw [← Nat.shiftLeft_add_eq_or_of_lt h, Nat.shiftLeft_eq]

theorem join_three {a b c : Nat} (hb : b < 0x40) (hc : c < 0x40) :
    a <<< 12 ||| b <<< 6 ||| c = a * 0x1000 + b * 0x40 + c := by
  have hlow : b <<< 6 ||| c = b * 0x40 + c := @join_bits b c 6 hc
  rw [Nat.or_assoc, hlow, @join_bits a (b * 0x40 + c) 12 (by omega)]
  omega

theorem join_four {a b c d : Nat} (hb : b < 0x40) (hc : c < 0x40) (hd : d < 0x40) :
    a <<< 18 ||| b <<< 12 ||| c <<< 6 ||| d = a * 0x40000 + b * 0x1000 + c * 0x40 + d := by
  have hlow : b <<< 12 ||| c <<< 6 ||| d = b * 0x1000 + c * 0x40 + d := join_three hc hd
  rw [Nat.or_assoc, Nat.or_assoc, ← Nat.or_assoc (b <<< 12), hlow,
    @join_bits a (b * 0x1000 + c * 0x40 + d) 18 (by omega)]
  omega

theorem low_bits (x : Nat) : x &&& 0x3F = x % 0x40 := Nat.and_two_pow_sub_one_eq_mod x 6

theorem high_bits (x k : Nat) : x >>> k = x / 2 ^ k := Nat.shiftRight_eq_div_pow x k

/-- **What was encoded is decoded**, whatever follows it. -/
theorem decode_encode (h : Scalar cp) : decode (encode cp ++ rest) = some (cp, (encode cp).length) := by
  obtain ⟨hmax, hsur⟩ := h
  unfold encode
  split_ifs with h1 h2 h3
  · have hbyte : (BitVec.ofNat 8 cp).toNat = cp := by
      rw [BitVec.toNat_ofNat, Nat.mod_eq_of_lt (by omega)]
    simp only [decode, List.cons_append, ascii_byte cp h1, hbyte, List.length_singleton]
  · obtain ⟨hlen, hhigh⟩ := lead_two (cp >>> 6) (by rw [high_bits]; omega)
    obtain ⟨hcont, hlow⟩ := tail_byte (cp &&& 0x3F) (by rw [low_bits]; omega)
    have hcp : cp >>> 6 <<< 6 ||| cp &&& 0x3F = cp := by
      rw [@join_bits _ _ 6 (by rw [low_bits]; omega), high_bits, low_bits]
      omega
    simp only [decode, List.cons_append, hlen, hcont, hhigh, hlow, hcp, if_true, if_neg h1,
      List.length_cons, List.length_nil]
  · obtain ⟨hlen, hhigh⟩ := lead_three (cp >>> 12) (by rw [high_bits]; omega)
    obtain ⟨hcont1, hmid⟩ := tail_byte (cp >>> 6 &&& 0x3F) (by rw [low_bits]; omega)
    obtain ⟨hcont2, hlow⟩ := tail_byte (cp &&& 0x3F) (by rw [low_bits]; omega)
    have hcp : cp >>> 12 <<< 12 ||| (cp >>> 6 &&& 0x3F) <<< 6 ||| cp &&& 0x3F = cp := by
      rw [join_three (by rw [low_bits]; omega) (by rw [low_bits]; omega), high_bits, low_bits,
        low_bits, high_bits]
      omega
    simp only [decode, List.cons_append, hlen, hcont1, hcont2, hhigh, hmid, hlow, hcp,
      Bool.and_self, if_true, if_neg h2, List.length_cons, List.length_nil]
  · obtain ⟨hlen, hhigh⟩ := lead_four (cp >>> 18) (by rw [high_bits]; omega)
    obtain ⟨hcont1, hmid1⟩ := tail_byte (cp >>> 12 &&& 0x3F) (by rw [low_bits]; omega)
    obtain ⟨hcont2, hmid2⟩ := tail_byte (cp >>> 6 &&& 0x3F) (by rw [low_bits]; omega)
    obtain ⟨hcont3, hlow⟩ := tail_byte (cp &&& 0x3F) (by rw [low_bits]; omega)
    have hcp : cp >>> 18 <<< 18 ||| (cp >>> 12 &&& 0x3F) <<< 12 ||| (cp >>> 6 &&& 0x3F) <<< 6 |||
        cp &&& 0x3F = cp := by
      rw [join_four (by rw [low_bits]; omega) (by rw [low_bits]; omega) (by rw [low_bits]; omega),
        high_bits, low_bits, low_bits, low_bits, high_bits, high_bits]
      omega
    simp only [decode, List.cons_append, hlen, hcont1, hcont2, hcont3, hhigh, hmid1, hmid2, hlow,
      hcp, Bool.and_self, if_true, if_neg (show ¬ (cp < 0x10000 ∨ 0x10FFFF < cp) by omega),
      List.length_cons, List.length_nil]

theorem encode_length_pos (h : Scalar cp) : 0 < (encode cp).length := by
  obtain ⟨hmax, hsur⟩ := h
  unfold encode
  split_ifs <;> exact Nat.zero_lt_succ _

theorem encode_length_le : (encode cp).length ≤ 4 := by
  unfold encode
  split_ifs <;> simp

/-- **What is decoded was encoded**, surrogates apart. -/
theorem encode_decode (h : decode src = some (cp, n)) (hsur : ¬ (0xD800 ≤ cp ∧ cp ≤ 0xDFFF)) :
    Scalar cp ∧ src = encode cp ++ src.drop n := by
  cases src with
  | nil => cases h
  | cons b0 rest =>
    obtain ⟨hone, htwo, hthree, hfour⟩ := lead_of_codepointLength b0
    simp only [decode] at h
    split at h
    · rename_i hlen
      obtain ⟨rfl, rfl⟩ := Prod.mk.inj (Option.some.inj h)
      have hlt := hone hlen
      refine ⟨⟨by omega, hsur⟩, ?_⟩
      rw [encode, if_pos hlt, BitVec.ofNat_toNat, BitVec.setWidth_eq]
      rfl
    · rename_i b1 rest hlen
      obtain ⟨hlead, hlt⟩ := htwo hlen
      split_ifs at h with hcont hsmall
      obtain ⟨rfl, rfl⟩ := Prod.mk.inj (Option.some.inj h)
      obtain ⟨htail, hlow⟩ := tail_of_isContinuation b1 hcont
      rw [@join_bits _ _ 6 hlow] at hsmall hsur ⊢
      refine ⟨⟨by omega, hsur⟩, ?_⟩
      rw [encode, if_neg (by omega), if_pos (by omega), high_bits, low_bits]
      have hq : (bits 0x1F b0 * 2 ^ 6 + bits 0x3F b1) / 2 ^ 6 = bits 0x1F b0 := by omega
      have hr : (bits 0x1F b0 * 2 ^ 6 + bits 0x3F b1) % 0x40 = bits 0x3F b1 := by omega
      rw [hq, hr, hlead, htail]
      rfl
    · rename_i b1 b2 rest hlen
      obtain ⟨hlead, hlt⟩ := hthree hlen
      split_ifs at h with hcont hsmall
      obtain ⟨rfl, rfl⟩ := Prod.mk.inj (Option.some.inj h)
      rw [Bool.and_eq_true] at hcont
      obtain ⟨htail1, hlow1⟩ := tail_of_isContinuation b1 hcont.1
      obtain ⟨htail2, hlow2⟩ := tail_of_isContinuation b2 hcont.2
      rw [join_three hlow1 hlow2] at hsmall hsur ⊢
      refine ⟨⟨by omega, hsur⟩, ?_⟩
      rw [encode, if_neg (by omega), if_neg (by omega), if_pos (by omega), if_neg hsur, high_bits, low_bits,
        low_bits, high_bits]
      have hq : (bits 0x0F b0 * 0x1000 + bits 0x3F b1 * 0x40 + bits 0x3F b2) / 2 ^ 12 = bits 0x0F b0 := by omega
      have hm : (bits 0x0F b0 * 0x1000 + bits 0x3F b1 * 0x40 + bits 0x3F b2) / 2 ^ 6 % 0x40 = bits 0x3F b1 := by
        omega
      have hr : (bits 0x0F b0 * 0x1000 + bits 0x3F b1 * 0x40 + bits 0x3F b2) % 0x40 = bits 0x3F b2 := by omega
      rw [hq, hm, hr, hlead, htail1, htail2]
      rfl
    · rename_i b1 b2 b3 rest hlen
      obtain ⟨hlead, hlt⟩ := hfour hlen
      split_ifs at h with hcont hsmall
      obtain ⟨rfl, rfl⟩ := Prod.mk.inj (Option.some.inj h)
      rw [Bool.and_eq_true, Bool.and_eq_true] at hcont
      obtain ⟨htail1, hlow1⟩ := tail_of_isContinuation b1 hcont.1.1
      obtain ⟨htail2, hlow2⟩ := tail_of_isContinuation b2 hcont.1.2
      obtain ⟨htail3, hlow3⟩ := tail_of_isContinuation b3 hcont.2
      rw [join_four hlow1 hlow2 hlow3] at hsmall hsur ⊢
      refine ⟨⟨by omega, hsur⟩, ?_⟩
      rw [encode, if_neg (by omega), if_neg (by omega), if_neg (by omega), if_pos (by omega), high_bits,
        low_bits, low_bits, low_bits, high_bits, high_bits]
      generalize bits 0x07 b0 = a at hlead hlt hsmall ⊢
      generalize bits 0x3F b1 = b at htail1 hlow1 hsmall ⊢
      generalize bits 0x3F b2 = c at htail2 hlow2 hsmall ⊢
      generalize bits 0x3F b3 = d at htail3 hlow3 hsmall ⊢
      have hq : (a * 0x40000 + b * 0x1000 + c * 0x40 + d) / 2 ^ 18 = a := by omega
      have hm1 : (a * 0x40000 + b * 0x1000 + c * 0x40 + d) / 2 ^ 12 % 0x40 = b := by omega
      have hm2 : (a * 0x40000 + b * 0x1000 + c * 0x40 + d) / 2 ^ 6 % 0x40 = c := by omega
      have hr : (a * 0x40000 + b * 0x1000 + c * 0x40 + d) % 0x40 = d := by omega
      rw [hq, hm1, hm2, hr, hlead, htail1, htail2, htail3]
      rfl
    · cases h

theorem drop_length_lt (h : decode src = some (cp, n)) : (src.drop n).length < src.length := by
  have hn : 0 < n ∧ src ≠ [] := by
    cases src with
    | nil => cases h
    | cons b0 rest =>
      refine ⟨?_, List.cons_ne_nil _ _⟩
      simp only [decode] at h
      split at h
      · cases h
        exact Nat.one_pos
      · split_ifs at h
        cases h
        decide
      · split_ifs at h
        cases h
        decide
      · split_ifs at h
        cases h
        decide
      · cases h
  rw [List.length_drop]
  exact Nat.sub_lt (List.length_pos_iff.mpr hn.2) hn.1

/-- **The valid texts** are those of sequences of scalar values. -/
theorem validate_iff : validate src = true ↔ ∃ cps, (∀ cp ∈ cps, Scalar cp) ∧ src = encodeAll cps := by
  have hgo : ∀ fuel src, src.length ≤ fuel →
      (validate.go fuel src = true ↔ ∃ cps, (∀ cp ∈ cps, Scalar cp) ∧ src = encodeAll cps) := by
    intro fuel
    induction fuel with
    | zero =>
      intro src hlen
      obtain rfl := List.length_eq_zero_iff.mp (Nat.le_zero.mp hlen)
      exact ⟨fun _ => ⟨[], by simp, rfl⟩, fun _ => rfl⟩
    | succ fuel ih =>
      intro src hlen
      cases src with
      | nil => exact ⟨fun _ => ⟨[], by simp, rfl⟩, fun _ => rfl⟩
      | cons b rest =>
        rw [validate.go]
        swap
        · exact List.cons_ne_nil _ _
        constructor
        · intro h
          cases hdecode : decode (b :: rest) with
          | none =>
            rw [hdecode] at h
            cases h
          | some p =>
            obtain ⟨cp, n⟩ := p
            rw [hdecode] at h
            dsimp only at h
            split_ifs at h with hsur
            obtain ⟨hs, hsrc⟩ := encode_decode hdecode hsur
            have hshorter := drop_length_lt hdecode
            obtain ⟨cps, hcps, hrest⟩ := (ih _ (by omega)).mp h
            refine ⟨cp :: cps, fun c hc => ?_, by rw [hsrc, hrest]; rfl⟩
            rcases List.mem_cons.mp hc with rfl | hc
            · exact hs
            · exact hcps c hc
        · rintro ⟨cps, hcps, hsrc⟩
          cases cps with
          | nil => cases hsrc
          | cons cp cps =>
            have hs : Scalar cp := hcps cp List.mem_cons_self
            have hdecode := @decode_encode cp (encodeAll cps) hs
            have hdrop : (b :: rest).drop (encode cp).length = encodeAll cps := by
              rw [hsrc, encodeAll_cons, List.drop_left]
            have hshorter : (encodeAll cps).length ≤ fuel := by
              have hpos := encode_length_pos hs
              rw [hsrc, encodeAll_cons, List.length_append] at hlen
              omega
            rw [← encodeAll_cons, ← hsrc] at hdecode
            rw [hdecode]
            dsimp only
            rw [if_neg hs.2, hdrop]
            exact (ih _ hshorter).mpr ⟨cps, fun c hc => hcps c (List.mem_cons_of_mem _ hc), rfl⟩
  exact hgo src.length src (Nat.le_refl _)

end Jacl.Utf8
