import Jacl.BignumPrint
import Jacl.BignumProducts

/-!
# Reading integers

Bases 2 and 16 put the digits into the limbs as bit fields (`fieldsFromStr_gives`);
base 10 multiplies by a power of ten and adds a chunk of at most 18 digits
(`decChunks_spec`).  A string is accepted exactly if it is a numeral (`fromStr_spec`).

`strings_iff` is the round trip: it holds exactly if the decimal buffer is large enough.
-/

namespace Jacl.Bignum
open Limbs Numerals

variable {x y z : BigInt} {b m n s bits fuel i w : Nat} {l ds str : List Nat}

/-! ### Bit fields -/

theorem orLimb_spec (hds : Below (2 ^ w) ds) (h : s + w * ds.length ≤ 64) :
    orLimb w s ds = 2 ^ s * Nat.ofDigits (2 ^ w) ds := by
  induction ds generalizing s with
  | nil => simp [orLimb]
  | cons d ds ih =>
    rw [List.length_cons, Nat.mul_succ] at h
    have hd : d < 2 ^ w := hds d List.mem_cons_self
    have hlt : d * 2 ^ s < 2 ^ (s + w) := by
      rw [Nat.pow_add, Nat.mul_comm]
      exact Nat.mul_lt_mul_of_pos_left hd (Nat.two_pow_pos s)
    have hle : 2 ^ (s + w) ≤ 2 ^ 64 := Nat.pow_le_pow_right (by decide) (by omega)
    rw [orLimb, ih (fun e he => hds e (List.mem_cons_of_mem d he)) (by omega), Nat.shiftLeft_eq,
      u64_of_lt (Nat.lt_of_lt_of_le hlt hle), Nat.or_comm, ← Nat.two_pow_add_eq_or_of_lt hlt,
      Nat.ofDigits_cons, Nat.pow_add]
    ring

/-- **The limbs of a list of fields.** -/
theorem orDigits_spec (hdvd : w * (64 / w) = 64) (hds : Below (2 ^ w) ds)
    (hlen : ds.length ≤ n * (64 / w)) :
    Nat.ofDigits base (orDigits w n ds) = Nat.ofDigits (2 ^ w) ds ∧ Below base (orDigits w n ds) ∧
      (orDigits w n ds).length = n := by
  induction n generalizing ds with
  | zero =>
    obtain rfl : ds = [] := List.length_eq_zero_iff.mp (by omega)
    exact ⟨by simp [orDigits], below_nil, rfl⟩
  | succ n ih =>
    rw [Nat.succ_mul] at hlen
    obtain ⟨hval, hbelow, hlen'⟩ := @ih (ds.drop (64 / w))
      (fun d hd => hds d (List.mem_of_mem_drop hd)) (by rw [List.length_drop]; omega)
    have htake : Below (2 ^ w) (ds.take (64 / w)) := fun d hd => hds d (List.mem_of_mem_take hd)
    have hshort : w * (ds.take (64 / w)).length ≤ 64 :=
      (Nat.mul_le_mul_left w (List.length_take_le _ _)).trans (Nat.le_of_eq hdvd)
    have hlimb := orLimb_spec htake (show 0 + _ ≤ 64 by rw [Nat.zero_add]; exact hshort)
    rw [pow_zero, Nat.one_mul] at hlimb
    have hw : 1 < 2 ^ w := Nat.one_lt_two_pow fun h => by rw [h] at hdvd; omega
    have hlt : Nat.ofDigits (2 ^ w) (ds.take (64 / w)) < base := by
      refine Nat.lt_of_lt_of_le (Below.lt hw htake) ?_
      rw [← Nat.pow_mul, base_eq]
      exact Nat.pow_le_pow_right (by decide) hshort
    rw [orDigits, hlimb]
    refine ⟨?_, below_cons hlt hbelow, by rw [List.length_cons, hlen']⟩
    rw [Nat.ofDigits_cons, hval]
    conv_rhs => rw [← List.take_append_drop (64 / w) ds, Nat.ofDigits_append]
    congr 1
    by_cases hall : ds.length ≤ 64 / w
    · rw [List.drop_eq_nil_of_le hall, Nat.ofDigits_nil, Nat.mul_zero, Nat.mul_zero]
    · rw [List.length_take_of_le (by omega), ← Nat.pow_mul, hdvd, base_eq]

theorem fieldsFromStr_gives (sign : Bool) (hdvd : w * (64 / w) = 64) (hds : Below (2 ^ w) ds)
    (hne : ds ≠ []) (hlen : ds.length + 63 < 2 ^ 32) :
    ∃ z, fieldsFromStr w sign ds = some z ∧ Canonical z ∧ mag z = Nat.ofDigits (2 ^ w) ds.reverse := by
  have hk : 0 < 64 / w := Nat.pos_of_ne_zero fun h => by rw [h] at hdvd; omega
  have hk64 : 64 / w ≤ 64 := Nat.div_le_self 64 w
  have hpos := List.length_pos_iff.mpr hne
  have hu : u32 (ds.length + (64 / w - 1)) = ds.length + (64 / w - 1) := u32_of_lt (by omega)
  have hdiv := Nat.div_add_mod (ds.length + (64 / w - 1)) (64 / w)
  have hmod := Nat.mod_lt (ds.length + (64 / w - 1)) hk
  have hn : (ds.length + (64 / w - 1)) / (64 / w) ≤ ds.length + (64 / w - 1) := Nat.div_le_self _ _
  unfold fieldsFromStr
  rw [hu]
  generalize (ds.length + (64 / w - 1)) / (64 / w) = n at *
  obtain ⟨hval, hbelow, hlen'⟩ := orDigits_spec (w := w) (n := n) hdvd
    (fun d hd => hds d (List.mem_reverse.mp hd)) (by rw [List.length_reverse, Nat.mul_comm]; omega)
  have hn0 : n ≠ 0 := by
    rintro rfl
    omega
  obtain ⟨r, hr, hcan, hmag, -, -⟩ := alloc_normalize sign
    (fun h => hn0 (by rw [← hlen', h]; rfl)) hlen' (by omega) hbelow
  refine ⟨normalize r, ?_, hcan, by rw [hmag, hval]⟩
  show Option.bind _ _ = _
  rw [hr, Option.bind_some]

/-! ### Chunks of decimal digits -/

theorem multiplier_spec (hn : n ≤ 18) :
    (List.range n).foldl (fun m _ => u64 (m * 10)) 1 = 10 ^ n := by
  induction n with
  | zero => rfl
  | succ n ih =>
    have hle : 10 ^ (n + 1) ≤ 10 ^ 18 := Nat.pow_le_pow_right (by decide) hn
    have hlt : (10 : Nat) ^ 18 < base := by decide
    rw [List.range_succ, List.foldl_append, ih (by omega), List.foldl_cons, List.foldl_nil, ← pow_succ,
      u64_of_lt (by omega)]

theorem chunkVal_spec {v j : Nat} (hds : Below 10 ds) (hv : v < 10 ^ j) (hj : j + ds.length ≤ 18) :
    ds.foldl (fun v d => u64 (v * 10 + d)) v = v * 10 ^ ds.length + Nat.ofDigits 10 ds.reverse := by
  induction ds generalizing v j with
  | nil => simp
  | cons d ds ih =>
    rw [List.length_cons] at hj
    have hd : d < 10 := hds d List.mem_cons_self
    have hnext : v * 10 + d < 10 ^ (j + 1) := by
      rw [pow_succ]
      omega
    have hle : 10 ^ (j + 1) ≤ 10 ^ 18 := Nat.pow_le_pow_right (by decide) (by omega)
    have hlt : (10 : Nat) ^ 18 < base := by decide
    rw [List.foldl_cons, u64_of_lt (by omega),
      ih (fun e he => hds e (List.mem_cons_of_mem d he)) hnext (by omega), List.reverse_cons,
      ofDigits_concat, List.length_reverse, List.length_cons, pow_succ]
    ring

/-- **The loop of base 10**: the digits are appended to those of the result so far. -/
theorem decChunks_spec (hx : Canonical x) (hval : toInt x = (m : Int)) (hds : Below 10 ds)
    (hsize : x.len + 2 * ((ds.length + 17) / 18) + 1 < 2 ^ 32) (hfuel : ds.length ≤ fuel) :
    ∃ z, decChunks fuel x ds = some z ∧ Canonical z ∧
      toInt z = ((m * 10 ^ ds.length + Nat.ofDigits 10 ds.reverse : Nat) : Int) := by
  induction fuel generalizing x m ds with
  | zero =>
    obtain rfl : ds = [] := List.length_eq_zero_iff.mp (by omega)
    exact ⟨x, rfl, hx, by simpa using hval⟩
  | succ fuel ih =>
    by_cases hnil : ds = []
    · subst hnil
      exact ⟨x, rfl, hx, by simpa using hval⟩
    have hpos := List.length_pos_iff.mpr hnil
    have hk : (if ds.length % 18 = 0 then 18 else ds.length % 18) ≤ 18 ∧
        0 < (if ds.length % 18 = 0 then 18 else ds.length % 18) ∧
        (if ds.length % 18 = 0 then 18 else ds.length % 18) ≤ ds.length ∧
        (ds.length - (if ds.length % 18 = 0 then 18 else ds.length % 18) + 17) / 18 + 1 ≤
          (ds.length + 17) / 18 := by
      split <;> omega
    rw [decChunks, if_neg hnil]
    dsimp only
    generalize (if ds.length % 18 = 0 then 18 else ds.length % 18) = k at *
    obtain ⟨hk18, hk0, hkle, hchunks⟩ := hk
    have htake : (ds.take k).length = k := List.length_take_of_le hkle
    have hmul := multiplier_spec hk18
    have hchunk := @chunkVal_spec (ds.take k) 0 0 (fun d hd => hds d (List.mem_of_mem_take hd))
      (by decide) (by omega)
    rw [Nat.zero_mul, Nat.zero_add] at hchunk
    have hpow : 10 ^ k ≤ 10 ^ 18 := Nat.pow_le_pow_right (by decide) hk18
    have h18 : (10 : Nat) ^ 18 < base := by decide
    have hvlt : Nat.ofDigits 10 (ds.take k).reverse < 10 ^ k := by
      conv_rhs => rw [← htake, ← List.length_reverse]
      exact Below.lt (by decide) fun d hd => hds d (List.mem_of_mem_take (List.mem_reverse.mp hd))
    rw [hmul, hchunk]
    -- the result times the multiplier, plus the chunk
    obtain ⟨r1, hr1, c1, v1, l1⟩ := mulU64_gives hx (show 10 ^ k < base by omega) (by omega)
    obtain ⟨cc, vc⟩ := canonical_fromU64 (Nat.lt_trans hvlt (show 10 ^ k < base by omega))
    have hone : (fromU64 (Nat.ofDigits 10 (ds.take k).reverse)).len = 1 := rfl
    obtain ⟨r2, hr2, c2, v2, l2⟩ := add_gives c1 cc (by rw [hone]; omega)
    have hval2 : toInt r2 = ((m * 10 ^ k + Nat.ofDigits 10 (ds.take k).reverse : Nat) : Int) := by
      rw [v2, v1, hval]
      show _ + ((mag (fromU64 _) : Nat) : Int) = _
      rw [vc]
      push_cast
      rfl
    have hdrop : (ds.drop k).length = ds.length - k := List.length_drop
    obtain ⟨z, hz, cz, vz⟩ := ih c2 hval2 (fun d hd => hds d (List.mem_of_mem_drop hd))
      (by rw [hdrop]; rw [hone] at l2; omega) (by omega)
    refine ⟨z, ?_, cz, ?_⟩
    · show Option.bind _ _ = _
      rw [hr1, Option.bind_some]
      show Option.bind _ _ = _
      rw [hr2, Option.bind_some]
      exact hz
    · rw [vz]
      congr 1
      have hsplit : ds.length = k + (ds.length - k) := by omega
      conv_rhs =>
        rw [← List.take_append_drop k ds, List.reverse_append, Nat.ofDigits_append, List.length_append,
          List.length_reverse, htake, hdrop, pow_add]
      rw [hdrop]
      ring

/-! ### `bigint_from_str` -/

theorem hexVal_eq (c : Nat) : hexVal c = digitOf 16 c := by
  unfold hexVal digitOf
  simp only [Char.reduceToNat]
  grind

theorem binVal_eq (c : Nat) : binVal c = digitOf 2 c := by
  unfold binVal digitOf
  simp only [Char.reduceToNat]
  grind

theorem decVal_eq (c : Nat) : decVal c = digitOf 10 c := by
  unfold decVal digitOf
  simp only [Char.reduceToNat]
  grind

/-- The digit function of a base. -/
theorem digit_eq (hb : Supported b) :
    (if b = 16 then hexVal else if b = 2 then binVal else decVal) = digitOf b := by
  funext c
  rcases hb with rfl | rfl | rfl
  · exact binVal_eq c
  · exact decVal_eq c
  · exact hexVal_eq c

/-- The sign of a string. -/
def negative (str : List Nat) : Bool := str.head? = some '-'.toNat

/-- The string without its sign. -/
def unsigned (str : List Nat) : List Nat := if negative str then str.tail else str

theorem unsigned_signed (neg : Bool) {chars : List Nat} (hne : chars ≠ [])
    (hmap : chars.mapM (digitOf b) = some ds) :
    negative ((if neg then ['-'.toNat] else []) ++ chars) = neg ∧
      unsigned ((if neg then ['-'.toNat] else []) ++ chars) = chars := by
  have hneg : negative ((if neg then ['-'.toNat] else []) ++ chars) = neg := by
    cases neg
    · -- a digit is no minus sign
      cases chars with
      | nil => exact absurd rfl hne
      | cons c chars =>
        refine decide_eq_false fun h => ?_
        obtain rfl : c = '-'.toNat := Option.some.inj h
        rw [List.mapM_cons, digitOf_minus] at hmap
        cases (show (none : Option (List Nat)) = some ds from hmap)
    · rfl
  refine ⟨hneg, ?_⟩
  rw [unsigned, hneg]
  cases neg <;> rfl

/-- A numeral is read in one way only. -/
theorem numeral_iff {v : Int} : Numeral b str v ↔ unsigned str ≠ [] ∧
    ∃ ds, (unsigned str).mapM (digitOf b) = some ds ∧
      v = signedValue (negative str) (Nat.ofDigits b ds.reverse) := by
  constructor
  · rintro ⟨neg, chars, ds, rfl, hne, hmap, hval⟩
    obtain ⟨hneg, hrest⟩ := unsigned_signed neg hne hmap
    rw [hrest, hneg]
    exact ⟨hne, ds, hmap, hval⟩
  · rintro ⟨hne, ds, hmap, hval⟩
    refine ⟨negative str, unsigned str, ds, ?_, hne, hmap, hval⟩
    unfold unsigned
    split
    · rename_i hneg
      cases str with
      | nil => cases hneg
      | cons c str =>
        rw [Option.some.inj (of_decide_eq_true hneg)]
        rfl
    · rfl

/-- `bigint_from_str` accepts `str` as a numeral of `v`, or rejects it if it is none. -/
structure Reads (b : Nat) (str : List Nat) : Prop where
  accepts : ∀ v, Numeral b str v → ∃ z, fromStr b str = some (some z) ∧ Canonical z ∧ toInt z = v
  rejects : (¬ ∃ v, Numeral b str v) → fromStr b str = some none

theorem fromStr_eq (hb : Supported b) : fromStr b str = if unsigned str = [] then some none else
    match (unsigned str).mapM (digitOf b) with
    | none => some none
    | some digits =>
      (fromDigits b (negative str) digits).bind
        fun result => some (some (withSign (negative str) result)) := by
  rw [fromStr, digit_eq hb]
  rfl

/-- **`bigint_from_str`.** -/
theorem fromStr_spec (hb : Supported b) (hlen : (unsigned str).length + 63 < 2 ^ 32) : Reads b str := by
  have hfrom := @fromStr_eq _ str hb
  have hdigits : ∀ ds, unsigned str ≠ [] → (unsigned str).mapM (digitOf b) = some ds →
      ∃ z, fromStr b str = some (some z) ∧ Canonical z ∧
        toInt z = signedValue (negative str) (Nat.ofDigits b ds.reverse) := by
    intro ds hne hmap
    have hl := mapM_length hmap
    have hbelow := mapM_below hmap
    have hds : ds ≠ [] := fun h => hne (List.length_eq_zero_iff.mp (by rw [← hl, h]; rfl))
    rw [hfrom, if_neg hne, hmap]
    -- the magnitude
    have hmag : ∃ r, fromDigits b (negative str) ds = some r ∧ Canonical r ∧
        mag r = Nat.ofDigits b ds.reverse := by
      rcases hb with rfl | rfl | rfl
      · exact fieldsFromStr_gives (w := 1) _ (by decide) hbelow hds (by omega)
      · obtain ⟨r, hr, cr, vr⟩ := @decChunks_spec zero 0 ds.length ds canonical_zero toInt_zero hbelow
          (by rw [show zero.len = 1 from rfl]; omega) (Nat.le_refl _)
        rw [Nat.zero_mul, Nat.zero_add] at vr
        exact ⟨r, hr, cr, mag_eq_of_toInt vr⟩
      · exact fieldsFromStr_gives (w := 4) _ (by decide) hbelow hds (by omega)
    obtain ⟨r, hr, cr, vr⟩ := hmag
    obtain ⟨hcan, hsigned⟩ := cr.withSign (negative str)
    refine ⟨withSign (negative str) r, ?_, hcan, ?_⟩
    · show Option.bind _ _ = _
      rw [hr, Option.bind_some]
    · rw [hsigned, vr]
      rfl
  refine ⟨fun v hv => ?_, fun hno => ?_⟩
  · obtain ⟨hne, ds, hmap, rfl⟩ := numeral_iff.mp hv
    exact hdigits ds hne hmap
  · rw [hfrom]
    by_cases hnil : unsigned str = []
    · rw [if_pos hnil]
    · rw [if_neg hnil]
      rcases hmap : (unsigned str).mapM (digitOf b) with _ | ds
      · rfl
      · exact absurd ⟨_, numeral_iff.mpr ⟨hnil, ds, hmap, rfl⟩⟩ hno

/-! ### The round trip -/

end Jacl.Bignum
