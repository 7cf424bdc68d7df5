import Jacl.IntTowerExact

/-!
# Crossing between static and dynamic numbers (`runtime/builtins.c`)

A static 64-bit integer is a word, a dynamic one a value.  `i64Box` and `u64Box` read a word as
signed and as unsigned; the unboxes are their way back.  `widenTo` and `toCast` bring a dynamic
number to a declared width.  An outer `none` is a read of a cell that is not what its word says.
-/

namespace Jacl.Builtins
open JaclVal BigInt Limbs

/-- The values a `uint64_t` takes. -/
def FitsU64 (x : Int) : Prop := 0 ≤ x ∧ x ≤ 2 ^ 64 - 1

instance (x : Int) : Decidable (FitsU64 x) := inferInstanceAs (Decidable (_ ∧ _))

/-- The conversions from a `double` that C leaves to the machine. -/
structure FloatCasts where
  /-- `(int64_t)d`. -/
  toI64 : BitVec 64 → Int
  /-- `(uint64_t)d`. -/
  toU64 : BitVec 64 → Nat
  /-- `(float)d`. -/
  toF32 : BitVec 64 → BitVec 32

/-- `jacl_is_flagged`. -/
def isFlagged (v : JaclVal) : Bool := v.tainted || v.secret

/-- The error of a domain, `jaclrt_set_error(jaclrt_i32(0))`. -/
def domainError : JaclVal := (i32 0).setError

/-- `jacl_flagged_refusal`. -/
def flaggedRefusal (v : JaclVal) : JaclVal :=
  { domainError with tainted := v.tainted, secret := v.secret }

/-- `jacl_int_val_checked`: `some none` is its 0. -/
def intValChecked (h : Heap) (v : JaclVal) : Option (Option Int) :=
  if v.isI32 then some (some v.asI32)
  else if v.isIwide then (wideBits h v).map some
  else some none

/-- `jacl_big_to_u64`: `some none` is its 0. -/
def bigToU64 (h : Heap) (v : JaclVal) : Option (Option Nat) :=
  if v.isBigint then
    match h.cells v.payload with
    | some (.big sign limb) =>
      if sign < 0 ∨ 2 < limb.length then some none
      else some (some (limb.getD 0 0 + (if limb.length = 2 then limb.getD 1 0 * 2 ^ 32 else 0)))
    | _ => none
  else some none

/-- `jacl_big_from_u64`. -/
def bigFromU64 (h : Heap) (x : Nat) : Heap × JaclVal := canon h 1 [x % base, x / base]

/-- `jacl_i64_box`. -/
def i64Box (h : Heap) (x : BitVec 64) : Heap × JaclVal := intResult h x.toInt

/-- `jacl_u64_box`. -/
def u64Box (h : Heap) (bits : BitVec 64) : Heap × JaclVal :=
  if bits.toNat ≤ 2 ^ 63 - 1 then intResult h bits.toNat else bigFromU64 h bits.toNat

section Floats
variable (fl : FloatOps) (fc : FloatCasts) (toString : Heap → JaclVal → Option (Heap × JaclVal))

/-- `jacl_i64_unbox`. -/
def i64Unbox (h : Heap) (v : JaclVal) : Option (BitVec 64) :=
  if isFlagged v then some 0
  else if v.isI32 then some (.ofInt 64 v.asI32)
  else if v.isIwide then (wideBits h v).map (.ofInt 64)
  else if v.isAnyfloat then (numF64 fl h v).map fun d => .ofInt 64 (fc.toI64 d)
  else some 0

/-- `jacl_u64_unbox`. -/
def u64Unbox (h : Heap) (v : JaclVal) : Option (BitVec 64) :=
  if isFlagged v then some 0
  else if v.isI32 then some (if v.asI32 < 0 then 0 else .ofInt 64 v.asI32)
  else if v.isBigint then (bigToU64 h v).map fun u => .ofNat 64 (u.getD 0)
  else if v.isIwide then (wideBits h v).map fun x => if x < 0 then 0 else .ofInt 64 x
  else some 0

/-- `jacl_widen_to`. -/
def widenTo (h : Heap) (v kind : JaclVal) : Option (Heap × JaclVal) :=
  if v.error ∨ kind.isI32 = false then some (h, v)
  else if isFlagged v then some (h, flaggedRefusal v)
  else if kind.asI32 = 0x10 then
    if v.isF64 then some (h, v) else (numF64 fl h v).map (f64New h)
  else if kind.asI32 = 0x0F then
    if v.isBigint then
      (bigToU64 h v).map fun u => (h, if u.isSome then v else domainError)
    else do
      let n ← intValChecked h v
      if n.any (· < 0) then some (h, domainError)
      else if v.isAnyfloat then
        (numF64 fl h v).map fun d => (h, if fl.ltF64 d 0 then domainError else v)
      else some (h, v)
  else if kind.asI32 = 0x0E then
    if v.isBigint then some (h, domainError)
    else if v.isIwide then some (h, v)
    else if v.isI32 then some (wideNew h 0x0E v.asI32)
    else some (h, v)
  else some (h, v)

/-! ### `jacl_to_cast` -/

/-- `str`. -/
def nameStr : List (BitVec 8) := [0x73, 0x74, 0x72]

/-- `f64`. -/
def nameF64 : List (BitVec 8) := [0x66, 0x36, 0x34]

/-- `f32`. -/
def nameF32 : List (BitVec 8) := [0x66, 0x33, 0x32]

/-- `u64`. -/
def nameU64 : List (BitVec 8) := [0x75, 0x36, 0x34]

/-- `i32`. -/
def nameI32 : List (BitVec 8) := [0x69, 0x33, 0x32]

/-- `i64`. -/
def nameI64 : List (BitVec 8) := [0x69, 0x36, 0x34]

/-- The part for the target `u64`. -/
def toU64 (h : Heap) (v : JaclVal) : Option (Heap × JaclVal) :=
  if v.isAnyfloat then
    (numF64 fl h v).map fun d =>
      -- 0.0 and 2^64
      if fl.leF64 0 d && fl.ltF64 d 0x43F0000000000000 then u64Box h (.ofNat 64 (fc.toU64 d))
      else (h, domainError)
  else do
    match ← intValChecked h v with
    | some n => some (if n < 0 then (h, domainError) else u64Box h (.ofInt 64 n))
    | none =>
      if v.isBigint then (bigToU64 h v).map fun u => (h, if u.isSome then v else domainError)
      else some (h, errorVal)

/-- The part for `i32` and `i64`, with the range of the target. -/
def toSigned (h : Heap) (v : JaclVal) (lo hi : Int) (type : Nat) : Option (Heap × JaclVal) :=
  let finish (x : Int) : Heap × JaclVal := if type = 0x02 then (h, i32 x) else wideNew h type x
  if v.isAnyfloat then
    (numF64 fl h v).map fun d =>
      -- below `(double)hi + 1.0`
      if fl.leF64 (fl.intToF64 lo) d && fl.ltF64 d (fl.addF64 (fl.intToF64 hi) 0x3FF0000000000000) then
        finish (fc.toI64 d)
      else (h, domainError)
  else do
    match ← intValChecked h v with
    | some x => some (if x < lo ∨ hi < x then (h, domainError) else finish x)
    | none => some (h, if v.isBigint then domainError else errorVal)

/-- `jacl_to_cast`. -/
def toCast (h : Heap) (v tname : JaclVal) : Option (Heap × JaclVal) :=
  if v.error then some (h, v)
  else if isFlagged v then some (h, flaggedRefusal v)
  else do
    let tn ← strBytes h tname
    -- the buffer of 16 bytes
    let tn := tn.take 15
    if tn = nameStr then toString h v
    else if tn = nameF64 then (numF64 fl h v).map (f64New h)
    else if tn = nameF32 then (numF64 fl h v).map fun d => (h, plain 0x03 (fc.toF32 d).toNat)
    else if tn = nameU64 then toU64 fl fc h v
    else if tn = nameI32 then toSigned fl fc h v (-2 ^ 31) (2 ^ 31 - 1) 0x02
    else if tn = nameI64 then toSigned fl fc h v (-2 ^ 63) (2 ^ 63 - 1) 0x0E
    else some (h, errorVal)

end Floats

/-! ### The numbers -/

/-- **A dynamic integer** that may cross: in any representation, without a flag, and a bigint only
past 64 bits. -/
structure Dynamic (h : Heap) (v : JaclVal) (n : Int) : Prop where
  isInt : IsInt h v n
  unflagged : isFlagged v = false
  big : v.type = 0x09 → ¬ FitsI64 n

/-- The boxed form of an `i64`. -/
def IsWide (h : Heap) (v : JaclVal) (n : Int) : Prop :=
  v.error = false ∧ v.type = 0x0E ∧ h.cells v.payload = some (.wide (.ofInt 64 n))

/-- The call returns the number in the form `form` if it is in range, and an error otherwise. -/
def Crosses (h : Heap) (r : Option (Heap × JaclVal)) (fits : Prop)
    (form : Heap → JaclVal → Prop) : Prop :=
  ∃ h' v', r = some (h', v') ∧ h.Le h' ∧ h'.Ok ∧ (fits → form h' v') ∧ (¬ fits → v'.error = true)

variable {fl : FloatOps} {fc : FloatCasts} {toString : Heap → JaclVal → Option (Heap × JaclVal)}
  {h : Heap} {v tname : JaclVal} {n : Int} {fits : Prop} {form : Heap → JaclVal → Prop}

theorem IsWide.isInt (hn : FitsI64 n) (hv : IsWide h v n) : IsInt h v n :=
  ⟨hv.1, .inr (.inl ⟨hv.2.1, _, hv.2.2, toInt_ofInt_i64 hn⟩)⟩

theorem crosses_error (hok : h.Ok) (hn : ¬ fits) : Crosses h (some (h, domainError)) fits form :=
  ⟨h, domainError, rfl, Heap.Le.refl h, hok, fun hf => absurd hf hn, fun _ => rfl⟩

theorem crosses_self (hok : h.Ok) (hn : fits) (hv : form h v) : Crosses h (some (h, v)) fits form :=
  ⟨h, v, rfl, Heap.Le.refl h, hok, fun _ => hv, fun hf => absurd hn hf⟩

theorem crosses_canonical (hok : h.Ok) (hn : fits) (h64 : FitsI64 n) :
    Crosses h (some (intResult h n)) fits (Canonical · · n) := by
  obtain ⟨hle, hok', hv⟩ := returns_intResult hok h64
  rw [if_pos h64.lt_bound] at hv
  exact ⟨_, _, rfl, hle, hok', fun _ => hv, fun hf => absurd hn hf⟩

theorem crosses_wide (hok : h.Ok) (hn : fits) :
    Crosses h (some (wideNew h 0x0E n)) fits (IsWide · · n) :=
  ⟨_, _, rfl, Heap.le_alloc hok _, Heap.ok_alloc hok _, fun _ => ⟨rfl, rfl, Heap.cells_alloc h _⟩,
    fun hf => absurd hn hf⟩

/-- What the tests of the source say of a dynamic integer. -/
theorem Dynamic.cases (hv : Dynamic h v n) :
    v.isAnyfloat = false ∧
      ((v.isBigint = false ∧ FitsI64 n ∧ intValChecked h v = some (some n)) ∨
        (v.isBigint = true ∧ v.isI32 = false ∧ v.isIwide = false ∧ ¬ FitsI64 n ∧
          intValChecked h v = some none)) := by
  refine ⟨hv.isInt.anyint.2.1, ?_⟩
  obtain ⟨-, ⟨ht, hn⟩ | ⟨ht, bits, hc, hn⟩ | ⟨ht, -⟩⟩ := hv.isInt
  · subst hn
    exact .inl ⟨by simp [isBigint, ht], (fitsI32_asI32 v).fitsI64, by simp [intValChecked, isI32, ht]⟩
  · subst hn
    refine .inl ⟨by simp [isBigint, ht], fitsI64_toInt bits, ?_⟩
    simp [intValChecked, isI32, isIwide, wideBits, ht, hc]
  · exact .inr ⟨by simp [isBigint, ht], by simp [isI32, ht], by simp [isIwide, ht], hv.big ht,
      by simp [intValChecked, isI32, isIwide, ht]⟩

/-- **A bigint as a `uint64_t`.** -/
theorem bigToU64_spec (hv : IsInt h v n) (hbig : v.isBigint = true) :
    bigToU64 h v = some (if FitsU64 n then some n.toNat else none) := by
  obtain ⟨sign, limb, hcell, hok, rfl⟩ := hv.big (by simpa [isBigint] using hbig)
  have hpos := hok.pos
  have hbase : base ^ 2 = 2 ^ 64 := by decide
  have hlen := hok.noLead.length_le_iff one_lt_base hok.below 2
  rw [bigToU64, if_pos hbig, hcell]
  dsimp only
  obtain hs | hs := hok.sign_eq
  · subst hs
    by_cases h2 : limb.length ≤ 2
    · have hlt := hlen.mp h2
      have hne : limb.length ≠ 0 := by
        rw [Ne, List.length_eq_zero_iff]
        exact hok.ne_nil
      rw [if_neg (by omega), ofDigits_of_length_le_two hne h2, if_pos ⟨by omega, by omega⟩]
      simp
    · have hge : ¬ Nat.ofDigits base limb < base ^ 2 := fun hlt => h2 (hlen.mpr hlt)
      rw [if_pos (.inr (Nat.lt_of_not_le h2)), if_neg fun hf => by have := hf.2; omega]
  · subst hs
    rw [if_pos (.inl (by decide)), if_neg fun hf => by have := hf.1; omega]

/-! ### Boxing -/

theorem intResult_unflagged : isFlagged (intResult h n).2 = false := by
  unfold intResult
  split <;> rfl

/-- **`i64` words come back**, and box to canonical numbers. -/
theorem i64_box_unbox (hok : h.Ok) (x : BitVec 64) :
    Canonical (i64Box h x).1 (i64Box h x).2 x.toInt ∧
      i64Unbox fl fc (i64Box h x).1 (i64Box h x).2 = some x := by
  have hx := fitsI64_toInt x
  obtain ⟨-, -, hv⟩ := returns_intResult hok hx
  rw [if_pos hx.lt_bound] at hv
  refine ⟨hv, ?_⟩
  rw [i64Unbox, i64Box, if_neg (by rw [intResult_unflagged]; exact Bool.false_ne_true)]
  by_cases h32 : (intResult h x.toInt).2.isI32 = true
  · rw [if_pos h32, hv.isInt.asI32 h32, BitVec.ofInt_toInt]
  · have hnot := mt hv.big_iff.mp (not_not_intro hx)
    obtain ⟨-, ⟨ht, -⟩ | ⟨ht, bits, hc, hn⟩ | ⟨ht, -⟩⟩ := hv.isInt
    · exact absurd (by simp [isI32, ht]) h32
    · rw [if_neg h32, if_pos (by simp [isIwide, ht]), wideBits, hc]
      dsimp only [Option.map_some]
      rw [hn, BitVec.ofInt_toInt]
    · exact absurd ht hnot

theorem canon_unflagged {sign : Int} {limb : List Nat} : isFlagged (canon h sign limb).2 = false := by
  have hbig : ∀ limb, isFlagged (bigOrError h sign limb).2 = false := by
    intro limb
    unfold bigOrError
    split <;> rfl
  unfold canon
  dsimp only
  split_ifs
  all_goals first
    | rfl
    | exact intResult_unflagged
    | exact hbig _

/-- The number that a word is, read as unsigned. -/
theorem u64Box_returns (hok : h.Ok) (x : BitVec 64) :
    Canonical (u64Box h x).1 (u64Box h x).2 x.toNat ∧ isFlagged (u64Box h x).2 = false := by
  have hlt := x.isLt
  have hbound := base_sq_le_bound
  have hbase : base ^ 2 = 2 ^ 64 := by decide
  rw [u64Box]
  by_cases hle : x.toNat ≤ 2 ^ 63 - 1
  · have hfit : FitsI64 x.toNat := ⟨by omega, by omega⟩
    obtain ⟨-, -, hv⟩ := returns_intResult hok hfit
    rw [if_pos hle]
    rw [if_pos hfit.lt_bound] at hv
    exact ⟨hv, intResult_unflagged⟩
  · rw [if_neg hle, bigFromU64]
    have hdigits : Nat.ofDigits base [x.toNat % base, x.toNat / base] = x.toNat := by
      rw [Nat.ofDigits_cons, Nat.ofDigits_singleton]
      exact Nat.mod_add_div x.toNat base
    have hbelow : Below base [x.toNat % base, x.toNat / base] := by
      have h32 : base = 2 ^ 32 := rfl
      intro d hd
      obtain rfl | hd := List.mem_cons.mp hd
      · exact Nat.mod_lt _ (by decide)
      · obtain rfl := List.mem_singleton.mp hd
        rw [h32]
        omega
    obtain ⟨-, -, hv⟩ := returns_canon hok (.inl rfl : (1 : Int) = 1 ∨ (1 : Int) = -1) hbelow
    rw [hdigits, Int.one_mul, if_pos (by omega)] at hv
    exact ⟨hv, canon_unflagged⟩

/-! ### Unboxing -/

theorem i64Unbox_spec (hv : Dynamic h v n) :
    i64Unbox fl fc h v = some (if FitsI64 n then .ofInt 64 n else 0) := by
  obtain ⟨hfloat, ⟨hbig, h64, hval⟩ | ⟨hbig, h32, hwide, hnot, -⟩⟩ := hv.cases
  · have hint := hv.isInt.anyint.1
    rw [i64Unbox, if_neg (by rw [hv.unflagged]; exact Bool.false_ne_true), if_pos h64]
    by_cases h32 : v.isI32 = true
    · rw [if_pos h32, hv.isInt.asI32 h32]
    · have hwide : v.isIwide = true := by simpa [isAnyint, h32, hbig] using hint
      rw [intValChecked, if_neg h32, if_pos hwide, Option.map_eq_some_iff] at hval
      obtain ⟨x, hx, hxn⟩ := hval
      rw [if_neg h32, if_pos hwide, hx, Option.some.inj hxn]
      rfl
  · rw [i64Unbox, if_neg (by rw [hv.unflagged]; exact Bool.false_ne_true), h32, hwide, hfloat,
      if_neg hnot]
    rfl

theorem u64Unbox_spec (hv : Dynamic h v n) :
    u64Unbox h v = some (if FitsU64 n then .ofInt 64 n else 0) := by
  have hneg : ∀ {x : Int}, FitsI64 x → (if x < 0 then (0 : BitVec 64) else .ofInt 64 x) =
      if FitsU64 x then .ofInt 64 x else 0 := by
    intro x hx
    have := hx.2
    by_cases h0 : x < 0
    · rw [if_pos h0, if_neg fun hf => by have := hf.1; omega]
    · rw [if_neg h0, if_pos ⟨by omega, by omega⟩]
  have hint := hv.isInt.anyint.1
  rw [u64Unbox, if_neg (by rw [hv.unflagged]; exact Bool.false_ne_true)]
  obtain ⟨-, ⟨hbig, h64, hval⟩ | ⟨hbig, h32, -, -, -⟩⟩ := hv.cases
  · by_cases h32 : v.isI32 = true
    · rw [if_pos h32, hv.isInt.asI32 h32, hneg h64]
    · have hwide : v.isIwide = true := by simpa [isAnyint, h32, hbig] using hint
      rw [intValChecked, if_neg h32, if_pos hwide, Option.map_eq_some_iff] at hval
      obtain ⟨x, hx, hxn⟩ := hval
      rw [if_neg h32, hbig, if_neg Bool.false_ne_true, if_pos hwide, hx, Option.some.inj hxn]
      exact congrArg some (hneg h64)
  · rw [h32, if_neg Bool.false_ne_true, if_pos hbig, bigToU64_spec hv.isInt hbig]
    by_cases hf : FitsU64 n
    · rw [if_pos hf, if_pos hf]
      obtain ⟨k, rfl⟩ := Int.eq_ofNat_of_zero_le hf.1
      rfl
    · rw [if_neg hf, if_neg hf]
      rfl

/-- **`u64` words come back**, and box to canonical numbers. -/
theorem u64_box_unbox (hok : h.Ok) (x : BitVec 64) :
    Canonical (u64Box h x).1 (u64Box h x).2 x.toNat ∧
      u64Unbox (u64Box h x).1 (u64Box h x).2 = some x := by
  obtain ⟨hv, hflag⟩ := u64Box_returns hok x
  have hlt := x.isLt
  refine ⟨hv, ?_⟩
  rw [u64Unbox_spec ⟨hv.isInt, hflag, hv.big_iff.mp⟩, if_pos ⟨by omega, by omega⟩,
    BitVec.ofInt_natCast, BitVec.ofNat_toNat, BitVec.setWidth_eq]

/-! ### Widening -/

theorem widenTo_i64 (hok : h.Ok) (hv : Dynamic h v n) :
    Crosses h (widenTo fl h v (i32 0x0E)) (FitsI64 n) (IsWide · · n) := by
  have hint := hv.isInt.anyint.1
  rw [widenTo, if_neg (by rw [hv.isInt.1]; decide), if_neg (by rw [hv.unflagged]; exact Bool.false_ne_true),
    if_neg (by decide), if_neg (by decide), if_pos (by decide)]
  obtain ⟨-, ⟨hbig, h64, hval⟩ | ⟨hbig, -, -, hnot, -⟩⟩ := hv.cases
  · rw [hbig, if_neg Bool.false_ne_true]
    by_cases hwide : v.isIwide = true
    · rw [if_pos hwide]
      have ht : v.type = 0x0E := by simpa [isIwide] using hwide
      refine crosses_self hok h64 ⟨hv.isInt.1, ht, ?_⟩
      obtain ⟨-, ⟨ht', -⟩ | ⟨-, bits, hc, hn⟩ | ⟨ht', -⟩⟩ := hv.isInt
      · omega
      · rw [hc, ← hn, BitVec.ofInt_toInt]
      · omega
    · have h32 : v.isI32 = true := by simpa [isAnyint, hwide, hbig] using hint
      rw [if_neg hwide, if_pos h32, hv.isInt.asI32 h32]
      exact crosses_wide hok h64
  · rw [if_pos hbig]
    exact crosses_error hok hnot

theorem widenTo_u64 (hok : h.Ok) (hv : Dynamic h v n) :
    Crosses h (widenTo fl h v (i32 0x0F)) (FitsU64 n) fun h' v' => IsInt h' v' n ∧ v' = v := by
  rw [widenTo, if_neg (by rw [hv.isInt.1]; decide), if_neg (by rw [hv.unflagged]; exact Bool.false_ne_true),
    if_neg (by decide), if_pos (by decide)]
  obtain ⟨hfloat, ⟨hbig, h64, hval⟩ | ⟨hbig, -, -, -, -⟩⟩ := hv.cases
  · have hmax := h64.2
    rw [hbig, if_neg Bool.false_ne_true, hval]
    dsimp only [Option.bind_eq_bind, Option.bind_some, Option.any_some]
    by_cases h0 : n < 0
    · rw [if_pos (decide_eq_true h0)]
      exact crosses_error hok fun hf => by have := hf.1; omega
    · rw [if_neg (by simpa using h0), hfloat, if_neg Bool.false_ne_true]
      exact crosses_self hok ⟨by omega, by omega⟩ ⟨hv.isInt, rfl⟩
  · rw [if_pos hbig, bigToU64_spec hv.isInt hbig]
    by_cases hf : FitsU64 n
    · rw [if_pos hf]
      exact crosses_self hok hf ⟨hv.isInt, rfl⟩
    · rw [if_neg hf]
      exact crosses_error hok hf

/-! ### Casts -/

/-- A bigint as the canonical form of its number. -/
theorem Dynamic.canonical (hv : Dynamic h v n) (hbig : v.isBigint = true) : Canonical h v n := by
  have ht : v.type = 0x09 := by simpa [isBigint] using hbig
  have hnot := hv.big ht
  refine ⟨hv.isInt.1, ?_⟩
  rw [if_neg fun h32 => hnot h32.fitsI64, if_neg hnot]
  exact ⟨ht, hv.isInt.big ht⟩

theorem toU64_spec (hok : h.Ok) (hv : Dynamic h v n) :
    Crosses h (toU64 fl fc h v) (FitsU64 n) (Canonical · · n) := by
  obtain ⟨hfloat, ⟨hbig, h64, hval⟩ | ⟨hbig, -, -, -, hval⟩⟩ := hv.cases
  · have hmax := h64.2
    rw [toU64, hfloat, if_neg Bool.false_ne_true, hval]
    dsimp only [Option.bind_eq_bind, Option.bind_some]
    by_cases h0 : n < 0
    · rw [if_pos h0]
      exact crosses_error hok fun hf => by have := hf.1; omega
    · obtain ⟨k, rfl⟩ := Int.eq_ofNat_of_zero_le (by omega : 0 ≤ n)
      have hk : (BitVec.ofInt 64 (k : Int)).toNat = k := by
        rw [BitVec.ofInt_natCast, BitVec.toNat_ofNat]
        omega
      rw [if_neg h0, u64Box, hk, if_pos (by omega)]
      exact crosses_canonical hok ⟨by omega, by omega⟩ h64
  · rw [toU64, hfloat, if_neg Bool.false_ne_true, hval]
    dsimp only [Option.bind_eq_bind, Option.bind_some]
    rw [if_pos hbig, bigToU64_spec hv.isInt hbig]
    by_cases hf : FitsU64 n
    · rw [if_pos hf]
      exact crosses_self hok hf (hv.canonical hbig)
    · rw [if_neg hf]
      exact crosses_error hok hf

theorem toSigned_i32 (hok : h.Ok) (hv : Dynamic h v n) :
    Crosses h (toSigned fl fc h v (-2 ^ 31) (2 ^ 31 - 1) 0x02) (FitsI32 n) (Canonical · · n) := by
  obtain ⟨hfloat, ⟨-, h64, hval⟩ | ⟨hbig, -, -, hnot, hval⟩⟩ := hv.cases
  · rw [toSigned, hfloat, if_neg Bool.false_ne_true, hval]
    dsimp only [Option.bind_eq_bind, Option.bind_some]
    by_cases h32 : FitsI32 n
    · have hcross := @crosses_canonical h n (FitsI32 n) hok h32 h64
      rw [intResult, if_pos (show -2 ^ 31 ≤ n ∧ n ≤ 2 ^ 31 - 1 from h32)] at hcross
      rw [if_neg (by have := h32.1; have := h32.2; omega), if_pos rfl]
      exact hcross
    · rw [if_pos (by rw [FitsI32] at h32; omega)]
      exact crosses_error hok h32
  · rw [toSigned, hfloat, if_neg Bool.false_ne_true, hval]
    dsimp only [Option.bind_eq_bind, Option.bind_some]
    rw [if_pos hbig]
    exact crosses_error hok fun h32 => hnot h32.fitsI64

theorem toSigned_i64 (hok : h.Ok) (hv : Dynamic h v n) :
    Crosses h (toSigned fl fc h v (-2 ^ 63) (2 ^ 63 - 1) 0x0E) (FitsI64 n) (IsWide · · n) := by
  obtain ⟨hfloat, ⟨-, h64, hval⟩ | ⟨hbig, -, -, hnot, hval⟩⟩ := hv.cases
  · rw [toSigned, hfloat, if_neg Bool.false_ne_true, hval]
    dsimp only [Option.bind_eq_bind, Option.bind_some]
    rw [if_neg (by have := h64.1; have := h64.2; omega), if_neg (by decide)]
    exact crosses_wide hok h64
  · rw [toSigned, hfloat, if_neg Bool.false_ne_true, hval]
    dsimp only [Option.bind_eq_bind, Option.bind_some]
    rw [if_pos hbig]
    exact crosses_error hok hnot

/-- The branches of the cast, by the name of the target. -/
theorem toCast_of_name (hv : Dynamic h v n) {name : List (BitVec 8)} (hname : strBytes h tname = some name) :
    toCast fl fc toString h v tname =
      if name.take 15 = nameStr then toString h v
      else if name.take 15 = nameF64 then (numF64 fl h v).map (f64New h)
      else if name.take 15 = nameF32 then
        (numF64 fl h v).map fun d => (h, plain 0x03 (fc.toF32 d).toNat)
      else if name.take 15 = nameU64 then toU64 fl fc h v
      else if name.take 15 = nameI32 then toSigned fl fc h v (-2 ^ 31) (2 ^ 31 - 1) 0x02
      else if name.take 15 = nameI64 then toSigned fl fc h v (-2 ^ 63) (2 ^ 63 - 1) 0x0E
      else some (h, errorVal) := by
  rw [toCast, if_neg (by rw [hv.isInt.1]; exact Bool.false_ne_true),
    if_neg (by rw [hv.unflagged]; exact Bool.false_ne_true), hname]
  rfl

/-- **The casts do not change a number.**  Boxes and unboxes are inverse on all words.  A number
in the range of `i32`, `i64` or `u64` crosses to it as itself, any other is refused with an error,
or with 0 where the result is a word.  `i64` is the one target with a form of its own: the boxed
one, at any magnitude. -/
theorem casts_exact (fl : FloatOps) (fc : FloatCasts) (toString : Heap → JaclVal → Option (Heap × JaclVal))
    (hok : h.Ok) (hv : Dynamic h v n) :
    (∀ x, Canonical (i64Box h x).1 (i64Box h x).2 x.toInt ∧
      i64Unbox fl fc (i64Box h x).1 (i64Box h x).2 = some x) ∧
    (∀ x, Canonical (u64Box h x).1 (u64Box h x).2 x.toNat ∧
      u64Unbox (u64Box h x).1 (u64Box h x).2 = some x) ∧
    i64Unbox fl fc h v = some (if FitsI64 n then .ofInt 64 n else 0) ∧
    u64Unbox h v = some (if FitsU64 n then .ofInt 64 n else 0) ∧
    Crosses h (widenTo fl h v (i32 0x0E)) (FitsI64 n) (IsWide · · n) ∧
    Crosses h (widenTo fl h v (i32 0x0F)) (FitsU64 n) (fun h' v' => IsInt h' v' n ∧ v' = v) ∧
    (∀ tname, strBytes h tname = some nameI32 →
      Crosses h (toCast fl fc toString h v tname) (FitsI32 n) (Canonical · · n)) ∧
    (∀ tname, strBytes h tname = some nameI64 →
      Crosses h (toCast fl fc toString h v tname) (FitsI64 n) (IsWide · · n)) ∧
    (∀ tname, strBytes h tname = some nameU64 →
      Crosses h (toCast fl fc toString h v tname) (FitsU64 n) (Canonical · · n)) := by
  refine ⟨i64_box_unbox hok, u64_box_unbox hok, i64Unbox_spec hv, u64Unbox_spec hv, widenTo_i64 hok hv,
    widenTo_u64 hok hv, fun tname hname => ?_, fun tname hname => ?_, fun tname hname => ?_⟩
  · rw [toCast_of_name hv hname]
    exact toSigned_i32 hok hv
  · rw [toCast_of_name hv hname]
    exact toSigned_i64 hok hv
  · rw [toCast_of_name hv hname]
    exact toU64_spec hok hv

/-- The boxed integer `2 ^ 62` fits a `u64`. -/
theorem casts_exact_wide :
    twoInts.Ok ∧ Dynamic twoInts (plain 0x0E 16) (2 ^ 62) ∧
      u64Unbox twoInts (plain 0x0E 16) = some (.ofInt 64 (2 ^ 62)) := by
  have hv : Dynamic twoInts (plain 0x0E 16) (2 ^ 62) := ⟨twoInts_wide, rfl, by decide⟩
  have hcast := casts_exact .ieee ⟨fun _ => 0, fun _ => 0, fun _ => 0⟩ (fun _ _ => none) twoInts_ok hv
  obtain ⟨-, -, -, hunbox, -⟩ := hcast
  exact ⟨twoInts_ok, hv, hunbox⟩

/-- **A cast that is not canonical**: 37 to `i64`. -/
theorem cast_not_canonical :
    ∃ h' v', toCast .ieee ⟨fun _ => 0, fun _ => 0, fun _ => 0⟩ (fun _ _ => none) twoInts (i32 37)
        (plain 0x04 0x343669) = some (h', v') ∧ IsInt h' v' 37 ∧ ¬ Canonical h' v' 37 := by
  refine ⟨_, _, rfl, ⟨rfl, .inr (.inl ⟨rfl, _, rfl, by decide⟩)⟩, ?_⟩
  rintro ⟨-, hv⟩
  rw [if_pos (by decide)] at hv
  exact absurd hv.1 (by decide)

end Jacl.Builtins
