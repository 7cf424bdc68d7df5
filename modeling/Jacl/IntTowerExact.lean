import Jacl.BigIntMagnitude
import Jacl.IntTower

/-!
# The dynamic integers are exact

A dynamic integer is an inline `i32`, a boxed `i64` or a bigint of at most
`JBIG_MAX_LIMBS` limbs.  Arithmetic on any two of them gives the exact result in the
narrowest representation that holds it, or an error when no representation does, and
the comparisons decide the order of the integers.
-/

namespace Jacl.Builtins
open JaclVal BigInt Limbs

/-- The integers a representation exists for are those below it in magnitude. -/
def bound : Nat := base ^ maxLimbs

/-- A sign and limbs as `jbig_canon` puts them in a cell. -/
structure BigOk (sign : Int) (limb : List Nat) : Prop where
  sign_eq : sign = 1 ∨ sign = -1
  ne_nil : limb ≠ []
  below : Below base limb
  noLead : NoLead limb
  length_le : limb.length ≤ maxLimbs

/-- **A dynamic integer**, in any representation. -/
def IsInt (h : Heap) (v : JaclVal) (n : Int) : Prop :=
  v.error = false ∧
    ((v.type = 0x02 ∧ v.asI32 = n) ∨
      (v.type = 0x0E ∧ ∃ bits, h.cells v.payload = some (.wide bits) ∧ bits.toInt = n) ∨
      (v.type = 0x09 ∧ ∃ sign limb, h.cells v.payload = some (.big sign limb) ∧
        BigOk sign limb ∧ n = sign * Nat.ofDigits base limb))

/-- **The canonical representation** of an integer: the narrowest that holds it. -/
def Canonical (h : Heap) (v : JaclVal) (n : Int) : Prop :=
  v.error = false ∧
    if FitsI32 n then
      v.type = 0x02 ∧ v.payload = (n % 2 ^ 32).toNat
    else if FitsI64 n then
      v.type = 0x0E ∧ h.cells v.payload = some (.wide (BitVec.ofInt 64 n))
    else
      v.type = 0x09 ∧ ∃ sign limb, h.cells v.payload = some (.big sign limb) ∧
        BigOk sign limb ∧ n = sign * Nat.ofDigits base limb

/-- What an operation returned for the exact result `n`: its canonical representation,
or an error exactly when `n` needs more limbs than there are. -/
def Returns (h : Heap) (n : Int) (r : Heap × JaclVal) : Prop :=
  h.Le r.1 ∧ r.1.Ok ∧ if n.natAbs < bound then Canonical r.1 r.2 n else r.2.error = true

/-! ### Small facts -/

theorem toInt_ofInt_i32 {n : Int} (hn : FitsI32 n) :
    (BitVec.ofNat 32 (n % 2 ^ 32).toNat).toInt = n := by
  obtain ⟨hlo, hhi⟩ := hn
  rw [BitVec.toInt_eq_toNat_bmod, BitVec.toNat_ofNat]
  rw [Int.bmod_def]
  omega

theorem toInt_ofInt_i64 {n : Int} (hn : FitsI64 n) : (BitVec.ofInt 64 n).toInt = n := by
  obtain ⟨hlo, hhi⟩ := hn
  rw [BitVec.toInt_ofInt, Int.bmod_def]
  omega

theorem fitsI32_asI32 (v : JaclVal) : FitsI32 v.asI32 := by
  have hlt := BitVec.toInt_lt (x := BitVec.ofNat 32 v.payload)
  have hle := BitVec.le_toInt (x := BitVec.ofNat 32 v.payload)
  rw [FitsI32, asI32]
  omega

theorem fitsI64_toInt (x : BitVec 64) : FitsI64 x.toInt := by
  have hlt := BitVec.toInt_lt (x := x)
  have hle := BitVec.le_toInt (x := x)
  rw [FitsI64]
  omega

theorem FitsI32.fitsI64 {n : Int} (hn : FitsI32 n) : FitsI64 n := by
  obtain ⟨hlo, hhi⟩ := hn
  rw [FitsI64]
  omega

theorem base_sq_le_bound : base ^ 2 ≤ bound := Nat.pow_le_pow_right (by decide) (by decide)

theorem FitsI64.lt_bound {n : Int} (hn : FitsI64 n) : n.natAbs < bound := by
  obtain ⟨hlo, hhi⟩ := hn
  have hbound := base_sq_le_bound
  have : base ^ 2 = 2 ^ 64 := by decide
  omega

theorem BigOk.natAbs {sign : Int} {limb : List Nat} (hs : sign = 1 ∨ sign = -1) :
    (sign * (Nat.ofDigits base limb : Nat)).natAbs = Nat.ofDigits base limb := by
  rcases hs with rfl | rfl <;> simp

theorem BigOk.pos {sign : Int} {limb : List Nat} (hok : BigOk sign limb) :
    0 < Nat.ofDigits base limb :=
  Nat.lt_of_lt_of_le (Nat.pow_pos (by decide)) (hok.noLead.pow_le (b := base) hok.ne_nil)

/-- A bigint's sign and limbs are those of its value. -/
theorem BigOk.unique {sign sign' : Int} {limb limb' : List Nat} (ho : BigOk sign limb)
    (ho' : BigOk sign' limb')
    (he : sign * (Nat.ofDigits base limb : Nat) = sign' * (Nat.ofDigits base limb' : Nat)) :
    sign = sign' ∧ limb = limb' := by
  have habs := congrArg Int.natAbs he
  rw [BigOk.natAbs ho.sign_eq, BigOk.natAbs ho'.sign_eq] at habs
  obtain rfl := ho.noLead.eq_of_ofDigits_eq one_lt_base ho.below ho'.below ho'.noLead habs
  have hpos := ho.pos
  refine ⟨?_, rfl⟩
  rcases ho.sign_eq with rfl | rfl <;> rcases ho'.sign_eq with rfl | rfl <;> omega

theorem Canonical.isInt {h : Heap} {v : JaclVal} {n : Int} (hv : Canonical h v n) : IsInt h v n := by
  obtain ⟨herr, hv⟩ := hv
  refine ⟨herr, ?_⟩
  by_cases h32 : FitsI32 n
  · rw [if_pos h32] at hv
    exact .inl ⟨hv.1, by rw [asI32, hv.2, toInt_ofInt_i32 h32]⟩
  · rw [if_neg h32] at hv
    by_cases h64 : FitsI64 n
    · rw [if_pos h64] at hv
      exact .inr (.inl ⟨hv.1, _, hv.2, toInt_ofInt_i64 h64⟩)
    · rw [if_neg h64] at hv
      exact .inr (.inr hv)

theorem Canonical.type_mem {h : Heap} {v : JaclVal} {n : Int} (hv : Canonical h v n) :
    v.type = 0x02 ∨ v.type = 0x0E ∨ v.type = 0x09 := by
  obtain ⟨-, ⟨ht, -⟩ | ⟨ht, -⟩ | ⟨ht, -⟩⟩ := hv.isInt
  · exact .inl ht
  · exact .inr (.inl ht)
  · exact .inr (.inr ht)

/-- The bigints are what is left past 64 bits. -/
theorem Canonical.big_iff {h : Heap} {v : JaclVal} {n : Int} (hv : Canonical h v n) :
    v.type = 0x09 ↔ ¬ FitsI64 n := by
  obtain ⟨-, hv⟩ := hv
  by_cases h32 : FitsI32 n
  · rw [if_pos h32] at hv
    simp [hv.1, h32.fitsI64]
  · rw [if_neg h32] at hv
    by_cases h64 : FitsI64 n
    · rw [if_pos h64] at hv
      simp [hv.1, h64]
    · rw [if_neg h64] at hv
      simp [hv.1, h64]

theorem Canonical.propFlags {h : Heap} {v : JaclVal} {n : Int} (hv : Canonical h v n)
    (a b : JaclVal) : Canonical h (v.propFlags a b) n := hv

theorem Returns.withFlags {h : Heap} {n : Int} {r : Heap × JaclVal} (hr : Returns h n r)
    (a b : JaclVal) : Returns h n (withFlags r a b) := hr

/-! ### Building results -/

theorem returns_intResult {h : Heap} (hok : h.Ok) {n : Int} (hn : FitsI64 n) :
    Returns h n (intResult h n) := by
  rw [Returns, if_pos hn.lt_bound, intResult]
  by_cases h32 : FitsI32 n
  · rw [if_pos (show -2 ^ 31 ≤ n ∧ n ≤ 2 ^ 31 - 1 from h32)]
    refine ⟨Heap.Le.refl h, hok, rfl, ?_⟩
    rw [if_pos h32]
    exact ⟨rfl, rfl⟩
  · rw [if_neg (show ¬ (-2 ^ 31 ≤ n ∧ n ≤ 2 ^ 31 - 1) from h32)]
    refine ⟨Heap.le_alloc hok _, Heap.ok_alloc hok _, rfl, ?_⟩
    rw [if_neg h32, if_pos hn]
    exact ⟨rfl, Heap.cells_alloc h _⟩

theorem returns_i32_zero {h : Heap} (hok : h.Ok) : Returns h 0 (h, i32 0) :=
  returns_intResult hok (by decide)

theorem returns_bigOrError {h : Heap} (hok : h.Ok) {sign : Int} {limb : List Nat}
    (hs : sign = 1 ∨ sign = -1) (hb : Below base limb) (hlead : NoLead limb)
    (hbig : ¬ FitsI64 (sign * (Nat.ofDigits base limb : Nat))) :
    Returns h (sign * (Nat.ofDigits base limb : Nat)) (bigOrError h sign limb) := by
  have hlen := hlead.length_le_iff one_lt_base hb maxLimbs
  have h32 : ¬ FitsI32 (sign * (Nat.ofDigits base limb : Nat)) := fun h32 => hbig h32.fitsI64
  rw [Returns, BigOk.natAbs hs, bound, bigOrError]
  by_cases hle : limb.length ≤ maxLimbs
  · rw [if_pos (hlen.mp hle), if_neg (by omega)]
    refine ⟨Heap.le_alloc hok _, Heap.ok_alloc hok _, rfl, ?_⟩
    rw [if_neg h32, if_neg hbig]
    refine ⟨rfl, sign, limb, Heap.cells_alloc h _, ⟨hs, ?_, hb, hlead, hle⟩, rfl⟩
    intro hnil
    rw [hnil] at hbig
    exact hbig (by simp [FitsI64])
  · rw [if_neg (fun hlt => hle (hlen.mpr hlt)), if_pos (by omega)]
    exact ⟨Heap.Le.refl h, hok, rfl⟩

theorem ofDigits_of_length_le_two {limb : List Nat} (hne : limb.length ≠ 0)
    (hlen : limb.length ≤ 2) :
    limb.getD 0 0 + (if limb.length = 2 then limb.getD 1 0 * 2 ^ 32 else 0) =
      Nat.ofDigits base limb := by
  match limb, hne, hlen with
  | [x], _, _ => simp [Nat.ofDigits_singleton]
  | [x, y], _, _ =>
    rw [Nat.ofDigits_cons, Nat.ofDigits_singleton, base]
    simp [Nat.mul_comm]

/-- **`jbig_canon`** returns the number its sign and limbs stand for. -/
theorem returns_canon {h : Heap} (hok : h.Ok) {sign : Int} {limb : List Nat}
    (hs : sign = 1 ∨ sign = -1) (hb : Below base limb) :
    Returns h (sign * (Nat.ofDigits base limb : Nat)) (canon h sign limb) := by
  have hbig := returns_bigOrError hok hs hb.trim (noLead_trim limb)
  rw [← ofDigits_trim]
  simp only [canon]
  by_cases h0 : (trim limb).length = 0
  · rw [if_pos h0, List.length_eq_zero_iff.mp h0, Nat.ofDigits_nil]
    simpa using returns_i32_zero hok
  · rw [if_neg h0]
    by_cases h2 : (trim limb).length ≤ 2
    · rw [if_pos h2, ofDigits_of_length_le_two h0 h2]
      -- one or two limbs: the sign and the two bounds of `int64_t` decide
      rcases hs with rfl | rfl
      · rw [Int.one_mul] at hbig ⊢
        by_cases hle : Nat.ofDigits base (trim limb) ≤ 2 ^ 63 - 1
        · rw [if_pos ⟨by decide, hle⟩]
          exact returns_intResult hok ⟨by omega, by omega⟩
        · rw [if_neg (fun hc => hle hc.2), if_neg (by simp), if_neg (by simp)]
          exact hbig fun hf => hle (by have := hf.2; omega)
      · rw [Int.neg_mul, Int.one_mul] at hbig ⊢
        rw [if_neg (by simp)]
        by_cases hmin : Nat.ofDigits base (trim limb) = 2 ^ 63
        · rw [if_pos ⟨by decide, hmin⟩, hmin]
          exact returns_intResult hok (by decide)
        · rw [if_neg (fun hc => hmin hc.2)]
          by_cases hle : Nat.ofDigits base (trim limb) ≤ 2 ^ 63 - 1
          · rw [if_pos ⟨by decide, hle⟩]
            exact returns_intResult hok ⟨by omega, by omega⟩
          · rw [if_neg (fun hc => hle hc.2)]
            exact hbig fun hf => hle (by have := hf.1; omega)
    · rw [if_neg h2]
      -- three limbs or more are at least `2 ^ 64`
      have hlen := (noLead_trim limb).length_le_iff one_lt_base hb.trim 2
      refine hbig fun hf => h2 (hlen.mpr ?_)
      have hbase : base ^ 2 = 2 ^ 64 := by decide
      obtain ⟨hlo, hhi⟩ := hf
      rcases hs with rfl | rfl <;> omega

/-! ### Reading operands -/

/-- What `jbig_read` gives for an integer. -/
structure Reads (sign : Int) (limb : List Nat) (n : Int) : Prop where
  sign_eq : sign = 1 ∨ sign = -1
  below : Below base limb
  length_le : limb.length ≤ maxLimbs
  value : n = sign * (Nat.ofDigits base limb : Nat)
  /-- Zero is the one limb list with a leading zero. -/
  lead : (sign = 1 ∧ limb = [0]) ∨ (limb ≠ [] ∧ NoLead limb)

theorem reads_int {x : Int} (hx : FitsI64 x) :
    ∃ limb, (if x.natAbs / base % base ≠ 0 then
        some ((if x < 0 then -1 else 1 : Int), [x.natAbs % base, x.natAbs / base % base])
      else some ((if x < 0 then -1 else 1 : Int), [x.natAbs % base])) =
        some ((if x < 0 then -1 else 1 : Int), limb) ∧
      Reads (if x < 0 then -1 else 1) limb x := by
  obtain ⟨hlo, hhi⟩ := hx
  have hsign : (if x < 0 then -1 else 1 : Int) = 1 ∨ (if x < 0 then -1 else 1 : Int) = -1 := by
    split <;> simp
  have hmod : x.natAbs % base < base := Nat.mod_lt _ (by decide)
  have htop : x.natAbs / base < base := by
    rw [base]
    omega
  have htop' := Nat.mod_eq_of_lt htop
  have hdiv := Nat.mod_add_div x.natAbs base
  have habs : x = (if x < 0 then -1 else 1 : Int) * (x.natAbs : Nat) := by
    split <;> omega
  rw [htop']
  by_cases hne : x.natAbs / base ≠ 0
  · rw [if_pos hne]
    refine ⟨_, rfl, hsign, ?_, by simp [maxLimbs], ?_, .inr ⟨by simp, ?_⟩⟩
    · exact below_cons hmod (below_cons htop fun y hy => absurd hy List.not_mem_nil)
    · rw [Nat.ofDigits_cons, Nat.ofDigits_singleton, hdiv]
      exact habs
    · intro y hy
      simp only [List.getLast?_cons_cons, List.getLast?_singleton, Option.mem_def,
        Option.some.injEq] at hy
      omega
  · rw [if_neg hne]
    have hval : x.natAbs % base = x.natAbs := by
      have : x.natAbs / base = 0 := not_not.mp hne
      rw [this] at hdiv
      omega
    rw [hval]
    refine ⟨_, rfl, hsign, ?_, by simp [maxLimbs], ?_, ?_⟩
    · exact below_cons (by omega) fun y hy => absurd hy List.not_mem_nil
    · rw [Nat.ofDigits_singleton]
      exact habs
    · by_cases hx0 : x = 0
      · exact .inl (by simp [hx0])
      · refine .inr ⟨by simp, fun y hy => ?_⟩
        simp only [List.getLast?_singleton, Option.mem_def, Option.some.injEq] at hy
        omega

/-- **`jbig_read`** on any representation. -/
theorem read_isInt {h : Heap} {v : JaclVal} {n : Int} (hv : IsInt h v n) :
    ∃ sign limb, BigInt.read h v = some (sign, limb) ∧ Reads sign limb n := by
  obtain ⟨-, ⟨ht, hn⟩ | ⟨ht, bits, hc, hn⟩ | ⟨ht, sign, limb, hc, hok, hn⟩⟩ := hv
  · subst hn
    obtain ⟨limb, heq, hr⟩ := reads_int (fitsI32_asI32 v).fitsI64
    refine ⟨_, limb, ?_, hr⟩
    simpa [BigInt.read, isBigint, intVal, isI32, ht] using heq
  · subst hn
    obtain ⟨limb, heq, hr⟩ := reads_int (fitsI64_toInt bits)
    refine ⟨_, limb, ?_, hr⟩
    simpa [BigInt.read, isBigint, intVal, isI32, wideBits, ht, hc] using heq
  · exact ⟨sign, limb, by simp [BigInt.read, isBigint, ht, hc], hok.sign_eq, hok.below, hok.length_le, hn,
      .inr ⟨hok.ne_nil, hok.noLead⟩⟩

/-! ### The operations on sign and magnitude -/

theorem Reads.natAbs {sign : Int} {limb : List Nat} {n : Int} (hr : Reads sign limb n) :
    n.natAbs = Nat.ofDigits base limb := by
  rw [hr.value, BigOk.natAbs hr.sign_eq]

theorem Reads.neg {sign : Int} {limb : List Nat} {n : Int} (hr : Reads sign limb n) :
    (-sign = 1 ∨ -sign = -1) ∧ -n = -sign * (Nat.ofDigits base limb : Nat) := by
  refine ⟨?_, by rw [hr.value, Int.neg_mul]⟩
  rcases hr.sign_eq with h | h <;> omega

/-- A shorter operand is not the larger one. -/
theorem Reads.length_le_of_le {siga sigb : Int} {la lb : List Nat} {x y : Int}
    (ha : Reads siga la x) (hb : Reads sigb lb y)
    (hle : Nat.ofDigits base lb ≤ Nat.ofDigits base la) : lb.length ≤ la.length := by
  by_contra hlt
  rcases hb.lead with ⟨-, rfl⟩ | ⟨-, hlead⟩
  · -- zero has one limb, and so has everything else at least
    rcases ha.lead with ⟨-, rfl⟩ | ⟨hne, -⟩
    · simp at hlt
    · exact hne (List.length_eq_zero_iff.mp (by simp only [List.length_singleton] at hlt; omega))
  · have := hlead.lt_of_length_lt one_lt_base ha.below (by omega)
    omega

/-- `jbig_addsub` after the operands are read. -/
theorem returns_addsub_of_reads {h : Heap} (hok : h.Ok) {siga sigb : Int} {la lb : List Nat}
    {x y : Int} (ha : Reads siga la x) (hb : Reads sigb lb y) (negateB : Bool) {a b : JaclVal}
    (hra : BigInt.read h a = some (siga, la)) (hrb : BigInt.read h b = some (sigb, lb)) :
    ∃ r, addsub h a b negateB = some r ∧ Returns h (if negateB then x - y else x + y) r := by
  -- the sign of the second operand after the possible negation
  obtain ⟨sb, hsb, hsb1, hy⟩ : ∃ sb : Int, (if negateB then -sigb else sigb) = sb ∧
      (sb = 1 ∨ sb = -1) ∧
      (if negateB then x - y else x + y) = x + sb * (Nat.ofDigits base lb : Nat) := by
    cases negateB with
    | false => exact ⟨sigb, rfl, hb.sign_eq, by rw [hb.value]; rfl⟩
    | true =>
      obtain ⟨hs, hv⟩ := hb.neg
      exact ⟨-sigb, rfl, hs, by rw [← hv]; rfl⟩
  have hlen : ¬ (maxLimbs < la.length ∨ maxLimbs < lb.length) := by
    have := ha.length_le
    have := hb.length_le
    omega
  simp only [addsub, hra, hrb, Option.bind_eq_bind, Option.bind_some, hsb, if_neg hlen]
  rw [hy, ha.value]
  by_cases hsig : siga = sb
  · rw [if_pos hsig]
    obtain ⟨hval, hbelow⟩ := magAdd_spec ha.below hb.below
    refine ⟨_, rfl, ?_⟩
    have hret := returns_canon hok ha.sign_eq hbelow
    rw [hval, Nat.cast_add, Int.mul_add] at hret
    rwa [← hsig]
  · rw [if_neg hsig, magCmp_spec ha.below hb.below]
    have hopp : sb = -siga := by
      rcases ha.sign_eq with h1 | h1 <;> rcases hsb1 with h2 | h2 <;> omega
    -- the signs differ: the magnitudes are subtracted, smaller from larger
    rcases Nat.lt_trichotomy (Nat.ofDigits base la) (Nat.ofDigits base lb) with hlt | heq | hgt
    · rw [order_of_lt hlt, if_neg (by decide), if_neg (by decide)]
      obtain ⟨hval, hbelow⟩ := magSub_spec hb.below ha.below
        (hb.length_le_of_le ha hlt.le) hlt.le
      refine ⟨_, rfl, ?_⟩
      have hret := returns_canon hok hsb1 hbelow
      rw [hval, Nat.cast_sub hlt.le] at hret
      convert hret using 1
      rw [hopp]
      ring
    · rw [heq, order_self, if_pos rfl]
      refine ⟨_, rfl, ?_⟩
      rw [hopp, Int.neg_mul, Int.add_right_neg]
      exact returns_i32_zero hok
    · rw [order_of_gt hgt, if_neg (by decide), if_pos (by decide)]
      obtain ⟨hval, hbelow⟩ := magSub_spec ha.below hb.below
        (ha.length_le_of_le hb hgt.le) hgt.le
      refine ⟨_, rfl, ?_⟩
      have hret := returns_canon hok ha.sign_eq hbelow
      rw [hval, Nat.cast_sub hgt.le] at hret
      convert hret using 1
      rw [hopp]
      ring

/-- What the arithmetic asks of the operation on sign and magnitude. -/
def BigSpec (int : Int → Int → Int)
    (big : Heap → JaclVal → JaclVal → Option (Heap × JaclVal)) : Prop :=
  ∀ h a b x y, h.Ok → IsInt h a x → IsInt h b y →
    ∃ r, big h a b = some r ∧ Returns h (int x y) r

theorem bigAdd_spec : BigSpec (· + ·) bigAdd := by
  intro h a b x y hok ha hb
  obtain ⟨siga, la, hra, ha'⟩ := read_isInt ha
  obtain ⟨sigb, lb, hrb, hb'⟩ := read_isInt hb
  exact returns_addsub_of_reads hok ha' hb' false hra hrb

theorem bigSub_spec : BigSpec (· - ·) bigSub := by
  intro h a b x y hok ha hb
  obtain ⟨siga, la, hra, ha'⟩ := read_isInt ha
  obtain ⟨sigb, lb, hrb, hb'⟩ := read_isInt hb
  exact returns_addsub_of_reads hok ha' hb' true hra hrb

theorem bigMul_spec : BigSpec (· * ·) bigMul := by
  intro h a b x y hok ha hb
  obtain ⟨siga, la, hra, ha'⟩ := read_isInt ha
  obtain ⟨sigb, lb, hrb, hb'⟩ := read_isInt hb
  have hla := ha'.length_le
  have hlb := hb'.length_le
  obtain ⟨hval, hbelow⟩ := magMul_spec ha'.below hb'.below
  have hsign : siga * sigb = 1 ∨ siga * sigb = -1 := by
    rcases ha'.sign_eq with h1 | h1 <;> rcases hb'.sign_eq with h2 | h2 <;> simp [h1, h2]
  have hret := returns_canon hok hsign hbelow
  simp only [bigMul, hra, hrb, Option.bind_eq_bind, Option.bind_some]
  rw [if_neg (by omega), if_neg (by rw [scratch]; omega)]
  refine ⟨_, rfl, ?_⟩
  convert hret using 1
  rw [hval, ha'.value, hb'.value, Nat.cast_mul]
  ring

/-- The order of two integers as the comparisons return it. -/
def orderInt (x y : Int) : Int := if x < y then -1 else if y < x then 1 else 0

theorem orderInt_of_lt {x y : Int} (h : x < y) : orderInt x y = -1 := if_pos h

theorem orderInt_of_gt {x y : Int} (h : y < x) : orderInt x y = 1 := by
  rw [orderInt, if_neg (by omega), if_pos h]

theorem orderInt_cast (x y : Nat) : orderInt x y = order x y := by
  simp only [orderInt, order, Nat.cast_lt]

theorem orderInt_neg (x y : Nat) : orderInt (-x) (-y) = -order x y := by
  rcases Nat.lt_trichotomy x y with hlt | rfl | hgt
  · rw [orderInt_of_gt (by omega), order_of_lt hlt, Int.neg_neg]
  · simp [orderInt, order]
  · rw [orderInt_of_lt (by omega), order_of_gt hgt]

/-- The test of `jacl_big_cmp` for zero. -/
theorem Reads.zero_iff {sign : Int} {limb : List Nat} {n : Int} (hr : Reads sign limb n) :
    limb = [0] ↔ Nat.ofDigits base limb = 0 := by
  constructor
  · intro h0
    rw [h0]
    rfl
  · intro h0
    rcases hr.lead with ⟨-, h⟩ | ⟨hne, hlead⟩
    · exact h
    · have := hlead.pow_le (b := base) hne
      have : 0 < base ^ (limb.length - 1) := Nat.pow_pos (by decide)
      omega

/-- **`jacl_big_cmp`** orders the integers. -/
theorem bigCmp_spec {h : Heap} {a b : JaclVal} {x y : Int} (ha : IsInt h a x) (hb : IsInt h b y) :
    bigCmp h a b = some (orderInt x y) := by
  obtain ⟨siga, la, hra, ha'⟩ := read_isInt ha
  obtain ⟨sigb, lb, hrb, hb'⟩ := read_isInt hb
  simp only [bigCmp, hra, hrb, Option.bind_eq_bind, Option.bind_some, ha'.zero_iff, hb'.zero_iff,
    magCmp_spec ha'.below hb'.below]
  rw [ha'.value, hb'.value]
  generalize Nat.ofDigits base la = m
  generalize Nat.ofDigits base lb = k
  by_cases hm : m = 0
  · by_cases hk : k = 0
    · rw [if_pos ⟨hm, hk⟩, hm, hk]
      simp [orderInt]
    · rw [if_neg (fun hc => hk hc.2), if_pos hm, hm]
      rcases hb'.sign_eq with rfl | rfl
      · rw [if_pos (by decide), orderInt_of_lt (by omega)]
      · rw [if_neg (by decide), orderInt_of_gt (by omega)]
  · rw [if_neg (fun hc => hm hc.1), if_neg hm]
    by_cases hk : k = 0
    · rw [if_pos hk, hk]
      rcases ha'.sign_eq with rfl | rfl
      · rw [if_pos (by decide), orderInt_of_gt (by omega)]
      · rw [if_neg (by decide), orderInt_of_lt (by omega)]
    · rw [if_neg hk]
      -- both are nonzero: the signs decide, and then the magnitudes
      rcases ha'.sign_eq with rfl | rfl <;> rcases hb'.sign_eq with rfl | rfl
      · rw [if_neg (by decide), if_pos (by decide), Int.one_mul, Int.one_mul, orderInt_cast]
      · rw [if_pos (by decide), if_neg (by decide), orderInt_of_gt (by omega)]
      · rw [if_pos (by decide), if_pos (by decide), orderInt_of_lt (by omega)]
      · rw [if_neg (by decide), if_neg (by decide), Int.neg_one_mul, Int.neg_one_mul, orderInt_neg]

/-! ### The three operations -/

theorem IsInt.anyint {h : Heap} {v : JaclVal} {n : Int} (hv : IsInt h v n) :
    v.isAnyint = true ∧ v.isAnyfloat = false ∧ v.isF64 = false := by
  obtain ⟨-, ⟨ht, -⟩ | ⟨ht, -⟩ | ⟨ht, -⟩⟩ := hv <;>
    simp [isAnyint, isI32, isIwide, isBigint, isAnyfloat, isF64, ht]

theorem IsInt.big {h : Heap} {v : JaclVal} {n : Int} (hv : IsInt h v n) (ht : v.type = 0x09) :
    ∃ sign limb, h.cells v.payload = some (.big sign limb) ∧ BigOk sign limb ∧
      n = sign * (Nat.ofDigits base limb : Nat) := by
  obtain ⟨-, ⟨ht', -⟩ | ⟨ht', -⟩ | ⟨-, hbig⟩⟩ := hv
  · omega
  · omega
  · exact hbig

/-- An integer that is no bigint has an `int64_t`. -/
theorem IsInt.intVal {h : Heap} {v : JaclVal} {n : Int} (hv : IsInt h v n)
    (hbig : v.isBigint = false) : BigInt.intVal h v = some n ∧ FitsI64 n := by
  obtain ⟨-, ⟨ht, hn⟩ | ⟨ht, bits, hc, hn⟩ | ⟨ht, -⟩⟩ := hv
  · subst hn
    exact ⟨by simp [BigInt.intVal, isI32, ht], (fitsI32_asI32 v).fitsI64⟩
  · subst hn
    exact ⟨by simp [BigInt.intVal, isI32, wideBits, ht, hc], fitsI64_toInt bits⟩
  · simp [isBigint, ht] at hbig

/-- Two integers that are not both inline and neither of which is a bigint. -/
theorem IsInt.widePair {h : Heap} {a b : JaclVal} {x y : Int} (ha : IsInt h a x) (hb : IsInt h b y)
    (h32 : (a.isI32 && b.isI32) = false) (hbig : bigPair a b = false) :
    Builtins.widePair a b = true ∧ a.isBigint = false ∧ b.isBigint = false := by
  have hia := ha.anyint.1
  have hib := hb.anyint.1
  simp only [bigPair, hia, hib, Bool.and_self, Bool.true_and, Bool.or_eq_false_iff] at hbig
  refine ⟨?_, hbig⟩
  simp only [Builtins.widePair, hia, hib, Bool.and_self, Bool.true_and]
  simp only [isAnyint, hbig.1, hbig.2, Bool.or_false, Bool.or_eq_true] at hia hib
  rcases hia with h1 | h1
  · rcases hib with h2 | h2
    · simp [h1, h2] at h32
    · simp [h2]
  · simp [h1]

theorem IsInt.asI32 {h : Heap} {v : JaclVal} {n : Int} (hv : IsInt h v n) (h32 : v.isI32 = true) :
    v.asI32 = n := by
  obtain ⟨-, ⟨-, hn⟩ | ⟨ht, -⟩ | ⟨ht, -⟩⟩ := hv
  · exact hn
  · simp [isI32, ht] at h32
  · simp [isI32, ht] at h32

/-- **One argument for the three operations**: an operation that takes 32-bit integers
to 64-bit ones, with a correct branch for sign and magnitude, is exact. -/
theorem arith_returns (op : ArithOp) (fl : FloatOps) (hbig : BigSpec op.int op.big)
    (hsmall : ∀ x y, FitsI32 x → FitsI32 y → FitsI64 (op.int x y)) {h : Heap} (hok : h.Ok)
    {a b : JaclVal} {x y : Int} (ha : IsInt h a x) (hb : IsInt h b y) :
    ∃ r, arith op fl h a b = some (withFlags r a b) ∧ Returns h (op.int x y) r := by
  obtain ⟨hia, hfa, h64a⟩ := ha.anyint
  obtain ⟨hib, hfb, h64b⟩ := hb.anyint
  have hf64 : f64Pair a b = false := by simp [f64Pair, h64a, h64b]
  rw [arith, ha.1, hb.1, if_neg (by decide), if_neg (by decide), hf64]
  by_cases h32 : (a.isI32 && b.isI32) = true
  · rw [if_pos h32]
    obtain ⟨h1, h2⟩ := Bool.and_eq_true_iff.mp h32
    have hx := ha.asI32 h1
    have hy := hb.asI32 h2
    have hfit : FitsI64 (op.int x y) :=
      hsmall _ _ (hx ▸ fitsI32_asI32 a) (hy ▸ fitsI32_asI32 b)
    rw [hx, hy]
    by_cases hr : FitsI32 (op.int x y)
    · rw [if_pos hr]
      refine ⟨_, rfl, ?_⟩
      have hret := returns_intResult hok hfit
      rwa [intResult, if_pos (show -2 ^ 31 ≤ op.int x y ∧ op.int x y ≤ 2 ^ 31 - 1 from hr)] at hret
    · rw [if_neg hr]
      exact ⟨_, rfl, returns_intResult hok hfit⟩
  · rw [if_neg h32, if_neg (by decide)]
    by_cases hbp : bigPair a b = true
    · obtain ⟨r, heq, hret⟩ := hbig h a b x y hok ha hb
      rw [if_pos hbp, heq]
      exact ⟨r, rfl, hret⟩
    · obtain ⟨hwp, hba, hbb⟩ := ha.widePair hb (by simpa using h32) (by simpa using hbp)
      obtain ⟨hva, -⟩ := ha.intVal hba
      obtain ⟨hvb, -⟩ := hb.intVal hbb
      rw [if_neg hbp, if_pos hwp, wideOp, hva, hvb]
      simp only [Option.bind_eq_bind, Option.bind_some]
      by_cases hfit : FitsI64 (op.int x y)
      · rw [if_pos hfit]
        exact ⟨_, rfl, returns_intResult hok hfit⟩
      · obtain ⟨r, heq, hret⟩ := hbig h a b x y hok ha hb
        rw [if_neg hfit, heq]
        exact ⟨r, rfl, hret⟩

theorem fitsI64_mul {x y : Int} (hx : FitsI32 x) (hy : FitsI32 y) : FitsI64 (x * y) := by
  obtain ⟨hxl, hxh⟩ := hx
  obtain ⟨hyl, hyh⟩ := hy
  have habs : (x * y).natAbs ≤ 2 ^ 31 * 2 ^ 31 := by
    rw [Int.natAbs_mul]
    exact Nat.mul_le_mul (by omega) (by omega)
  rw [FitsI64]
  omega

/-! ### The comparisons -/

theorem compareWith_spec (fl : FloatOps) (f64 : BitVec 64 → BitVec 64 → Bool)
    {int : Int → Int → Bool} (hint : ∀ x y, int (orderInt x y) 0 = int x y) {h : Heap}
    {a b : JaclVal} {x y : Int} (ha : IsInt h a x) (hb : IsInt h b y) :
    compareWith int f64 fl h a b = some ((bool (int x y)).propFlags a b) := by
  rw [compareWith, ha.1, hb.1, if_neg (by decide), if_neg (by decide)]
  by_cases h32 : (a.isI32 && b.isI32) = true
  · rw [if_pos h32]
    obtain ⟨h1, h2⟩ := Bool.and_eq_true_iff.mp h32
    rw [ha.asI32 h1, hb.asI32 h2]
  · rw [if_neg h32]
    by_cases hbp : bigPair a b = true
    · rw [if_pos hbp, bigCmp_spec ha hb]
      simp only [Option.bind_eq_bind, Option.bind_some, hint]
    · obtain ⟨hwp, hba, hbb⟩ := ha.widePair hb (by simpa using h32) (by simpa using hbp)
      rw [if_neg hbp, if_pos hwp, (ha.intVal hba).1, (hb.intVal hbb).1]
      rfl

/-- The integer a word stands for is read from its type and payload. -/
theorem IsInt.unique {h : Heap} {a b : JaclVal} {x y : Int} (ha : IsInt h a x) (hb : IsInt h b y)
    (ht : a.type = b.type) (hp : a.payload = b.payload) : x = y := by
  obtain ⟨-, ⟨ta, hx⟩ | ⟨ta, bits, hc, hx⟩ | ⟨ta, sign, limb, hc, -, hx⟩⟩ := ha <;>
    obtain ⟨-, ⟨tb, hy⟩ | ⟨tb, bits', hc', hy⟩ | ⟨tb, sign', limb', hc', -, hy⟩⟩ := hb <;>
    first | omega | skip
  · rw [← hx, ← hy, JaclVal.asI32, JaclVal.asI32, hp]
  · rw [hp, hc'] at hc
    cases hc
    rw [← hx, ← hy]
  · rw [hp, hc'] at hc
    cases hc
    rw [hx, hy]

/-- The comparison of two integers. -/
theorem numEqual_isInt (fl : FloatOps) {h : Heap} {a b : JaclVal} {x y : Int} (ha : IsInt h a x)
    (hb : IsInt h b y) : numEqual fl h a b = decide (x = y) := by
  obtain ⟨hia, -, -⟩ := ha.anyint
  obtain ⟨hib, -, -⟩ := hb.anyint
  rw [numEqual, if_pos (by simp [hia, hib])]
  by_cases hbp : (a.isBigint || b.isBigint) = true
  · rw [if_pos hbp, bigCmp_spec ha hb]
    rcases Int.lt_trichotomy x y with hlt | rfl | hgt
    · rw [orderInt_of_lt hlt, decide_eq_false (by omega)]
      rfl
    · simp [orderInt]
    · rw [orderInt_of_gt hgt, decide_eq_false (by omega)]
      rfl
  · obtain ⟨hba, hbb⟩ := Bool.or_eq_false_iff.mp
      (by simpa using hbp : (a.isBigint || b.isBigint) = false)
    rw [if_neg hbp, (ha.intVal hba).1, (hb.intVal hbb).1]
    rfl

/-- **`jacl_val_equal`** on two integers. -/
theorem valEqual_isInt (fl : FloatOps) (fuel : Nat) {h : Heap} {a b : JaclVal} {x y : Int}
    (ha : IsInt h a x) (hb : IsInt h b y) : valEqual fl h (fuel + 1) a b = decide (x = y) := by
  obtain ⟨hia, -, -⟩ := ha.anyint
  obtain ⟨hib, -, -⟩ := hb.anyint
  have hstr : (a.isString && b.isString) = false := by
    obtain ⟨-, ⟨ht, -⟩ | ⟨ht, -⟩ | ⟨ht, -⟩⟩ := ha <;> simp [isString, ht]
  rw [valEqual]
  by_cases hword : a.type = b.type ∧ a.payload = b.payload
  · rw [if_pos hword]
    exact (decide_eq_true (ha.unique hb hword.1 hword.2)).symm
  · rw [if_neg hword, hstr, if_neg (by decide), if_pos (by simp [hia, hib])]
    exact numEqual_isInt fl ha hb

theorem eq_spec (fl : FloatOps) (fuel : Nat) {h : Heap} {a b : JaclVal} {x y : Int}
    (ha : IsInt h a x) (hb : IsInt h b y) :
    eq fl (fuel + 1) h a b = (bool (decide (x = y))).propFlags a b := by
  rw [Builtins.eq, ha.1, hb.1, if_neg (by decide), if_neg (by decide)]
  by_cases h32 : a.type = b.type ∧ a.type = 0x02
  · rw [scalarEqual, if_neg (by simpa using h32.1), if_pos h32.2,
      ha.asI32 (by simp [isI32, h32.2]), hb.asI32 (by simp [isI32, ← h32.1, h32.2])]
    rfl
  · have hnone : scalarEqual a b = none := by
      rw [scalarEqual]
      by_cases ht : a.type = b.type
      · rw [if_neg (by simpa using ht), if_neg (fun h => h32 ⟨ht, h⟩), if_neg]
        obtain ⟨-, ⟨hta, -⟩ | ⟨hta, -⟩ | ⟨hta, -⟩⟩ := ha <;> omega
      · rw [if_pos ht]
    rw [hnone, valEqual_isInt fl fuel ha hb]

/-- **The dynamic integers are exact.**  For integers in any representation, the sum,
the difference and the product are returned in canonical form, or as an error exactly
when they are out of bound, and the comparisons decide the order of the integers. -/
theorem int_tower_exact (fl : FloatOps) (fuel : Nat) {h : Heap} (hok : h.Ok) {a b : JaclVal}
    {x y : Int} (ha : IsInt h a x) (hb : IsInt h b y) :
    (∃ r, add fl h a b = some r ∧ Returns h (x + y) r) ∧
    (∃ r, sub fl h a b = some r ∧ Returns h (x - y) r) ∧
    (∃ r, mul fl h a b = some r ∧ Returns h (x * y) r) ∧
    lt fl h a b = some ((bool (decide (x < y))).propFlags a b) ∧
    le fl h a b = some ((bool (decide (x ≤ y))).propFlags a b) ∧
    gt fl h a b = some ((bool (decide (x > y))).propFlags a b) ∧
    ge fl h a b = some ((bool (decide (x ≥ y))).propFlags a b) ∧
    eq fl (fuel + 1) h a b = (bool (decide (x = y))).propFlags a b := by
  refine ⟨?_, ?_, ?_, ?_, ?_, ?_, ?_, eq_spec fl fuel ha hb⟩
  · obtain ⟨r, hr, hret⟩ := arith_returns ⟨_, _, fl.addF64, fl.addF32⟩ fl bigAdd_spec
      (fun x y hx hy => by simp only [FitsI32, FitsI64] at *; omega) hok ha hb
    exact ⟨_, hr, hret.withFlags a b⟩
  · obtain ⟨r, hr, hret⟩ := arith_returns ⟨_, _, fl.subF64, fl.subF32⟩ fl bigSub_spec
      (fun x y hx hy => by simp only [FitsI32, FitsI64] at *; omega) hok ha hb
    exact ⟨_, hr, hret.withFlags a b⟩
  · obtain ⟨r, hr, hret⟩ := arith_returns ⟨_, _, fl.mulF64, fl.mulF32⟩ fl bigMul_spec
      (fun x y hx hy => fitsI64_mul hx hy) hok ha hb
    exact ⟨_, hr, hret.withFlags a b⟩
  all_goals
    refine compareWith_spec fl _ (fun x y => ?_) ha hb
    rw [orderInt]
    split
    · simp; omega
    · split <;> simp <;> omega

/-- A heap with the boxed integer `2 ^ 62` and the bigint `-2 ^ 64`. -/
def twoInts : Heap :=
  ⟨fun a => if a = 16 then some (.wide (BitVec.ofInt 64 (2 ^ 62))) else if a = 32 then some (.big (-1) [0, 0, 1])
    else none, 48⟩

theorem twoInts_ok : twoInts.Ok := by
  refine ⟨by decide, fun a ha => ?_⟩
  have h48 : 48 ≤ a := ha
  simp only [twoInts]
  rw [if_neg (by omega), if_neg (by omega)]

theorem twoInts_wide : IsInt twoInts (plain 0x0E 16) (2 ^ 62) :=
  ⟨rfl, .inr (.inl ⟨rfl, _, rfl, toInt_ofInt_i64 (by decide)⟩)⟩

theorem twoInts_big : IsInt twoInts (plain 0x09 32) (-2 ^ 64) :=
  ⟨rfl, .inr (.inr ⟨rfl, -1, [0, 0, 1], rfl,
    ⟨.inr rfl, by decide, by rw [Below]; decide, by intro x hx; cases hx; decide, by decide⟩, by decide⟩)⟩

theorem int_tower_exact_boxed_big :
    (∃ r, add .ieee twoInts (plain 0x0E 16) (plain 0x09 32) = some r ∧
      Returns twoInts (2 ^ 62 + -2 ^ 64) r) ∧
    lt .ieee twoInts (plain 0x0E 16) (plain 0x09 32) = some (bool false) := by
  obtain ⟨hadd, -, -, hlt, -⟩ := int_tower_exact .ieee 0 twoInts_ok twoInts_wide twoInts_big
  exact ⟨hadd, hlt⟩

end Jacl.Builtins
