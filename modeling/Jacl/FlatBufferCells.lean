import Jacl.FlatBuffers
import Jacl.NumericCasts
import Jacl.Ranges
import Jacl.Bytes

/-!
# The cells of flat buffers (`runtime/flatbuf.c`)

A store takes an integer from the value with `jacl_int_val`, or a `double` with `jacl_num_f64`, and
writes its low bytes; a load makes a dynamic number of the bytes.  `none` is a read of memory that
is no cell.  Where a cell is not one of the kinds that `jacl_int_val` is for, it reads the first
eight bytes of its payload.
-/

namespace Jacl.FlatBuf
open JaclVal BigInt Builtins Bytes RowMajor

/-- `jacl_int_val` of any value: an `int64_t` cell, or the header of a `JaclBig`, its sign and its
number of limbs. -/
def intBits (h : Heap) (v : JaclVal) : Option Int :=
  if v.isI32 then some v.asI32
  else
    match h.cells v.payload with
    | some (.wide bits) => some bits.toInt
    | some (.big sign limb) => some (long (sign % 2 ^ 32 + limb.length * 2 ^ 32))
    | _ => none

/-- The `n` bytes at `a` as a signed number. -/
def leSigned (m : Memory) (a n : Nat) : Int := (BitVec.ofNat (8 * n) (le m a n)).toInt

/-- `fb_load`. -/
def load (h : Heap) (m : Memory) (a : Nat) : Elem → Heap × JaclVal
  | .i8 => (h, i32 (leSigned m a 1))
  | .u8 => (h, i32 (le m a 1))
  | .i16 => (h, i32 (leSigned m a 2))
  | .u16 => (h, i32 (le m a 2))
  | .i32 => (h, i32 (leSigned m a 4))
  | .u32 => (h, i32 (le m a 4))
  | .i64 => wideNew h 0x0E (leSigned m a 8)
  | .u64 => u64Box h (.ofNat 64 (le m a 8))
  | .f32 => (h, plain 0x03 (le m a 4))
  | .f64 => wideNew h 0x10 (leSigned m a 8)

section Floats
variable (fl : FloatOps) (fc : FloatCasts)

/-- `fb_store`. -/
def store (h : Heap) (m : Memory) (a : Nat) (c : Elem) (v : JaclVal) : Option Memory :=
  match c with
  | .f32 => (numF64 fl h v).map fun x => putLe m a (fc.toF32 x).toNat 4
  | .f64 => (numF64 fl h v).map fun x => putLe m a x.toNat 8
  | c => (intBits h v).map fun x => putLe m a (x % 2 ^ 64).toNat c.size

/-- The address of element `i`. -/
def View.addr (b : View) (i : Int) : Nat := (b.blob + b.offset i).toNat

/-- The outer dimension. -/
def View.outer (b : View) : Int := b.dims.headD 0

/-- What an index gives: a value, or a view. -/
inductive Got
  | value (h : Heap) (v : JaclVal)
  | view (w : View)

/-- `jacl_fbuf_get`. -/
def get (h : Heap) (m : Memory) (b : View) (idx : JaclVal) : Got :=
  if idx.isI32 = false then .value h errorVal
  else if b.dims.length ≤ 1 then
    if idx.asI32 < 0 ∨ b.outer ≤ idx.asI32 then .value h nil
    else .value (load h m (b.addr idx.asI32) b.code).1 (load h m (b.addr idx.asI32) b.code).2
  else if idx.asI32 < 0 ∨ b.outer ≤ idx.asI32 then .value h errorVal
  else .view (b.subview idx.asI32)

/-- `jacl_fbuf_set`: the memory after it, and what it returns. -/
def set (h : Heap) (m : Memory) (b : View) (idx v : JaclVal) : Option (Memory × JaclVal) :=
  if idx.isI32 = false then some (m, errorVal)
  else if b.dims.length ≠ 1 then some (m, errorVal)
  else if idx.asI32 < 0 ∨ b.outer ≤ idx.asI32 then some (m, errorVal)
  else (store fl fc h m (b.addr idx.asI32) b.code v).map fun m' => (m', v)

end Floats

/-! ### Numbers in a cell -/

/-- A type of floats. -/
def Elem.isFloat : Elem → Bool
  | .f32 | .f64 => true
  | _ => false

/-- The number of the type that an integer wraps to. -/
def Elem.wrap (c : Elem) (n : Int) : Int :=
  match c with
  | .i8 | .i16 | .i32 | .i64 => (BitVec.ofInt (8 * c.size) n).toInt
  | _ => n % 2 ^ (8 * c.size)

/-- The range of a type of integers. -/
def Elem.Range (c : Elem) (n : Int) : Prop :=
  match c with
  | .i8 | .i16 | .i32 | .i64 => -2 ^ (8 * c.size - 1) ≤ n ∧ n < 2 ^ (8 * c.size - 1)
  | _ => 0 ≤ n ∧ n < 2 ^ (8 * c.size)

/-- **A number of the type is not wrapped.** -/
theorem Elem.wrap_of_range {c : Elem} {n : Int} (h : c.Range n) : c.wrap n = n := by
  cases c <;> obtain ⟨hlo, hhi⟩ := h <;> simp only [Elem.size] at hlo hhi <;>
    simp only [Elem.wrap, Elem.size, BitVec.toInt_ofInt, Int.bmod_def] <;> omega

/-- The value is a float. -/
def IsFloat (h : Heap) (v : JaclVal) : Prop :=
  v.type = 0x03 ∨ v.type = 0x10 ∧ ∃ bits, h.cells v.payload = some (.wide bits)

/-- The value is a number. -/
def IsNumber (h : Heap) (v : JaclVal) : Prop := IsFloat h v ∨ ∃ n, IsInt h v n

/-- The value in a cell of the type `c` is the number of `v`: an integer wrapped to the type, or the
float that C converts to. -/
def SameNumber (fl : FloatOps) (fc : FloatCasts) (h : Heap) (v : JaclVal) (c : Elem) (h' : Heap)
    (w : JaclVal) : Prop :=
  match c with
  | .f32 => IsNumber h v ∧ ∃ x, numF64 fl h v = some x ∧ w.type = 0x03 ∧ w.payload = (fc.toF32 x).toNat
  | .f64 => IsNumber h v ∧ ∃ x, numF64 fl h v = some x ∧ w.type = 0x10 ∧
      h'.cells w.payload = some (.wide x)
  | c => ∃ n, IsInt h v n ∧ IsInt h' w (c.wrap n)

/-- **What a set must do**: refuse the value and store nothing, or store it as a number; and either
way no other cell changes, through any view. -/
structure Sound (fl : FloatOps) (fc : FloatCasts) (h : Heap) (m : Memory) (b : View)
    (is : List Nat) (i : Nat) (v : JaclVal) (m' : Memory) (r : JaclVal) : Prop where
  cell : (r.error = true ∧ m' = m) ∨
    ∃ h' w, get h m' (b.descend is) (i32 i) = .value h' w ∧ SameNumber fl fc h v b.code h' w
  others : ∀ (js : List Nat) (j : Nat), InRange b.dims (js ++ [j]) → js.length + 1 = b.dims.length →
    js ++ [j] ≠ is ++ [i] →
      get h m' (b.descend js) (i32 j) = get h m (b.descend js) (i32 j)

/-- The header of a bigint, as one number, agrees with `n` in the width of the type. -/
def Heading (h : Heap) (c : Elem) (v : JaclVal) (n : Int) : Prop :=
  ∀ sign limb, v.type = 0x09 → h.cells v.payload = some (.big sign limb) →
    (sign % 2 ^ 32 + limb.length * 2 ^ 32) % 2 ^ (8 * c.size) = n % 2 ^ (8 * c.size)

/-- **When it does**: into a cell of floats any number, into one of integers an integer; of a bigint
the header has to agree with the number, and a `u32` has to be below `2 ^ 31`. -/
def Storable (h : Heap) (c : Elem) (v : JaclVal) : Prop :=
  if c.isFloat then IsNumber h v
  else ∃ n, IsInt h v n ∧ (c = .u32 → n % 2 ^ 32 < 2 ^ 31) ∧ Heading h c v n

variable {fl : FloatOps} {fc : FloatCasts} {h : Heap} {m m' : Memory} {b : View} {c : Elem} {v : JaclVal}
  {a i : Nat} {n : Int} {is : List Nat}

/-! ### Loads and stores -/

theorem isI32_i32 (x : Int) : ¬ (i32 x).isI32 = false := Bool.noConfusion

/-- The number that a load makes of the bytes; a `u32` goes through an `int32_t`. -/
def Elem.read (c : Elem) (x : Nat) : Int :=
  match c with
  | .u8 | .u16 | .u64 => x
  | c => (BitVec.ofNat (8 * c.size) x).toInt

theorem isInt_i32 {x : Int} (hx : Builtins.FitsI32 x) : IsInt h (i32 x) x :=
  ⟨rfl, .inl ⟨rfl, toInt_ofInt_i32 hx⟩⟩

theorem isInt_wideNew {x : Int} (hx : FitsI64 x) : IsInt (wideNew h 0x0E x).1 (wideNew h 0x0E x).2 x :=
  ⟨rfl, .inr (.inl ⟨rfl, _, Heap.cells_alloc h _, toInt_ofInt_i64 hx⟩)⟩

theorem fitsI32_toInt {w : Nat} (hw : w ≤ 32) (x : BitVec w) : Builtins.FitsI32 x.toInt := by
  have hpow : (2 : Int) ^ (w - 1) ≤ 2 ^ 31 := by
    have := Nat.pow_le_pow_right (n := 2) (by omega) (show w - 1 ≤ 31 by omega)
    exact_mod_cast this
  have h1 := x.toInt_lt
  have h2 := x.le_toInt
  exact ⟨by omega, by omega⟩

/-- **A load of an integer** gives the number that the bytes stand for. -/
theorem load_int (hok : h.Ok) (hc : c.isFloat = false) :
    IsInt (load h m a c).1 (load h m a c).2 (c.read (le m a c.size)) := by
  have hlt := @le_lt m a c.size
  cases c with
  | i8 | i16 | i32 => exact isInt_i32 (fitsI32_toInt (by decide) _)
  | u8 | u16 =>
    refine isInt_i32 ?_
    simp only [Elem.size] at hlt
    simp only [Builtins.FitsI32]
    omega
  | u32 =>
    refine ⟨rfl, .inl ⟨rfl, ?_⟩⟩
    show (BitVec.ofNat 32 ((le m a 4 : Int) % 2 ^ 32).toNat).toInt = (BitVec.ofNat 32 (le m a 4)).toInt
    congr 1
    simp only [Elem.size] at hlt
    rw [Int.emod_eq_of_lt (by omega) (by omega), Int.toNat_natCast]
  | i64 => exact isInt_wideNew (fitsI64_toInt _)
  | u64 =>
    obtain ⟨hv, -⟩ := u64Box_returns hok (BitVec.ofNat 64 (le m a 8))
    simp only [Elem.size] at hlt
    rw [BitVec.toNat_ofNat, Nat.mod_eq_of_lt hlt] at hv
    exact hv.isInt
  | f32 | f64 => cases hc

/-- The bytes that a store of an integer leaves, as a number. -/
theorem read_stored (hc : c.isFloat = false) (x : Int) :
    c.read ((x % 2 ^ 64).toNat % 2 ^ (8 * c.size)) =
      if c = .u32 then (BitVec.ofInt 32 x).toInt else c.wrap x := by
  cases c with
  | f32 | f64 => cases hc
  | u8 | u16 | u64 =>
    simp only [Elem.read, Elem.wrap, Elem.size, reduceCtorEq, if_false]
    omega
  | i8 | i16 | i32 | u32 | i64 =>
    simp only [Elem.read, Elem.wrap, Elem.size, reduceCtorEq, if_false, if_true, BitVec.toInt_ofInt]
    simp only [BitVec.toInt_eq_toNat_bmod, BitVec.toNat_ofNat, Int.bmod_def]
    omega

theorem wrap_eq_iff (hc : c.isFloat = false) {x y : Int} :
    c.wrap x = c.wrap y ↔ x % 2 ^ (8 * c.size) = y % 2 ^ (8 * c.size) := by
  cases c with
  | f32 | f64 => cases hc
  | u8 | u16 | u32 | u64 => exact Iff.rfl
  | i8 | i16 | i32 | i64 =>
    simp only [Elem.wrap, Elem.size, BitVec.toInt_ofInt, Int.bmod_def]
    omega

/-- `jacl_int_val` of an integer. -/
theorem intBits_isInt (hv : IsInt h v n) :
    ∃ x, intBits h v = some x ∧
      (x % 2 ^ (8 * c.size) = n % 2 ^ (8 * c.size) ↔ Heading h c v n) := by
  obtain ⟨-, ⟨ht, hn⟩ | ⟨ht, bits, hcell, hn⟩ | ⟨ht, sign, limb, hcell, -, -⟩⟩ := hv
  · refine ⟨n, by rw [intBits, if_pos (by rw [isI32, ht]; rfl), hn], iff_of_true rfl ?_⟩
    intro sign limb h9
    rw [ht] at h9
    cases h9
  · have h32 : ¬ v.isI32 = true := by rw [isI32, ht]; decide
    refine ⟨n, by rw [intBits, if_neg h32, hcell, ← hn], iff_of_true rfl ?_⟩
    intro sign limb h9
    rw [ht] at h9
    cases h9
  · have h32 : ¬ v.isI32 = true := by rw [isI32, ht]; decide
    refine ⟨_, by rw [intBits, if_neg h32, hcell], ?_⟩
    -- the width divides 64
    have hlong : ∀ x : Int, long x % 2 ^ (8 * c.size) = x % 2 ^ (8 * c.size) := by
      intro x
      have h64 := @long_emod x
      cases c <;> simp only [Elem.size] <;> omega
    rw [hlong]
    constructor
    · intro hmod sign' limb' _ hcell'
      rw [hcell] at hcell'
      cases hcell'
      exact hmod
    · intro hhead
      exact hhead sign limb ht hcell

/-- **The integer that is read back** is the one stored, wrapped, if and only if the header agrees
and a `u32` is below `2 ^ 31`. -/
theorem read_eq_wrap_iff (hc : c.isFloat = false) {x : Int} :
    c.read ((x % 2 ^ 64).toNat % 2 ^ (8 * c.size)) = c.wrap n ↔
      (c = .u32 → n % 2 ^ 32 < 2 ^ 31) ∧ x % 2 ^ (8 * c.size) = n % 2 ^ (8 * c.size) := by
  rw [read_stored hc]
  split
  · rename_i hu
    rw [hu]
    simp only [Elem.wrap, Elem.size, BitVec.toInt_ofInt, Int.bmod_def, true_implies]
    omega
  · rename_i hu
    rw [wrap_eq_iff hc]
    exact ⟨fun hmod => ⟨fun hu' => absurd hu' hu, hmod⟩, And.right⟩

/-- A number has a `double`. -/
theorem numF64_isSome (hv : IsNumber h v) : ∃ x, numF64 fl h v = some x := by
  obtain (ht | ⟨ht, bits, hcell⟩) | ⟨n, hint⟩ := hv
  · exact ⟨_, by rw [numF64, if_neg (by rw [isI32, ht]; decide), if_pos (by rw [ht]; rfl)]⟩
  · refine ⟨bits, ?_⟩
    rw [numF64, if_neg (by rw [isI32, ht]; decide), if_neg (by rw [ht]; decide),
      if_pos (by rw [isF64, ht]; rfl), hcell]
  · obtain ⟨-, ⟨ht, -⟩ | ⟨ht, bits, hcell, -⟩ | ⟨ht, sign, limb, hcell, -, -⟩⟩ := hint
    · exact ⟨_, by rw [numF64, if_pos (by rw [isI32, ht]; rfl)]⟩
    · refine ⟨fl.intToF64 bits.toInt, ?_⟩
      rw [numF64, if_neg (by rw [isI32, ht]; decide), if_neg (by rw [ht]; decide),
        if_neg (by rw [isF64, ht]; decide), if_neg (by rw [isBigint, ht]; decide), wideBits, hcell]
      rfl
    · refine ⟨fl.bigToF64 sign limb, ?_⟩
      rw [numF64, if_neg (by rw [isI32, ht]; decide), if_neg (by rw [ht]; decide),
        if_neg (by rw [isF64, ht]; decide), if_pos (by rw [isBigint, ht]; rfl), hcell]

/-- The store of an integer. -/
theorem store_int (hc : c.isFloat = false) :
    store fl fc h m a c v = (intBits h v).map fun x => putLe m a (x % 2 ^ 64).toNat c.size := by
  cases c <;> first | rfl | cases hc

theorem le_store {x : Nat} : le (putLe m a x c.size) a c.size = x % 2 ^ (8 * c.size) := le_putLe

/-- A store changes its cell only. -/
theorem store_outside (hs : store fl fc h m a c v = some m') {p : Nat} (hp : p < a ∨ a + c.size ≤ p) :
    m' p = m p := by
  cases c with
  | f32 | f64 =>
    obtain ⟨x, -, rfl⟩ := Option.map_eq_some_iff.mp hs
    exact putLe_of_outside hp
  | i8 | u8 | i16 | u16 | i32 | u32 | i64 | u64 =>
    obtain ⟨x, -, rfl⟩ := Option.map_eq_some_iff.mp hs
    exact putLe_of_outside hp

/-- A load depends on its cell only. -/
theorem load_congr (hs : SameOn m m' a (a + c.size)) : load h m' a c = load h m a c := by
  have hle := le_congr hs
  cases c <;> simp only [Elem.size] at hle <;> simp only [load, leSigned, hle]

/-- **The cell that was set** reads as the number that was stored. -/
theorem stored_iff (hok : h.Ok)
    (hs : store fl fc h m a c v = some m') :
    SameNumber fl fc h v c (load h m' a c).1 (load h m' a c).2 ↔ Storable h c v := by
  cases hc : c.isFloat with
  | false =>
    have hread : IsInt (load h m' a c).1 (load h m' a c).2 (c.read (le m' a c.size)) := load_int hok hc
    rw [store_int hc] at hs
    obtain ⟨x, hx, rfl⟩ := Option.map_eq_some_iff.mp hs
    rw [le_store] at hread
    have hsame : SameNumber fl fc h v c (load h (putLe m a (x % 2 ^ 64).toNat c.size) a c).1
          (load h (putLe m a (x % 2 ^ 64).toNat c.size) a c).2 ↔
        ∃ n, IsInt h v n ∧ IsInt (load h (putLe m a (x % 2 ^ 64).toNat c.size) a c).1
          (load h (putLe m a (x % 2 ^ 64).toNat c.size) a c).2 (c.wrap n) := by
      cases c <;> first | exact Iff.rfl | cases hc
    rw [hsame, Storable, hc, if_neg Bool.false_ne_true]
    refine exists_congr fun n => and_congr_right fun hv => ?_
    obtain ⟨x', hx', hhead⟩ := @intBits_isInt h c v n hv
    cases hx.symm.trans hx'
    rw [← hhead, ← read_eq_wrap_iff hc]
    constructor
    · intro hwrap
      exact hread.unique hwrap rfl rfl
    · intro heq
      rw [← heq]
      exact hread
  | true =>
    rw [Storable, hc, if_pos rfl]
    cases c with
    | i8 | u8 | i16 | u16 | i32 | u32 | i64 | u64 => cases hc
    | f32 =>
      obtain ⟨x, hx, rfl⟩ := Option.map_eq_some_iff.mp hs
      refine ⟨And.left, fun hv => ⟨hv, x, hx, rfl, ?_⟩⟩
      show le (putLe m a (fc.toF32 x).toNat 4) a 4 = _
      rw [le_putLe]
      exact Nat.mod_eq_of_lt (fc.toF32 x).isLt
    | f64 =>
      obtain ⟨x, hx, rfl⟩ := Option.map_eq_some_iff.mp hs
      refine ⟨And.left, fun hv => ⟨hv, x, hx, rfl, ?_⟩⟩
      show (h.alloc (.wide (BitVec.ofInt 64 (leSigned (putLe m a x.toNat 8) a 8)))).1.cells _ = _
      rw [leSigned, le_putLe, BitVec.ofInt_toInt, Nat.mod_eq_of_lt x.isLt, BitVec.ofNat_toNat,
        BitVec.setWidth_eq]
      exact Heap.cells_alloc h _

/-- What can be stored is a number. -/
theorem Storable.isNumber (hv : Storable h c v) : IsNumber h v := by
  rw [Storable] at hv
  split at hv
  · exact hv
  · obtain ⟨n, hn, -⟩ := hv
    exact .inr ⟨n, hn⟩

/-- A number is stored. -/
theorem store_isSome (hv : Storable h c v) : ∃ m', store fl fc h m a c v = some m' := by
  obtain ⟨x, hx⟩ := @numF64_isSome fl h v hv.isNumber
  cases hc : c.isFloat with
  | false =>
    rw [Storable, hc, if_neg Bool.false_ne_true] at hv
    obtain ⟨n, hn, -⟩ := hv
    obtain ⟨y, hy, -⟩ := @intBits_isInt h c v n hn
    exact ⟨_, by rw [store_int hc, hy, Option.map_some]⟩
  | true =>
    cases c with
    | i8 | u8 | i16 | u16 | i32 | u32 | i64 | u64 => cases hc
    | f32 | f64 => exact ⟨_, by rw [store, hx, Option.map_some]⟩

/-! ### The cells of a buffer -/

/-- A buffer whose views stay inside of it, with dimensions that are `int32_t`. -/
structure Buffer (b : View) : Prop where
  base : b.base = 0
  fits : Fits b.dims b.code.size
  dims_lt : ∀ d ∈ b.dims, d < 2 ^ 31

theorem buffer_of_alloc {nd : Int} {request : List Int} {blob bytes : Nat}
    (ha : allocNd c nd request blob = some (b, bytes)) (hreq : ∀ d ∈ request, Builtins.FitsI32 d)
    (hfits : Fits b.dims b.code.size) : Buffer b := by
  rw [allocNd] at ha
  split at ha
  · cases ha
  obtain ⟨hb, -⟩ := Prod.mk.inj (Option.some.inj ha)
  refine ⟨by rw [← hb], hfits, ?_⟩
  intro d hd
  rw [← hb] at hd
  obtain ⟨x, hx, rfl⟩ := List.mem_map.mp hd
  have := (hreq x (List.mem_of_mem_take hx)).2
  omega

namespace Buffer

/-- **A cell**: the view of its indices but the last has one dimension, and the element of it is
at the position of the indices. -/
theorem cell (hb : Buffer b) (his : InRange b.dims (is ++ [i])) (hlen : is.length + 1 = b.dims.length) :
    (b.descend is).dims.length = 1 ∧ (i32 i).asI32 = i ∧ (i : Int) < (b.descend is).outer ∧
      (b.descend is).code = b.code ∧
      (b.descend is).addr i = b.blob + position b.dims (is ++ [i]) * b.code.size := by
  obtain ⟨hcode, hblob, hdims, hbase⟩ := descend_spec hb.base (by omega : is.length ≤ b.dims.length)
  obtain ⟨d, rest, hdrop, hlt⟩ := his.last_lt
  have hd : d < 2 ^ 31 := hb.dims_lt d (List.mem_of_mem_drop (i := is.length) (by rw [hdrop]; exact List.mem_cons_self))
  have hstart := position_lt_of_fits hb.fits his.of_concat (by omega)
  refine ⟨?_, asI32_i32 ⟨by omega, by omega⟩, ?_, hcode, ?_⟩
  · rw [hdims, List.length_drop]
    omega
  · rw [View.outer, hdims, hdrop, List.headD_cons]
    omega
  · rw [View.addr, View.offset, hblob, hcode, hbase, int32_eq_iff.mpr ⟨by omega, by omega⟩,
      position_concat (by omega), hlen, List.drop_length, List.prod_nil, Nat.mul_one, ← Int.add_mul]
    norm_cast

theorem get_eq (hb : Buffer b) (his : InRange b.dims (is ++ [i])) (hlen : is.length + 1 = b.dims.length) :
    get h m (b.descend is) (i32 i) =
      .value (load h m (b.blob + position b.dims (is ++ [i]) * b.code.size) b.code).1
        (load h m (b.blob + position b.dims (is ++ [i]) * b.code.size) b.code).2 := by
  obtain ⟨hone, hidx, hlt, hcode, haddr⟩ := hb.cell his hlen
  rw [get, if_neg (isI32_i32 i), if_pos (Nat.le_of_eq hone), hidx, if_neg (by omega), haddr, hcode]

theorem set_eq (hb : Buffer b) (his : InRange b.dims (is ++ [i])) (hlen : is.length + 1 = b.dims.length) :
    set fl fc h m (b.descend is) (i32 i) v =
      (store fl fc h m (b.blob + position b.dims (is ++ [i]) * b.code.size) b.code v).map
        fun m' => (m', v) := by
  obtain ⟨hone, hidx, hlt, hcode, haddr⟩ := hb.cell his hlen
  rw [set, if_neg (isI32_i32 i), if_neg (not_not_intro hone), hidx, if_neg (by omega), haddr, hcode]

/-- **No other cell changes.** -/
theorem get_other (hb : Buffer b) (his : InRange b.dims (is ++ [i])) (hlen : is.length + 1 = b.dims.length)
    (hs : store fl fc h m (b.blob + position b.dims (is ++ [i]) * b.code.size) b.code v = some m')
    {js : List Nat} {j : Nat} (hjs : InRange b.dims (js ++ [j])) (hjlen : js.length + 1 = b.dims.length)
    (hne : js ++ [j] ≠ is ++ [i]) : get h m' (b.descend js) (i32 j) = get h m (b.descend js) (i32 j) := by
  have hlens : ∀ (ks : List Nat) (k : Nat), ks.length + 1 = b.dims.length →
      (ks ++ [k]).length = b.dims.length := by
    intro ks k hk
    rw [List.length_append, List.length_singleton, hk]
  have hpos : position b.dims (js ++ [j]) ≠ position b.dims (is ++ [i]) := fun heq =>
    hne (position_injective hjs his (hlens js j hjlen) (hlens is i hlen) heq)
  rw [hb.get_eq hjs hjlen, hb.get_eq hjs hjlen, load_congr]
  intro p hlo hhi
  refine store_outside hs ?_
  -- different elements of one size do not overlap
  rcases Nat.lt_or_gt_of_ne hpos with hlt | hgt
  · have := Nat.mul_le_mul_right b.code.size (Nat.succ_le_of_lt hlt)
    rw [Nat.succ_mul] at this
    omega
  · have := Nat.mul_le_mul_right b.code.size (Nat.succ_le_of_lt hgt)
    rw [Nat.succ_mul] at this
    omega

end Buffer

/-- A set that does what it must was of a value that can be stored. -/
theorem storable_of_sound {r : JaclVal} (hb : Buffer b) (hok : h.Ok) (his : InRange b.dims (is ++ [i]))
    (hlen : is.length + 1 = b.dims.length) (hv : v.error = false)
    (hset : set fl fc h m (b.descend is) (i32 i) v = some (m', r))
    (hsound : Sound fl fc h m b is i v m' r) : Storable h b.code v := by
  rw [hb.set_eq his hlen] at hset
  obtain ⟨m'', hs, heq⟩ := Option.map_eq_some_iff.mp hset
  cases heq
  obtain ⟨herr, -⟩ | ⟨h', w, hget, hsame⟩ := hsound.cell
  · rw [hv] at herr
    cases herr
  · rw [hb.get_eq his hlen] at hget
    cases hget
    exact (stored_iff hok hs).mp hsame

/-- **The cells of an allocated buffer.**  Every access of it lands in its blob, and a set of a
value, which is no error, into a cell does what it must, if and only if the buffer fits and the value
can be stored. -/
theorem sound_iff {nd : Int} {request : List Int} {blob bytes : Nat}
    (ha : allocNd c nd request blob = some (b, bytes)) (hreq : ∀ d ∈ request, Builtins.FitsI32 d)
    (hok : h.Ok) (his : InRange b.dims (is ++ [i])) (hlen : is.length + 1 = b.dims.length)
    (hv : v.error = false) :
    (Inside b bytes ∧ ∃ m' r, set fl fc h m (b.descend is) (i32 i) v = some (m', r) ∧
        Sound fl fc h m b is i v m' r) ↔
      Fits b.dims b.code.size ∧ Storable h b.code v := by
  rw [inside_iff_fits ha]
  refine and_congr_right fun hfits => ?_
  have hb := buffer_of_alloc ha hreq hfits
  constructor
  · rintro ⟨m', r, hset, hsound⟩
    exact storable_of_sound hb hok his hlen hv hset hsound
  · intro hst
    obtain ⟨m', hs⟩ := @store_isSome fl fc h m b.code v _ hst
    refine ⟨m', v, by rw [hb.set_eq his hlen, hs, Option.map_some],
      .inr ⟨_, _, hb.get_eq his hlen, ?_⟩, ?_⟩
    · exact (stored_iff hok hs).mpr hst
    · intro js j hjs hjlen hne
      exact hb.get_other his hlen hs hjs hjlen hne

/-- A heap with `2 ^ 32 - 1` as an `int64_t` cell. -/
def topInt : Heap := ⟨fun a => if a = 16 then some (.wide 4294967295) else none, 32⟩

theorem topInt_ok : topInt.Ok := by
  refine ⟨by decide, fun a ha => ?_⟩
  have h32 : 32 ≤ a := ha
  simp only [topInt]
  rw [if_neg (by omega)]

theorem topInt_wide : IsInt topInt (plain 0x0E 16) 4294967295 :=
  ⟨rfl, .inr (.inl ⟨rfl, _, rfl, rfl⟩)⟩

/-- `2 ^ 32 - 1` in a cell of 2 rows of 3 `i64`. -/
theorem sound_iff_top :
    Inside ⟨.i64, 0, 32, [2, 3]⟩ 56 ∧
      ∃ m' r, set .ieee ⟨fun _ => 0, fun _ => 0, fun _ => 0⟩ topInt (fun _ => 0)
          ((⟨.i64, 0, 32, [2, 3]⟩ : View).descend [1]) (i32 (2 : Nat)) (plain 0x0E 16) = some (m', r) ∧
        Sound .ieee ⟨fun _ => 0, fun _ => 0, fun _ => 0⟩ topInt (fun _ => 0) ⟨.i64, 0, 32, [2, 3]⟩ [1] 2
          (plain 0x0E 16) m' r := by
  have ha : allocNd .i64 2 [2, 3] 32 = some (⟨.i64, 0, 32, [2, 3]⟩, 56) := by decide
  have his : InRange [2, 3] ([1] ++ [2]) := ⟨by decide, by decide, trivial⟩
  refine (sound_iff ha (by decide) topInt_ok his rfl rfl).mpr ⟨by decide, ?_⟩
  refine ⟨_, topInt_wide, Elem.noConfusion, ?_⟩
  intro sign limb h9
  cases h9

/-- **A cell that reads as another number**: `2 ^ 32 - 1` in a `u32`. -/
theorem not_sound :
    allocNd .u32 1 [4] 32 = some (⟨.u32, 0, 32, [4]⟩, 24) ∧ Elem.u32.Range 4294967295 ∧
      IsInt topInt (plain 0x0E 16) 4294967295 ∧
      ¬ ∃ m' r, set .ieee ⟨fun _ => 0, fun _ => 0, fun _ => 0⟩ topInt (fun _ => 0)
          ((⟨.u32, 0, 32, [4]⟩ : View).descend []) (i32 (0 : Nat)) (plain 0x0E 16) = some (m', r) ∧
        Sound .ieee ⟨fun _ => 0, fun _ => 0, fun _ => 0⟩ topInt (fun _ => 0) ⟨.u32, 0, 32, [4]⟩ [] 0
          (plain 0x0E 16) m' r := by
  have ha : allocNd .u32 1 [4] 32 = some (⟨.u32, 0, 32, [4]⟩, 24) := by decide
  refine ⟨ha, ⟨by decide, by decide⟩, topInt_wide, ?_⟩
  have his : InRange [4] ([] ++ [0]) := ⟨by decide, trivial⟩
  rintro ⟨m', r, hset, hsound⟩
  obtain ⟨n, hn, hbelow, -⟩ := storable_of_sound (buffer_of_alloc ha (by decide) (by decide)) topInt_ok
    his rfl rfl hset hsound
  have heq := hn.unique topInt_wide rfl rfl
  rw [heq] at hbelow
  exact absurd (hbelow rfl) (by decide)

end Jacl.FlatBuf
