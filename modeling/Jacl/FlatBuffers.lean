import Jacl.HeapAlloc
import Jacl.RowMajor

/-!
# Flat buffers and their views (`runtime/flatbuf.c`)

A buffer is a blob of scalars in a row and a header: the element type, the first element of the
view, the blob and the dimensions.  An index into a buffer of more dimensions gives a view on the
same blob.  Sizes and strides are `long` and `int32_t`, which wrap; the blob is as large as the cell
that the allocator makes for the `uint32_t` that it is asked for.
-/

namespace Jacl.FlatBuf
open RowMajor

/-- `FB_MAX_DIMS`. -/
def maxDims : Nat := 6

/-- The element codes, 0 to 9. -/
inductive Elem
  | i8 | u8 | i16 | u16 | i32 | u32 | i64 | u64 | f32 | f64
  deriving DecidableEq, Repr

/-- `fb_esize`. -/
def Elem.size : Elem → Nat
  | .i8 | .u8 => 1
  | .i16 | .u16 => 2
  | .i32 | .u32 => 4
  | .i64 | .u64 => 8
  | .f32 => 4
  | .f64 => 8

/-- A `long`. -/
def long (x : Int) : Int := (BitVec.ofInt 64 x).toInt

/-- An `int32_t`. -/
def int32 (x : Int) : Int := (BitVec.ofInt 32 x).toInt

/-- A header, over the blob whose payload is at `blob`. -/
structure View where
  code : Elem
  base : Int
  blob : Nat
  dims : List Nat
  deriving DecidableEq, Repr

/-- The loop of a product. -/
def product (dims : List Nat) : Int := dims.foldl (fun (t : Int) (d : Nat) => long (t * d)) 1

/-- The bytes of the blob that the allocator makes for `size`. -/
def blobBytes (size : Int) : Nat := HeapAlloc.cellFor (size % 2 ^ 32).toNat - HeapAlloc.sizeofObj

/-- The rank that a requested one is brought to. -/
def rank (nd : Int) : Nat := if nd < 1 then 1 else if maxDims < nd then maxDims else nd.toNat

/-- `fb_alloc_nd`, with the bytes of the blob; a negative dimension counts as 0.  `none` is a read
past the array `dims`. -/
def allocNd (code : Elem) (nd : Int) (dims : List Int) (blob : Nat) : Option (View × Nat) :=
  if dims.length < rank nd then none
  else
    let shape := (dims.take (rank nd)).map Int.toNat
    some (⟨code, 0, blob, shape⟩, blobBytes (long (product shape * code.size)))

namespace View

/-- `fb_stride`. -/
def stride (b : View) : Int := product b.dims.tail

/-- `fb_subview`. -/
def subview (b : View) (i : Int) : View :=
  { b with base := int32 (b.base + int32 (i * int32 b.stride)), dims := b.dims.tail }

/-- The first byte of element `i`, from the start of the blob. -/
def offset (b : View) (i : Int) : Int := b.base * b.code.size + i * b.code.size

/-- The view of a chain of indices. -/
def descend (b : View) (is : List Nat) : View := is.foldl (fun (w : View) (i : Nat) => w.subview i) b

end View

/-! ### What the claims on the memory are -/

/-- The view that the indices `is` lead to covers its part of the buffer, inside of the blob. -/
structure Covers (v : View) (bytes : Nat) (is : List Nat) (w : View) : Prop where
  code : w.code = v.code
  blob : w.blob = v.blob
  dims : w.dims = v.dims.drop is.length
  base : w.base = position v.dims is
  inside : (position v.dims is + w.dims.prod) * v.code.size ≤ bytes

/-- **The views of a buffer stay inside of it**, and an element is at its row-major position. -/
structure Inside (v : View) (bytes : Nat) : Prop where
  holds : v.dims.prod * v.code.size ≤ bytes
  views : ∀ is, InRange v.dims is → is.length < v.dims.length → Covers v bytes is (v.descend is)
  elements : ∀ (is : List Nat) (i : Nat), InRange v.dims (is ++ [i]) → is.length + 1 = v.dims.length →
    (v.descend is).offset i = position v.dims (is ++ [i]) * v.code.size ∧
      (position v.dims (is ++ [i]) + 1) * v.code.size ≤ bytes

/-- The bytes of all elements with their cell's header and rounding are below `2 ^ 32`, and the
last row starts below `2 ^ 31`. -/
def Fits (dims : List Nat) (size : Nat) : Prop :=
  dims.prod * size + 23 < 2 ^ 32 ∧ dims.prod - dims.getLastD 0 < 2 ^ 31

instance (dims : List Nat) (size : Nat) : Decidable (Fits dims size) :=
  inferInstanceAs (Decidable (_ ∧ _))

/-! ### Arithmetic that wraps -/

variable {x y : Int} {v w : View} {dims is : List Nat} {bytes size i : Nat}

theorem Elem.size_pos (c : Elem) : 0 < c.size := by cases c <;> decide

theorem int32_eq_iff : int32 x = x ↔ -2 ^ 31 ≤ x ∧ x < 2 ^ 31 := by
  rw [int32, BitVec.toInt_ofInt, Int.bmod_def]
  omega

theorem int32_emod : int32 x % 2 ^ 32 = x % 2 ^ 32 := by
  rw [int32, BitVec.toInt_ofInt, Int.bmod_def]
  omega

theorem long_emod : long x % 2 ^ 64 = x % 2 ^ 64 := by
  rw [long, BitVec.toInt_ofInt, Int.bmod_def]
  omega

theorem long_emod_32 : long x % 2 ^ 32 = x % 2 ^ 32 := by
  have h := @long_emod x
  omega

theorem int32_congr (h : x % 2 ^ 32 = y % 2 ^ 32) : int32 x = int32 y := by
  rw [int32, int32, BitVec.toInt_ofInt, BitVec.toInt_ofInt, Int.bmod_def, Int.bmod_def]
  omega

/-- A product in a loop, modulo `2 ^ 32`. -/
theorem product_emod : product dims % 2 ^ 32 = (dims.prod : Int) % 2 ^ 32 := by
  have key : ∀ (dims : List Nat) (t : Int),
      dims.foldl (fun (t : Int) (d : Nat) => long (t * d)) t % 2 ^ 32 = t * (dims.prod : Int) % 2 ^ 32 := by
    intro dims
    induction dims with
    | nil => intro t; rw [List.foldl_nil, List.prod_nil, Int.natCast_one, Int.mul_one]
    | cons d dims ih =>
      intro t
      rw [List.foldl_cons, ih, Int.mul_emod, long_emod_32, ← Int.mul_emod, List.prod_cons,
        Int.natCast_mul, Int.mul_assoc]
  rw [product, key, Int.one_mul]

/-- **The blob** has room for the payload as long as the cell's size does not wrap. -/
theorem le_blobBytes_iff (h : x % 2 ^ 32 = (size : Int) % 2 ^ 32) :
    size ≤ blobBytes x ↔ size + 23 < 2 ^ 32 := by
  have hx : (x % 2 ^ 32).toNat = size % 2 ^ 32 := by
    rw [h]
    omega
  rw [blobBytes, hx, HeapAlloc.cellFor, HeapAlloc.roundGranule, HeapAlloc.u32, HeapAlloc.u32,
    HeapAlloc.sizeofObj_eq, HeapAlloc.granule_eq]
  omega

/-! ### Views -/

theorem descend_concat : v.descend (is ++ [i]) = (v.descend is).subview i :=
  List.foldl_concat (fun (w : View) (i : Nat) => w.subview i) v i is

/-- **A view starts at the position of its indices**, modulo `2 ^ 32`. -/
theorem descend_spec (hv : v.base = 0) (h : is.length ≤ v.dims.length) :
    (v.descend is).code = v.code ∧ (v.descend is).blob = v.blob ∧
      (v.descend is).dims = v.dims.drop is.length ∧
      (v.descend is).base = int32 (position v.dims is) := by
  induction is using List.reverseRecOn with
  | nil => exact ⟨rfl, rfl, rfl, by rw [position_nil]; exact hv⟩
  | append_singleton is i ih =>
    rw [List.length_append, List.length_singleton] at h
    obtain ⟨hcode, hblob, hdims, hbase⟩ := ih (by omega)
    have htail : (v.descend is).dims.tail = v.dims.drop (is.length + 1) := by
      rw [hdims, List.tail_drop]
    refine ⟨by rw [descend_concat]; exact hcode, by rw [descend_concat]; exact hblob, ?_, ?_⟩
    · rw [descend_concat, View.subview, htail, List.length_append, List.length_singleton]
    · rw [descend_concat, View.subview, View.stride, htail, position_concat (by omega)]
      dsimp only
      refine int32_congr ?_
      rw [Int.add_emod, int32_emod, Int.mul_emod (i : Int), int32_emod, product_emod, ← Int.mul_emod,
        ← Int.add_emod, hbase, Int.add_emod, int32_emod, ← Int.add_emod, Int.natCast_add, Int.natCast_mul]

/-- The rows of a buffer that fits start below `2 ^ 31`. -/
theorem position_lt_of_fits (hfits : Fits dims size) (his : InRange dims is)
    (hlen : is.length < dims.length) : position dims is < 2 ^ 31 := by
  have hle := position_add_le his
  by_cases hpos : ∀ d ∈ dims, 0 < d
  · have hrow := getLastD_le_prod hlen hpos
    have := hfits.2
    omega
  · have hzero : dims.prod = 0 := by
      rw [List.prod_eq_zero_iff]
      by_contra hmem
      exact hpos fun d hd => Nat.pos_of_ne_zero fun h0 => hmem (h0 ▸ hd)
    omega

theorem covers_of_fits (hv : v.base = 0) (hfits : Fits v.dims v.code.size)
    (hbytes : v.dims.prod * v.code.size ≤ bytes) (his : InRange v.dims is)
    (hlen : is.length < v.dims.length) : Covers v bytes is (v.descend is) := by
  obtain ⟨hcode, hblob, hdims, hbase⟩ := descend_spec hv (Nat.le_of_lt hlen)
  have hlt := position_lt_of_fits hfits his hlen
  have hle := position_add_le his
  refine ⟨hcode, hblob, hdims, ?_, ?_⟩
  · rw [hbase, int32_eq_iff]
    omega
  · rw [hdims]
    exact Nat.le_trans (Nat.mul_le_mul_right _ hle) hbytes

/-- **When the views of an allocated buffer stay inside of it.** -/
theorem inside_iff_fits {code : Elem} {nd : Int} {request : List Int} {blob : Nat}
    (h : allocNd code nd request blob = some (v, bytes)) : Inside v bytes ↔ Fits v.dims v.code.size := by
  rw [allocNd] at h
  split at h
  · cases h
  rename_i hlong
  obtain ⟨hv, hbytes⟩ := Prod.mk.inj (Option.some.inj h)
  have hbase : v.base = 0 := by rw [← hv]
  have hroom : v.dims.prod * v.code.size ≤ bytes ↔ v.dims.prod * v.code.size + 23 < 2 ^ 32 := by
    rw [← hbytes, ← hv]
    refine le_blobBytes_iff ?_
    rw [long_emod_32, Int.mul_emod, product_emod, ← Int.mul_emod, Int.natCast_mul]
  constructor
  · intro hin
    refine ⟨hroom.mp hin.holds, ?_⟩
    by_cases hpos : ∀ d ∈ v.dims, 0 < d
    · -- the last row, whose start wraps if it is not below 2 ^ 31
      have hrank : 0 < rank nd := by
        rw [rank, maxDims]
        split_ifs <;> omega
      have hne : v.dims ≠ [] := by
        rw [← hv, Ne, List.map_eq_nil_iff, List.take_eq_nil_iff]
        rintro (h0 | h0)
        · omega
        · rw [h0, List.length_nil] at hlong
          omega
      obtain ⟨is, his, hlen, hrow⟩ := exists_last_row hne hpos
      have hcovers := hin.views is his (by omega)
      have hlast := (descend_spec hbase (by omega : is.length ≤ v.dims.length)).2.2.2
      have hsmall := (int32_eq_iff.mp (hlast.symm.trans hcovers.base)).2
      omega
    · have hzero : v.dims.prod = 0 := by
        rw [List.prod_eq_zero_iff]
        by_contra hmem
        exact hpos fun d hd => Nat.pos_of_ne_zero fun h0 => hmem (h0 ▸ hd)
      omega
  · intro hfits
    have hall := hroom.mpr hfits.1
    refine ⟨hall, fun is his hlen => covers_of_fits hbase hfits hall his hlen, fun is i his hlen => ?_⟩
    have hcovers := covers_of_fits hbase hfits hall his.of_concat (by omega)
    have hlt := position_lt his (by rw [List.length_append, List.length_singleton, hlen])
    refine ⟨?_, Nat.le_trans (Nat.mul_le_mul_right _ hlt) hall⟩
    rw [View.offset, hcovers.base, hcovers.code, position_concat (by omega), hlen, List.drop_length,
      List.prod_nil, Nat.mul_one, ← Int.add_mul, Int.natCast_add]

/-- **The accesses of an allocated buffer land in its blob** if and only if it fits. -/
theorem inside_iff {code : Elem} {nd : Int} {request : List Int} {blob : Nat}
    (h : allocNd code nd request blob = some (v, bytes)) : Inside v bytes ↔ Fits v.dims v.code.size :=
  inside_iff_fits h

/-- A buffer of 2 rows of 3 `u16`. -/
theorem inside_iff_small :
    allocNd .u16 2 [2, 3] 32 = some (⟨.u16, 0, 32, [2, 3]⟩, 24) ∧
      Inside ⟨.u16, 0, 32, [2, 3]⟩ 24 := by
  have halloc : allocNd .u16 2 [2, 3] 32 = some (⟨.u16, 0, 32, [2, 3]⟩, 24) := by decide
  exact ⟨halloc, (inside_iff halloc).mpr (by decide)⟩

/-- **A buffer larger than its blob**: 65536 rows of 65536 bytes are given 8. -/
theorem not_inside :
    allocNd .u8 2 [65536, 65536] 32 = some (⟨.u8, 0, 32, [65536, 65536]⟩, 8) ∧
      ¬ Inside ⟨.u8, 0, 32, [65536, 65536]⟩ 8 := by
  refine ⟨by decide, fun hin => absurd hin.holds ?_⟩
  decide

end Jacl.FlatBuf
