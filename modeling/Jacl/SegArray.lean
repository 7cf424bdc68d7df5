import Mathlib.Data.Nat.Log
import Mathlib.Tactic

/-!
# Segment arrays

`segment_array.h` keeps an array in segments that never move: segment `k` has
`64 · 2 ^ k` slots, so that `64 · 2 ^ k - 64` slots come before it.  An index is
located by the logarithm of `index / 64 + 1`; the place of the last element is also
kept in a cursor (`last_seg`, `last_seg_base`, `next_grow_at`), which `push`, `pop`
and `swap_remove` maintain.

A memory access outside of a segment, or of a slot that was never written, makes an
operation fail (`none`).  `Denotes` says that an array stands for a list; every
operation is that of the list (`push_spec`, `pop_spec`, `swapRemove_spec`,
`set_spec`).
-/

/-- `SA_T`.  The segments allocated so far, `used_segments` of them; a slot that was
not written yet is `none`. -/
structure Jacl.SegArray (α : Type) where
  count : Nat
  lastSeg : Int
  lastSegBase : Nat
  nextGrowAt : Nat
  segments : List (List (Option α))
deriving DecidableEq, Repr

namespace Jacl.SegArray

/-- A `uint32_t`. -/
def u32 (n : Nat) : Nat := n % 2 ^ 32

/-- `SA_MAX_SEGMENTS`. -/
def maxSegments : Nat := 26

/-- `SA_SMALL_SEGMENTS_SKIP`: the first segment has `2 ^ 6` slots. -/
def smallSegmentsSkip : Nat := 6

/-- `_slots_in_segment`. -/
def slotsInSegment (segment_index : Nat) : Nat :=
  u32 (u32 (1 <<< smallSegmentsSkip) <<< segment_index)

/-- `_capacity_for_segments`. -/
def capacityForSegments (segment_count : Nat) : Nat :=
  u32 (u32 (u32 (1 <<< smallSegmentsSkip) <<< segment_count) + 2 ^ 32 - u32 (1 <<< smallSegmentsSkip))

/-- A pointer to an element: a segment and a slot in it. -/
structure Place where
  seg : Nat
  slot : Nat
deriving DecidableEq, Repr

/-- The place `SA_GET` computes for an index. -/
def locate (index : Nat) : Place :=
  let segment := Nat.log2 (u32 (index >>> smallSegmentsSkip + 1))
  ⟨segment, u32 (index + 2 ^ 32 - capacityForSegments segment)⟩

variable {α : Type}

/-- `SA_CREATE`. -/
def create : SegArray α := ⟨0, -1, 0, 0, []⟩

def usedSegments (sa : SegArray α) : Nat := sa.segments.length

/-- The element at a place. -/
def load (sa : SegArray α) (p : Place) : Option α := do
  let block ← sa.segments[p.seg]?
  let cell ← block[p.slot]?
  cell

/-- The array with `value` at a place. -/
def put (sa : SegArray α) (p : Place) (value : α) : Option (SegArray α) := do
  let block ← sa.segments[p.seg]?
  if p.slot < block.length then
    some { sa with segments := sa.segments.set p.seg (block.set p.slot (some value)) }
  else none

/-- The place of element `count - 1`, or of the next one, by the cursor. -/
def cursorPlace (sa : SegArray α) (i : Nat) : Option Place :=
  if 0 ≤ sa.lastSeg then some ⟨sa.lastSeg.toNat, u32 (i + 2 ^ 32 - sa.lastSegBase)⟩ else none

/-- `SA_GET`: `none` is `NULL`. -/
def get (sa : SegArray α) (index : Nat) : Option Place :=
  if index ≥ sa.count then none else some (locate index)

/-- `*SA_GET(sa, index)`. -/
def fetch (sa : SegArray α) (index : Nat) : Option α := do
  sa.load (← sa.get index)

/-- `*SA_GET(sa, index) = value`. -/
def store (sa : SegArray α) (index : Nat) (value : α) : Option (SegArray α) := do
  sa.put (← sa.get index) value

/-- The part of `SA_PUSH` that moves the cursor on to the next segment; `granted` is
the allocator's answer.  The result is `none` when the push returns `NULL`. -/
def grow (granted : Bool) (sa : SegArray α) : Option (SegArray α) :=
  if sa.count ≥ sa.nextGrowAt then
    let next_seg := (sa.lastSeg + 1).toNat
    if next_seg ≥ usedSegments sa then
      if usedSegments sa ≥ maxSegments then none
      else if granted then
        some { sa with
          segments := sa.segments ++ [List.replicate (slotsInSegment next_seg) none]
          lastSegBase := sa.nextGrowAt
          lastSeg := next_seg
          nextGrowAt := u32 (sa.nextGrowAt + slotsInSegment next_seg) }
      else none
    else
      some { sa with
        lastSegBase := sa.nextGrowAt
        lastSeg := next_seg
        nextGrowAt := u32 (sa.nextGrowAt + slotsInSegment next_seg) }
  else some sa

/-- `SA_PUSH`, with the pointer it returns. -/
def push (granted : Bool) (value : α) (sa : SegArray α) : Option (SegArray α × Option Place) :=
  match sa.grow granted with
  | none => some (sa, none)
  | some sa => do
    let p ← cursorPlace sa sa.count
    let sa ← sa.put p value
    some ({ sa with count := u32 (sa.count + 1) }, some p)

/-- `SA_SET`, with the pointer it returns. -/
def set (index : Nat) (value : α) (sa : SegArray α) : Option (SegArray α × Option Place) :=
  match sa.get index with
  | none => some (sa, none)
  | some p => do
    let sa ← sa.put p value
    some (sa, some p)

/-- The end of `SA_POP` and of `SA_SWAP_REMOVE`: the count goes down by one, and the
cursor by one segment when the last one is left empty. -/
def dropLast (sa : SegArray α) : SegArray α :=
  let sa := { sa with count := u32 (sa.count + 2 ^ 32 - 1) }
  if sa.lastSeg > 0 ∧ sa.count = sa.lastSegBase then
    { sa with
      nextGrowAt := sa.lastSegBase
      lastSeg := sa.lastSeg - 1
      lastSegBase := capacityForSegments (sa.lastSeg - 1).toNat }
  else sa

/-- `SA_POP`, with the element it writes to `*out`; `none` for the return of -1. -/
def pop (sa : SegArray α) : Option (SegArray α × Option α) :=
  if sa.count = 0 then some (sa, none)
  else do
    let src ← cursorPlace sa (u32 (sa.count + 2 ^ 32 - 1))
    let value ← sa.load src
    some (dropLast sa, some value)

/-- `SA_SWAP_REMOVE`; `false` for the return of -1. -/
def swapRemove (index : Nat) (sa : SegArray α) : Option (SegArray α × Bool) :=
  if index ≥ sa.count then some (sa, false)
  else if index ≠ u32 (sa.count + 2 ^ 32 - 1) then do
    let src ← cursorPlace sa (u32 (sa.count + 2 ^ 32 - 1))
    let value ← sa.load src
    let sa ← store sa index value
    some (dropLast sa, true)
  else some (dropLast sa, true)

/-! ### Positions -/

theorem u32_of_lt {n : Nat} (h : n < 2 ^ 32) : u32 n = n := Nat.mod_eq_of_lt h

theorem u32_sub {a b : Nat} (ha : a < 2 ^ 32) (hba : b ≤ a) : u32 (a + 2 ^ 32 - b) = a - b := by
  unfold u32
  omega

theorem two_pow_le {k : Nat} (hk : k ≤ 25) : 2 ^ k ≤ 33554432 :=
  Nat.pow_le_pow_right (show 0 < 2 by decide) hk

theorem one_shift : u32 (1 <<< smallSegmentsSkip) = 64 := by decide

theorem slotsInSegment_eq {k : Nat} (hk : k ≤ 25) : slotsInSegment k = 64 * 2 ^ k := by
  have hpow := two_pow_le hk
  rw [slotsInSegment, one_shift, Nat.shiftLeft_eq, u32_of_lt (by omega)]

theorem capacityForSegments_eq {k : Nat} (hk : k ≤ 25) :
    capacityForSegments k = 64 * 2 ^ k - 64 := by
  have hpow := two_pow_le hk
  have hpos := Nat.one_le_two_pow (n := k)
  rw [capacityForSegments, one_shift, Nat.shiftLeft_eq, u32_of_lt (n := 64 * 2 ^ k) (by omega),
    u32_sub (by omega) (by omega)]

/-- The number of slots of all segments. -/
def capacity : Nat := 2 ^ 32 - 64

theorem locate_eq {k t : Nat} (hk : k ≤ 25) (ht : t < 64 * 2 ^ k) :
    locate (64 * 2 ^ k - 64 + t) = ⟨k, t⟩ := by
  have hpow := two_pow_le hk
  have hpos := Nat.one_le_two_pow (n := k)
  have hquot : (64 * 2 ^ k - 64 + t) >>> smallSegmentsSkip = (64 * 2 ^ k - 64 + t) / 64 := by
    rw [Nat.shiftRight_eq_div_pow]
    rfl
  have hlog : Nat.log2 (u32 ((64 * 2 ^ k - 64 + t) / 64 + 1)) = k := by
    rw [u32_of_lt (by omega), Nat.log2_eq_log_two]
    apply Nat.log_eq_of_pow_le_of_lt_pow
    · omega
    · rw [Nat.pow_succ]
      omega
  rw [locate, hquot]
  simp only [hlog]
  rw [capacityForSegments_eq hk, u32_sub (by omega) (by omega)]
  congr 1
  omega

/-- Every index below the capacity has its slot. -/
theorem exists_slot {i : Nat} (hi : i < capacity) :
    ∃ k t, k ≤ 25 ∧ t < 64 * 2 ^ k ∧ i = 64 * 2 ^ k - 64 + t := by
  unfold capacity at hi
  have hlow := Nat.pow_log_le_self 2 (x := i / 64 + 1) (by omega)
  have hhigh := Nat.lt_pow_succ_log_self (b := 2) (by decide) (i / 64 + 1)
  rw [Nat.pow_succ] at hhigh
  have hk : Nat.log 2 (i / 64 + 1) ≤ 25 := by
    apply Nat.le_of_lt_succ
    apply Nat.log_lt_of_lt_pow (by omega)
    show i / 64 + 1 < 67108864
    omega
  generalize Nat.log 2 (i / 64 + 1) = k at hlow hhigh hk
  have hpos := Nat.one_le_two_pow (n := k)
  exact ⟨k, i - (64 * 2 ^ k - 64), hk, by omega, by omega⟩

theorem locate_inj {i j : Nat} (hi : i < capacity) (hj : j < capacity) (h : locate i = locate j) :
    i = j := by
  obtain ⟨k, t, hk, ht, rfl⟩ := exists_slot hi
  obtain ⟨l, u, hl, hu, rfl⟩ := exists_slot hj
  rw [locate_eq hk ht, locate_eq hl hu] at h
  obtain ⟨rfl, rfl⟩ := Place.mk.inj h
  rfl

/-! ### The invariant -/

/-- The cursor stands at the segment the count computes: the one of the last
element, or the first one while there is none. -/
def CursorOk (sa : SegArray α) : Prop :=
  (sa.lastSeg = -1 ∧ sa.count = 0 ∧ sa.lastSegBase = 0 ∧ sa.nextGrowAt = 0) ∨
  ∃ k : Nat, sa.lastSeg = k ∧ k < sa.segments.length ∧ sa.lastSegBase = 64 * 2 ^ k - 64 ∧
    sa.nextGrowAt = 64 * 2 ^ (k + 1) - 64 ∧ sa.lastSegBase ≤ sa.count ∧
    sa.count ≤ sa.nextGrowAt ∧ (sa.count = sa.lastSegBase → k = 0)

/-- Segment `k` has `64 · 2 ^ k` slots, and there are no more segments than the table
has entries. -/
structure Blocks (segments : List (List (Option α))) : Prop where
  used : segments.length ≤ 26
  size : ∀ k block, segments[k]? = some block → block.length = 64 * 2 ^ k

/-- The array stands for the list `xs`. -/
structure Denotes (sa : SegArray α) (xs : List α) : Prop where
  count : sa.count = xs.length
  cursor : CursorOk sa
  blocks : Blocks sa.segments
  cells : ∀ i x, xs[i]? = some x → load sa (locate i) = some x

theorem denotes_create : Denotes (create : SegArray α) [] where
  count := rfl
  cursor := .inl ⟨rfl, rfl, rfl, rfl⟩
  blocks := ⟨Nat.zero_le _, by simp [create]⟩
  cells := by simp

variable {sa sa' : SegArray α} {xs : List α}

theorem CursorOk.count_le (hc : CursorOk sa) (hb : Blocks sa.segments) : sa.count ≤ capacity := by
  unfold capacity
  rcases hc with ⟨-, h0, -⟩ | ⟨k, -, hk, -, hgrow, -, hle, -⟩
  · omega
  · have hpow := two_pow_le (k := k) (by have := hb.used; omega)
    rw [Nat.pow_succ] at hgrow
    omega

theorem Denotes.length_le (hd : Denotes sa xs) : xs.length ≤ capacity := by
  rw [← hd.count]
  exact hd.cursor.count_le hd.blocks

/-- The slot of an element lies in an allocated segment. -/
theorem Denotes.slot (hd : Denotes sa xs) {i : Nat} (hi : i < xs.length) :
    (locate i).seg < sa.segments.length ∧ (locate i).slot < 64 * 2 ^ (locate i).seg := by
  have hcap := hd.length_le
  obtain ⟨k, t, hk, ht, rfl⟩ := exists_slot (i := i) (by omega)
  rw [locate_eq hk ht]
  refine ⟨show k < _ from ?_, ht⟩
  rw [← hd.count] at hi
  rcases hd.cursor with ⟨-, h0, -⟩ | ⟨last, -, hlast, -, hgrow, -, hle, -⟩
  · omega
  · by_contra hge
    have hpow : 2 ^ (last + 1) ≤ 2 ^ k := Nat.pow_le_pow_right (show 0 < 2 by decide) (by omega)
    rw [Nat.pow_succ] at hpow hgrow
    omega

theorem cursorPlace_eq {k i : Nat} (hseg : sa.lastSeg = k) (hk : k ≤ 25)
    (hbase : sa.lastSegBase = 64 * 2 ^ k - 64) (hlow : sa.lastSegBase ≤ i)
    (hhigh : i < 64 * 2 ^ (k + 1) - 64) : cursorPlace sa i = some (locate i) := by
  have hpow := two_pow_le hk
  have hpos := Nat.one_le_two_pow (n := k)
  rw [Nat.pow_succ] at hhigh
  obtain ⟨t, ht⟩ := Nat.exists_eq_add_of_le (hbase ▸ hlow)
  rw [cursorPlace, if_pos (by omega), u32_sub (by omega) hlow, ht, locate_eq hk (by omega), hseg,
    hbase]
  congr 2
  omega

/-! ### Memory -/

theorem put_spec {p : Place} (hb : Blocks sa.segments) (hseg : p.seg < sa.segments.length)
    (hslot : p.slot < 64 * 2 ^ p.seg) (value : α) :
    ∃ segs, sa.put p value = some { sa with segments := segs } ∧
      segs.length = sa.segments.length ∧ Blocks segs ∧
      ∀ q, load { sa with segments := segs } q = if q = p then some value else load sa q := by
  have hblock := hb.size p.seg _ (List.getElem?_eq_getElem hseg)
  refine ⟨sa.segments.set p.seg (sa.segments[p.seg].set p.slot (some value)), ?_, ?_, ?_, ?_⟩
  · rw [put, List.getElem?_eq_getElem hseg]
    exact if_pos (hblock ▸ hslot)
  · exact List.length_set
  · refine ⟨by rw [List.length_set]; exact hb.used, fun k block hk => ?_⟩
    rw [List.getElem?_set] at hk
    split at hk
    · rename_i hpk
      rw [← Option.some.inj hk, List.length_set, hblock, hpk]
    · exact hb.size k block hk
  · intro q
    simp only [load, List.getElem?_set]
    split
    · rename_i hpq
      rw [← hpq, List.getElem?_eq_getElem hseg]
      show (Option.bind _ fun cell => cell) = _
      rw [List.getElem?_set]
      split
      · rename_i hs
        rw [if_pos (hblock ▸ hslot), if_pos (by cases p; cases q; simp_all)]
        rfl
      · rename_i hs
        rw [if_neg fun h => hs (by rw [h])]
        rfl
    · rename_i hpq
      rw [if_neg fun h => hpq (by rw [h])]

/-- Segments that are added change no element. -/
theorem load_append {p : Place} {x : α} (more : List (List (Option α))) (h : load sa p = some x) :
    load { sa with segments := sa.segments ++ more } p = some x := by
  obtain ⟨block, hblock, hcell⟩ := Option.bind_eq_some_iff.mp h
  have hlt := (List.getElem?_eq_some_iff.mp hblock).1
  show (Option.bind _ _) = _
  rw [List.getElem?_append_left hlt, hblock]
  exact hcell

/-! ### The operations -/

theorem Denotes.get (hd : Denotes sa xs) (i : Nat) :
    get sa i = if i < xs.length then some (locate i) else none := by
  rw [SegArray.get, hd.count]
  split
  · rw [if_neg (by omega)]
  · rw [if_pos (by omega)]

/-- **Reading** an index is reading the list. -/
theorem Denotes.fetch (hd : Denotes sa xs) (i : Nat) : fetch sa i = xs[i]? := by
  rw [SegArray.fetch, hd.get]
  split
  · rename_i hi
    rw [List.getElem?_eq_getElem hi]
    exact hd.cells i _ (List.getElem?_eq_getElem hi)
  · rename_i hi
    rw [List.getElem?_eq_none (by omega)]
    rfl

/-- A write to the slot of an element. -/
theorem Denotes.put (hd : Denotes sa xs) {i : Nat} (hi : i < xs.length) (value : α) :
    ∃ sa', sa.put (locate i) value = some sa' ∧ Denotes sa' (xs.set i value) := by
  obtain ⟨hseg, hslot⟩ := hd.slot hi
  obtain ⟨segs, hput, hlen, hblocks, hload⟩ := put_spec hd.blocks hseg hslot value
  refine ⟨_, hput, ⟨?_, ?_, hblocks, ?_⟩⟩
  · rw [List.length_set]
    exact hd.count
  · have hcursor := hd.cursor
    unfold CursorOk at hcursor ⊢
    rwa [hlen]
  · intro j x hx
    have hj : j < xs.length := by
      have := (List.getElem?_eq_some_iff.mp hx).1
      rwa [List.length_set] at this
    have hcap := hd.length_le
    rw [hload]
    rw [List.getElem?_set] at hx
    split at hx
    · rename_i hij
      rw [hij, if_pos rfl, hx]
    · rename_i hij
      rw [if_neg fun h => hij (locate_inj (by omega) (by omega) h).symm]
      exact hd.cells j x hx

theorem Denotes.store (hd : Denotes sa xs) {i : Nat} (hi : i < xs.length) (value : α) :
    ∃ sa', store sa i value = some sa' ∧ Denotes sa' (xs.set i value) := by
  obtain ⟨sa', hput, hd'⟩ := hd.put hi value
  refine ⟨sa', ?_, hd'⟩
  rw [SegArray.store, hd.get, if_pos hi]
  exact hput

/-- **`set`** is the list's, and says whether the index is one of the array. -/
theorem set_spec (hd : Denotes sa xs) (i : Nat) (value : α) :
    ∃ sa', SegArray.set i value sa = some (sa', if i < xs.length then some (locate i) else none) ∧
      Denotes sa' (xs.set i value) := by
  rw [SegArray.set, hd.get]
  rcases Nat.lt_or_ge i xs.length with hi | hi
  · obtain ⟨sa', hput, hd'⟩ := hd.put hi value
    refine ⟨sa', ?_, hd'⟩
    rw [if_pos hi]
    show (Option.bind _ _) = _
    rw [hput]
    rfl
  · rw [if_neg (by omega)]
    refine ⟨sa, rfl, ?_⟩
    rw [List.set_eq_of_length_le (by omega)]
    exact hd

/-- The cursor has a slot for the next element: `k` is its segment. -/
structure Room (sa : SegArray α) (k : Nat) : Prop where
  seg : sa.lastSeg = k
  used : k < sa.segments.length
  base : sa.lastSegBase = 64 * 2 ^ k - 64
  next : sa.nextGrowAt = 64 * 2 ^ (k + 1) - 64
  low : sa.lastSegBase ≤ sa.count
  high : sa.count < sa.nextGrowAt

/-- Moving the cursor to segment `k`, which begins at the count. -/
theorem room_of_next {k : Nat} {segs : List (List (Option α))} (hk : k < segs.length)
    (hb : Blocks segs) (hcount : sa.count = 64 * 2 ^ k - 64) (hgrow : sa.nextGrowAt = sa.count) :
    Room { sa with
      segments := segs
      lastSegBase := sa.nextGrowAt
      lastSeg := k
      nextGrowAt := u32 (sa.nextGrowAt + slotsInSegment k) } k := by
  have hk25 : k ≤ 25 := by have := hb.used; omega
  have hpow := two_pow_le hk25
  have hpos := Nat.one_le_two_pow (n := k)
  have hnext : u32 (sa.nextGrowAt + slotsInSegment k) = 64 * 2 ^ (k + 1) - 64 := by
    rw [slotsInSegment_eq hk25, u32_of_lt (by omega), Nat.pow_succ]
    omega
  refine ⟨rfl, hk, ?_, hnext, ?_, ?_⟩
  · show sa.nextGrowAt = _
    omega
  · show sa.nextGrowAt ≤ sa.count
    omega
  · show sa.count < u32 _
    rw [hnext, Nat.pow_succ]
    omega

/-- The segments `grow` leaves: those there were, or one more. -/
theorem Blocks.append (hb : Blocks sa.segments) (hroom : sa.segments.length < 26) :
    Blocks (sa.segments ++ [List.replicate (slotsInSegment sa.segments.length) (none : Option α)]) := by
  constructor
  · rw [List.length_append, List.length_singleton]
    omega
  · intro k block hk
    rcases Nat.lt_or_ge k sa.segments.length with hlt | hge
    · rw [List.getElem?_append_left hlt] at hk
      exact hb.size k block hk
    · rw [List.getElem?_append_right hge, List.getElem?_singleton] at hk
      split at hk
      · rename_i h0
        rw [← Option.some.inj hk, List.length_replicate, slotsInSegment_eq (by omega)]
        congr 2
        omega
      · cases hk

/-- A push finds a slot, unless the array is full or the allocator refuses. -/
theorem grow_spec (hd : Denotes sa xs) (granted : Bool) :
    (sa.grow granted = none ∧ (xs.length = capacity ∨ granted = false)) ∨
    ∃ sa' k, sa.grow granted = some sa' ∧ sa'.count = sa.count ∧ Room sa' k ∧ Blocks sa'.segments ∧
      ∀ p x, load sa p = some x → load sa' p = some x := by
  -- the segment the cursor moves to begins at the count
  have hnext : sa.nextGrowAt ≤ sa.count →
      ∃ k : Nat, (sa.lastSeg + 1).toNat = k ∧ k ≤ sa.segments.length ∧
        sa.count = 64 * 2 ^ k - 64 ∧ sa.nextGrowAt = sa.count := by
    intro hfull
    rcases hd.cursor with ⟨hseg, h0, -, hgrow⟩ | ⟨k, hseg, hk, -, hgrow, -, hle, -⟩
    · refine ⟨0, by rw [hseg]; rfl, Nat.zero_le _, ?_, ?_⟩ <;> omega
    · exact ⟨k + 1, by omega, hk, by omega, by omega⟩
  rw [grow]
  split
  · rename_i hfull
    obtain ⟨k, hk, hkle, hcount, hgrow⟩ := hnext hfull
    simp only [hk, usedSegments]
    split
    · rename_i hge
      have hkeq : k = sa.segments.length := by omega
      split
      · rename_i hmax
        have hlen := hd.blocks.used
        have hk26 : k = 26 := by
          have : maxSegments = 26 := rfl
          omega
        refine .inl ⟨rfl, .inl ?_⟩
        rw [← hd.count, hcount, hk26]
        rfl
      · rename_i hmax
        have hroom : sa.segments.length < 26 := Nat.lt_of_not_le hmax
        have hblocks := hd.blocks.append hroom
        split
        · refine .inr ⟨_, k, rfl, rfl, room_of_next ?_ (hkeq ▸ hblocks) hcount hgrow, hkeq ▸ hblocks, ?_⟩
          · rw [List.length_append, List.length_singleton]
            omega
          · exact fun p x => load_append _
        · rename_i hgranted
          exact .inl ⟨rfl, .inr (Bool.eq_false_iff.mpr hgranted)⟩
    · rename_i hlt
      refine .inr ⟨_, k, rfl, rfl, room_of_next (by omega) hd.blocks hcount hgrow, hd.blocks, ?_⟩
      exact fun p x hx => hx
  · rename_i hroom
    rcases hd.cursor with ⟨-, h0, -, hgrow⟩ | ⟨k, hseg, hk, hbase, hgrow, hlow, hle, -⟩
    · omega
    · exact .inr ⟨sa, k, rfl, rfl, ⟨hseg, hk, hbase, hgrow, hlow, by omega⟩, hd.blocks, fun p x hx => hx⟩

/-- **`push`** appends, or returns `NULL` and changes nothing. -/
theorem push_spec (hd : Denotes sa xs) (granted : Bool) (value : α) :
    (∃ sa', push granted value sa = some (sa', some (locate xs.length)) ∧
      Denotes sa' (xs ++ [value]) ∧ xs.length < capacity) ∨
    (push granted value sa = some (sa, none) ∧ (xs.length = capacity ∨ granted = false)) := by
  rcases grow_spec hd granted with ⟨hgrow, hwhy⟩ | ⟨sa₁, k, hgrow, hcount, hroom, hblocks, hload⟩
  · refine .inr ⟨?_, hwhy⟩
    rw [push, hgrow]
  · have hused := hblocks.used
    have hk := hroom.used
    have hpow := two_pow_le (k := k) (by omega)
    have hpos := Nat.one_le_two_pow (n := k)
    obtain ⟨hseg, -, hbase, hnext, hlow, hhigh⟩ := hroom
    have hlen := hd.count
    have hcap : sa₁.count < capacity := by
      unfold capacity
      rw [Nat.pow_succ] at hnext
      omega
    have hplace := cursorPlace_eq hseg (by omega) hbase hlow (hnext ▸ hhigh)
    have hslot : (locate sa₁.count).seg = k ∧ (locate sa₁.count).slot < 64 * 2 ^ k := by
      rw [Nat.pow_succ] at hnext
      obtain ⟨t, ht⟩ := Nat.exists_eq_add_of_le (hbase ▸ hlow)
      rw [ht, locate_eq (by omega) (by omega)]
      exact ⟨rfl, by show t < _; omega⟩
    obtain ⟨segs, hput, hsegs, hblocks', hload'⟩ :=
      put_spec (p := locate sa₁.count) hblocks (by omega) (by rw [hslot.1]; exact hslot.2) value
    refine .inl ⟨{ sa₁ with segments := segs, count := u32 (sa₁.count + 1) }, ?_, ⟨?_, ?_, hblocks', ?_⟩, ?_⟩
    · rw [push, hgrow]
      show (Option.bind _ _) = _
      rw [hplace, Option.bind_some]
      show (Option.bind _ _) = _
      rw [hput]
      rw [← hlen, ← hcount]
      rfl
    · show u32 (sa₁.count + 1) = _
      rw [u32_of_lt (by unfold capacity at hcap; omega), List.length_append, List.length_singleton,
        hcount, hlen]
    · refine .inr ⟨k, hseg, hsegs ▸ hk, hbase, hnext, ?_, ?_, ?_⟩
      all_goals
        dsimp only
        rw [u32_of_lt (by unfold capacity at hcap; omega)]
        omega
    · intro i x hx
      have hcapacity := hd.length_le
      show load { sa₁ with segments := segs } _ = _
      rw [hload']
      rcases Nat.lt_or_ge i xs.length with hi | hi
      · rw [if_neg fun h => absurd (locate_inj (by omega) hcap h) (by omega)]
        rw [List.getElem?_append_left hi] at hx
        exact hload _ _ (hd.cells i x hx)
      · rw [List.getElem?_append_right hi, List.getElem?_singleton] at hx
        split at hx
        · have hi' : i = sa₁.count := by omega
          rw [if_pos (by rw [hi']), hx]
        · cases hx
    · omega

/-- The last element by the cursor. -/
theorem Denotes.last (hd : Denotes sa xs) (hpos : 0 < xs.length) :
    cursorPlace sa (u32 (sa.count + 2 ^ 32 - 1)) = some (locate (xs.length - 1)) := by
  have hcap := hd.length_le
  have hcount := hd.count
  unfold capacity at hcap
  rw [u32_sub (by omega) (by omega), hcount]
  rcases hd.cursor with ⟨-, h0, -⟩ | ⟨k, hseg, hk, hbase, hgrow, hlow, hle, hfirst⟩
  · omega
  · apply cursorPlace_eq hseg (by have := hd.blocks.used; omega) hbase
    · by_cases heq : sa.count = sa.lastSegBase
      · rw [hbase, hfirst heq]
        omega
      · omega
    · omega

theorem dropLast_spec (hd : Denotes sa xs) (hpos : 0 < xs.length) :
    Denotes (dropLast sa) xs.dropLast := by
  have hcap := hd.length_le
  have hcount := hd.count
  unfold capacity at hcap
  have hdown : u32 (sa.count + 2 ^ 32 - 1) = sa.count - 1 := u32_sub (by omega) (by omega)
  have hcells : ∀ i x, xs.dropLast[i]? = some x → load sa (locate i) = some x := by
    intro i x hx
    rw [List.getElem?_dropLast] at hx
    split at hx
    · exact hd.cells i x hx
    · cases hx
  unfold dropLast
  rw [hdown]
  rcases hd.cursor with ⟨-, h0, -⟩ | ⟨k, hseg, hk, hbase, hgrow, hlow, hle, hfirst⟩
  · omega
  · have hk25 : k ≤ 25 := by have := hd.blocks.used; omega
    dsimp only
    split
    · rename_i hempty
      -- the cursor slides down to segment `k - 1`
      obtain ⟨l, rfl⟩ : ∃ l, k = l + 1 := ⟨k - 1, by omega⟩
      have hprev : (sa.lastSeg - 1).toNat = l := by omega
      have hpow := Nat.one_le_two_pow (n := l)
      have hsucc : 2 ^ (l + 1) = 2 ^ l * 2 := Nat.pow_succ ..
      refine ⟨?_, .inr ⟨l, ?_, ?_, ?_, hbase, ?_, ?_, ?_⟩, hd.blocks, hcells⟩
      · rw [List.length_dropLast, hcount]
      · show sa.lastSeg - 1 = _
        omega
      · show l < sa.segments.length
        omega
      · show capacityForSegments _ = _
        rw [hprev, capacityForSegments_eq (by omega)]
      · show capacityForSegments _ ≤ sa.count - 1
        rw [hprev, capacityForSegments_eq (by omega)]
        omega
      · show sa.count - 1 ≤ sa.lastSegBase
        omega
      · show sa.count - 1 = capacityForSegments _ → _
        rw [hprev, capacityForSegments_eq (by omega)]
        omega
    · rename_i hmore
      refine ⟨?_, .inr ⟨k, hseg, hk, hbase, hgrow, ?_, ?_, ?_⟩, hd.blocks, hcells⟩
      · rw [List.length_dropLast, hcount]
      · show sa.lastSegBase ≤ sa.count - 1
        by_cases heq : sa.count = sa.lastSegBase
        · have h0 := hfirst heq
          rw [h0] at hbase
          omega
        · omega
      · show sa.count - 1 ≤ sa.nextGrowAt
        omega
      · show sa.count - 1 = sa.lastSegBase → _
        omega

/-- **`pop`** takes the last element off. -/
theorem pop_spec (hd : Denotes sa xs) :
    ∃ sa', pop sa = some (sa', xs.getLast?) ∧ Denotes sa' xs.dropLast := by
  rcases Nat.eq_zero_or_pos xs.length with h0 | hpos
  · obtain rfl := List.length_eq_zero_iff.mp h0
    refine ⟨sa, ?_, hd⟩
    rw [pop, if_pos (show sa.count = 0 from hd.count)]
    rfl
  · refine ⟨dropLast sa, ?_, dropLast_spec hd hpos⟩
    rw [pop, if_neg (by rw [hd.count]; omega), hd.last hpos]
    show (Option.bind _ _) = _
    rw [Option.bind_some]
    show (Option.bind _ _) = _
    rw [hd.cells (xs.length - 1) _ (List.getElem?_eq_getElem (by omega)),
      List.getLast?_eq_getElem?, List.getElem?_eq_getElem (by omega)]
    rfl

/-- The list with the element at `i` replaced by the last one, which goes. -/
def listSwapRemove (xs : List α) (i : Nat) : List α :=
  match xs.getLast? with
  | some last => if i < xs.length then (xs.set i last).dropLast else xs
  | none => xs

/-- **`swap_remove`** is the list's. -/
theorem swapRemove_spec (hd : Denotes sa xs) (i : Nat) :
    ∃ sa', swapRemove i sa = some (sa', decide (i < xs.length)) ∧ Denotes sa' (listSwapRemove xs i) := by
  rcases Nat.lt_or_ge i xs.length with hi | hi
  · have hlast := List.getLast?_eq_getElem? (l := xs)
    rw [List.getElem?_eq_getElem (by omega)] at hlast
    have hcap := hd.length_le
    have hcount := hd.count
    unfold capacity at hcap
    have hdown : u32 (sa.count + 2 ^ 32 - 1) = xs.length - 1 := by
      rw [u32_sub (by omega) (by omega), hcount]
    simp only [listSwapRemove, hlast, if_pos hi, decide_eq_true hi]
    rw [swapRemove, if_neg (by omega)]
    split
    · have hin : xs.length - 1 < xs.length := by omega
      obtain ⟨sa', hstore, hd'⟩ := hd.store hi xs[xs.length - 1]
      refine ⟨dropLast sa', ?_, dropLast_spec hd' (by rw [List.length_set]; omega)⟩
      rw [hd.last (by omega)]
      show (Option.bind _ _) = _
      rw [Option.bind_some]
      show (Option.bind _ _) = _
      rw [hd.cells (xs.length - 1) _ (List.getElem?_eq_getElem (by omega))]
      rw [Option.bind_some]
      show (Option.bind _ _) = _
      rw [hstore]
      rfl
    · rename_i hlastIndex
      refine ⟨dropLast sa, rfl, ?_⟩
      have hi' : i = xs.length - 1 := by
        rw [hdown] at hlastIndex
        exact Decidable.not_not.mp hlastIndex
      have hset : (xs.set i xs[xs.length - 1]) = xs := by
        subst hi'
        exact List.set_getElem_self _
      rw [hset]
      exact dropLast_spec hd (by omega)
  · refine ⟨sa, ?_, ?_⟩
    · rw [swapRemove, if_pos (by rw [hd.count]; exact hi), decide_eq_false (by omega)]
    · unfold listSwapRemove
      split
      · rw [if_neg (by omega)]
        exact hd
      · exact hd

end Jacl.SegArray
