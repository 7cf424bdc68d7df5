import Jacl.HeapSort
import Jacl.SegArray

/-!
# Sorting and iterating over a segment array

`SA_SORT` is a heap sort whose child indices are computed in 32 bits.  For up to
`2 ^ 31` elements no index wraps, and the sort is `HeapSort.heapSort` of the elements
(`sort_spec`).  Above that a root in the upper half has the children of another
element: `sort_diverges` is an array over which the first sift never comes to an end.

The iterator walks the segments; it yields the list (`iterate_spec`).
-/

namespace Jacl.SegArray
open HeapSort

variable {α : Type}

/-! ### Sorting -/

section Sorting
variable (cmp : α → α → Int)

/-- `cmp` says less. -/
abbrev Less (cmp : α → α → Int) (a b : α) : Prop := cmp a b < 0

/-- `*SA_GET(sa, i)` and `*SA_GET(sa, j)` exchanged through `tmp`. -/
def exchangeAt (sa : SegArray α) (i j : Nat) : Option (SegArray α) := do
  let tmp ← sa.fetch i
  let other ← sa.fetch j
  let sa ← sa.store i other
  sa.store j tmp

/-- The child that `root` is compared with. -/
def pickChild (n root : Nat) (sa : SegArray α) : Option Nat :=
  if u32 (u32 (2 * root + 1) + 1) < n then do
    let left ← sa.fetch (u32 (2 * root + 1))
    let right ← sa.fetch (u32 (u32 (2 * root + 1) + 1))
    some (if cmp left right < 0 then u32 (u32 (2 * root + 1) + 1) else u32 (2 * root + 1))
  else some (u32 (2 * root + 1))

/-- The `while` loop of `SA_SORT`; `none` when `fuel` rounds do not end it. -/
def siftDown : Nat → Nat → Nat → SegArray α → Option (SegArray α)
  | 0, _, _, _ => none
  | fuel + 1, n, root, sa =>
    if u32 (2 * root + 1) < n then do
      let child ← pickChild cmp n root sa
      let a ← sa.fetch root
      let b ← sa.fetch child
      if cmp a b < 0 then do
        let sa ← exchangeAt sa root child
        siftDown fuel n child sa
      else some sa
    else some sa

/-- The first loop of `SA_SORT`, from the last parent to the root. -/
def buildMaxHeap (fuel n : Nat) : Nat → SegArray α → Option (SegArray α)
  | 0, sa => some sa
  | start + 1, sa => do
    let sa ← siftDown cmp fuel n start sa
    buildMaxHeap fuel n start sa

/-- The second loop of `SA_SORT`. -/
def extractAll (fuel : Nat) : Nat → SegArray α → Option (SegArray α)
  | 0, sa => some sa
  | fin + 1, sa => do
    let sa ← exchangeAt sa 0 (fin + 1)
    let sa ← siftDown cmp fuel (fin + 1) 0 sa
    extractAll fuel fin sa

/-- `SA_SORT`. -/
def sort (fuel : Nat) (sa : SegArray α) : Option (SegArray α) :=
  if sa.count < 2 then some sa
  else do
    let heap ← buildMaxHeap cmp fuel sa.count (sa.count / 2) sa
    extractAll cmp fuel (sa.count - 1) heap

/-- The elements below `m` of an array that is seen as a function. -/
def elems (m : Nat) (f : Nat → α) : List α := (List.range m).map f

variable {sa : SegArray α} {f : Nat → α} {m n i j root fuel : Nat}

@[simp] theorem length_elems : (elems m f).length = m := by
  rw [elems, List.length_map, List.length_range]

theorem getElem?_elems (hi : i < m) : (elems m f)[i]? = some (f i) := by
  rw [elems, List.getElem?_map, List.getElem?_range hi]
  rfl

theorem set_elems (v : α) : (elems m f).set i v = elems m (Function.update f i v) := by
  apply List.ext_getElem?
  intro k
  rcases Nat.lt_or_ge k m with hk | hk
  · rw [getElem?_elems hk, List.getElem?_set, length_elems, getElem?_elems hk]
    split
    · rename_i hik
      rw [← hik, Function.update_self, if_pos (by omega)]
    · rename_i hik
      rw [Function.update_of_ne (Ne.symm hik)]
  · rw [List.getElem?_eq_none (by simpa using hk), List.getElem?_eq_none (by simpa using hk)]

theorem fetch_elems (hd : Denotes sa (elems m f)) (hi : i < m) : sa.fetch i = some (f i) := by
  rw [hd.fetch, getElem?_elems hi]

theorem exchangeAt_spec (hd : Denotes sa (elems m f)) (hi : i < m) (hj : j < m) :
    ∃ sa', exchangeAt sa i j = some sa' ∧ Denotes sa' (elems m (exchange f i j)) := by
  obtain ⟨sa₁, hstore₁, hd₁⟩ := hd.store (i := i) (by simpa using hi) (f j)
  obtain ⟨sa₂, hstore₂, hd₂⟩ := hd₁.store (i := j) (by simpa using hj) (f i)
  refine ⟨sa₂, ?_, ?_⟩
  · rw [exchangeAt, fetch_elems hd hi, fetch_elems hd hj]
    show (Option.bind _ _) = _
    rw [Option.bind_some]
    show (Option.bind (store sa i (f j)) _) = _
    rw [hstore₁]
    exact hstore₂
  · rw [set_elems, set_elems] at hd₂
    have hboth : Function.update (Function.update f i (f j)) j (f i) = exchange f i j := by
      funext k
      unfold exchange
      rcases Classical.em (k = j) with rfl | hkj
      · rw [Function.update_self, if_pos rfl]
        split
        · rename_i hki
          rw [hki]
        · rfl
      · rw [Function.update_of_ne hkj, if_neg hkj]
        rcases Classical.em (k = i) with rfl | hki
        · rw [Function.update_self, if_pos rfl]
        · rw [Function.update_of_ne hki, if_neg hki]
    rwa [hboth] at hd₂

/-- One round of the loop, at the child it picks. -/
theorem siftDown_next (hchild : u32 (2 * root + 1) < n) {child : Nat}
    (hpick : pickChild cmp n root sa = some child) {a b : α} (ha : sa.fetch root = some a)
    (hb : sa.fetch child = some b) :
    siftDown cmp (fuel + 1) n root sa =
      if cmp a b < 0 then (exchangeAt sa root child).bind (siftDown cmp fuel n child) else some sa := by
  rw [siftDown, if_pos hchild, hpick, ha]
  show (Option.bind (fetch sa child) _) = _
  rw [hb]
  rfl

theorem pickChild_elems (hd : Denotes sa (elems m f)) (hn : n ≤ m) (hm : m ≤ 2 ^ 31)
    (hchild : 2 * root + 1 < n) :
    pickChild cmp n root sa = some (greaterChild (Less cmp) n f root) := by
  rw [pickChild, u32_of_lt (n := 2 * root + 1) (by omega), u32_of_lt (n := 2 * root + 1 + 1) (by omega),
    greaterChild]
  split
  · rename_i hright
    rw [fetch_elems hd (by omega), fetch_elems hd (by omega)]
    show some _ = some _
    congr 1
    exact if_congr ⟨fun h => ⟨hright, h⟩, And.right⟩ rfl rfl
  · rename_i hright
    rw [if_neg fun h => hright h.1]

/-- While no index wraps, the loop is the sift of the elements. -/
theorem siftDown_spec (hd : Denotes sa (elems m f)) (hn : n ≤ m) (hm : m ≤ 2 ^ 31) (hroot : root < n)
    (hfuel : n ≤ fuel + root) :
    ∃ sa', siftDown cmp fuel n root sa = some sa' ∧ Denotes sa' (elems m (sift (Less cmp) n f root)) := by
  induction fuel generalizing sa f root with
  | zero => omega
  | succ fuel ih =>
    rw [sift]
    split
    · rename_i hchild
      have hc := greaterChild_lt (Less cmp) (f := f) hchild
      have hrc := lt_greaterChild (Less cmp) (n := n) (f := f) (r := root)
      have hpick := pickChild_elems cmp hd hn hm hchild
      generalize greaterChild (Less cmp) n f root = child at hc hrc hpick
      rw [siftDown_next cmp (by rw [u32_of_lt (by omega)]; exact hchild) hpick
        (fetch_elems hd (by omega)) (fetch_elems hd (by omega))]
      split
      · obtain ⟨sa', hex, hd'⟩ := exchangeAt_spec hd (i := root) (j := child) (by omega) (by omega)
        rw [hex]
        exact ih hd' hc (by omega)
      · exact ⟨sa, rfl, hd⟩
    · rename_i hchild
      refine ⟨sa, ?_, hd⟩
      rw [siftDown, if_neg (by rw [u32_of_lt (by omega)]; exact hchild)]

theorem buildMaxHeap_spec (hm : m ≤ 2 ^ 31) (hfuel : m ≤ fuel) {start : Nat} (hs : start ≤ m)
    (hd : Denotes sa (elems m f)) :
    ∃ sa', buildMaxHeap cmp fuel m start sa = some sa' ∧
      Denotes sa' (elems m (buildHeap (Less cmp) m f start)) := by
  induction start generalizing sa f with
  | zero => exact ⟨sa, rfl, hd⟩
  | succ start ih =>
    obtain ⟨sa₁, hsift, hd₁⟩ := siftDown_spec cmp hd (Nat.le_refl m) hm hs
      (show m ≤ fuel + start by omega)
    obtain ⟨sa₂, hrest, hd₂⟩ := ih (by omega) hd₁
    refine ⟨sa₂, ?_, hd₂⟩
    rw [buildMaxHeap, hsift]
    exact hrest

theorem extractAll_spec (hm : m ≤ 2 ^ 31) (hfuel : m ≤ fuel) {e : Nat} (he : e < m)
    (hd : Denotes sa (elems m f)) :
    ∃ sa', extractAll cmp fuel e sa = some sa' ∧ Denotes sa' (elems m (extract (Less cmp) f e)) := by
  induction e generalizing sa f with
  | zero => exact ⟨sa, rfl, hd⟩
  | succ e ih =>
    obtain ⟨sa₁, hex, hd₁⟩ := exchangeAt_spec hd (i := 0) (j := e + 1) (by omega) he
    obtain ⟨sa₂, hsift, hd₂⟩ := siftDown_spec cmp hd₁ (show e + 1 ≤ m by omega) hm
      (Nat.succ_pos e) (show e + 1 ≤ fuel + 0 by omega)
    obtain ⟨sa₃, hrest, hd₃⟩ := ih (by omega) hd₂
    refine ⟨sa₃, ?_, hd₃⟩
    rw [extractAll, hex]
    show (Option.bind (siftDown cmp fuel (e + 1) 0 sa₁) _) = _
    rw [hsift]
    exact hrest

end Sorting

/-- A comparison function of a total preorder. -/
structure TotalPreorder (cmp : α → α → Int) : Prop where
  flip : ∀ a b, cmp a b < 0 ↔ 0 < cmp b a
  trans : ∀ a b c, cmp a b ≤ 0 → cmp b c ≤ 0 → cmp a c ≤ 0

theorem TotalPreorder.not_less {cmp : α → α → Int} (ho : TotalPreorder cmp) {a b : α} :
    ¬ Less cmp b a ↔ cmp a b ≤ 0 := by
  rw [Less, ho.flip, Int.not_lt]

theorem TotalPreorder.weakOrder {cmp : α → α → Int} (ho : TotalPreorder cmp) :
    WeakOrder (Less cmp) where
  asymm {a b} hab := by
    rw [ho.not_less]
    exact Int.le_of_lt hab
  trans {a b c} hba hcb := by
    rw [ho.not_less] at hba hcb ⊢
    exact ho.trans a b c hba hcb

/-- A list seen as a function. -/
theorem exists_elems {xs : List α} (h : 0 < xs.length) : ∃ f, xs = elems xs.length f := by
  obtain ⟨x, hx⟩ : ∃ x, xs[0]? = some x := ⟨_, List.getElem?_eq_getElem h⟩
  refine ⟨fun i => xs.getD i x, ?_⟩
  apply List.ext_getElem?
  intro i
  rcases Nat.lt_or_ge i xs.length with hi | hi
  · rw [getElem?_elems hi, List.getElem?_eq_getElem hi, List.getD_eq_getElem?_getD,
      List.getElem?_eq_getElem hi]
    rfl
  · rw [List.getElem?_eq_none hi, List.getElem?_eq_none (by simpa using hi)]

/-- **The sort** of up to `2 ^ 31` elements comes to an end, whatever the comparison,
with a permutation of them, which is ordered if the comparison is a total preorder. -/
theorem sort_spec {sa : SegArray α} {xs : List α} (cmp : α → α → Int) (hd : Denotes sa xs)
    (hlen : xs.length ≤ 2 ^ 31) {fuel : Nat} (hfuel : xs.length ≤ fuel) :
    ∃ sa' ys, sort cmp fuel sa = some sa' ∧ Denotes sa' ys ∧ ys.Perm xs ∧
      (TotalPreorder cmp → ys.Pairwise fun a b => cmp a b ≤ 0) := by
  rw [sort, hd.count]
  split
  · rename_i hshort
    refine ⟨sa, xs, rfl, hd, .refl _, fun _ => ?_⟩
    rcases xs with _ | ⟨x, _ | ⟨y, xs⟩⟩
    · exact .nil
    · exact List.pairwise_singleton _ _
    · simp only [List.length_cons] at hshort
      omega
  · rename_i hlong
    obtain ⟨f, hf⟩ := exists_elems (show 0 < xs.length by omega)
    generalize xs.length = m at *
    subst hf
    obtain ⟨sa₁, hbuild, hd₁⟩ := buildMaxHeap_spec cmp hlen hfuel (Nat.div_le_self m 2) hd
    obtain ⟨sa₂, hextract, hd₂⟩ := extractAll_spec cmp hlen hfuel (e := m - 1) (by omega) hd₁
    refine ⟨sa₂, _, ?_, hd₂, ?_, fun ho => ?_⟩
    · rw [hbuild]
      exact hextract
    · exact (heapSort_within (Less cmp) (by omega) f).perm
    · apply (heapSort_ordered ho.weakOrder (by omega) f).pairwise.imp
      intro a b hab
      exact ho.not_less.mp hab

/-! ### An array that is not sorted

With `n` elements, the first root is `r = n / 2 - 1`.  Its left child is `p = 2r + 1`,
and `2p + 1` wraps to `r - 1`, whose neighbour is `r` again. -/

/-- `0xAAAAAAAB` elements. -/
def stuckCount : Nat := 2863311531

def stuckRoot : Nat := 1431655764

def stuckChild : Nat := 2863311529

/-- All elements are 1, but for a 2 at `i`. -/
def oneTwo (i k : Nat) : Nat := if k = i then 2 else 1

def cmpNat (a b : Nat) : Int := (a : Int) - b

theorem cmpNat_totalPreorder : TotalPreorder cmpNat where
  flip a b := by unfold cmpNat; omega
  trans a b c := by unfold cmpNat; omega

theorem exchange_oneTwo {i j : Nat} : exchange (oneTwo j) i j = oneTwo i := by
  funext k
  unfold exchange oneTwo
  split
  · exact if_pos rfl
  · rename_i hki
    split
    · split <;> simp_all
    · rfl

theorem oneTwo_self (i : Nat) : oneTwo i i = 2 := if_pos rfl

theorem oneTwo_of_ne {i k : Nat} (h : k ≠ i) : oneTwo i k = 1 := if_neg h

/-- The root and its wrapped grandchild take turns. -/
theorem siftDown_stuck (fuel : Nat) :
    (∀ sa, Denotes sa (elems stuckCount (oneTwo stuckChild)) →
      siftDown cmpNat fuel stuckCount stuckRoot sa = none) ∧
    (∀ sa, Denotes sa (elems stuckCount (oneTwo stuckRoot)) →
      siftDown cmpNat fuel stuckCount stuckChild sa = none) := by
  have hroot : stuckRoot < stuckCount := by decide
  have hchild : stuckChild < stuckCount := by decide
  have hne : stuckRoot ≠ stuckChild := by decide
  have hleft : u32 (2 * stuckRoot + 1) = stuckChild := by decide
  have hwrap : u32 (2 * stuckChild + 1) = stuckRoot - 1 := by decide
  induction fuel with
  | zero => exact ⟨fun _ _ => rfl, fun _ _ => rfl⟩
  | succ fuel ih =>
    constructor
    · intro sa hd
      have hpick : pickChild cmpNat stuckCount stuckRoot sa = some stuckChild := by
        rw [pickChild, hleft, if_pos (by decide), fetch_elems hd hchild, fetch_elems hd (by decide),
          oneTwo_self, oneTwo_of_ne (by decide)]
        rfl
      rw [siftDown_next cmpNat (by rw [hleft]; exact hchild) hpick (fetch_elems hd hroot)
        (fetch_elems hd hchild), oneTwo_of_ne hne, oneTwo_self, if_pos (by decide)]
      obtain ⟨sa', hex, hd'⟩ := exchangeAt_spec hd hroot hchild
      rw [hex]
      rw [exchange_oneTwo] at hd'
      exact ih.2 sa' hd'
    · intro sa hd
      have hpick : pickChild cmpNat stuckCount stuckChild sa = some stuckRoot := by
        have hright : u32 (stuckRoot - 1 + 1) = stuckRoot := by decide
        rw [pickChild, hwrap, hright, if_pos hroot, fetch_elems hd (by decide), fetch_elems hd hroot,
          oneTwo_self, oneTwo_of_ne (by decide)]
        rfl
      rw [siftDown_next cmpNat (by rw [hwrap]; decide) hpick (fetch_elems hd hchild)
        (fetch_elems hd hroot), oneTwo_of_ne hne.symm, oneTwo_self, if_pos (by decide)]
      obtain ⟨sa', hex, hd'⟩ := exchangeAt_spec hd hchild hroot
      rw [hex]
      rw [exchange_oneTwo] at hd'
      exact ih.1 sa' hd'

theorem sort_stuck {sa : SegArray Nat} (hd : Denotes sa (elems stuckCount (oneTwo stuckChild)))
    (fuel : Nat) : sort cmpNat fuel sa = none := by
  have hcount : sa.count = stuckCount := by rw [hd.count, length_elems]
  have hhalf : stuckCount / 2 = stuckRoot + 1 := by decide
  rw [sort, hcount, if_neg (by decide), hhalf, buildMaxHeap, (siftDown_stuck fuel).1 sa hd]
  rfl

/-! ### Iteration -/

/-- `SA_ITER_T`: the segment, and the slots of it from the next one to the end of the
span.  No span, and the pair of null pointers, is `0`, `0`. -/
structure Iter where
  curSegment : Nat
  curPtr : Nat
  endPtr : Nat

/-- `SA_ITER_BEGIN`. -/
def iterBegin (sa : SegArray α) : Iter :=
  if sa.count > 0 then
    ⟨0, 0, if slotsInSegment 0 < sa.count then slotsInSegment 0 else sa.count⟩
  else ⟨0, 0, 0⟩

/-- `SA_ITER_VALID`. -/
def iterValid (it : Iter) (sa : SegArray α) : Bool :=
  if it.curPtr < it.endPtr then true
  else if it.curSegment + 1 ≥ usedSegments sa then false
  else capacityForSegments (it.curSegment + 1) < sa.count

/-- `SA_ITER_NEXT`. -/
def iterNext (it : Iter) (sa : SegArray α) : Iter × Option Place :=
  if it.curPtr < it.endPtr then ({ it with curPtr := it.curPtr + 1 }, some ⟨it.curSegment, it.curPtr⟩)
  else
    let next_seg := it.curSegment + 1
    if next_seg ≥ usedSegments sa then (it, none)
    else
      let consumed := capacityForSegments next_seg
      if consumed ≥ sa.count then (it, none)
      else
        let slots := slotsInSegment next_seg
        let remain := u32 (sa.count + 2 ^ 32 - consumed)
        (⟨next_seg, 1, if remain < slots then remain else slots⟩, some ⟨next_seg, 0⟩)

/-- The elements from the iterator on, read while it is valid. -/
def drain (sa : SegArray α) : Nat → Iter → Option (List α)
  | 0, _ => none
  | fuel + 1, it =>
    if iterValid it sa then
      match iterNext it sa with
      | (_, none) => none
      | (it, some p) => do
        let x ← sa.load p
        let rest ← drain sa fuel it
        some (x :: rest)
    else some []

/-- A whole iteration. -/
def iterate (fuel : Nat) (sa : SegArray α) : Option (List α) := drain sa fuel (iterBegin sa)

/-- The iterator is valid exactly if it has a next element. -/
theorem iterValid_eq (it : Iter) (sa : SegArray α) : iterValid it sa = (iterNext it sa).2.isSome := by
  unfold iterValid iterNext
  dsimp only
  by_cases hin : it.curPtr < it.endPtr
  · rw [if_pos hin, if_pos hin]
    rfl
  · rw [if_neg hin, if_neg hin]
    by_cases hused : it.curSegment + 1 ≥ usedSegments sa
    · rw [if_pos hused, if_pos hused]
      rfl
    · rw [if_neg hused, if_neg hused]
      by_cases hge : capacityForSegments (it.curSegment + 1) ≥ sa.count
      · rw [if_pos hge, decide_eq_false (Nat.not_lt.mpr hge)]
        rfl
      · rw [if_neg hge, decide_eq_true (Nat.not_le.mp hge)]
        rfl

/-- The iterator has yielded the `j` first elements of `n`. -/
def IterAt (n j : Nat) (it : Iter) : Prop :=
  it.curSegment ≤ 25 ∧ 64 * 2 ^ it.curSegment - 64 + it.curPtr = j ∧
    64 * 2 ^ it.curSegment - 64 ≤ n ∧ it.curPtr ≤ it.endPtr ∧
    it.endPtr = min (64 * 2 ^ it.curSegment) (n - (64 * 2 ^ it.curSegment - 64))

theorem iterAt_mk {n j seg cur stop : Nat} (hseg : seg ≤ 25) (hpos : 64 * 2 ^ seg - 64 + cur = j)
    (hbase : 64 * 2 ^ seg - 64 ≤ n) (hle : cur ≤ stop)
    (hend : stop = min (64 * 2 ^ seg) (n - (64 * 2 ^ seg - 64))) : IterAt n j ⟨seg, cur, stop⟩ :=
  ⟨hseg, hpos, hbase, hle, hend⟩

variable {sa : SegArray α} {xs : List α}

theorem iterBegin_at (sa : SegArray α) : IterAt sa.count 0 (iterBegin sa) := by
  have hslots : slotsInSegment 0 = 64 := by decide
  unfold iterBegin IterAt
  rw [hslots]
  split
  · refine ⟨Nat.zero_le _, rfl, Nat.zero_le _, Nat.zero_le _, ?_⟩
    show (if _ then _ else _) = min 64 (sa.count - 0)
    split <;> omega
  · refine ⟨Nat.zero_le _, rfl, Nat.zero_le _, Nat.zero_le _, ?_⟩
    show 0 = min 64 (sa.count - 0)
    omega

theorem iterNext_at (hd : Denotes sa xs) {j : Nat} {it : Iter} (hi : IterAt xs.length j it)
    (hj : j < xs.length) :
    ∃ it', iterNext it sa = (it', some (locate j)) ∧ IterAt xs.length (j + 1) it' := by
  obtain ⟨seg, cur, stop⟩ := it
  obtain ⟨hseg, hpos, hbase, hle, hend⟩ := hi
  dsimp only at hseg hpos hbase hle hend
  have hone := Nat.one_le_two_pow (n := seg)
  unfold iterNext
  split
  · rename_i hin
    dsimp only at hin
    refine ⟨_, ?_, iterAt_mk hseg (by omega) hbase hin hend⟩
    rw [← hpos, locate_eq hseg (by omega)]
  · rename_i hout
    dsimp only at hout ⊢
    -- the segment is exhausted and not the last one
    have hslot := (hd.slot hj).1
    have hplace : j = 64 * 2 ^ (seg + 1) - 64 + 0 := by
      rw [Nat.pow_succ]
      omega
    have hcap := hd.length_le
    have hseg' : seg + 1 ≤ 25 := by
      by_contra hgt
      have h25 : seg = 25 := by omega
      subst h25
      have : capacity = 64 * 2 ^ (25 + 1) - 64 := by decide
      omega
    have hloc : locate j = ⟨seg + 1, 0⟩ := by
      rw [hplace, locate_eq hseg' (by have := Nat.one_le_two_pow (n := seg + 1); omega)]
    have hpow := two_pow_le hseg'
    have hone' := Nat.one_le_two_pow (n := seg + 1)
    rw [hloc] at hslot ⊢
    rw [if_neg (show ¬ seg + 1 ≥ usedSegments sa from Nat.not_le.mpr hslot), capacityForSegments_eq hseg', hd.count, if_neg (by omega),
      slotsInSegment_eq hseg']
    unfold capacity at hcap
    rw [u32_sub (by omega) (by omega)]
    refine ⟨_, rfl, iterAt_mk hseg' (by omega) (by omega) ?_ ?_⟩
    · split <;> omega
    · split <;> omega

theorem iterNext_end (hd : Denotes sa xs) {it : Iter} (hi : IterAt xs.length xs.length it) :
    (iterNext it sa).2 = none := by
  obtain ⟨seg, cur, stop⟩ := it
  obtain ⟨hseg, hpos, hbase, hle, hend⟩ := hi
  dsimp only at hseg hpos hbase hle hend
  have hone := Nat.one_le_two_pow (n := seg)
  unfold iterNext
  rw [if_neg (by dsimp only; omega)]
  dsimp only
  split
  · rfl
  · rename_i hused
    have hlen := hd.blocks.used
    unfold usedSegments at hused
    rw [capacityForSegments_eq (by omega), hd.count, if_pos (by rw [Nat.pow_succ]; omega)]

theorem drain_spec (hd : Denotes sa xs) {fuel j : Nat} {it : Iter} (hi : IterAt xs.length j it)
    (hj : j ≤ xs.length) (hfuel : xs.length < fuel + j) : drain sa fuel it = some (xs.drop j) := by
  induction fuel generalizing j it with
  | zero => omega
  | succ fuel ih =>
    rw [drain, iterValid_eq]
    rcases Nat.lt_or_eq_of_le hj with hlt | rfl
    · obtain ⟨it', hnext, hi'⟩ := iterNext_at hd hi hlt
      rw [hnext, if_pos (show (some (locate j)).isSome = true from rfl)]
      show (Option.bind _ _) = _
      rw [hd.cells j _ (List.getElem?_eq_getElem hlt), Option.bind_some]
      show (Option.bind _ _) = _
      rw [ih hi' hlt (by omega), Option.bind_some, List.drop_eq_getElem_cons hlt]
    · rw [iterNext_end hd hi, List.drop_length]
      rfl

/-- **Iteration** yields the elements in their order, each once. -/
theorem iterate_spec (hd : Denotes sa xs) {fuel : Nat} (hfuel : xs.length < fuel) :
    iterate fuel sa = some xs := by
  have hbegin := iterBegin_at sa
  rw [hd.count] at hbegin
  exact drain_spec hd hbegin (Nat.zero_le _) hfuel

end Jacl.SegArray
