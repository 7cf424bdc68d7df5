import Jacl.RrbVecRuns
import Jacl.Collections
import Jacl.IntTowerExact

/-!
# Ranges as vectors (`runtime/builtins.c`)

`jacl_range_vec` and `jacl_range_inclusive` push the numbers of a loop onto an empty vector.  The
counter is an `int32_t`, whose increment past the largest value C leaves undefined, and so does
`none` here.  The loops have fuel: a loop that returns does so with some fuel.
-/

namespace Jacl.Builtins
open JaclVal

/-- `jacl_tvec_mark`. -/
def tvecMark (v : JaclVal) : JaclVal := if v.type = 0x06 then plain 0x1B v.payload else v

/-- The loop from `i`, as long as `goesOn`. -/
def rangeLoop (goesOn : Int → Bool) : Nat → Heap → JaclVal → Int → Option (Heap × JaclVal)
  | 0, _, _, _ => none
  | fuel + 1, h, out, i =>
    if goesOn i then do
      let (h, out) ← vecPush h out (i32 i)
      -- `i++`
      if i = 2 ^ 31 - 1 then none else rangeLoop goesOn fuel h out (i + 1)
    else some (h, out)

/-- What the two ranges do to their arguments; they differ in the test of the loop. -/
def rangeOf (goesOn : Int → Int → Bool) (fuel : Nat) (h : Heap) (a b : JaclVal) :
    Option (Heap × JaclVal) :=
  if a.error then some (h, a)
  else if b.error then some (h, b)
  else if ¬ (a.isI32 ∧ b.isI32) then some (h, errorVal)
  else do
    let (h, out) := vecEmpty h
    let (h, out) ← rangeLoop (goesOn b.asI32) fuel h out a.asI32
    some (h, tvecMark out)

/-- `jacl_range_vec`. -/
def rangeVec : Nat → Heap → JaclVal → JaclVal → Option (Heap × JaclVal) :=
  rangeOf fun hi i => decide (i < hi)

/-- `jacl_range_inclusive`. -/
def rangeInclusive : Nat → Heap → JaclVal → JaclVal → Option (Heap × JaclVal) :=
  rangeOf fun hi i => decide (i ≤ hi)

/-! ### What a range is -/

/-- `n` numbers from `lo` on. -/
def numbers (lo : Int) (n : Nat) : List JaclVal := (List.range n).map fun k : Nat => i32 (lo + k)

/-- The value is a typed vector with the elements `xs`. -/
def IsTypedVec (h : Heap) (v : JaclVal) (xs : List JaclVal) : Prop :=
  v.type = 0x1B ∧ v.error = false ∧ ∃ r, vecRoot h v = some r ∧ vecElems r = xs

/-- The call returns a typed vector with the elements `xs`. -/
def Gives (range : Nat → Heap → JaclVal → JaclVal → Option (Heap × JaclVal)) (h : Heap)
    (lo hi : Int) (xs : List JaclVal) : Prop :=
  ∃ fuel h' v, range fuel h (i32 lo) (i32 hi) = some (h', v) ∧ IsTypedVec h' v xs

/-! ### The loop -/

variable {goesOn : Int → Bool} {h h' : Heap} {out v : JaclVal} {i lo hi : Int} {fuel n : Nat}
  {r : RrbVec.Root JaclVal} {xs : List JaclVal}

theorem asI32_i32 (hi : FitsI32 i) : (i32 i).asI32 = i := toInt_ofInt_i32 hi

theorem numbers_succ : numbers i (n + 1) = i32 i :: numbers (i + 1) n := by
  rw [numbers, numbers, List.range_succ_eq_map, List.map_cons, List.map_map, Int.natCast_zero, Int.add_zero]
  refine congrArg _ (List.map_congr_left fun k _ => ?_)
  show i32 (i + ((k + 1 : Nat) : Int)) = i32 (i + 1 + k)
  rw [Int.natCast_add, Int.natCast_one, Int.add_comm (k : Int) 1, Int.add_assoc]

@[simp] theorem length_numbers : (numbers lo n).length = n := by
  rw [numbers, List.length_map, List.length_range]

/-- A push onto a vector that pushes made. -/
theorem vecPush_spec (hout : vecRoot h out = some r) (hr : RrbVec.pushAll xs = some r) {x : JaclVal} :
    vecPush h out x = (RrbVec.pushAll (xs ++ [x])).map fun r =>
      ((h.alloc (.vec r)).1, plain 0x06 h.next) := by
  rw [vecPush, hout, RrbVec.pushAll_concat, hr]
  dsimp only [Option.bind_eq_bind, Option.bind_some]
  cases RrbVec.pushBack r x <;> rfl

/-- **A loop that returns** has pushed the numbers up to one that does not go on, and none of
them was the largest. -/
theorem rangeLoop_some (hloop : rangeLoop goesOn fuel h out i = some (h', v))
    (hout : vecRoot h out = some r) (hr : RrbVec.pushAll xs = some r) :
    ∃ (n : Nat) (r' : RrbVec.Root JaclVal),
      (∀ k : Nat, k < n → goesOn (i + k) = true ∧ i + k ≠ 2 ^ 31 - 1) ∧ goesOn (i + n) = false ∧
      RrbVec.pushAll (xs ++ numbers i n) = some r' ∧ vecRoot h' v = some r' := by
  induction fuel generalizing h out i r xs with
  | zero => cases hloop
  | succ fuel ih =>
    rw [rangeLoop] at hloop
    cases hgo : goesOn i with
    | false =>
      rw [hgo] at hloop
      obtain ⟨rfl, rfl⟩ := Prod.mk.inj (Option.some.inj hloop)
      refine ⟨0, r, fun k hk => absurd hk (Nat.not_lt_zero k), ?_, ?_, hout⟩
      · rwa [Int.natCast_zero, Int.add_zero]
      · rwa [numbers, List.range_zero, List.map_nil, List.append_nil]
    | true =>
      rw [hgo, if_pos rfl, vecPush_spec hout hr] at hloop
      cases hpush : RrbVec.pushAll (xs ++ [i32 i]) with
      | none =>
        rw [hpush] at hloop
        cases hloop
      | some r₁ =>
        rw [hpush] at hloop
        dsimp only [Option.map_some, Option.bind_eq_bind, Option.bind_some] at hloop
        split_ifs at hloop with hmax
        obtain ⟨n, r', hbelow, hend, hall, hv⟩ := ih hloop (vecRoot_alloc h r₁) hpush
        have hshift : ∀ k : Nat, i + ((k + 1 : Nat) : Int) = i + 1 + k := by omega
        refine ⟨n + 1, r', ?_, ?_, ?_, hv⟩
        · rintro (_ | k) hk
          · rw [Int.natCast_zero, Int.add_zero]
            exact ⟨hgo, hmax⟩
          · rw [hshift]
            exact hbelow k (Nat.lt_of_succ_lt_succ hk)
        · rw [hshift]
          exact hend
        · rwa [numbers_succ, List.append_cons]

/-- **A loop that stops in time returns**, if the vector can be pushed onto so often. -/
theorem rangeLoop_spec (hgo : ∀ k : Nat, k < n → goesOn (i + k) = true ∧ i + k ≠ 2 ^ 31 - 1)
    (hend : goesOn (i + n) = false) (hout : vecRoot h out = some r) (hr : RrbVec.pushAll xs = some r)
    (hlen : xs.length + n ≤ 2080) (htype : out.type = 0x06) :
    ∃ h' v r', rangeLoop goesOn (n + 1) h out i = some (h', v) ∧ v.type = 0x06 ∧
      vecRoot h' v = some r' ∧ RrbVec.pushAll (xs ++ numbers i n) = some r' := by
  induction n generalizing h out i r xs with
  | zero =>
    refine ⟨h, out, r, ?_, htype, hout, ?_⟩
    · rw [Int.natCast_zero, Int.add_zero] at hend
      rw [rangeLoop, hend]
      rfl
    · rwa [numbers, List.range_zero, List.map_nil, List.append_nil]
  | succ n ih =>
    have hshift : ∀ k : Nat, i + ((k + 1 : Nat) : Int) = i + 1 + k := by omega
    obtain ⟨hfirst, hmax⟩ := hgo 0 (Nat.succ_pos n)
    rw [Int.natCast_zero, Int.add_zero] at hfirst hmax
    obtain ⟨r₁, hpush, -⟩ := RrbVec.pushAll_spec (xs ++ [i32 i])
      (by rw [List.length_append, List.length_singleton]; omega)
    obtain ⟨h', v, r', hloop, hv, hroot, hall⟩ := @ih _ _ (i + 1) _ (xs ++ [i32 i])
      (fun k hk => by rw [← hshift]; exact hgo (k + 1) (Nat.succ_lt_succ hk))
      (by rw [← hshift]; exact hend) (vecRoot_alloc h r₁) hpush
      (by rw [List.length_append, List.length_singleton]; omega) rfl
    refine ⟨h', v, r', ?_, hv, hroot, ?_⟩
    · rw [rangeLoop, if_pos hfirst, vecPush_spec hout hr, hpush]
      dsimp only [Option.map_some, Option.bind_eq_bind, Option.bind_some]
      rw [if_neg hmax]
      exact hloop
    · rwa [numbers_succ, List.append_cons]

/-! ### The ranges -/

/-- A vector of pushes reads as the list of them. -/
theorem vecElems_pushAll (hr : RrbVec.pushAll xs = some r) : vecElems r = xs := by
  have hlen : xs.length ≤ 2080 := by
    by_contra hlong
    rw [RrbVec.pushAll_eq_none xs (Nat.lt_of_not_le hlong)] at hr
    cases hr
  obtain ⟨r', hr', hvalid, hlist, hpacked, -⟩ := RrbVec.pushAll_spec xs hlen
  obtain rfl := Option.some.inj (hr.symm.trans hr')
  have hdepth : r.depth ≤ 6 := by
    rcases hpacked with ⟨-, h1⟩ | ⟨-, h1 | ⟨h2, -⟩⟩ <;> omega
  refine List.ext_getElem? fun i => ?_
  rw [vecElems, List.getElem?_map]
  rcases Nat.lt_or_ge i r.count with hin | hout
  · have hlt : i < xs.length := by rw [← hlist, ← hvalid.count_eq]; exact hin
    rw [List.getElem?_range hin, Option.map_some, vecGet, RrbVec.get_spec hvalid hdepth, hlist,
      List.getElem?_eq_getElem hlt]
  · have hlast : xs.length ≤ i := by rw [← hlist, ← hvalid.count_eq]; exact hout
    rw [List.getElem?_eq_none (by rw [List.length_range]; exact hout), List.getElem?_eq_none hlast]
    rfl

/-- **A range gives its numbers exactly when** the loop stops before the counter overflows, and
the vector takes so many pushes. -/
theorem gives_iff {test : Int → Int → Bool} (hlo : FitsI32 lo) (hhi : FitsI32 hi)
    (htest : ∀ k : Nat, test hi (lo + k) = decide (k < n)) :
    Gives (rangeOf test) h lo hi (numbers lo n) ↔ n ≤ 2080 ∧ lo + n < 2 ^ 31 := by
  have hcall : ∀ fuel, rangeOf test fuel h (i32 lo) (i32 hi) =
      (rangeLoop (test hi) fuel (h.alloc (.vec RrbVec.empty)).1 (plain 0x06 h.next) lo).map
        fun p => (p.1, tvecMark p.2) := by
    intro fuel
    have hargs : (i32 lo).isI32 = true ∧ (i32 hi).isI32 = true := ⟨rfl, rfl⟩
    rw [rangeOf, asI32_i32 hlo, asI32_i32 hhi]
    rw [if_neg (show ¬ (i32 lo).error = true from Bool.false_ne_true),
      if_neg (show ¬ (i32 hi).error = true from Bool.false_ne_true), if_neg fun h => h hargs]
    rw [show vecEmpty h = ((h.alloc (.vec RrbVec.empty)).1, plain 0x06 h.next) from rfl]
    dsimp only
    cases rangeLoop (test hi) fuel (h.alloc (.vec RrbVec.empty)).1 (plain 0x06 h.next) lo <;> rfl
  have hout := vecRoot_alloc h (RrbVec.empty : RrbVec.Root JaclVal)
  have hnil : RrbVec.pushAll ([] : List JaclVal) = some RrbVec.empty := rfl
  constructor
  · rintro ⟨fuel, h', v, hv, -⟩
    rw [hcall] at hv
    obtain ⟨⟨h₁, v₁⟩, hloop, -⟩ := Option.map_eq_some_iff.mp hv
    obtain ⟨m, r, hbelow, hend, hall, -⟩ := rangeLoop_some hloop hout hnil
    have hmn : m = n := by
      have h1 : ∀ k < m, k < n := fun k hk => by
        have hgo := (hbelow k hk).1
        rw [htest] at hgo
        exact of_decide_eq_true hgo
      have h2 : ¬ m < n := by
        rw [htest] at hend
        exact of_decide_eq_false hend
      rcases Nat.eq_zero_or_pos m with rfl | hpos
      · omega
      · have := h1 (m - 1) (by omega)
        omega
    subst hmn
    refine ⟨?_, ?_⟩
    · by_contra hlong
      rw [List.nil_append, RrbVec.pushAll_eq_none _ (by rw [length_numbers]; omega)] at hall
      cases hall
    · -- the last number is not the largest, nor was it passed on the way
      by_contra hmax
      have hle := hlo.2
      obtain ⟨k, hk⟩ : ∃ k : Nat, lo + k = 2 ^ 31 - 1 := ⟨(2 ^ 31 - 1 - lo).toNat, by omega⟩
      exact (hbelow k (by omega)).2 hk
  · rintro ⟨hlen, hmax⟩
    obtain ⟨h', v, r, hloop, htype, hroot, hall⟩ := @rangeLoop_spec (test hi) _ _ lo n _ []
      (fun k hk => ⟨by rw [htest]; exact decide_eq_true hk, by omega⟩)
      (by rw [htest]; exact decide_eq_false (Nat.lt_irrefl n)) hout hnil (by simpa using hlen) rfl
    refine ⟨n + 1, h', tvecMark v, by rw [hcall, hloop]; rfl, ?_⟩
    rw [tvecMark, if_pos htype]
    exact ⟨rfl, rfl, r, hroot, vecElems_pushAll hall⟩

/-- **When the ranges are what they should be.** -/
theorem ranges_iff (hlo : FitsI32 lo) (hhi : FitsI32 hi) :
    (Gives rangeVec h lo hi (numbers lo (hi - lo).toNat) ∧
        Gives rangeInclusive h lo hi (numbers lo (hi + 1 - lo).toNat)) ↔
      hi - lo < 2080 ∧ hi < 2 ^ 31 - 1 := by
  have hopen : Gives rangeVec h lo hi (numbers lo (hi - lo).toNat) ↔ _ :=
    gives_iff hlo hhi fun k => decide_eq_decide.mpr (by omega)
  have hclosed : Gives rangeInclusive h lo hi (numbers lo (hi + 1 - lo).toNat) ↔ _ :=
    gives_iff hlo hhi fun k => decide_eq_decide.mpr (by omega)
  rw [hopen, hclosed]
  have := hlo.2
  have := hhi.2
  omega

/-- From -3 to 4, on an empty heap. -/
theorem ranges_iff_small :
    FitsI32 (-3) ∧ FitsI32 4 ∧
      Gives rangeVec ⟨fun _ => none, 16⟩ (-3) 4 (numbers (-3) 7) ∧
        Gives rangeInclusive ⟨fun _ => none, 16⟩ (-3) 4 (numbers (-3) 8) :=
  ⟨by decide, by decide, (ranges_iff (by decide) (by decide)).mpr (by decide)⟩

/-- The largest number as the bound: the loop does not stop before it overflows. -/
theorem not_ranges_max :
    ¬ Gives rangeInclusive ⟨fun _ => none, 16⟩ (2 ^ 31 - 2) (2 ^ 31 - 1)
      (numbers (2 ^ 31 - 2) 2) := by
  have hiff : Gives rangeInclusive ⟨fun _ => none, 16⟩ (2 ^ 31 - 2) (2 ^ 31 - 1) (numbers (2 ^ 31 - 2) 2) ↔ _ :=
    gives_iff (by decide) (by decide) fun k => decide_eq_decide.mpr (by omega)
  rw [hiff]
  decide

end Jacl.Builtins
