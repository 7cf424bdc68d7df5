import Jacl.RrbVecSlice

/-!
# Edited vectors over whole runs

A run builds vectors with `jvec_empty`, `jvec_from_array`, `jvec_push_back`,
`jvec_set`, `jvec_concat`, `jvec_pop_back` and `jvec_slice` in any order
(`Built`); `jvec_insert` and `jvec_remove` are runs of these.  Every vector of a
run whose steps fit is good (`Built.good`), so that each operation on it denotes
the list operation and gives a vector of such a run again (`built_denotes`).

The step that does not fit is a pop that cuts the last leaf below a relaxed node
above the lowest internal level (`PopFits`): the next concatenation counts that
node's elements by its stale size table, and reads go astray (`not_denotes`).
-/

namespace Jacl.RrbVec
open Segments

variable {α : Type}

/-! ### Children of the root -/

theorem pushTail_children {d count : Nat} {st : Option (List Nat)} {cs : List (Node α)}
    {t n : Node α} (h : pushTail (d + 1) count (.internal st cs) t = some n) :
    ∃ cs', n = .internal none cs' ∧ cs.length ≤ cs'.length := by
  cases d with
  | zero =>
    simp only [pushTail] at h
    split at h
    · cases h
      exact ⟨_, rfl, by simp⟩
    · cases h
  | succ d =>
    simp only [pushTail] at h
    split at h
    · split at h
      · obtain ⟨c, -, h⟩ := Option.bind_eq_some_iff.mp h
        cases h
        exact ⟨_, rfl, by simp⟩
      · cases h
        exact ⟨_, rfl, by simp⟩
    · cases h

section
variable [Zero α]

theorem setInTree_children {d i : Nat} {x : α} {st : Option (List Nat)} {cs : List (Node α)}
    {n : Node α} (h : setInTree (d + 1) (.internal st cs) i x = some n) :
    ∃ cs', n = .internal st cs' ∧ cs'.length = cs.length := by
  simp only [setInTree, Option.bind_eq_bind, Option.bind_eq_some_iff] at h
  obtain ⟨⟨slot, childIndex⟩, -, newChild, -, h⟩ := h
  cases h
  exact ⟨_, rfl, List.length_set⟩

/-- `RV_SET_IN_TREE` is defined at every index of a tree that can be shifted through. -/
theorem setInTree_defined {h : Nat} {n : Node α} (hn : Indexable h n) (hh : h ≤ 6) {i : Nat}
    (hi : i < (elems h n).length) (x : α) : ∃ n', setInTree h n i x = some n' := by
  induction h generalizing n i with
  | zero =>
    cases n with
    | null => exact hn.elim
    | internal st cs => exact hn.elim
    | leaf l =>
      rw [elems_leaf, hn.1.length_take] at hi
      exact ⟨_, by rw [setInTree, if_pos (Nat.lt_of_lt_of_le hi hn.1.2)]⟩
  | succ h ih =>
    obtain ⟨st, cs, rfl⟩ := hn.internal
    obtain ⟨k, j, c, hslot, hc, hj, -⟩ := slotAt_spec hn (fun _ => by rw [bits]; omega) hi
    obtain ⟨c', hset⟩ := ih (hn.2.2.1 c (List.mem_of_getElem? hc)) (by omega) hj
    refine ⟨.internal st (cs.set k c'), ?_⟩
    rw [setInTree, hslot]
    simp only [Option.bind_eq_bind, Option.bind_some]
    rw [List.getD_eq_getElem?_getD, hc, Option.getD_some, hset]
    rfl

/-! ### Operations that keep a vector good -/

/-- **`jvec_push_back`.** -/
theorem Good.pushBack {r : Root α} (hr : Good r) (hfit : PushFits r) (x : α) :
    ∃ v, pushBack r x = some v ∧ Good v ∧ v.toList = r.toList ++ [x] := by
  by_cases htail : r.tail.count < branch
  · obtain ⟨v, hpush, hv, hl, hroot, hdepth, -⟩ := pushBack_tail hr.valid htail hfit.1 x
    exact ⟨v, hpush, ⟨hv, by rw [hdepth]; exact hr.depth, by rw [hroot, hdepth]; exact hr.wide⟩, hl⟩
  · obtain ⟨v, hpush, hv, hl, -, hd, -⟩ := pushBack_full hr.valid hfit htail x
    refine ⟨v, hpush, ⟨hv, hd, ?_⟩, hl⟩
    obtain ⟨h, hh⟩ := hr.pos_of_tree
    simp only [RrbVec.pushBack] at hpush
    rw [if_neg htail] at hpush
    intro hdeep
    rcases hr.valid.tree with ⟨hnull, hone⟩ | hI
    · rw [hnull] at hpush
      cases hpush
      exact absurd (show 2 ≤ r.depth from hdeep) (by omega)
    · rw [hh] at hI
      obtain ⟨st, cs, hroot⟩ := hI.internal
      rw [hroot] at hpush
      simp only at hpush
      split at hpush
      · split at hpush
        · cases hpush
          exact ⟨_, _, rfl, show 2 ≤ 2 by omega⟩
        · obtain ⟨n, hn, hpush⟩ := Option.bind_eq_some_iff.mp hpush
          cases hpush
          rw [hh] at hn
          obtain ⟨cs', rfl, hlen⟩ := pushTail_children hn
          obtain ⟨st', cs₀, hroot', hwide⟩ := hr.wide hdeep
          rw [hroot] at hroot'
          cases hroot'
          exact ⟨none, cs', rfl, hwide.trans hlen⟩
      · cases hpush

/-- **`jvec_set`** of an in-range index. -/
theorem Good.set {r : Root α} (hr : Good r) {i : Nat} (hi : i < r.count) (x : α) :
    ∃ v, RrbVec.set r i x = some (some v) ∧ Good v ∧ v.toList = r.toList.set i x := by
  have hoff := hr.valid.tailOffset_eq
  obtain ⟨v, hset, hroot⟩ : ∃ v, RrbVec.set r i x = some (some v) ∧
      (v.root = r.root ∨ setInTree r.depth r.root i x = some v.root) := by
    by_cases htail : tailOffset r ≤ i
    · refine ⟨{ r with tail := ⟨r.tail.count, (copyLeaf r.tail).elements.set (i - tailOffset r) x⟩ },
        ?_, .inl rfl⟩
      rw [RrbVec.set, if_neg (by omega), if_pos htail]
    · have hlt : i < (elems r.depth r.root).length := by omega
      obtain ⟨n, hn⟩ := setInTree_defined (hr.valid.indexable hlt) hr.depth hlt x
      refine ⟨{ r with root := n, tail := copyLeaf r.tail }, ?_, .inr hn⟩
      rw [RrbVec.set, if_neg (by omega), if_neg htail, hn]
      rfl
  obtain ⟨hv, hl, hd⟩ := set_spec hr.valid hset
  refine ⟨v, hset, ⟨hv, by rw [hd]; exact hr.depth, ?_⟩, hl⟩
  rw [hd]
  rcases hroot with hroot | hroot
  · rw [hroot]
    exact hr.wide
  · intro hdeep
    obtain ⟨st, cs, hcs, hlen⟩ := hr.wide hdeep
    obtain ⟨h, hh⟩ := hr.pos_of_tree
    rw [hcs, hh] at hroot
    obtain ⟨cs', hcs', hlen'⟩ := setInTree_children hroot
    exact ⟨st, cs', hcs', by rw [hlen']; exact hlen⟩

omit [Zero α] in
theorem pushTailFull_wide {r : Root α} (hr : Good r) {n : Node α} {d : Nat}
    (h : pushTailFull r = some (n, d)) : Wide d n := by
  intro hdeep
  obtain ⟨k, hk⟩ := hr.pos_of_tree
  rcases hr.valid.tree with ⟨hnull, -⟩ | hI
  · rw [pushTailFull, hnull] at h
    cases h
    omega
  · rw [hk] at hI
    obtain ⟨st, cs, hroot⟩ := hI.internal
    rw [hroot] at hI
    have hpos := List.length_pos_iff.mpr hI.1
    simp only [pushTailFull, hroot, Option.bind_eq_bind, Option.bind_eq_some_iff] at h
    obtain ⟨count, -, h⟩ := h
    split at h
    · obtain ⟨table, -, h⟩ := Option.bind_eq_some_iff.mp h
      cases h
      refine ⟨_, _, rfl, ?_⟩
      rw [List.length_append, List.length_singleton]
      omega
    · cases h
      exact ⟨_, _, rfl, show 2 ≤ 2 by omega⟩

/-- **`jvec_concat`** of two vectors that fit. -/
theorem Good.concat {a b : Root α} (ha : Good a) (hb : Good b) (hfit : ConcatFits a b) :
    ∃ v, concat a b = some v ∧ Good v ∧ v.toList = a.toList ++ b.toList := by
  obtain ⟨v, hcat, hv, hl, hdepth⟩ := concat_spec ha.valid hb.valid hfit.1
  have hd : v.depth ≤ 6 := by
    have := hfit.2
    rw [← hdepth, bits] at this
    omega
  refine ⟨v, hcat, ⟨hv, hd, ?_⟩, hl⟩
  rw [RrbVec.concat] at hcat
  split at hcat
  · cases hcat
    exact hb.wide
  split at hcat
  · cases hcat
    exact ha.wide
  obtain ⟨⟨n, d⟩, hpush, hcat⟩ := Option.bind_eq_some_iff.mp hcat
  have hwide := pushTailFull_wide ha hpush
  simp only at hcat
  split at hcat
  · cases hcat
    exact hwide
  · cases hcat
    exact fun _ => ⟨_, _, rfl, show 2 ≤ 2 by omega⟩

/-! ### Runs -/

/-- Which steps a run may take. -/
structure Steps (α : Type) where
  array : List α → Prop
  push : Root α → Prop
  concat : Root α → Root α → Prop
  pop : Root α → Prop

/-- **A vector some run builds** with steps of `S`. -/
inductive Built (S : Steps α) : Root α → Prop
  | empty : Built S RrbVec.empty
  | fromArray {xs : List α} {v : Root α} : S.array xs → fromArray xs = some v → Built S v
  | push {v v' : Root α} {x : α} : Built S v → S.push v → pushBack v x = some v' → Built S v'
  | set {v v' : Root α} {i : Nat} {x : α} :
      Built S v → RrbVec.set v i x = some (some v') → Built S v'
  | concat {a b v : Root α} :
      Built S a → Built S b → S.concat a b → RrbVec.concat a b = some v → Built S v
  | pop {v v' : Root α} {x : α} : Built S v → S.pop v → popBack v = some (some (x, v')) → Built S v'
  | slice {v v' : Root α} {start stop : Nat} :
      Built S v → slice v start stop = some (some v') → Built S v'

/-- The steps that fit. -/
def fitting : Steps α := ⟨ArrayFits, PushFits, ConcatFits, PopFits⟩

/-- Every step. -/
def anyStep : Steps α := ⟨fun _ => True, fun _ => True, fun _ _ => True, fun _ => True⟩

/-- **Every vector of a run of fitting steps is good.** -/
theorem Built.good {v : Root α} (hv : Built fitting v) : Good v := by
  induction hv with
  | empty => exact good_empty
  | fromArray hfit h =>
    obtain ⟨v', h', hgood, -⟩ := fromArray_spec hfit
    exact Option.some.inj (h'.symm.trans h) ▸ hgood
  | push _ hfit h ih =>
    obtain ⟨v', h', hgood, -⟩ := ih.pushBack hfit _
    exact Option.some.inj (h'.symm.trans h) ▸ hgood
  | @set v v' i x _ h ih =>
    have hi : i < v.count := by
      by_contra hge
      rw [RrbVec.set, if_pos (by omega)] at h
      cases h
    obtain ⟨w, h', hgood, -⟩ := ih.set hi x
    exact Option.some.inj (Option.some.inj (h'.symm.trans h)) ▸ hgood
  | concat _ _ hfit h iha ihb =>
    obtain ⟨v', h', hgood, -⟩ := iha.concat ihb hfit
    exact Option.some.inj (h'.symm.trans h) ▸ hgood
  | @pop v v' x _ hfit h ih =>
    have hne : v.count ≠ 0 := by
      intro h0
      rw [popBack, if_pos h0] at h
      cases h
    obtain ⟨y, w, h', hgood, -⟩ := popBack_spec ih hne hfit
    have := Option.some.inj (Option.some.inj (h'.symm.trans h))
    exact (Prod.mk.inj this).2 ▸ hgood
  | @slice v v' start stop _ h ih =>
    have hin : start < stop ∧ stop ≤ v.count := by
      by_contra hout
      rw [RrbVec.slice, if_pos (by omega)] at h
      cases h
    obtain ⟨w, h', hgood, -⟩ := slice_spec ih hin.1 hin.2
    exact Option.some.inj (Option.some.inj (h'.symm.trans h)) ▸ hgood

/-! ### `jvec_insert` and `jvec_remove` -/

/-- **When an insertion fits**: the concatenations it makes do. -/
def InsertFits (r : Root α) (i : Nat) (x : α) : Prop :=
  ∀ s, pushBack RrbVec.empty x = some s →
    if i = 0 then
      ConcatFits s r
    else if i = r.count then
      ConcatFits r s
    else
      ∀ left right, slice r 0 i = some (some left) → slice r i r.count = some (some right) →
        ConcatFits left s ∧ ∀ tmp, concat left s = some tmp → ConcatFits tmp right

/-- **When a removal fits**: the concatenation it makes in the middle does. -/
def RemoveFits (r : Root α) (i : Nat) : Prop :=
  r.count = 1 ∨ i = 0 ∨ i = r.count - 1 ∨
    ∀ left right, slice r 0 i = some (some left) → slice r (i + 1) r.count = some (some right) →
      ConcatFits left right

omit [Zero α] in
/-- Inserting in a list, as the two parts around the element. -/
theorem insertIdx_eq {xs : List α} {i : Nat} (hi : i ≤ xs.length) (x : α) :
    xs.insertIdx i x = xs.take i ++ x :: xs.drop i := by
  induction xs generalizing i with
  | nil =>
    rw [List.length_nil, Nat.le_zero] at hi
    subst hi
    rfl
  | cons y xs ih =>
    cases i with
    | zero => rfl
    | succ i =>
      rw [List.insertIdx_succ_cons, ih (Nat.le_of_succ_le_succ hi)]
      rfl

theorem pushFits_empty : PushFits (RrbVec.empty : Root α) :=
  ⟨show 0 + 1 < 2 ^ 32 by omega, .inl (show 0 < 32 by omega)⟩

namespace Built
variable {v : Root α}

/-- A fitting slice in range. -/
theorem slices (hv : Built fitting v) {start stop : Nat} (hlt : start < stop)
    (hstop : stop ≤ v.count) :
    ∃ v', RrbVec.slice v start stop = some (some v') ∧ Built fitting v' ∧
      v'.toList = (v.toList.drop start).take (stop - start) := by
  obtain ⟨v', hslice, -, hl⟩ := slice_spec hv.good hlt hstop
  exact ⟨v', hslice, hv.slice hslice, hl⟩

theorem slices_left (hv : Built fitting v) {i : Nat} (hpos : 0 < i) (hi : i ≤ v.count) :
    ∃ v', RrbVec.slice v 0 i = some (some v') ∧ Built fitting v' ∧ v'.toList = v.toList.take i := by
  obtain ⟨v', hslice, hb, hl⟩ := hv.slices hpos hi
  exact ⟨v', hslice, hb, by rw [hl, List.drop_zero, Nat.sub_zero]⟩

theorem slices_right (hv : Built fitting v) {i : Nat} (hi : i < v.count) :
    ∃ v', RrbVec.slice v i v.count = some (some v') ∧ Built fitting v' ∧
      v'.toList = v.toList.drop i := by
  obtain ⟨v', hslice, hb, hl⟩ := hv.slices hi (Nat.le_refl _)
  refine ⟨v', hslice, hb, ?_⟩
  rw [hl, hv.good.valid.count_eq, List.take_of_length_le (Nat.le_of_eq List.length_drop)]

/-- A fitting concatenation. -/
theorem concats {a b : Root α} (ha : Built fitting a) (hb : Built fitting b)
    (hfit : ConcatFits a b) :
    ∃ v, RrbVec.concat a b = some v ∧ Built fitting v ∧ v.toList = a.toList ++ b.toList := by
  obtain ⟨v, hcat, -, hl⟩ := ha.good.concat hb.good hfit
  exact ⟨v, hcat, ha.concat hb hfit hcat, hl⟩

/-- **`jvec_insert`** inserts. -/
theorem inserts (hv : Built fitting v) {i : Nat} (hi : i ≤ v.count) {x : α}
    (hfit : InsertFits v i x) :
    ∃ v', insert v i x = some (some v') ∧ Built fitting v' ∧
      v'.toList = v.toList.insertIdx i x := by
  have hcount := hv.good.valid.count_eq
  obtain ⟨s, hs, -, hsl⟩ := good_empty.pushBack pushFits_empty x
  have hsb : Built fitting s := .push .empty pushFits_empty hs
  have hnil : (RrbVec.empty : Root α).toList = [] := by simp [Root.toList, RrbVec.empty, mkLeaf]
  rw [hnil, List.nil_append] at hsl
  have hfit := hfit s hs
  by_cases hzero : i = 0
  · rw [if_pos hzero] at hfit
    obtain ⟨v', hcat, hb, hl⟩ := hsb.concats hv hfit
    refine ⟨v', ?_, hb, by rw [hl, hsl, hzero]; rfl⟩
    rw [RrbVec.insert, if_neg (by omega), hs, Option.bind_eq_bind, Option.bind_some, if_pos hzero,
      hcat]
    rfl
  rw [if_neg hzero] at hfit
  by_cases hend : i = v.count
  · rw [if_pos hend] at hfit
    obtain ⟨v', hcat, hb, hl⟩ := hv.concats hsb hfit
    refine ⟨v', ?_, hb, by rw [hl, hsl, hend, hcount, List.insertIdx_length_self]⟩
    rw [RrbVec.insert, if_neg (by omega), hs, Option.bind_eq_bind, Option.bind_some, if_neg hzero,
      if_pos hend, hcat]
    rfl
  rw [if_neg hend] at hfit
  obtain ⟨left, hleft, hlb, hll⟩ := hv.slices_left (show 0 < i by omega) hi
  obtain ⟨right, hright, hrb, hrl⟩ := hv.slices_right (show i < v.count by omega)
  obtain ⟨hfit₁, hfit₂⟩ := hfit left right hleft hright
  obtain ⟨tmp, htmp, htb, htl⟩ := hlb.concats hsb hfit₁
  obtain ⟨v', hcat, hb, hl⟩ := htb.concats hrb (hfit₂ tmp htmp)
  refine ⟨v', ?_, hb, ?_⟩
  · rw [RrbVec.insert, if_neg (by omega), hs, Option.bind_eq_bind, Option.bind_some, if_neg hzero,
      if_neg hend, hleft, Option.bind_eq_bind, Option.bind_some, hright, Option.bind_some,
      Option.getD_some, Option.getD_some, htmp, Option.bind_some, hcat]
    rfl
  · rw [hl, htl, hll, hsl, hrl, List.append_assoc, List.singleton_append]
    exact (insertIdx_eq (by omega) x).symm

/-- **`jvec_remove`** removes. -/
theorem removes (hv : Built fitting v) {i : Nat} (hi : i < v.count) (hfit : RemoveFits v i) :
    ∃ x v', remove v i = some (some (x, some v')) ∧ v.toList[i]? = some x ∧ Built fitting v' ∧
      v'.toList = v.toList.eraseIdx i := by
  have hcount := hv.good.valid.count_eq
  obtain ⟨x, hx⟩ : ∃ x, v.toList[i]? = some x :=
    ⟨_, List.getElem?_eq_getElem (by omega)⟩
  have herase : v.toList.eraseIdx i = v.toList.take i ++ v.toList.drop (i + 1) :=
    List.eraseIdx_eq_take_drop_succ _ _
  -- the value is read first, whatever happens next
  have hread : ∀ {res : Option (Root α)},
      (if v.count = 1 then some (some RrbVec.empty)
        else if i = 0 then RrbVec.slice v 1 v.count
        else if i = v.count - 1 then RrbVec.slice v 0 (v.count - 1)
        else (RrbVec.slice v 0 i).bind fun left => (RrbVec.slice v (i + 1) v.count).bind fun right =>
          (RrbVec.concat (left.getD RrbVec.empty) (right.getD RrbVec.empty)).map some) = some res →
      remove v i = some (some (x, res)) := by
    intro res hres
    rw [remove, if_neg (by omega), hv.good.get, hx]
    simp only [Option.bind_eq_bind, Option.bind_some]
    rw [hres]
    rfl
  by_cases hone : v.count = 1
  · refine ⟨x, RrbVec.empty, hread (if_pos hone), hx, .empty, ?_⟩
    rw [herase, show i = 0 by omega, List.drop_of_length_le (by omega)]
    simp [Root.toList, RrbVec.empty, mkLeaf]
  by_cases hzero : i = 0
  · obtain ⟨v', hslice, hb, hl⟩ := hv.slices_right (show 1 < v.count by omega)
    refine ⟨x, v', hread (by rw [if_neg hone, if_pos hzero, hslice]), hx, hb, ?_⟩
    rw [hl, herase, hzero]
    rfl
  by_cases hend : i = v.count - 1
  · obtain ⟨v', hslice, hb, hl⟩ := hv.slices_left (show 0 < v.count - 1 by omega) (by omega)
    refine ⟨x, v', hread (by rw [if_neg hone, if_neg hzero, if_pos hend, hslice]), hx, hb, ?_⟩
    rw [hl, herase, ← hend, List.drop_of_length_le (by omega), List.append_nil]
  · have hfit := ((hfit.resolve_left hone).resolve_left hzero).resolve_left hend
    obtain ⟨left, hleft, hlb, hll⟩ := hv.slices_left (show 0 < i by omega) (by omega)
    obtain ⟨right, hright, hrb, hrl⟩ := hv.slices_right (show i + 1 < v.count by omega)
    obtain ⟨v', hcat, hb, hl⟩ := hlb.concats hrb (hfit left right hleft hright)
    refine ⟨x, v', hread ?_, hx, hb, by rw [hl, hll, hrl, herase]⟩
    rw [if_neg hone, if_neg hzero, if_neg hend, hleft, Option.bind_some, hright, Option.bind_some,
      Option.getD_some, Option.getD_some, hcat]
    rfl

end Built

/-! ### What a vector denotes -/

/-- **Every operation on the vector denotes the list operation**, for every argument
in range, and gives a vector of a run of fitting steps. -/
structure Denotes (v : Root α) : Prop where
  count : v.count = v.toList.length
  get : ∀ i, get v i = some v.toList[i]?
  iter : ∃ it, iterInit v = some it ∧ iterAll (v.count + 1) it = some v.toList
  push : ∀ x, PushFits v →
    ∃ v', pushBack v x = some v' ∧ Built fitting v' ∧ v'.toList = v.toList ++ [x]
  set : ∀ i < v.count, ∀ x,
    ∃ v', set v i x = some (some v') ∧ Built fitting v' ∧ v'.toList = v.toList.set i x
  concat : ∀ w, Built fitting w → ConcatFits v w →
    ∃ v', concat v w = some v' ∧ Built fitting v' ∧ v'.toList = v.toList ++ w.toList
  pop : v.count ≠ 0 → PopFits v → ∃ x v', popBack v = some (some (x, v')) ∧ Built fitting v' ∧
    v.toList.getLast? = some x ∧ v'.toList = v.toList.dropLast
  slice : ∀ start stop, start < stop → stop ≤ v.count →
    ∃ v', slice v start stop = some (some v') ∧ Built fitting v' ∧
      v'.toList = (v.toList.drop start).take (stop - start)
  insert : ∀ i ≤ v.count, ∀ x, InsertFits v i x →
    ∃ v', insert v i x = some (some v') ∧ Built fitting v' ∧ v'.toList = v.toList.insertIdx i x
  remove : ∀ i < v.count, RemoveFits v i →
    ∃ x v', remove v i = some (some (x, some v')) ∧ v.toList[i]? = some x ∧ Built fitting v' ∧
      v'.toList = v.toList.eraseIdx i

/-- **Vectors denote lists, over every run**: an array that can be cut into leaves
gives its list, and every vector of a run whose steps fit denotes its own. -/
theorem built_denotes :
    (∀ xs : List α, ArrayFits xs →
      ∃ v, fromArray xs = some v ∧ Built fitting v ∧ v.toList = xs) ∧
      ∀ v : Root α, Built fitting v → Denotes v := by
  refine ⟨fun xs hfit => ?_, fun v hv => ?_⟩
  · obtain ⟨v, hfrom, -, hl⟩ := fromArray_spec hfit
    exact ⟨v, hfrom, .fromArray hfit hfrom, hl⟩
  · have hgood := hv.good
    refine ⟨hgood.valid.count_eq, hgood.get, iterAll_spec hgood.valid hgood.depth, ?_, ?_, ?_, ?_,
      fun _ _ hlt hstop => hv.slices hlt hstop, fun _ hi _ hfit => hv.inserts hi hfit,
      fun _ hi hfit => hv.removes hi hfit⟩
    · intro x hfit
      obtain ⟨v', hpush, -, hl⟩ := hgood.pushBack hfit x
      exact ⟨v', hpush, hv.push hfit hpush, hl⟩
    · intro i hi x
      obtain ⟨v', hset, -, hl⟩ := hgood.set hi x
      exact ⟨v', hset, hv.set hset, hl⟩
    · intro w hw hfit
      exact hv.concats hw hfit
    · intro hne hfit
      obtain ⟨x, v', hpop, -, hl⟩ := popBack_spec hgood hne hfit
      exact ⟨x, v', hpop, hv.pop hfit hpop, by rw [hl, List.getLast?_concat],
        by rw [hl, List.dropLast_concat]⟩

/-- An array of 70 elements: two full leaves, and a tail. -/
theorem built_denotes_70 : ∃ v : Root Nat, fromArray (List.range 70) = some v ∧ Denotes v := by
  obtain ⟨v, hfrom, hb, -⟩ := built_denotes.1 (List.range 70)
    (show (List.range 70).length + 31 < 2 ^ 32 by simp)
  exact ⟨v, hfrom, built_denotes.2 v hb⟩

/-- A pop that leaves a stale table: 33 elements and 65 are concatenated and the last
one is popped, which takes a leaf from below the root.  After a concatenation the
element at index 65 is looked for in the first of two trees, and not found. -/
theorem not_denotes :
    ∃ c d v w u : Root Nat, fromArray (List.range 33) = some c ∧
      fromArray (List.range 65) = some d ∧ concat c d = some v ∧ popBack v = some (some (64, w)) ∧
      concat w c = some u ∧ Built anyStep u ∧ u.count = 130 ∧
      (v.toList.dropLast ++ c.toList)[65]? = some 32 ∧ get u 65 = none := by
  have heval : ((fromArray (List.range 33)).bind fun c => (fromArray (List.range 65)).bind fun d =>
      (concat c d).bind fun v => (popBack v).bind fun p => p.bind fun p =>
        (concat p.2 c).map fun u =>
          (p.1, u.count, (v.toList.dropLast ++ c.toList)[65]?, get u 65)) =
      some (64, 130, some 32, none) := by
    decide +kernel
  simp only [Option.bind_eq_some_iff, Option.map_eq_some_iff] at heval
  obtain ⟨c, hc, d, hd, v, hv, _, hp, ⟨x, w⟩, rfl, u, hu, heq⟩ := heval
  obtain ⟨rfl, hcount, hlist, hget⟩ : x = 64 ∧ u.count = 130 ∧
      (v.toList.dropLast ++ c.toList)[65]? = some 32 ∧ get u 65 = none := by
    simpa using heq
  have hcb : Built anyStep c := .fromArray trivial hc
  have hvb : Built anyStep v := hcb.concat (.fromArray trivial hd) trivial hv
  exact ⟨c, d, v, w, u, hc, hd, hv, hp, hu, (hvb.pop trivial hp).concat hcb trivial hu, hcount,
    hlist, hget⟩

end

end Jacl.RrbVec
