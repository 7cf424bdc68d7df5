import Jacl.RrbVecPush

/-!
# Setting an element and concatenating vectors

`jvec_set` copies one path; it keeps every count, hence the shape of the tree
(`set_spec`).

`jvec_concat` pushes the left tail into the left tree as a new child of the root
(`RV_PUSH_TAIL_FULL`), stacks single-child nodes on the lower of the two trees and
puts both under a relaxed node.  The counts it writes into the new size tables are
those of the subtrees, so the result is valid and denotes the concatenation
(`concat_spec`), at any depth.  Each merge of two trees adds a level, though:
`concatDepth` is the depth of the result.
-/

namespace Jacl.RrbVec
open Segments

variable {α : Type}

/-! ### `jvec_set` -/

theorem counts_set {h k : Nat} {cs : List (Node α)} {c c' : Node α} (hc : cs[k]? = some c)
    (hlen : (elems h c').length = (elems h c).length) : counts h (cs.set k c') = counts h cs := by
  obtain ⟨hk, rfl⟩ := List.getElem?_eq_some_iff.mp hc
  rw [counts, counts, List.map_set, hlen]
  refine List.ext_getElem (by simp) fun i h1 h2 => ?_
  by_cases hik : k = i
  · subst hik; simp
  · rw [List.getElem_set_ne hik]

section
variable [Zero α]

theorem elems_set_leaf {l : Leaf α} (hl : l.Ok) (i : Nat) (x : α) :
    ((copyLeaf l).elements.set i x).take l.count = (l.elements.take l.count).set i x := by
  rw [List.take_set, take_copyLeaf hl]

/-- **`RV_SET_IN_TREE`**: where it is defined, it updates the indexed element and
keeps the tree readable. -/
theorem setInTree_spec {h : Nat} {n n' : Node α} (hn : Indexable h n) {i : Nat} {x : α}
    (hi : i < (elems h n).length) (hset : setInTree h n i x = some n') :
    Indexable h n' ∧ elems h n' = (elems h n).set i x ∧
      ∀ cs', n' = .internal none cs' → ∃ cs, n = .internal none cs := by
  induction h generalizing n n' i with
  | zero =>
    cases n with
    | null => exact hn.elim
    | internal st cs => exact hn.elim
    | leaf l =>
      simp only [setInTree] at hset
      split at hset
      · obtain rfl := Option.some.inj hset
        refine ⟨⟨⟨?_, hn.1.2⟩, hn.2⟩, ?_, fun cs' he => by cases he⟩
        · rw [List.length_set]; exact (copyLeaf_ok hn.1).1
        · exact elems_set_leaf hn.1 i x
      · cases hset
  | succ h ih =>
    obtain ⟨st, cs, rfl⟩ := hn.internal
    simp only [setInTree, Option.bind_eq_bind, Option.bind_eq_some_iff] at hset
    obtain ⟨⟨slot, childIndex⟩, hslot, newChild, hchild, hres⟩ := hset
    obtain rfl := Option.some.inj hres
    -- a strict node has shifted by its level, so the level is below 32
    have hshift : st = none → bits * (h + 1) < 32 := by
      rintro rfl
      by_contra hge
      rw [slotAt, if_neg hge] at hslot
      cases hslot
    obtain ⟨k, j, c, hk, hc, hj, hpos⟩ := slotAt_spec hn hshift hi
    obtain ⟨rfl, rfl⟩ : k = slot ∧ j = childIndex := by
      have := hk.symm.trans hslot
      simpa using this
    rw [List.getD_eq_getElem?_getD, hc, Option.getD_some] at hchild
    obtain ⟨hI, he, -⟩ := ih (hn.2.2.1 c (List.mem_of_getElem? hc)) hj hchild
    have hcounts : counts h (cs.set k newChild) = counts h cs :=
      counts_set hc (by rw [he, List.length_set])
    refine ⟨⟨?_, by simpa using hn.2.1, ?_, by rw [hcounts]; exact hn.2.2.2⟩, ?_, ?_⟩
    · exact fun h0 => hn.1 (List.length_eq_zero_iff.mp (by
        have := congrArg List.length h0
        simpa using this))
    · intro d hd
      rcases List.mem_or_eq_of_mem_set hd with hd | rfl
      · exact hn.2.2.1 d hd
      · exact hI
    · have hs : (cs.map (elems h))[k]? = some (elems h c) := by rw [List.getElem?_map, hc]; rfl
      have := flatten_set (x := x) hs hj
      rw [← List.map_take, ← List.flatMap_def, ← List.flatMap_def, hpos] at this
      rw [elems_internal, elems_internal, ← this, List.flatMap_def, List.map_set, he]
    · intro cs' hcs'
      cases hcs'
      exact ⟨cs, rfl⟩

/-- **`jvec_set` updates the list.** -/
theorem set_spec {r r' : Root α} (hr : Valid r) {i : Nat} {x : α}
    (hset : set r i x = some (some r')) :
    Valid r' ∧ r'.toList = r.toList.set i x ∧ r'.depth = r.depth := by
  have hsplit := hr.count_split
  unfold set at hset
  rw [hr.tailOffset_eq] at hset
  split at hset
  · cases hset
  · rename_i hi
    split at hset
    · rename_i hle
      obtain rfl := Option.some.inj (Option.some.inj hset)
      have hok : (⟨r.tail.count, (copyLeaf r.tail).elements.set
          (i - (elems r.depth r.root).length) x⟩ : Leaf α).Ok :=
        ⟨by rw [List.length_set]; exact (copyLeaf_ok hr.tail_ok).1, hr.tail_ok.2⟩
      have hlist : ({ r with tail := ⟨r.tail.count, (copyLeaf r.tail).elements.set
          (i - (elems r.depth r.root).length) x⟩ } : Root α).toList = r.toList.set i x := by
        rw [Root.toList, Root.toList, List.set_append_right _ _ hle]
        exact congrArg _ (elems_set_leaf hr.tail_ok _ x)
      exact ⟨⟨hr.depth_pos, hr.tree, hr.strict, hok, hr.tail_pos,
        by rw [hlist, List.length_set]; exact hr.count_eq, hr.bound⟩, hlist, rfl⟩
    · rename_i hlt
      simp only [Option.bind_eq_bind, Option.bind_eq_some_iff] at hset
      obtain ⟨newTree, htree, hres⟩ := hset
      obtain rfl := Option.some.inj (Option.some.inj hres)
      have hlt : i < (elems r.depth r.root).length := by omega
      have hn : Indexable r.depth r.root := by
        rcases hr.tree with ⟨h0, -⟩ | hn
        · rw [h0, elems_null] at hlt
          exact absurd hlt (Nat.not_lt_zero _)
        · exact hn
      obtain ⟨hI, he, hstrict⟩ := setInTree_spec hn hlt htree
      have hlist : ({ r with root := newTree, tail := copyLeaf r.tail } : Root α).toList =
          r.toList.set i x := by
        rw [Root.toList, Root.toList, List.set_append_left _ _ hlt, ← he]
        exact congrArg _ (take_copyLeaf hr.tail_ok)
      refine ⟨⟨hr.depth_pos, .inr hI, fun cs hcs => ?_, copyLeaf_ok hr.tail_ok, hr.tail_pos,
        by rw [hlist, List.length_set]; exact hr.count_eq, hr.bound⟩, hlist, rfl⟩
      obtain ⟨cs₀, h0⟩ := hstrict cs hcs
      exact hr.strict cs₀ h0

end

/-! ### `jvec_concat` -/

theorem sum_counts (h : Nat) (cs : List (Node α)) :
    (counts h cs).sum = (cs.flatMap (elems h)).length := by
  rw [List.flatMap_def, List.length_flatten, List.map_map]
  rfl

/-- **`RV_SUBTREE_COUNT`** counts the elements below a node. -/
theorem subtreeCount_spec {h : Nat} {n : Node α} (hn : Indexable h n) (hh : h ≤ 6)
    (hb : (elems h n).length < 2 ^ 32) : subtreeCount h n = some (elems h n).length := by
  induction h generalizing n with
  | zero =>
    cases n with
    | null => exact hn.elim
    | internal st cs => exact hn.elim
    | leaf l => rw [subtreeCount, elems_leaf, hn.1.length_take]
  | succ h ih =>
    obtain ⟨st, cs, rfl⟩ := hn.internal
    cases st with
    | some table =>
      have htable : table = cumulative 0 (counts h cs) := hn.2.2.2
      have hne : counts h cs ≠ [] := by simpa [counts] using hn.1
      have hlast := getElem?_cumulative_last (a := 0) hne
      rw [counts, List.length_map] at hlast
      rw [subtreeCount, htable, counts, hlast, Nat.zero_add, elems_internal, ← sum_counts, counts]
    | none =>
      obtain ⟨init, c, rfl⟩ := hn.concat_children
      have hcI : Indexable h c := hn.2.2.1 c (by simp)
      have hfull : ∀ s ∈ init.map (elems h), s.length = 2 ^ (bits * (h + 1)) := by
        intro s hs
        obtain ⟨d, hd', rfl⟩ := List.mem_map.mp hs
        refine hn.2.2.2 _ ?_
        rw [counts, List.map_append, List.map_singleton, List.dropLast_concat]
        exact List.mem_map_of_mem hd'
      have hlen : (elems (h + 1) (.internal none (init ++ [c]))).length =
          init.length * 2 ^ (bits * (h + 1)) + (elems h c).length := by
        rw [elems_internal, List.flatMap_append, List.length_append, List.flatMap_def,
          length_flatten_const hfull, List.length_map]
        simp
      have hc := ih hcI (by omega) (by omega)
      simp only [subtreeCount]
      rw [if_pos (by rw [bits]; omega), List.getD_eq_getElem?_getD]
      simp only [List.length_append, List.length_singleton, Nat.add_sub_cancel,
        List.getElem?_concat_length, Option.getD_some, hc, Option.bind_eq_bind, Option.bind_some,
        Nat.shiftLeft_eq, Nat.one_mul]
      rw [← hlen, Nat.mod_eq_of_lt hb]

theorem buildSizeTable_spec {h : Nat} {cs : List (Node α)} (hcs : ∀ c ∈ cs, Indexable h c)
    (hh : h ≤ 6) {cum : Nat} (hb : cum + (cs.flatMap (elems h)).length < 2 ^ 32) :
    buildSizeTable h cum cs = some (cumulative cum (counts h cs)) := by
  induction cs generalizing cum with
  | nil => rfl
  | cons c cs ih =>
    rw [List.flatMap_cons, List.length_append] at hb
    have hmod : (cum + (elems h c).length) % 2 ^ 32 = cum + (elems h c).length :=
      Nat.mod_eq_of_lt (by omega)
    rw [buildSizeTable, subtreeCount_spec (hcs c List.mem_cons_self) hh (by omega)]
    simp only [Option.bind_eq_bind, Option.bind_some]
    rw [hmod, ih (fun d hd => hcs d (List.mem_cons_of_mem _ hd)) (by omega)]
    rfl

/-- Two trees of one depth under a relaxed node. -/
theorem relaxed_pair {h : Nat} {a b : Node α} (ha : Indexable h a) (hb : Indexable h b) :
    Indexable (h + 1) (.internal
      (some [(elems h a).length, (elems h a).length + (elems h b).length]) [a, b]) := by
  refine ⟨by simp, show 2 ≤ branch by decide, ?_, by simp [TableFits, counts, cumulative]⟩
  intro c hc
  rcases List.mem_pair.mp hc with rfl | rfl
  · exact ha
  · exact hb

/-- One more child, with its cumulative count, in a relaxed node. -/
theorem relaxed_append {h : Nat} {cs : List (Node α)} {c : Node α} (hlen : cs.length < branch)
    (hcs : ∀ d ∈ cs, Indexable h d) (hc : Indexable h c) :
    Indexable (h + 1) (.internal
      (some (cumulative 0 (counts h cs) ++ [(cs.flatMap (elems h)).length + (elems h c).length]))
      (cs ++ [c])) := by
  refine ⟨by simp, by simpa using hlen, ?_, ?_⟩
  · intro d hd
    rcases List.mem_append.mp hd with hd | hd
    · exact hcs d hd
    · exact List.mem_singleton.mp hd ▸ hc
  · have happ : counts h (cs ++ [c]) = counts h cs ++ [(elems h c).length] := by simp [counts]
    simp only [TableFits]
    rw [happ, cumulative_append, sum_counts, Nat.zero_add]
    rfl

/-- The depth of the tree `RV_PUSH_TAIL_FULL` returns. -/
def fullDepth (r : Root α) : Nat :=
  match r.root with
  | .null => 1
  | .leaf _ => r.depth
  | .internal _ children => if children.length < branch then r.depth else r.depth + 1

/-- **`RV_PUSH_TAIL_FULL`** returns a relaxed tree holding the whole vector. -/
theorem pushTailFull_spec {r : Root α} (hr : Valid r) (hne : r.count ≠ 0) :
    ∃ st cs, pushTailFull r = some (.internal (some st) cs, fullDepth r) ∧ 0 < fullDepth r ∧
      Indexable (fullDepth r) (.internal (some st) cs) ∧
      elems (fullDepth r) (.internal (some st) cs) = r.toList := by
  have hleaf : Indexable 0 (.leaf r.tail) := ⟨hr.tail_ok, hr.tail_pos hne⟩
  have htlen : (elems 0 (.leaf r.tail)).length = r.tail.count := hr.tail_ok.length_take
  rcases hr.tree with ⟨hnull, hd1⟩ | hn
  · have hfd : fullDepth r = 1 := by rw [fullDepth, hnull]
    rw [hfd]
    refine ⟨[r.tail.count], [.leaf r.tail], by rw [pushTailFull, hnull], Nat.one_pos, ?_, ?_⟩
    · refine ⟨by simp, show 1 ≤ branch by decide, ?_, ?_⟩
      · intro c hc
        exact List.mem_singleton.mp hc ▸ hleaf
      · simp only [TableFits, counts, List.map_singleton, htlen, cumulative, Nat.zero_add]
    · rw [Root.toList, hnull, elems_null]
      simp
  · obtain ⟨h, hh⟩ : ∃ h, r.depth = h + 1 := ⟨r.depth - 1, by have := hr.depth_pos; omega⟩
    rw [hh] at hn
    obtain ⟨st, cs, hroot⟩ := hn.internal
    rw [hroot] at hn
    have hsplit := hr.count_split
    have hbound := hr.bound
    have hlist : r.toList = cs.flatMap (elems h) ++ r.tail.elements.take r.tail.count := by
      rw [Root.toList, hh, hroot, elems_internal]
    rw [hh, hroot, elems_internal] at hsplit
    -- both ways of counting the tree give its number of elements
    have htree : treeCount r st cs = some (cs.flatMap (elems h)).length := by
      cases st with
      | none =>
        have := hr.sub32_count
        rw [hh, hroot, elems_internal] at this
        rw [treeCount, this]
      | some table =>
        have htable : table = cumulative 0 (counts h cs) := hn.2.2.2
        have hne : counts h cs ≠ [] := by simpa [counts] using hn.1
        have hlast := getElem?_cumulative_last (a := 0) hne
        rw [sum_counts, Nat.zero_add] at hlast
        simpa [treeCount, htable, counts] using hlast
    have hwrap : wrapLevels (r.depth - 1) (.leaf r.tail) = newPath h (.leaf r.tail) := by
      rw [wrapLevels_eq, hh, Nat.add_sub_cancel]
    have hpI : Indexable h (newPath h (.leaf r.tail)) := by simpa using hleaf.newPath h
    have hpe : elems h (newPath h (.leaf r.tail)) = r.tail.elements.take r.tail.count := by
      have := elems_newPath h 0 (Node.leaf r.tail)
      rwa [Nat.zero_add] at this
    have hplen : (elems h (newPath h (.leaf r.tail))).length = r.tail.count := by
      rw [hpe]; exact hr.tail_ok.length_take
    have hmod : ((cs.flatMap (elems h)).length + r.tail.count) % 2 ^ 32 =
        (cs.flatMap (elems h)).length + r.tail.count := Nat.mod_eq_of_lt (by omega)
    have hstep : pushTailFull r = if cs.length < branch then
          (oldTable (r.depth - 1) st cs).bind fun st =>
          some (.internal (some (st ++ [((cs.flatMap (elems h)).length + r.tail.count) % 2 ^ 32]))
            (cs ++ [newPath h (.leaf r.tail)]), r.depth)
        else some (.internal (some [(cs.flatMap (elems h)).length,
            ((cs.flatMap (elems h)).length + r.tail.count) % 2 ^ 32])
          [.internal st cs, .internal none [newPath h (.leaf r.tail)]], r.depth + 1) := by
      simp only [pushTailFull, hroot, hwrap, htree]
      rfl
    rw [hstep, hmod]
    by_cases hroom : cs.length < branch
    · have hfd : fullDepth r = h + 1 := by rw [fullDepth, hroot]; simp only [if_pos hroom, hh]
      have htable : oldTable (r.depth - 1) st cs = some (cumulative 0 (counts h cs)) := by
        cases st with
        | some table =>
          have htable : table = cumulative 0 (counts h cs) := hn.2.2.2
          rw [oldTable, htable, List.take_of_length_le (by simp [counts])]
        | none =>
          have hd6 := hr.strict cs hroot
          rw [oldTable, hh, Nat.add_sub_cancel]
          exact buildSizeTable_spec hn.2.2.1 (by omega) (by omega)
      rw [hfd, if_pos hroom, htable]
      refine ⟨_, _, by rw [hh]; rfl, Nat.succ_pos h, ?_, ?_⟩
      · have := relaxed_append hroom hn.2.2.1 hpI
        rwa [hplen] at this
      · rw [elems_internal, List.flatMap_append, hlist]
        simp [hpe]
    · have hfd : fullDepth r = h + 1 + 1 := by rw [fullDepth, hroot]; simp only [if_neg hroom, hh]
      rw [hfd, if_neg hroom]
      refine ⟨_, _, by rw [hh], Nat.succ_pos _, ?_, ?_⟩
      · have := relaxed_pair hn (hpI.newPath 1)
        rwa [elems_newPath 1 h, hplen, elems_internal] at this
      · rw [hlist, elems_internal]
        simp [hpe]

/-- The depth of the vector `jvec_concat` returns. -/
def concatDepth (a b : Root α) : Nat :=
  if a.count = 0 then b.depth
  else if b.count = 0 then a.depth
  else match b.root with
    | .null => fullDepth a
    | _ => max (fullDepth a) b.depth + 1

/-- **`jvec_concat`** of valid vectors whose counts fit 32 bits is defined, valid,
and denotes the concatenation. -/
theorem concat_spec [Zero α] {a b : Root α} (ha : Valid a) (hb : Valid b)
    (hsum : a.count + b.count < 2 ^ 32) :
    ∃ v, concat a b = some v ∧ Valid v ∧ v.toList = a.toList ++ b.toList ∧
      v.depth = concatDepth a b := by
  by_cases ha0 : a.count = 0
  · have hnil : a.toList = [] := List.length_eq_zero_iff.mp (by rw [← ha.count_eq]; exact ha0)
    exact ⟨b, by rw [concat, if_pos ha0], hb, by rw [hnil, List.nil_append],
      by rw [concatDepth, if_pos ha0]⟩
  by_cases hb0 : b.count = 0
  · have hnil : b.toList = [] := List.length_eq_zero_iff.mp (by rw [← hb.count_eq]; exact hb0)
    exact ⟨a, by rw [concat, if_neg ha0, if_pos hb0], ha, by rw [hnil, List.append_nil],
      by rw [concatDepth, if_neg ha0, if_pos hb0]⟩
  obtain ⟨st, cs, hpush, hfd, hI, he⟩ := pushTailFull_spec ha ha0
  have hmod : (a.count + b.count) % 2 ^ 32 = a.count + b.count := Nat.mod_eq_of_lt hsum
  -- whatever the tree, the result's tail is a copy of the right tail
  have hfinish : ∀ {n : Node α} {d : Nat}, 0 < d → Indexable d n →
      (∀ cs, n ≠ .internal none cs) → elems d n = a.toList ++ elems b.depth b.root →
      Valid (⟨n, copyLeaf b.tail, a.count + b.count, d⟩ : Root α) ∧
        (⟨n, copyLeaf b.tail, a.count + b.count, d⟩ : Root α).toList = a.toList ++ b.toList := by
    intro n d hd hn hrel hen
    have hlist : (⟨n, copyLeaf b.tail, a.count + b.count, d⟩ : Root α).toList =
        a.toList ++ b.toList := by
      rw [Root.toList, hen, List.append_assoc]
      exact congrArg _ (congrArg _ (take_copyLeaf hb.tail_ok))
    refine ⟨⟨hd, .inr hn, fun cs h => absurd h (hrel cs), copyLeaf_ok hb.tail_ok,
      fun _ => hb.tail_pos hb0, ?_, hsum⟩, hlist⟩
    rw [hlist, List.length_append, ← ha.count_eq, ← hb.count_eq]
  have hbase : concat a b = match b.root with
      | .null => some ⟨.internal (some st) cs, copyLeaf b.tail, a.count + b.count, fullDepth a⟩
      | rTree => some ⟨.internal (some [a.count, (a.count + sub32 b.count b.tail.count) % 2 ^ 32])
          [wrapLevels (max (fullDepth a) b.depth - fullDepth a) (.internal (some st) cs),
            wrapLevels (max (fullDepth a) b.depth - b.depth) rTree],
          copyLeaf b.tail, a.count + b.count, max (fullDepth a) b.depth + 1⟩ := by
    rw [concat, if_neg ha0, if_neg hb0, hpush, hmod]
    rfl
  rcases hb.tree with ⟨hnull, -⟩ | hn
  · have hdep : concatDepth a b = fullDepth a := by
      rw [concatDepth, if_neg ha0, if_neg hb0, hnull]
    obtain ⟨hv, hl⟩ := hfinish hfd hI (fun _ h => by cases h)
      (by rw [he, hnull, elems_null, List.append_nil])
    exact ⟨_, by rw [hbase, hnull], hv, hl, hdep.symm⟩
  · have hdep : concatDepth a b = max (fullDepth a) b.depth + 1 := by
      rw [concatDepth, if_neg ha0, if_neg hb0]
      cases hroot : b.root with
      | null => exact absurd hroot hn.not_null
      | leaf l => rfl
      | internal st cs => rfl
    have hres : concat a b = some ⟨.internal (some [a.count,
          (a.count + sub32 b.count b.tail.count) % 2 ^ 32])
        [wrapLevels (max (fullDepth a) b.depth - fullDepth a) (.internal (some st) cs),
          wrapLevels (max (fullDepth a) b.depth - b.depth) b.root],
        copyLeaf b.tail, a.count + b.count, max (fullDepth a) b.depth + 1⟩ := by
      rw [hbase]
      cases hroot : b.root with
      | null => exact absurd hroot hn.not_null
      | leaf l => rfl
      | internal st cs => rfl
    have hl := hI.newPath (max (fullDepth a) b.depth - fullDepth a)
    have hr := hn.newPath (max (fullDepth a) b.depth - b.depth)
    have hle := elems_newPath (max (fullDepth a) b.depth - fullDepth a) (fullDepth a)
      (.internal (some st) cs)
    have hre := elems_newPath (max (fullDepth a) b.depth - b.depth) b.depth b.root
    rw [show fullDepth a + (max (fullDepth a) b.depth - fullDepth a) = max (fullDepth a) b.depth
      from by omega] at hl hle
    rw [show b.depth + (max (fullDepth a) b.depth - b.depth) = max (fullDepth a) b.depth
      from by omega] at hr hre
    have hsplit := hb.count_split
    have htable : (a.count + sub32 b.count b.tail.count) % 2 ^ 32 =
        a.toList.length + (elems b.depth b.root).length := by
      rw [hb.sub32_count, ← ha.count_eq, Nat.mod_eq_of_lt (by omega)]
    have hpair := relaxed_pair hl hr
    rw [hle, hre, he, ← htable, ← ha.count_eq] at hpair
    rw [wrapLevels_eq, wrapLevels_eq] at hres
    obtain ⟨hv, hlist⟩ := hfinish (Nat.succ_pos _) hpair (fun _ h => by cases h)
      (by rw [elems_internal]; simp [hle, hre, he])
    exact ⟨_, hres, hv, hlist, hdep.symm⟩

end Jacl.RrbVec
