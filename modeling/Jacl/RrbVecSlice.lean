import Jacl.RrbVecPop
import Jacl.Entrywise

/-!
# Slices and vectors from arrays

`RV_BUILD_TREE` puts a relaxed tree over any row of leaves, level by level, in
groups of `RV_BRANCH` (`buildTree_spec`).  `jvec_slice` gives it the leaves that
cover the slice, cut at both ends (`slice_spec`), and `jvec_from_array` full leaves
(`fromArray_spec`).  A tree over at most `32 ^ 6` leaves is at most six levels deep,
and no slice has more leaves than the vector it is taken from.
-/

namespace Jacl.RrbVec
open Segments

variable {α : Type}

/-! ### Groups -/

/-- Groups of `b`, in order, are the list they were taken from. -/
theorem flatten_groups {β : Type} (xs : List β) (b m : Nat) :
    ((List.range m).map fun g => (xs.drop (g * b)).take b).flatten = xs.take (m * b) := by
  induction m with
  | zero => simp
  | succ m ih =>
    rw [List.range_succ, List.map_append, List.flatten_append, ih, Nat.succ_mul, List.take_add]
    simp

theorem flatten_groups_all {β : Type} {xs : List β} {b m : Nat} (h : xs.length ≤ m * b) :
    ((List.range m).map fun g => (xs.drop (g * b)).take b).flatten = xs := by
  rw [flatten_groups, List.take_of_length_le h]

/-- Nodes of depth `h` with their counts. -/
def Counted (h : Nat) (nodes : List (Node α × Nat)) : Prop :=
  ∀ p ∈ nodes, Indexable h p.1 ∧ p.2 = (elems h p.1).length

/-- What a row of nodes of depth `h` holds. -/
def row (h : Nat) (nodes : List (Node α × Nat)) : List α := nodes.flatMap fun p => elems h p.1

theorem Counted.counts {h : Nat} {nodes : List (Node α × Nat)} (hc : Counted h nodes) :
    nodes.map Prod.snd = RrbVec.counts h (nodes.map Prod.fst) := by
  rw [RrbVec.counts, List.map_map]
  exact List.map_congr_left fun p hp => (hc p hp).2

theorem row_eq (h : Nat) (nodes : List (Node α × Nat)) :
    row h nodes = (nodes.map Prod.fst).flatMap (elems h) := by
  rw [row, List.flatMap_map]

theorem row_flatten (h : Nat) (groups : List (List (Node α × Nat))) :
    row h groups.flatten = groups.flatMap (row h) := by
  rw [row, List.flatten_eq_flatMap, List.flatMap_assoc]
  rfl

theorem runningCounts_eq {cum : Nat} {cs : List Nat} (h : cum + cs.sum < 2 ^ 32) :
    runningCounts cum cs = cumulative cum cs := by
  induction cs generalizing cum with
  | nil => rfl
  | cons c cs ih =>
    rw [List.sum_cons] at h
    rw [runningCounts, Nat.mod_eq_of_lt (by omega), ih (by omega), cumulative]

/-- **One node of `RV_BUILD_TREE`.** -/
theorem groupNode_spec {h : Nat} {group : List (Node α × Nat)} (hc : Counted h group)
    (hne : group ≠ []) (hlen : group.length ≤ branch) (hb : (row h group).length < 2 ^ 32) :
    Indexable (h + 1) (groupNode group).1 ∧
      (groupNode group).2 = (elems (h + 1) (groupNode group).1).length ∧
      elems (h + 1) (groupNode group).1 = row h group := by
  have hsum : (group.map Prod.snd).sum = (row h group).length := by
    rw [hc.counts, sum_counts, row_eq]
  have htable : runningCounts 0 (group.map Prod.snd) = cumulative 0 (group.map Prod.snd) :=
    runningCounts_eq (by omega)
  have helems : elems (h + 1) (groupNode group).1 = row h group := by
    rw [row_eq]
    rfl
  refine ⟨⟨by simpa using hne, by simpa using hlen, ?_, ?_⟩, ?_, helems⟩
  · intro c hcm
    obtain ⟨p, hp, rfl⟩ := List.mem_map.mp hcm
    exact (hc p hp).1
  · show runningCounts 0 (group.map Prod.snd) = _
    rw [htable, hc.counts]
  · have hlast := getElem?_cumulative_last (a := 0) (show group.map Prod.snd ≠ [] by simpa using hne)
    rw [helems, ← hsum]
    show (runningCounts 0 (group.map Prod.snd)).getLastD 0 = _
    rw [htable, List.getLastD_eq_getLast?, List.getLast?_eq_getElem?, length_cumulative, hlast]
    simp

/-- **One level of `RV_BUILD_TREE`** holds what the level below it holds. -/
theorem buildLevel_spec {h : Nat} {cur : List (Node α × Nat)} (hc : Counted h cur)
    (hlen : cur.length ≤ branch ^ 6) (hb : (row h cur).length < 2 ^ 32) :
    Counted (h + 1) (buildLevel cur) ∧ row (h + 1) (buildLevel cur) = row h cur ∧
      (buildLevel cur).length = (cur.length + 31) / 32 := by
  have hpow : branch ^ 6 = 2 ^ 30 := by decide
  have hgroups : (cur.length + branch - 1) % 2 ^ 32 / branch = (cur.length + 31) / 32 := by
    rw [Nat.mod_eq_of_lt (by rw [branch]; omega)]
    rfl
  have hall : ((List.range ((cur.length + 31) / 32)).map fun g =>
      (cur.drop (g * branch)).take branch).flatten = cur :=
    flatten_groups_all (by rw [branch]; omega)
  -- every group is a part of the row
  have hgroup : ∀ g < (cur.length + 31) / 32,
      Counted h ((cur.drop (g * branch)).take branch) ∧ (cur.drop (g * branch)).take branch ≠ [] ∧
        (row h ((cur.drop (g * branch)).take branch)).length < 2 ^ 32 := by
    intro g hg
    refine ⟨fun p hp => hc p (List.mem_of_mem_drop (List.mem_of_mem_take hp)), ?_, ?_⟩
    · intro h0
      have := congrArg List.length h0
      rw [List.length_take, List.length_drop, branch, List.length_nil] at this
      omega
    · refine Nat.lt_of_le_of_lt ?_ hb
      have hsub : ((cur.drop (g * branch)).take branch).Sublist cur :=
        (List.take_sublist _ _).trans (List.drop_sublist _ _)
      exact (hsub.flatMap _).length_le
  have hspec : ∀ g < (cur.length + 31) / 32, _ := fun g hg =>
    groupNode_spec (hgroup g hg).1 (hgroup g hg).2.1 (List.length_take_le _ _) (hgroup g hg).2.2
  refine ⟨?_, ?_, ?_⟩
  · intro p hp
    rw [buildLevel, hgroups] at hp
    obtain ⟨g, hg, rfl⟩ := List.mem_map.mp hp
    obtain ⟨hI, hcount, -⟩ := hspec g (List.mem_range.mp hg)
    exact ⟨hI, hcount⟩
  · rw [buildLevel, hgroups, row, List.flatMap_map]
    calc (List.range ((cur.length + 31) / 32)).flatMap
          (fun g => elems (h + 1) (groupNode ((cur.drop (g * branch)).take branch)).1)
        = (List.range ((cur.length + 31) / 32)).flatMap
            (fun g => row h ((cur.drop (g * branch)).take branch)) :=
          List.flatMap_congr fun g hg => (hspec g (List.mem_range.mp hg)).2.2
      _ = row h cur := by
          conv_rhs => rw [← hall]
          rw [row_flatten, List.flatMap_map]
  · rw [buildLevel, hgroups, List.length_map, List.length_range]

/-- **The loop of `RV_BUILD_TREE`** ends within `k + 1` levels on at most
`32 ^ (k + 1)` nodes, with a tree that holds the whole row. -/
theorem buildLevels_spec {h : Nat} (fuel k : Nat) {cur : List (Node α × Nat)} (hc : Counted h cur)
    (hne : cur ≠ []) (hlen : cur.length ≤ branch ^ (k + 1)) (hk : k < fuel) (hk6 : k < 6)
    (hb : (row h cur).length < 2 ^ 32) (hwide : h = 0 ∨ 2 ≤ cur.length) :
    ∃ node d, buildLevels fuel (h + 1) cur = some (node, d + 1) ∧ d ≤ h + k ∧
      Indexable (d + 1) node ∧ elems (d + 1) node = row h cur ∧ Wide (d + 1) node := by
  have hbranch : branch = 32 := rfl
  have hpos := List.length_pos_iff.mpr hne
  induction fuel generalizing h k cur with
  | zero => omega
  | succ fuel ih =>
    have hlen6 : cur.length ≤ branch ^ 6 :=
      hlen.trans (Nat.pow_le_pow_right (by decide) (by omega))
    obtain ⟨hnext, hrow, hlevel⟩ := buildLevel_spec hc hlen6 hb
    by_cases hsmall : cur.length ≤ 32
    · -- a single node over the whole row
      have hpow : branch ^ 6 = 2 ^ 30 := by decide
      have hone : buildLevel cur = [groupNode cur] := by
        rw [buildLevel, Nat.mod_eq_of_lt (by omega),
          show (cur.length + branch - 1) / branch = 1 by rw [hbranch]; omega]
        simp [List.take_of_length_le (show cur.length ≤ branch from hsmall)]
      obtain ⟨hI, -, helems⟩ := groupNode_spec hc hne hsmall hb
      refine ⟨(groupNode cur).1, h, by rw [buildLevels, hone], Nat.le_add_right h k, hI, helems, ?_⟩
      intro hd
      refine ⟨_, cur.map Prod.fst, rfl, ?_⟩
      rw [List.length_map]
      omega
    · obtain ⟨k, rfl⟩ : ∃ j, k = j + 1 := by
        cases k with
        | zero => rw [hbranch] at hlen; omega
        | succ k => exact ⟨k, rfl⟩
      have hlen' : (buildLevel cur).length ≤ branch ^ (k + 1) := by
        rw [hlevel]
        rw [pow_succ, hbranch] at hlen
        rw [hbranch]
        omega
      have htwo : 2 ≤ (buildLevel cur).length := by omega
      obtain ⟨node, d, hbuild, hd, hI, helems, hw⟩ := ih k hnext
        (List.length_pos_iff.mp (by omega)) hlen' (by omega) (by omega) (by rw [hrow]; exact hb)
        (.inr htwo) (by omega)
      refine ⟨node, d, ?_, by omega, hI, by rw [helems, hrow], hw⟩
      rw [buildLevels]
      split
      · rename_i hsingle
        rw [hsingle, List.length_singleton] at htwo
        omega
      · exact hbuild

/-- Leaves as `RV_BUILD_TREE` takes them: none is empty, and each stands with its count. -/
def LeafRow (ls : List (Leaf α × Nat)) : Prop :=
  ∀ p ∈ ls, (p.1.Ok ∧ 0 < p.1.count) ∧ p.2 = p.1.count

theorem LeafRow.counted {ls : List (Leaf α × Nat)} (hls : LeafRow ls) :
    Counted 0 (ls.map fun l => (Node.leaf l.1, l.2)) := by
  intro p hp
  obtain ⟨l, hl, rfl⟩ := List.mem_map.mp hp
  exact ⟨(hls l hl).1, (hls l hl).2.trans (hls l hl).1.1.length_take.symm⟩

/-- **A tree over leaves, and a tail.** -/
theorem rootOver_spec {ls : List (Leaf α × Nat)} (hls : LeafRow ls)
    (hlen : ls.length ≤ branch ^ 6) {t : Leaf α} (ht : t.Ok) (htpos : 0 < t.count) (count : Nat)
    (hcount : count = (ls.flatMap fun p => p.1.toList).length + t.count) (hb : count < 2 ^ 32) :
    ∃ v, rootOver ls t count = some v ∧ Good v ∧
      v.toList = (ls.flatMap fun p => p.1.toList) ++ t.toList := by
  have hrow : row 0 (ls.map fun l => (Node.leaf l.1, l.2)) = ls.flatMap fun p => p.1.toList := by
    rw [row, List.flatMap_map]
    rfl
  by_cases hnil : ls = []
  · subst hnil
    have hlist : (⟨.null, t, count, 1⟩ : Root α).toList = t.toList := rfl
    refine ⟨⟨.null, t, count, 1⟩, by rw [rootOver, if_pos rfl], ⟨⟨Nat.one_pos, .inl ⟨rfl, rfl⟩,
      fun _ _ => by show 1 ≤ 6; omega, ht, fun _ => htpos, ?_, hb⟩, by show 1 ≤ 6; omega,
      fun h => absurd h (by show ¬ 2 ≤ 1; omega)⟩, hlist⟩
    rw [hlist, ht.length_toList]
    simpa using hcount
  · obtain ⟨node, d, hbuild, hd, hI, helems, hw⟩ := buildLevels_spec 7 5
      hls.counted (by simpa using hnil) (by simpa using hlen) (by omega) (by omega) (by rw [hrow]; omega)
      (.inl rfl)
    rw [hrow] at helems
    have hlist : (⟨node, t, count, d + 1⟩ : Root α).toList =
        (ls.flatMap fun p => p.1.toList) ++ t.toList := congrArg (· ++ t.toList) helems
    refine ⟨⟨node, t, count, d + 1⟩, ?_, ⟨⟨Nat.succ_pos d, .inr hI,
      fun _ _ => by show d + 1 ≤ 6; omega, ht, fun _ => htpos, ?_, hb⟩,
      by show d + 1 ≤ 6; omega, hw⟩, hlist⟩
    · rw [rootOver, if_neg hnil, buildTree, hbuild]
      rfl
    · rw [hlist, List.length_append, ht.length_toList]
      exact hcount

/-! ### The leaves of a slice -/

/-- A leaf that holds a later index, past the end of another leaf, stands after it. -/
theorem LeafAt.after {r : Root α} (hr : Valid r) {i j : Nat} {pre post pre' post' : List (Leaf α)}
    {l l' : Leaf α} (h : LeafAt r i pre l post) (h' : LeafAt r j pre' l' post')
    (hj : (pre.flatMap Leaf.toList).length + l.count ≤ j) (hne : r.count ≠ 0) :
    post'.length < post.length := by
  have hlen := (h.ok hr hne).1.length_toList
  have hlen' := (h'.ok hr hne).1.length_toList
  have hlt := h'.lt
  have htotal := congrArg List.length (h.leaves.symm.trans h'.leaves)
  simp only [List.length_append, List.length_cons] at htotal
  by_contra hge
  -- then the second leaf would end no later than the first
  have hpre : pre ++ [l] <+: r.leaves := ⟨post, by rw [h.leaves]; simp⟩
  have hpre' : pre' ++ [l'] <+: r.leaves := ⟨post', by rw [h'.leaves]; simp⟩
  obtain ⟨rest, hrest⟩ := List.prefix_of_prefix_length_le hpre' hpre (by simp; omega)
  have hsum := congrArg (fun ls => (ls.flatMap Leaf.toList).length) hrest
  simp only [List.flatMap_append, List.flatMap_cons, List.flatMap_nil, List.append_nil,
    List.length_append] at hsum
  omega

section
variable [Zero α]

/-- **One leaf of a slice**: the part of the leaf at `pos` that the slice takes. -/
theorem cutLeaf_spec {r : Root α} (hr : Valid r) (hne : r.count ≠ 0) {pos n : Nat}
    {pre post : List (Leaf α)} {l : Leaf α} (h : LeafAt r pos pre l post)
    (hn : n ≤ l.count - (pos - (pre.flatMap Leaf.toList).length)) :
    ∃ piece, cutLeaf l (pos - (pre.flatMap Leaf.toList).length) n = some piece ∧
      piece.Ok ∧ piece.count = n ∧ piece.toList = (r.toList.drop pos).take n := by
  obtain ⟨hok, -⟩ := h.ok hr hne
  have hlen := hok.length_toList
  have hle := h.le
  have hlt := h.lt
  have hcount := hok.2
  have hdrop : (r.toList.drop pos).take n =
      (l.toList.drop (pos - (pre.flatMap Leaf.toList).length)).take n := by
    rw [h.toList_eq, List.drop_append, List.drop_of_length_le hle, List.nil_append,
      List.drop_append_of_le_length (by omega),
      List.take_append_of_le_length (by rw [List.length_drop]; omega)]
  rw [hdrop, cutLeaf]
  split
  · rename_i hwhole
    refine ⟨l, rfl, hok, hwhole.2.symm, ?_⟩
    rw [hwhole.1, List.drop_zero, List.take_of_length_le (by omega)]
  · obtain ⟨piece, hpart, hpok, hpcount, hlist⟩ := partialLeaf_spec l.elements
      (pos - (pre.flatMap Leaf.toList).length) n (by rw [hok.1]; omega) (by omega)
    refine ⟨piece, hpart, hpok, hpcount, ?_⟩
    rw [hlist, Leaf.toList, List.drop_take, List.take_take, Nat.min_eq_left hn]

/-- One round of the loop of `RV_SLICE`. -/
theorem coverLeaves_next (r : Root α) {stop fuel pos base n : Nat} {l piece : Leaf α}
    (hpos : pos < stop) (hfind : findLeafOff r pos = some (l, base))
    (hn : min (sub32 l.count (sub32 pos base)) (stop - pos) = n)
    (hpiece : cutLeaf l (sub32 pos base) n = some piece) :
    coverLeaves r stop (fuel + 1) pos =
      (coverLeaves r stop fuel ((pos + n) % 2 ^ 32)).map ((piece, n) :: ·) := by
  have hround : coverLeaves r stop (fuel + 1) pos = (findLeafOff r pos).bind fun p =>
      (cutLeaf p.1 (sub32 pos p.2) (min (sub32 p.1.count (sub32 pos p.2)) (stop - pos))).bind
        fun piece => (coverLeaves r stop fuel
          ((pos + min (sub32 p.1.count (sub32 pos p.2)) (stop - pos)) % 2 ^ 32)).bind fun rest =>
            some ((piece, min (sub32 p.1.count (sub32 pos p.2)) (stop - pos)) :: rest) := by
    rw [coverLeaves, if_pos hpos]
    rfl
  rw [hround, hfind, Option.bind_some]
  simp only [hn]
  rw [hpiece, Option.bind_some, Option.map_eq_bind]
  rfl

/-- **The loop of `RV_SLICE`** collects leaves that hold the rest of the slice, at
most as many as the vector has from there on. -/
theorem coverLeaves_spec {r : Root α} (hr : Valid r) (hd : r.depth ≤ 6) {stop fuel pos : Nat}
    (hstop : stop ≤ r.count) (hpos : pos < stop) (hfuel : stop - pos < fuel) :
    ∃ ls pre l post, coverLeaves r stop fuel pos = some ls ∧ ls ≠ [] ∧ LeafRow ls ∧
      (ls.flatMap fun p => p.1.toList) = (r.toList.drop pos).take (stop - pos) ∧
      LeafAt r pos pre l post ∧ ls.length ≤ post.length + 1 := by
  have hne : r.count ≠ 0 := by omega
  have hbound := hr.bound
  induction fuel generalizing pos with
  | zero => omega
  | succ fuel ih =>
    obtain ⟨l, pre, post, hfind, hat⟩ := findLeafOff_spec hr hd (show pos < r.count by omega)
    have hle := hat.le
    have hlt := hat.lt
    have hcount := (hat.ok hr hne).1.2
    have hbranch : branch = 32 := rfl
    obtain ⟨start, hs⟩ : ∃ start, start = pos - (pre.flatMap Leaf.toList).length := ⟨_, rfl⟩
    obtain ⟨n, hn⟩ : ∃ n, n = min (l.count - start) (stop - pos) := ⟨_, rfl⟩
    obtain ⟨piece, hpiece, hok, hpc, hplist⟩ :=
      cutLeaf_spec hr hne hat (n := n) (by omega)
    have hstep : coverLeaves r stop (fuel + 1) pos =
        (coverLeaves r stop fuel (pos + n)).map ((piece, n) :: ·) := by
      have hlocal : sub32 pos (pre.flatMap Leaf.toList).length = start := by
        rw [sub32_of_le hle (by omega), hs]
      have havail : sub32 l.count start = l.count - start := sub32_of_le (by omega) (by omega)
      rw [coverLeaves_next r hpos hfind (n := n) (by rw [hlocal, havail, hn])
        (by rw [hlocal, hs]; exact hpiece), Nat.mod_eq_of_lt (by omega)]
    have hhead : (piece.Ok ∧ 0 < piece.count) ∧ n = piece.count :=
      ⟨⟨hok, by omega⟩, hpc.symm⟩
    rcases Nat.lt_or_ge (pos + n) stop with hmore | hend
    · -- the leaf is used up, and the next one stands after it
      obtain ⟨ls, pre', l', post', hcover, -, hrow, hlist, hat', hlen⟩ := ih hmore (by omega)
      have hafter := hat.after hr hat' (by omega) hne
      refine ⟨(piece, n) :: ls, pre, l, post, by rw [hstep, hcover]; rfl, by simp, ?_, ?_, hat, ?_⟩
      · intro p hp
        obtain rfl | hp := List.mem_cons.mp hp
        · exact hhead
        · exact hrow p hp
      · rw [List.flatMap_cons, hlist, hplist, ← List.drop_drop, ← List.take_add]
        congr 1
        omega
      · rw [List.length_cons]
        omega
    · have hlast : coverLeaves r stop fuel (pos + n) = some [] := by
        cases fuel with
        | zero => omega
        | succ fuel => rw [coverLeaves, if_neg (by omega)]
      refine ⟨[(piece, n)], pre, l, post, by rw [hstep, hlast]; rfl, by simp, ?_, ?_, hat, ?_⟩
      · intro p hp
        rw [List.mem_singleton.mp hp]
        exact hhead
      · rw [List.flatMap_cons, List.flatMap_nil, List.append_nil, hplist,
          show n = stop - pos by omega]
      · simp

/-- **`jvec_slice`** of an in-range interval is the sub-list. -/
theorem slice_spec {r : Root α} (hr : Good r) {start stop : Nat} (hlt : start < stop)
    (hstop : stop ≤ r.count) :
    ∃ v, slice r start stop = some (some v) ∧ Good v ∧
      v.toList = (r.toList.drop start).take (stop - start) := by
  have hcount := hr.valid.count_eq
  have hbound := hr.valid.bound
  by_cases hall : start = 0 ∧ stop = r.count
  · refine ⟨r, by rw [slice, if_neg (by omega), if_pos hall], hr, ?_⟩
    rw [hall.1, hall.2, List.drop_zero, Nat.sub_zero, hcount, List.take_length]
  obtain ⟨ls, pre, l, post, hcover, hne, hrow, hlist, hat, hlen⟩ := coverLeaves_spec hr.valid hr.depth
    hstop hlt (show stop - start < stop - start + 1 by omega)
  obtain ⟨init, p, rfl⟩ : ∃ init p, ls = init ++ [p] := by
    rcases List.eq_nil_or_concat ls with h0 | ⟨init, p, h⟩
    · exact absurd h0 hne
    · exact ⟨init, p, by rw [h, List.concat_eq_append]⟩
  have hp := hrow p (by simp)
  have hinit : LeafRow init := fun q hq => hrow q (List.mem_append_left _ hq)
  rw [List.flatMap_append, List.flatMap_singleton] at hlist
  -- the tree of the slice has no more leaves than the tree of the vector
  have htree : init.length ≤ branch ^ 6 := by
    have htotal := congrArg List.length hat.leaves
    simp only [Root.leaves, List.length_append, List.length_cons, List.length_nil] at htotal hlen
    have hleaves : (leaves r.depth r.root).length ≤ branch ^ r.depth := by
      rcases hr.valid.tree with ⟨hnull, -⟩ | hI
      · rw [hnull, leaves_null]
        exact Nat.zero_le _
      · exact hI.length_leaves
    have hbefore : init.length ≤ (leaves r.depth r.root).length := by omega
    exact (hbefore.trans hleaves).trans (Nat.pow_le_pow_right (by decide) hr.depth)
  have htake : ((r.toList.drop start).take (stop - start)).length = stop - start := by
    rw [List.length_take, List.length_drop]
    omega
  have hsum : stop - start = (init.flatMap fun q => q.1.toList).length + p.1.count := by
    rw [← htake, ← hlist, List.length_append, hp.1.1.length_toList]
  obtain ⟨v, hover, hv, hvl⟩ := rootOver_spec hinit htree hp.1.1 hp.1.2 _ hsum (by omega)
  refine ⟨v, ?_, hv, by rw [hvl, hlist]⟩
  rw [slice, if_neg (by omega), if_neg hall, hcover]
  simp only [Option.bind_eq_bind, Option.bind_some, List.getLast?_concat, List.dropLast_concat,
    hover]

/-! ### `jvec_from_array` -/

/-- **When an array can be cut into leaves**: rounding its length up to whole leaves
does not wrap. -/
def ArrayFits (array : List α) : Prop := array.length + 31 < 2 ^ 32

/-- **`jvec_from_array`** holds the array's list. -/
theorem fromArray_spec {array : List α} (hfit : ArrayFits array) :
    ∃ v, fromArray array = some v ∧ Good v ∧ v.toList = array := by
  rw [ArrayFits] at hfit
  have hbranch : branch = 32 := rfl
  have hmul : ∀ i, i * branch = i * 32 := fun _ => rfl
  by_cases hnil : array.length = 0
  · refine ⟨empty, by rw [fromArray, if_pos hnil], good_empty, ?_⟩
    rw [List.length_eq_zero_iff.mp hnil]
    simp [Root.toList, empty, mkLeaf]
  obtain ⟨m, hm⟩ : ∃ m, (array.length + 31) / 32 = m + 1 := ⟨(array.length + 31) / 32 - 1, by omega⟩
  have hleaves : (array.length + branch - 1) % 2 ^ 32 / branch = m + 1 := by
    rw [Nat.mod_eq_of_lt (by omega), ← hm]
    rfl
  have htreeCount : sub32 (m + 1) 1 = m := sub32_of_le (by omega) (by omega)
  have hm32 := hmul m
  have htailStart : m * branch % 2 ^ 32 = m * branch := Nat.mod_eq_of_lt (by omega)
  obtain ⟨t, htail, hok, htcount, htlist⟩ := partialLeaf_spec array (m * branch)
    (array.length - m * branch) (by omega) (by omega)
  -- the full leaves before the tail
  obtain ⟨g, hg⟩ : ∃ g : Nat → Leaf α, ∀ i < m, partialLeaf array (i * branch) branch = some (g i) ∧
      (g i).Ok ∧ (g i).count = branch ∧ (g i).toList = (array.drop (i * branch)).take branch := by
    have hex : ∀ i, ∃ l, i < m → partialLeaf array (i * branch) branch = some l ∧
        l.Ok ∧ l.count = branch ∧ l.toList = (array.drop (i * branch)).take branch := by
      intro i
      have hi32 := hmul i
      by_cases hi : i < m
      · obtain ⟨l, hl⟩ := partialLeaf_spec array (i * branch) branch
          (by omega) (Nat.le_refl _)
        exact ⟨l, fun _ => hl⟩
      · exact ⟨mkLeaf, fun h => absurd h hi⟩
    exact ⟨fun i => (hex i).choose, fun i => (hex i).choose_spec⟩
  have hmap : (List.range m).mapM (fun i =>
      (partialLeaf array (i * branch % 2 ^ 32) branch).map fun leaf => (leaf, branch)) =
        some ((List.range m).map fun i => (g i, branch)) := by
    refine Entrywise.mapM_eq_map fun i hi => ?_
    have hi := List.mem_range.mp hi
    have hi32 := hmul i
    rw [Nat.mod_eq_of_lt (by omega), (hg i hi).1]
    rfl
  have hrow : LeafRow ((List.range m).map fun i => (g i, branch)) := by
    intro p hp
    obtain ⟨i, hi, rfl⟩ := List.mem_map.mp hp
    obtain ⟨-, hok, hcount, -⟩ := hg i (List.mem_range.mp hi)
    exact ⟨⟨hok, by rw [hcount]; decide⟩, hcount.symm⟩
  have hlist : ((List.range m).map fun i => (g i, branch)).flatMap (fun p => p.1.toList) =
      array.take (m * branch) := by
    rw [← flatten_groups, List.flatMap_map, ← List.flatMap_def]
    exact List.flatMap_congr fun i hi => (hg i (List.mem_range.mp hi)).2.2.2
  have hpow : branch ^ 6 = 2 ^ 30 := by decide
  obtain ⟨v, hover, hv, hvl⟩ := rootOver_spec hrow (by simp; omega) hok (by omega) array.length
    (by rw [hlist, List.length_take, htcount]; omega) (by omega)
  refine ⟨v, ?_, hv, ?_⟩
  · rw [fromArray, if_neg hnil]
    simp only [hleaves, htreeCount, htailStart]
    rw [sub32_of_le (by omega) (by omega), htail]
    simp only [Option.bind_eq_bind, Option.bind_some, hmap, hover]
  · have hrest : (array.drop (m * branch)).take (array.length - m * branch) =
        array.drop (m * branch) := List.take_of_length_le (Nat.le_of_eq List.length_drop)
    rw [hvl, hlist, htlist, hrest, List.take_append_drop]

end

end Jacl.RrbVec
