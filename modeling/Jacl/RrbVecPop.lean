import Jacl.RrbVecLeaves
import Jacl.RrbVecRuns

/-!
# Popping from a vector

While the tail holds more than one element `jvec_pop_back` shortens it.  Otherwise
the last leaf of the tree becomes the tail: `RV_REMOVE_RIGHTMOST` copies the right
spine without it.  A node whose last child is left empty loses that child, and its
size table the last entry.  A node whose last child stays, one leaf shorter, keeps
its size table as it was, so that the last entry is too large: the node can still be
read, but `RV_SUBTREE_COUNT` and `RV_PUSH_TAIL_FULL` take that entry for the number of
its elements.

`Unstale` says that no size table is copied so, and `PopFits` is the condition on
a vector under which a pop keeps its tables right (`popBack_spec`).
-/

namespace Jacl.RrbVec
open Segments

variable {α : Type}

/-! ### The invariant of edited vectors -/

/-- A root above the lowest internal level has two children or more: without its
last leaf it is not empty. -/
def Wide (h : Nat) (n : Node α) : Prop :=
  2 ≤ h → ∃ st cs, n = .internal st cs ∧ 2 ≤ cs.length

/-- A valid vector that can be shifted through and whose tree is not narrower than
its depth. -/
structure Good (r : Root α) : Prop where
  valid : Valid r
  depth : r.depth ≤ 6
  wide : Wide r.depth r.root

theorem Good.get {r : Root α} (hr : Good r) (i : Nat) : RrbVec.get r i = some r.toList[i]? :=
  get_spec hr.valid hr.depth i

theorem Good.pos_of_tree {r : Root α} (hr : Good r) : ∃ h, r.depth = h + 1 :=
  ⟨r.depth - 1, by have := hr.valid.depth_pos; omega⟩

theorem good_empty [Zero α] : Good (empty : Root α) :=
  ⟨valid_empty, show 1 ≤ 6 by omega, fun h => absurd h (show ¬ 2 ≤ 1 by omega)⟩

/-! ### Copies of a part -/

theorem partialLeaf_spec [Zero α] (src : List α) (start n : Nat) (hlen : start + n ≤ src.length)
    (hn : n ≤ branch) :
    ∃ l, partialLeaf src start n = some l ∧ l.Ok ∧ l.count = n ∧
      l.toList = (src.drop start).take n := by
  have htake : ((src.drop start).take n).length = n := by
    rw [List.length_take, List.length_drop]
    omega
  refine ⟨_, by rw [partialLeaf, if_pos ⟨hlen, hn⟩], ⟨?_, hn⟩, rfl, ?_⟩
  · rw [List.length_append, htake, List.length_replicate]
    omega
  · show (List.take n (src.drop start) ++ _).take n = _
    rw [List.take_append_of_le_length (Nat.le_of_eq htake.symm),
      List.take_of_length_le (Nat.le_of_eq htake)]

/-! ### The last leaf -/

/-- Removing the last leaf leaves nothing: the node is a path of single children. -/
def Emptied : Nat → Node α → Prop
  | 0, _ => True
  | h + 1, .internal _ children => children.length = 1 ∧ ∀ c ∈ children.getLast?, Emptied h c
  | _ + 1, _ => False

/-- No size table above the lowest internal level covers a last child that loses
its last leaf and stays. -/
def Unstale : Nat → Node α → Prop
  | h + 2, .internal sizeTable children =>
    ∀ c ∈ children.getLast?, Emptied (h + 1) c ∨ sizeTable = none ∧ Unstale (h + 1) c
  | _, _ => True

/-- **When a pop keeps the size tables right**: nothing is left, or only the tail
changes, or no table of the right spine goes stale. -/
def PopFits (r : Root α) : Prop :=
  r.count ≤ 1 ∨ 1 < r.tail.count ∨ Unstale r.depth r.root

theorem Emptied.unstale {h : Nat} {n : Node α} (hn : Emptied h n) : Unstale h n := by
  rcases h with _ | _ | h
  · trivial
  · trivial
  · cases n with
    | null => trivial
    | leaf l => trivial
    | internal st cs => exact fun c hc => .inl (hn.2 c hc)

/-- The node without its last child. -/
theorem Indexable.init {h : Nat} {st : Option (List Nat)} {init : List (Node α)} {c : Node α}
    (hn : Indexable (h + 1) (.internal st (init ++ [c]))) (hne : init ≠ []) :
    Indexable (h + 1) (.internal (st.map (List.take init.length)) init) := by
  obtain ⟨-, hlen, hcs, hfits⟩ := hn
  have hcounts : counts h (init ++ [c]) = counts h init ++ [(elems h c).length] := by
    simp [counts]
  refine ⟨hne, ?_, fun d hd => hcs d (List.mem_append_left _ hd), ?_⟩
  · rw [List.length_append] at hlen
    omega
  · rw [hcounts] at hfits
    cases st with
    | some table =>
      show table.take init.length = _
      rw [show table = _ from hfits, take_cumulative, List.take_append_of_le_length (by simp [counts]),
        List.take_of_length_le (by simp [counts])]
    | none =>
      intro n hn
      refine hfits n ?_
      rw [List.dropLast_concat]
      exact List.mem_of_mem_dropLast hn

/-- A strict node with another last child. -/
theorem Indexable.replaceLast {h : Nat} {init : List (Node α)} {c c' : Node α}
    (hn : Indexable (h + 1) (.internal none (init ++ [c]))) (hc' : Indexable h c') :
    Indexable (h + 1) (.internal none (init ++ [c'])) := by
  obtain ⟨-, hlen, hcs, hfits⟩ := hn
  rw [List.length_append, List.length_singleton] at hlen
  refine strict_append hlen (fun d hd => hcs d (List.mem_append_left _ hd)) hc' ?_
  intro n hn
  refine hfits n ?_
  rw [counts, List.map_append, List.map_singleton, List.dropLast_concat]
  exact hn

theorem getD_last (init : List (Node α)) (c : Node α) :
    (init ++ [c]).getD ((init ++ [c]).length - 1) .null = c := by
  simp [List.getD_eq_getElem?_getD]

theorem take_last (init : List (Node α)) (c : Node α) :
    (init ++ [c]).take ((init ++ [c]).length - 1) = init := by
  simp

theorem set_last (init : List (Node α)) (c c' : Node α) :
    (init ++ [c]).set ((init ++ [c]).length - 1) c' = init ++ [c'] := by
  simp

theorem elems_concat (h : Nat) (st : Option (List Nat)) (init : List (Node α)) (c : Node α) :
    elems (h + 1) (.internal st (init ++ [c])) =
      elems (h + 1) (.internal st init) ++ elems h c := by
  simp

theorem elems_table (h : Nat) (st st' : Option (List Nat)) (cs : List (Node α)) :
    elems (h + 1) (.internal st cs) = elems (h + 1) (.internal st' cs) := rfl

/-- **`RV_REMOVE_RIGHTMOST`**: without its last leaf a tree is empty, or an
indexable tree of the same depth. -/
theorem removeRightmost_spec {h : Nat} {n : Node α} (hn : Indexable (h + 1) n)
    (hu : Unstale (h + 1) n) :
    ∃ l n', rightmostLeaf (h + 1) n = some l ∧ (l.Ok ∧ 0 < l.count) ∧
      removeRightmost (h + 1) n = some n' ∧
      (Emptied (h + 1) n ∧ n' = .null ∧ elems (h + 1) n = l.toList ∨
        ¬ Emptied (h + 1) n ∧ Indexable (h + 1) n' ∧
          elems (h + 1) n = elems (h + 1) n' ++ l.toList) := by
  induction h generalizing n with
  | zero =>
    obtain ⟨st, cs, rfl⟩ := hn.internal
    obtain ⟨init, c, rfl⟩ := hn.concat_children
    have hc : Indexable 0 c := hn.2.2.1 c (by simp)
    obtain ⟨l, rfl⟩ : ∃ l, c = .leaf l := by
      cases c with
      | leaf l => exact ⟨l, rfl⟩
      | null => exact hc.elim
      | internal st cs => exact hc.elim
    have hright : rightmostLeaf 1 (.internal st (init ++ [.leaf l])) = some l := by
      rw [rightmostLeaf, getD_last]
      rfl
    have hremove : removeRightmost 1 (.internal st (init ++ [.leaf l])) =
        if (init ++ [Node.leaf l]).length = 1 then some .null
        else some (.internal (st.map (List.take init.length)) init) := by
      rw [removeRightmost, if_neg (by simp), take_last]
      simp only [List.length_append, List.length_singleton, Nat.add_sub_cancel]
    by_cases hone : (init ++ [Node.leaf l]).length = 1
    · refine ⟨l, .null, hright, hc, by rw [hremove, if_pos hone], .inl ⟨⟨hone, ?_⟩, rfl, ?_⟩⟩
      · simp [Emptied]
      · obtain rfl : init = [] := by simpa using hone
        simp [Leaf.toList]
    · have hne : init ≠ [] := by
        rintro rfl
        exact hone rfl
      exact ⟨l, _, hright, hc, by rw [hremove, if_neg hone],
        .inr ⟨fun he => hone he.1, hn.init hne, elems_concat 0 st init (.leaf l)⟩⟩
  | succ h ih =>
    obtain ⟨st, cs, rfl⟩ := hn.internal
    obtain ⟨init, c, rfl⟩ := hn.concat_children
    have hc : Indexable (h + 1) c := hn.2.2.1 c (by simp)
    have hlast := hu c (by simp)
    have huc : Unstale (h + 1) c := by
      rcases hlast with he | ⟨-, hu⟩
      · exact he.unstale
      · exact hu
    obtain ⟨l, c', hleaf, hl, hremove, hcase⟩ := ih hc huc
    have hright : rightmostLeaf (h + 1 + 1) (.internal st (init ++ [c])) = some l := by
      rw [rightmostLeaf, getD_last, hleaf]
    rcases hcase with ⟨hempty, rfl, helems⟩ | ⟨hne, hc', helems⟩
    · -- the last child goes
      have hstep : removeRightmost (h + 1 + 1) (.internal st (init ++ [c])) =
          if (init ++ [c]).length = 1 then some .null
          else some (.internal (st.map (List.take init.length)) init) := by
        rw [removeRightmost, getD_last, hremove]
        simp only [Option.bind_eq_bind, Option.bind_some, take_last]
        simp only [List.length_append, List.length_singleton, Nat.add_sub_cancel]
      by_cases hone : (init ++ [c]).length = 1
      · refine ⟨l, .null, hright, hl, by rw [hstep, if_pos hone], .inl ⟨⟨hone, ?_⟩, rfl, ?_⟩⟩
        · intro d hd
          obtain rfl : c = d := by simpa using hd
          exact hempty
        · obtain rfl : init = [] := by simpa using hone
          simpa using helems
      · have hinit : init ≠ [] := by
          rintro rfl
          exact hone rfl
        refine ⟨l, _, hright, hl, by rw [hstep, if_neg hone],
          .inr ⟨fun he => hone he.1, hn.init hinit, ?_⟩⟩
        rw [elems_concat, helems]
        rfl
    · -- the last child stays, and its parent has no size table
      obtain ⟨rfl, -⟩ := hlast.resolve_left hne
      refine ⟨l, .internal none (init ++ [c']), hright, hl, ?_,
        .inr ⟨fun he => hne (he.2 c (by simp)), hn.replaceLast hc', ?_⟩⟩
      · rw [removeRightmost, getD_last, hremove, ← set_last init c c']
        simp only [Option.bind_eq_bind, Option.bind_some]
        cases c' with
        | null => exact absurd rfl hc'.not_null
        | leaf l' => rfl
        | internal st' cs' => rfl
      · rw [elems_concat, elems_concat, helems, List.append_assoc]

/-! ### The root -/

/-- **The loop that drops roots with a single child** ends at a wide one. -/
theorem shrinkRoot_spec {h : Nat} {n : Node α} (hn : Indexable (h + 1) n) :
    ∃ n' d, shrinkRoot (h + 1) n = some (n', d + 1) ∧ d ≤ h ∧ Indexable (d + 1) n' ∧
      elems (d + 1) n' = elems (h + 1) n ∧ Wide (d + 1) n' := by
  induction h generalizing n with
  | zero => exact ⟨n, 0, rfl, Nat.le_refl 0, hn, rfl, fun h => absurd h (by omega)⟩
  | succ h ih =>
    obtain ⟨st, cs, rfl⟩ := hn.internal
    by_cases hone : cs.length = 1
    · obtain ⟨c, rfl⟩ := List.length_eq_one_iff.mp hone
      obtain ⟨n', d, hshrink, hd, hn', helems, hw⟩ := ih (hn.2.2.1 c List.mem_cons_self)
      refine ⟨n', d, by rw [shrinkRoot, hshrink], Nat.le_succ_of_le hd, hn', ?_, hw⟩
      rw [helems]
      simp
    · have hlen : 2 ≤ cs.length := by
        have := List.length_pos_iff.mpr hn.1
        omega
      refine ⟨.internal st cs, h + 1, ?_, Nat.le_refl _, hn, rfl, fun _ => ⟨st, cs, rfl, hlen⟩⟩
      rcases cs with _ | ⟨c, _ | ⟨d, cs⟩⟩
      · rfl
      · exact absurd rfl hone
      · rfl

/-! ### `jvec_pop_back` -/

/-- The last element is the tail's. -/
theorem tail_last {l : Leaf α} (hl : l.Ok) (hpos : 0 < l.count) :
    ∃ x, l.elements[l.count - 1]? = some x ∧
      l.toList = l.elements.take (l.count - 1) ++ [x] := by
  have hlt : l.count - 1 < l.elements.length := by
    have := hl.2
    rw [hl.1]
    omega
  refine ⟨_, List.getElem?_eq_getElem hlt, ?_⟩
  have happ := (List.take_append_getElem hlt).symm
  rwa [Nat.sub_add_cancel hpos] at happ

/-- **`jvec_pop_back`** of a vector that keeps its tables right gives the last
element and all but the last. -/
theorem popBack_spec [Zero α] {r : Root α} (hr : Good r) (hne : r.count ≠ 0) (hfit : PopFits r) :
    ∃ x v, popBack r = some (some (x, v)) ∧ Good v ∧ r.toList = v.toList ++ [x] := by
  have htpos := hr.valid.tail_pos hne
  have hcount := hr.valid.count_eq
  have hsplit := hr.valid.count_split
  have hbound := hr.valid.bound
  have htcount := hr.valid.tail_ok.2
  obtain ⟨x, hx, htail⟩ := tail_last hr.valid.tail_ok htpos
  have hlist : r.toList = elems r.depth r.root ++ r.tail.elements.take (r.tail.count - 1) ++ [x] := by
    rw [List.append_assoc, ← htail]
    rfl
  have hlast : sub32 r.tail.count 1 = r.tail.count - 1 := sub32_of_le (by omega) (by omega)
  -- what is left to show of a vector that holds all but the last element
  have hkeep : ∀ {v : Root α}, v.toList = elems r.depth r.root ++
      r.tail.elements.take (r.tail.count - 1) → r.toList = v.toList ++ [x] ∧
        r.count - 1 = v.toList.length := by
    intro v hv
    refine ⟨by rw [hv, hlist], ?_⟩
    rw [hcount, hlist, ← hv, List.length_append]
    exact Nat.add_sub_cancel _ _
  by_cases hone : r.count = 1
  · refine ⟨x, empty, ?_, good_empty, ?_⟩
    · rw [popBack, if_neg hne, hlast, hx]
      simp only [Option.bind_eq_bind, Option.bind_some, if_pos hone]
    · rw [hlist, List.length_eq_zero_iff.mp (show (elems r.depth r.root).length = 0 by omega),
        show r.tail.count - 1 = 0 by omega]
      simp [Root.toList, empty, mkLeaf]
  by_cases htwo : 1 < r.tail.count
  · obtain ⟨l, hpart, hl, hlcount, hllist⟩ := partialLeaf_spec r.tail.elements 0 (r.tail.count - 1)
      (by rw [hr.valid.tail_ok.1]; omega) (by omega)
    have hv : (⟨r.root, l, r.count - 1, r.depth⟩ : Root α).toList =
        elems r.depth r.root ++ r.tail.elements.take (r.tail.count - 1) :=
      congrArg (elems r.depth r.root ++ ·) hllist
    obtain ⟨happ, hlen⟩ := hkeep hv
    refine ⟨x, ⟨r.root, l, r.count - 1, r.depth⟩, ?_, ⟨⟨hr.valid.depth_pos, hr.valid.tree,
      hr.valid.strict, hl, fun _ => by rw [hlcount]; omega, hlen, by show r.count - 1 < _; omega⟩,
      hr.depth, hr.wide⟩, happ⟩
    rw [popBack, if_neg hne, hlast, hx]
    simp only [Option.bind_eq_bind, Option.bind_some, if_neg hone, if_pos htwo, hpart]
  · -- the tail's only element goes, and the last leaf of the tree comes
    have hu : Unstale r.depth r.root := (hfit.resolve_left (by omega)).resolve_left htwo
    have htree : 0 < (elems r.depth r.root).length := by omega
    have hI := hr.valid.indexable htree
    obtain ⟨h, hh⟩ := hr.pos_of_tree
    have hd := hr.depth
    have hwide := hr.wide
    rw [hh] at hu hI hd hwide
    obtain ⟨l, n', hright, ⟨hl, hlpos⟩, hremove, hcase⟩ := removeRightmost_spec hI hu
    have hpop : popBack r = (shrinkRoot (h + 1) n').bind fun p =>
        some (some (x, ⟨p.1, copyLeaf l, r.count - 1, p.2⟩)) := by
      rw [popBack, if_neg hne, hlast, hx]
      simp only [Option.bind_eq_bind, Option.bind_some, if_neg hone, if_neg htwo, hh, hright,
        hremove]
    have htail0 : r.tail.elements.take (r.tail.count - 1) = [] := by
      rw [show r.tail.count - 1 = 0 by omega, List.take_zero]
    have hcopy : (copyLeaf l).elements.take (copyLeaf l).count = l.toList := take_copyLeaf hl
    rcases hcase with ⟨hempty, rfl, helems⟩ | ⟨-, hn', helems⟩
    · -- a wide root loses its last leaf only at the lowest level
      have hzero : h = 0 := by
        by_contra hpos
        obtain ⟨st, cs, hroot, hlen⟩ := hwide (by omega)
        rw [hroot] at hempty
        have := hempty.1
        omega
      subst hzero
      have hv : (⟨.null, copyLeaf l, r.count - 1, 1⟩ : Root α).toList =
          elems r.depth r.root ++ r.tail.elements.take (r.tail.count - 1) := by
        rw [htail0, List.append_nil, hh, helems, ← hcopy]
        rfl
      obtain ⟨happ, hlen⟩ := hkeep hv
      exact ⟨x, _, by rw [hpop]; rfl, ⟨⟨Nat.one_pos, .inl ⟨rfl, rfl⟩, fun _ _ => by show 1 ≤ 6; omega,
        copyLeaf_ok hl, fun _ => hlpos, hlen, by show r.count - 1 < _; omega⟩, by show 1 ≤ 6; omega,
        fun h => absurd h (by show ¬ 2 ≤ 1; omega)⟩, happ⟩
    · obtain ⟨m, d, hshrink, hdh, hm, hmelems, hmwide⟩ := shrinkRoot_spec hn'
      have hv : (⟨m, copyLeaf l, r.count - 1, d + 1⟩ : Root α).toList =
          elems r.depth r.root ++ r.tail.elements.take (r.tail.count - 1) := by
        rw [htail0, List.append_nil, hh, helems, ← hmelems, ← hcopy]
        rfl
      obtain ⟨happ, hlen⟩ := hkeep hv
      exact ⟨x, _, by rw [hpop, hshrink]; rfl, ⟨⟨Nat.succ_pos d, .inr hm,
        fun _ _ => by show d + 1 ≤ 6; omega, copyLeaf_ok hl, fun _ => hlpos, hlen,
        by show r.count - 1 < _; omega⟩, by show d + 1 ≤ 6; omega, hmwide⟩, happ⟩

end Jacl.RrbVec
