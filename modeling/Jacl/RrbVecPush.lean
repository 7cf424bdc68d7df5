import Jacl.RrbVecInvariant

/-!
# Pushing onto a vector

`RV_PUSH_TAIL` descends by the radix digits of `count - 1`, where `count` is the
number of elements already in the tree, and gives every node on its path a `NULL`
size table.  It therefore appends the tail only when

* the tree is **dense** (`Dense`): off the right spine every node is full, and so
  is every leaf, so that its nodes can all be read by radix;
* the digits of `count - 1` and of `count` agree above the lowest internal level,
  that is, the tree has one internal level or `count` is no multiple of 1024.

Otherwise the tail goes into a node that is full already (the write to
`children[32]`) or to one that loses the size table it needs.  `PushFits` is the
condition on a vector under which `jvec_push_back` appends, and `pushBack_spec`
that it does.
-/

namespace Jacl.RrbVec
open Segments

variable {α : Type}

/-! ### Paths of single-child nodes -/

theorem elems_newPath (k h : Nat) (n : Node α) : elems (h + k) (newPath k n) = elems h n := by
  induction k with
  | zero => rfl
  | succ k ih => rw [newPath, ← Nat.add_assoc, elems_internal]; simp [ih]

theorem Indexable.newPath {h : Nat} {n : Node α} (hn : Indexable h n) (k : Nat) :
    Indexable (h + k) (newPath k n) := by
  induction k with
  | zero => exact hn
  | succ k ih =>
    refine ⟨by simp, by simp [branch], ?_, ?_⟩
    · intro c hc
      rw [List.mem_singleton] at hc
      exact hc ▸ ih
    · simp [TableFits, counts]

/-- The two ways the source stacks single-child nodes agree. -/
theorem wrapLevels_eq (k : Nat) (n : Node α) : wrapLevels k n = newPath k n := by
  have key : ∀ (k : Nat) (n : Node α), newPath k (.internal none [n]) = .internal none [newPath k n] := by
    intro k
    induction k with
    | zero => intro n; rfl
    | succ k ih => intro n; rw [RrbVec.newPath, ih, RrbVec.newPath]
  induction k generalizing n with
  | zero => rfl
  | succ k ih => rw [wrapLevels, ih, key, RrbVec.newPath]

/-! ### Dense trees -/

/-- The tree is packed to the left: every child but the last is full, the last is
dense, and every leaf is full. -/
def Dense : Nat → Node α → Prop
  | 0, .leaf l => l.count = branch
  | h + 1, .internal _ children =>
    (∀ n ∈ (counts h children).dropLast, n = 2 ^ (bits * (h + 1))) ∧
      ∀ c ∈ children.getLast?, Dense h c
  | _, _ => False

theorem dense_newPath {l : Leaf α} (hl : l.count = branch) (k : Nat) :
    Dense k (newPath k (.leaf l)) := by
  induction k with
  | zero => exact hl
  | succ k ih => exact ⟨by simp [counts], by simpa [RrbVec.newPath] using ih⟩

/-- The children of an indexable node, with the last one singled out. -/
theorem Indexable.concat_children {h : Nat} {st : Option (List Nat)} {cs : List (Node α)}
    (hn : Indexable (h + 1) (.internal st cs)) : ∃ init c, cs = init ++ [c] := by
  rcases List.eq_nil_or_concat cs with h0 | ⟨init, c, hc⟩
  · exact absurd h0 hn.1
  · exact ⟨init, c, by rw [hc, List.concat_eq_append]⟩

/-- A dense node holds its full children and what the last one holds. -/
theorem dense_length {h : Nat} {st : Option (List Nat)} {init : List (Node α)} {c : Node α}
    (hd : Dense (h + 1) (.internal st (init ++ [c]))) :
    (elems (h + 1) (.internal st (init ++ [c]))).length =
      init.length * 2 ^ (bits * (h + 1)) + (elems h c).length := by
  have hfull : ∀ s ∈ init.map (elems h), s.length = 2 ^ (bits * (h + 1)) := by
    intro s hs
    obtain ⟨d, hd', rfl⟩ := List.mem_map.mp hs
    refine hd.1 _ ?_
    rw [counts, List.map_append, List.map_singleton, List.dropLast_concat]
    exact List.mem_map_of_mem hd'
  rw [elems_internal, List.flatMap_append, List.length_append, List.flatMap_def,
    length_flatten_const hfull, List.length_map]
  simp

/-- Dense children need no size table. -/
theorem Dense.strict {h : Nat} {st : Option (List Nat)} {cs : List (Node α)}
    (hd : Dense (h + 1) (.internal st cs)) : TableFits (bits * (h + 1)) none (counts h cs) :=
  hd.1

/-- Replacing the last child of a strict node: the children before it stay full. -/
theorem strict_append {h : Nat} {init : List (Node α)} {c : Node α} (hlen : init.length < branch)
    (hinit : ∀ d ∈ init, Indexable h d) (hc : Indexable h c)
    (hfull : ∀ n ∈ counts h init, n = 2 ^ (bits * (h + 1))) :
    Indexable (h + 1) (.internal none (init ++ [c])) := by
  refine ⟨by simp, by simpa using hlen, ?_, ?_⟩
  · intro d hd
    rcases List.mem_append.mp hd with hd | hd
    · exact hinit d hd
    · rw [List.mem_singleton] at hd
      exact hd ▸ hc
  · intro n hn
    rw [counts, List.map_append, List.map_singleton, List.dropLast_concat] at hn
    exact hfull n hn

theorem dense_append {h : Nat} {st : Option (List Nat)} {init : List (Node α)} {c : Node α}
    (hc : Dense h c) (hfull : ∀ n ∈ counts h init, n = 2 ^ (bits * (h + 1))) :
    Dense (h + 1) (.internal st (init ++ [c])) := by
  refine ⟨?_, by simpa using hc⟩
  intro n hn
  rw [counts, List.map_append, List.map_singleton, List.dropLast_concat] at hn
  exact hfull n hn

/-- The radix digit of the last index at shift `L`, when the elements before the
current node fill a whole number of nodes of its size. -/
theorem last_digit {L q k m count : Nat} (hcount : count = q * 2 ^ (L + bits) + (k * 2 ^ L + m))
    (hk : k < branch) (hm : 0 < m) (hle : m ≤ 2 ^ L) (hb : count < 2 ^ 32) :
    (sub32 count 1 >>> L) % branch = k := by
  have hpow : 2 ^ (L + bits) = branch * 2 ^ L := by rw [pow_add, Nat.mul_comm]; rfl
  rw [sub32_of_le (by omega) hb, Nat.shiftRight_eq_div_pow,
    show count - 1 = (m - 1) + 2 ^ L * (q * branch + k) from by
      rw [hcount, hpow]; have : 2 ^ L * (q * branch + k) = q * (branch * 2 ^ L) + k * 2 ^ L := by ring
      omega,
    Nat.add_mul_div_left _ _ (Nat.two_pow_pos L), Nat.div_eq_of_lt (by omega), Nat.zero_add,
    Nat.mul_comm q branch, Nat.mul_add_mod, Nat.mod_eq_of_lt hk]

/-- **`RV_PUSH_TAIL` on a dense tree.**  Below a node that is not full, with the
elements before it filling whole nodes of its size, the tail is appended and the
tree stays dense, provided the digits above the lowest level do not carry. -/
theorem pushTail_spec {h : Nat} {n : Node α} (hn : Indexable (h + 1) n) (hd : Dense (h + 1) n)
    {t : Leaf α} (ht : t.Ok) (hfull : t.count = branch) {count q : Nat} (hh : h + 1 ≤ 6)
    (hb : count < 2 ^ 32)
    (hcount : count = q * 2 ^ (bits * (h + 2)) + (elems (h + 1) n).length)
    (hroom : (elems (h + 1) n).length < 2 ^ (bits * (h + 2)))
    (hcarry : 0 < h → count % 1024 ≠ 0) :
    ∃ n', pushTail (h + 1) count n (.leaf t) = some n' ∧ Indexable (h + 1) n' ∧
      Dense (h + 1) n' ∧ elems (h + 1) n' = elems (h + 1) n ++ t.elements.take t.count := by
  have htleaf : Indexable 0 (.leaf t) := ⟨ht, by rw [hfull]; decide⟩
  induction h generalizing n q with
  | zero =>
    obtain ⟨st, cs, rfl⟩ := hn.internal
    obtain ⟨init, c, rfl⟩ := hn.concat_children
    have hc : Dense 0 c := hd.2 c (by simp)
    have hcI : Indexable 0 c := hn.2.2.1 c (by simp)
    have hclen : (elems 0 c).length = 2 ^ (bits * 1) := by
      cases c with
      | null => exact hcI.elim
      | internal st cs => exact hcI.elim
      | leaf l => rw [elems_leaf, hcI.1.length_take]; exact hc
    have hlen := dense_length hd
    have hcnt : (init ++ [c]).length < branch := by
      rw [hlen, hclen] at hroom
      simp only [bits, branch, List.length_append, List.length_singleton] at hroom ⊢
      omega
    have hall : ∀ n ∈ counts 0 (init ++ [c]), n = 2 ^ (bits * 1) := by
      intro m hm
      rw [counts, List.map_append, List.map_singleton] at hm
      rcases List.mem_append.mp hm with hm | hm
      · refine hd.1 m ?_
        rwa [counts, List.map_append, List.map_singleton, List.dropLast_concat]
      · rw [List.mem_singleton.mp hm, hclen]
    refine ⟨.internal none (init ++ [c] ++ [.leaf t]), ?_, ?_, ?_, ?_⟩
    · simp only [pushTail]
      rw [if_pos hcnt]
    · exact strict_append hcnt hn.2.2.1 htleaf hall
    · exact dense_append hfull hall
    · rw [elems_internal, elems_internal, List.flatMap_append]
      simp
  | succ h ih =>
    obtain ⟨st, cs, rfl⟩ := hn.internal
    obtain ⟨init, c, rfl⟩ := hn.concat_children
    have hc : Dense (h + 1) c := hd.2 c (by simp)
    have hcI : Indexable (h + 1) c := hn.2.2.1 c (by simp)
    obtain ⟨hpos, hle⟩ := hcI.length_bounds
    have hlen := dense_length hd
    have hinit : init.length < branch := by
      have := hn.2.1
      rw [List.length_append, List.length_singleton] at this
      omega
    have hcarry := hcarry (Nat.succ_pos h)
    have hlevel : bits * (h + 1 + 2) = bits * (h + 2) + bits := by rw [bits]; ring
    rw [hlen, hlevel] at hcount
    -- a full last child would make the count a multiple of its size, hence of 1024
    have hcroom : (elems (h + 1) c).length < 2 ^ (bits * (h + 2)) := by
      refine Nat.lt_of_le_of_ne hle fun he => hcarry ?_
      have hpow : 2 ^ (bits * (h + 2)) = 1024 * 2 ^ (bits * h) := by
        rw [show bits * (h + 2) = 10 + bits * h from by rw [bits]; ring, pow_add,
          show 2 ^ 10 = 1024 from rfl]
      rw [he, pow_add, hpow] at hcount
      rw [hcount, show q * (1024 * 2 ^ (bits * h) * 2 ^ bits) +
          (init.length * (1024 * 2 ^ (bits * h)) + 1024 * 2 ^ (bits * h)) =
          1024 * (q * 2 ^ (bits * h) * 2 ^ bits + init.length * 2 ^ (bits * h) + 2 ^ (bits * h))
          from by ring, Nat.mul_mod_right]
    have hsub := last_digit hcount hinit hpos hle hb
    have hccount : count = (q * branch + init.length) * 2 ^ (bits * (h + 2)) +
        (elems (h + 1) c).length := by
      rw [hcount, pow_add, show 2 ^ bits = branch from rfl]; ring
    obtain ⟨c', hpush, hcI', hcD', hce⟩ :=
      ih hcI hc (by omega) hccount hcroom (fun _ => hcarry)
    have hfullInit : ∀ n ∈ counts (h + 1) init, n = 2 ^ (bits * (h + 1 + 1)) := by
      intro m hm
      refine hd.1 m ?_
      rwa [counts, List.map_append, List.map_singleton, List.dropLast_concat]
    refine ⟨.internal none (init ++ [c']), ?_, ?_, ?_, ?_⟩
    · simp only [pushTail]
      rw [if_pos (show bits * (h + 2) < 32 by rw [bits]; omega), hsub,
        if_pos (by simp), List.getD_eq_getElem?_getD]
      simp [hpush]
    · exact strict_append hinit (fun d hd' => hn.2.2.1 d (by simp [hd'])) hcI' hfullInit
    · exact dense_append hcD' hfullInit
    · rw [elems_internal, elems_internal, List.flatMap_append, List.flatMap_append]
      simp [hce]

/-- A dense tree holds whole leaves. -/
theorem dense_mod_branch {h : Nat} {n : Node α} (hn : Indexable h n) (hd : Dense h n) :
    (elems h n).length % branch = 0 := by
  induction h generalizing n with
  | zero =>
    cases n with
    | null => exact hn.elim
    | internal st cs => exact hn.elim
    | leaf l =>
      rw [elems_leaf, hn.1.length_take, show l.count = branch from hd, Nat.mod_self]
  | succ h ih =>
    obtain ⟨st, cs, rfl⟩ := hn.internal
    obtain ⟨init, c, rfl⟩ := hn.concat_children
    have hc := ih (hn.2.2.1 c (by simp)) (hd.2 c (by simp))
    have hpow : 2 ^ (bits * (h + 1)) = branch * 2 ^ (bits * h) := by
      rw [show bits * (h + 1) = 5 + bits * h from by rw [bits]; ring, pow_add]
      rfl
    rw [dense_length hd, hpow, Nat.add_mod, hc, Nat.mul_left_comm, Nat.mul_mod_right]
    rfl

/-- A full dense node: 32 children, the last of them full as well. -/
theorem dense_full {h : Nat} {st : Option (List Nat)} {init : List (Node α)} {c : Node α}
    (hn : Indexable (h + 1) (.internal st (init ++ [c])))
    (hd : Dense (h + 1) (.internal st (init ++ [c])))
    (hfull : (elems (h + 1) (.internal st (init ++ [c]))).length = 2 ^ (bits * (h + 2))) :
    init.length = 31 ∧ (elems h c).length = 2 ^ (bits * (h + 1)) := by
  have hle := (hn.2.2.1 c (by simp)).length_bounds.2
  have hinit : init.length ≤ 31 := by
    have := hn.2.1
    simp only [List.length_append, List.length_singleton, branch] at this
    omega
  have hpow : 2 ^ (bits * (h + 2)) = 32 * 2 ^ (bits * (h + 1)) := by
    rw [show bits * (h + 2) = 5 + bits * (h + 1) from by rw [bits]; ring, pow_add]
    rfl
  rw [dense_length hd, hpow] at hfull
  have h31 : init.length = 31 := by
    by_contra hne
    have := Nat.mul_le_mul_right (2 ^ (bits * (h + 1))) (show init.length ≤ 30 by omega)
    have hpos := Nat.two_pow_pos (bits * (h + 1))
    omega
  exact ⟨h31, by rw [h31] at hfull; omega⟩

/-- **The carry, below**: in a full dense node the digits of `count - 1` lead to the
last leaf slot, and the tail is written past the child array. -/
theorem pushTail_full {h : Nat} {n : Node α} (hn : Indexable (h + 1) n) (hd : Dense (h + 1) n)
    {t : Node α} {count q : Nat} (hh : h + 1 ≤ 6) (hb : count < 2 ^ 32)
    (hcount : count = q * 2 ^ (bits * (h + 2)) + (elems (h + 1) n).length)
    (hfull : (elems (h + 1) n).length = 2 ^ (bits * (h + 2))) :
    pushTail (h + 1) count n t = none := by
  induction h generalizing n q with
  | zero =>
    obtain ⟨st, cs, rfl⟩ := hn.internal
    obtain ⟨init, c, rfl⟩ := hn.concat_children
    obtain ⟨h31, -⟩ := dense_full hn hd hfull
    simp only [pushTail]
    rw [if_neg (by simp [h31, branch])]
  | succ h ih =>
    obtain ⟨st, cs, rfl⟩ := hn.internal
    obtain ⟨init, c, rfl⟩ := hn.concat_children
    obtain ⟨h31, hcfull⟩ := dense_full hn hd hfull
    have hlevel : bits * (h + 1 + 2) = bits * (h + 2) + bits := by rw [bits]; ring
    rw [dense_length hd, hlevel] at hcount
    have hsub := last_digit hcount (by rw [h31]; decide) (by rw [hcfull]; exact Nat.two_pow_pos _)
      (Nat.le_of_eq hcfull) hb
    have hccount : count = (q * branch + init.length) * 2 ^ (bits * (h + 2)) +
        (elems (h + 1) c).length := by
      rw [hcount, pow_add, show 2 ^ bits = branch from rfl]; ring
    have hrec := ih (hn.2.2.1 c (by simp)) (hd.2 c (by simp)) (by omega) hccount hcfull
    simp only [pushTail]
    rw [if_pos (show bits * (h + 2) < 32 by rw [bits]; omega), hsub,
      if_pos (by simp), List.getD_eq_getElem?_getD]
    simp [hrec]

/-- **The carry.**  With more than one internal level and a tree count that is a
multiple of 1024, `RV_PUSH_TAIL` descends into a full node and writes past its
child array: the condition of `pushTail_spec` is exact. -/
theorem pushTail_carry {h : Nat} {n : Node α} (hn : Indexable (h + 2) n) (hd : Dense (h + 2) n)
    {t : Node α} {count q : Nat} (hh : h + 2 ≤ 6) (hb : count < 2 ^ 32)
    (hcount : count = q * 2 ^ (bits * (h + 3)) + (elems (h + 2) n).length)
    (hcarry : count % 1024 = 0) : pushTail (h + 2) count n t = none := by
  induction h generalizing n q with
  | zero =>
    obtain ⟨st, cs, rfl⟩ := hn.internal
    obtain ⟨init, c, rfl⟩ := hn.concat_children
    have hcI : Indexable 1 c := hn.2.2.1 c (by simp)
    obtain ⟨hpos, hle⟩ := hcI.length_bounds
    have hinit : init.length < branch := by
      have := hn.2.1
      rw [List.length_append, List.length_singleton] at this
      omega
    rw [dense_length hd] at hcount
    -- the last child holds at most 1024 elements, and a multiple of 1024 of them
    have hcfull : (elems 1 c).length = 2 ^ (bits * 2) := by
      norm_num [bits] at hcount hle ⊢
      omega
    have hsub := last_digit (L := bits * 2) (q := q) hcount hinit hpos hle hb
    have hccount : count = (q * branch + init.length) * 2 ^ (bits * 2) + (elems 1 c).length := by
      rw [hcount]
      norm_num [bits, branch]
      ring
    have hrec := pushTail_full (t := t) hcI (hd.2 c (by simp)) (by omega) hb hccount hcfull
    simp only [pushTail]
    rw [if_pos (show bits * (0 + 2) < 32 by decide), hsub, if_pos (by simp),
      List.getD_eq_getElem?_getD]
    simp [hrec]
  | succ h ih =>
    obtain ⟨st, cs, rfl⟩ := hn.internal
    obtain ⟨init, c, rfl⟩ := hn.concat_children
    have hcI : Indexable (h + 2) c := hn.2.2.1 c (by simp)
    obtain ⟨hpos, hle⟩ := hcI.length_bounds
    have hinit : init.length < branch := by
      have := hn.2.1
      rw [List.length_append, List.length_singleton] at this
      omega
    have hlevel : bits * (h + 1 + 3) = bits * (h + 3) + bits := by rw [bits]; ring
    rw [dense_length hd, hlevel] at hcount
    have hsub := last_digit hcount hinit hpos hle hb
    have hccount : count = (q * branch + init.length) * 2 ^ (bits * (h + 3)) +
        (elems (h + 2) c).length := by
      rw [hcount, pow_add, show 2 ^ bits = branch from rfl]; ring
    have hrec := ih hcI (hd.2 c (by simp)) (by omega) hccount
    simp only [pushTail]
    rw [if_pos (show bits * (h + 1 + 2) < 32 by rw [bits]; omega), hsub, if_pos (by simp),
      List.getD_eq_getElem?_getD]
    simp [hrec]

/-! ### `jvec_push_back` -/

/-- **When a push appends.**  The count does not wrap, and the tail has room, or
there is no tree yet, or the tree is full at its depth, or it is dense and the
digits of its count above the lowest level do not carry; in the last two cases the
capacity test must not shift by 32 or more. -/
def PushFits (r : Root α) : Prop :=
  r.count + 1 < 2 ^ 32 ∧
    (r.tail.count < branch ∨ r.root = .null ∨
      r.shift + bits < 32 ∧
        (2 ^ (r.shift + bits) ≤ tailOffset r ∨
          Dense r.depth r.root ∧ (r.depth = 1 ∨ tailOffset r % 1024 ≠ 0)))

section
variable [Zero α]

/-- The tail `jvec_push_back` starts after a full one. -/
def freshTail (x : α) : Leaf α := ⟨1, (mkLeaf : Leaf α).elements.set 0 x⟩

theorem freshTail_ok (x : α) : (freshTail x).Ok := by
  refine ⟨?_, show 1 ≤ branch by decide⟩
  simp [freshTail, mkLeaf]

theorem take_freshTail (x : α) : (freshTail x).elements.take (freshTail x).count = [x] := by
  simp [freshTail, mkLeaf, branch, List.replicate_succ]

theorem copyLeaf_ok {l : Leaf α} (hl : l.Ok) : (copyLeaf l).Ok := by
  refine ⟨?_, hl.2⟩
  rw [copyLeaf, List.length_append, hl.length_take, List.length_replicate]
  have := hl.2
  omega

theorem take_copyLeaf {l : Leaf α} (hl : l.Ok) :
    (copyLeaf l).elements.take l.count = l.elements.take l.count := by
  rw [copyLeaf, List.take_append_of_le_length (by rw [hl.length_take]), List.take_take,
    Nat.min_self]

/-- The tail after `jvec_push_back` has written the next slot. -/
def grownTail (l : Leaf α) (x : α) : Leaf α :=
  ⟨l.count + 1, (copyLeaf l).elements.set l.count x⟩

theorem grownTail_ok {l : Leaf α} (hl : l.Ok) (hroom : l.count < branch) (x : α) :
    (grownTail l x).Ok := by
  refine ⟨?_, hroom⟩
  rw [grownTail, List.length_set]
  exact (copyLeaf_ok hl).1

theorem take_grownTail {l : Leaf α} (hl : l.Ok) (hroom : l.count < branch) (x : α) :
    (grownTail l x).elements.take (l.count + 1) = l.elements.take l.count ++ [x] := by
  have hlen : l.count < (copyLeaf l).elements.length := by rw [(copyLeaf_ok hl).1]; exact hroom
  rw [grownTail, List.take_add_one, List.getElem?_set_self hlen, List.take_set_of_le (Nat.le_refl _),
    take_copyLeaf hl]
  rfl

/-- A push while the tail has room. -/
theorem pushBack_tail {r : Root α} (hr : Valid r) (hroom : r.tail.count < branch)
    (hcount : r.count + 1 < 2 ^ 32) (x : α) :
    ∃ r', pushBack r x = some r' ∧ Valid r' ∧ r'.toList = r.toList ++ [x] ∧
      r'.root = r.root ∧ r'.depth = r.depth ∧ ∀ i, i < r.count → get r' i = get r i := by
  have hlist : (⟨r.root, grownTail r.tail x, r.count + 1, r.depth⟩ : Root α).toList =
      r.toList ++ [x] := by
    rw [Root.toList, Root.toList, List.append_assoc]
    exact congrArg _ (take_grownTail hr.tail_ok hroom x)
  have hvalid : Valid (⟨r.root, grownTail r.tail x, r.count + 1, r.depth⟩ : Root α) :=
    ⟨hr.depth_pos, hr.tree, hr.strict, grownTail_ok hr.tail_ok hroom x,
      fun _ => Nat.succ_pos _, by rw [hlist, List.length_append, ← hr.count_eq]; rfl, hcount⟩
  refine ⟨⟨r.root, grownTail r.tail x, r.count + 1, r.depth⟩, ?_, hvalid, hlist, rfl, rfl, ?_⟩
  · rw [pushBack, if_pos hroom, Nat.mod_eq_of_lt hcount]
    rfl
  · intro i hi
    have hsplit := hr.count_split
    have hoff := hvalid.tailOffset_eq
    simp only at hoff
    simp only [get, hoff, hr.tailOffset_eq]
    rw [if_neg (show ¬ r.count + 1 ≤ i by omega), if_neg (show ¬ r.count ≤ i by omega)]
    split
    · rename_i hle
      have hj : i - (elems r.depth r.root).length < r.tail.count := by omega
      have hget : (grownTail r.tail x).elements[i - (elems r.depth r.root).length]? =
          r.tail.elements[i - (elems r.depth r.root).length]? := by
        rw [grownTail, List.getElem?_set_ne (by omega), ← List.getElem?_take_of_lt hj,
          take_copyLeaf hr.tail_ok, List.getElem?_take_of_lt hj]
      rw [hget]
    · rfl

omit [Zero α] in
/-- A full tail as a leaf of the tree. -/
theorem Valid.full_tail {r : Root α} (hr : Valid r) (hfull : ¬ r.tail.count < branch) :
    r.tail.count = branch ∧ Indexable 0 (.leaf r.tail) := by
  have h := hr.tail_ok.2
  have hc : r.tail.count = branch := by omega
  exact ⟨hc, hr.tail_ok, by rw [hc]; decide⟩

/-- The vector made of a new tree and a fresh tail is valid and holds the pushed element. -/
theorem valid_fresh {r : Root α} (hr : Valid r) {n : Node α} {d : Nat} (hd : 0 < d) (hd6 : d ≤ 6)
    (hn : Indexable d n) (he : elems d n = r.toList) (hcount : r.count + 1 < 2 ^ 32) (x : α) :
    Valid (⟨n, freshTail x, r.count + 1, d⟩ : Root α) ∧
      (⟨n, freshTail x, r.count + 1, d⟩ : Root α).toList = r.toList ++ [x] := by
  have hlist : (⟨n, freshTail x, r.count + 1, d⟩ : Root α).toList = r.toList ++ [x] := by
    rw [Root.toList, he, take_freshTail]
  refine ⟨⟨hd, .inr hn, fun _ _ => hd6, freshTail_ok x, fun _ => Nat.one_pos, ?_, hcount⟩, hlist⟩
  rw [hlist, List.length_append, ← hr.count_eq]
  rfl

/-- A push onto a full tail: everything the vector held is in the new tree, which
is dense and one level higher exactly when the old one was full. -/
theorem pushBack_full {r : Root α} (hr : Valid r) (hfit : PushFits r)
    (htail : ¬ r.tail.count < branch) (x : α) :
    ∃ r', pushBack r x = some r' ∧ Valid r' ∧ r'.toList = r.toList ++ [x] ∧
      r.depth ≤ 6 ∧ r'.depth ≤ 6 ∧ Dense r'.depth r'.root ∧
      elems r'.depth r'.root = r.toList ∧
      r'.depth = if 2 ^ (r.shift + bits) ≤ tailOffset r then r.depth + 1 else r.depth := by
  obtain ⟨hcount, hfit⟩ := hfit
  obtain ⟨hfull, hleaf⟩ := hr.full_tail htail
  have hmod : (r.count + 1) % 2 ^ 32 = r.count + 1 := Nat.mod_eq_of_lt hcount
  rcases hr.tree with ⟨hnull, hd1⟩ | hn
  · -- no tree: the old tail becomes the only leaf
    have hI : Indexable 1 (.internal none [.leaf r.tail]) := hleaf.newPath 1
    have he : elems 1 (.internal none [.leaf r.tail]) = r.toList := by
      rw [Root.toList, hnull, elems_null]
      simp
    obtain ⟨hv, hl⟩ := valid_fresh hr Nat.one_pos (by omega) hI he hcount x
    refine ⟨_, ?_, hv, hl, by omega, show 1 ≤ 6 by omega, dense_newPath hfull 1, he, ?_⟩
    · simp only [pushBack]
      rw [if_neg htail, hnull, hmod, hd1]
      rfl
    · have hpow := Nat.two_pow_pos (r.shift + bits)
      rw [hr.tailOffset_eq, hnull, elems_null, List.length_nil, if_neg (by omega), hd1]
  · have hnn := hn.not_null
    rcases hfit with hfit | hfit | ⟨hshift, hfit⟩
    · exact absurd hfit htail
    · exact absurd hfit hnn
    have hd5 : r.depth ≤ 5 := by rw [Root.shift, bits] at hshift; omega
    have hstep : pushBack r x = if 1 <<< (r.shift + bits) ≤ tailOffset r then
          some ⟨.internal none [r.root, newPath r.depth (.leaf r.tail)], freshTail x,
            (r.count + 1) % 2 ^ 32, r.depth + 1⟩
        else (pushTail r.depth (tailOffset r) r.root (.leaf r.tail)).bind fun newRoot =>
          some ⟨newRoot, freshTail x, (r.count + 1) % 2 ^ 32, r.depth⟩ := by
      simp only [pushBack]
      rw [if_neg htail]
      cases hroot : r.root with
      | null => exact absurd hroot hnn
      | leaf l => simp only [if_pos hshift]; rfl
      | internal st cs => simp only [if_pos hshift]; rfl
    have hcap : r.shift + bits = bits * (r.depth + 1) := by rw [Root.shift, bits]; ring
    rw [hstep, hmod, Nat.shiftLeft_eq, Nat.one_mul, hr.tailOffset_eq]
    rw [hr.tailOffset_eq] at hfit
    split
    · -- the tree is full at its depth: a new root above it and a path to the tail
      rename_i hge
      have hlen : (elems r.depth r.root).length = 2 ^ (bits * (r.depth + 1)) := by
        have := hn.length_bounds.2
        rw [hcap] at hge
        omega
      have hone : ∀ m ∈ counts r.depth [r.root], m = 2 ^ (bits * (r.depth + 1)) := by
        intro m hm
        rw [counts, List.map_singleton, List.mem_singleton] at hm
        rw [hm, hlen]
      have hI : Indexable (r.depth + 1)
          (.internal none ([r.root] ++ [newPath r.depth (.leaf r.tail)])) := by
        refine strict_append (show 1 < branch by decide) ?_ (by simpa using hleaf.newPath r.depth)
          hone
        intro d hd
        rw [List.mem_singleton] at hd
        exact hd ▸ hn
      have hpath := elems_newPath r.depth 0 (Node.leaf r.tail)
      rw [Nat.zero_add] at hpath
      have he : elems (r.depth + 1)
          (.internal none ([r.root] ++ [newPath r.depth (.leaf r.tail)])) = r.toList := by
        rw [elems_internal, List.flatMap_append, Root.toList]
        simp [hpath]
      obtain ⟨hv, hl⟩ := valid_fresh hr (Nat.succ_pos _) (by omega) hI he hcount x
      exact ⟨_, rfl, hv, hl, by omega, Nat.succ_le_succ hd5,
        dense_append (dense_newPath hfull r.depth) hone, he, rfl⟩
    · rename_i hlt
      rw [hcap] at hfit hlt
      obtain ⟨hdense, hcarry⟩ := hfit.resolve_left hlt
      obtain ⟨h, hh⟩ : ∃ h, r.depth = h + 1 := ⟨r.depth - 1, by have := hr.depth_pos; omega⟩
      have hbound : (elems r.depth r.root).length < 2 ^ 32 := by
        have := hr.count_split
        omega
      rw [hh] at hn hdense hcarry hlt hbound ⊢
      obtain ⟨n', hpush, hI, hD, he⟩ := pushTail_spec (q := 0) hn hdense hr.tail_ok hfull (by omega)
        hbound (by simp) (Nat.lt_of_not_le hlt) (fun h0 => hcarry.resolve_left (by omega))
      have he' : elems (h + 1) n' = r.toList := by rw [he, Root.toList, hh]
      obtain ⟨hv, hl⟩ := valid_fresh hr (Nat.succ_pos _) (by omega) hI he' hcount x
      exact ⟨_, by rw [hpush]; rfl, hv, hl, by omega, by show h + 1 ≤ 6; omega, hD, he', rfl⟩

end

end Jacl.RrbVec
