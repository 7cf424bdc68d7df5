import Jacl.Hamt

/-!
# The shape of a trie, and what an update does to it

An internal node is a partial array of children (`Holds`), a node with `n` digits
left stands at a path of `7 - n` digits, and every hash below it starts with that
path (`Shape`).  Since seven digits determine a hash, two different hashes part
before the digits run out, and neither `jmap_set` nor `jmap_unset` nor `jmap_get`
shifts by 32 or more.

`SetTo` and `UnsetTo` list everything an update can do to a well-shaped node, in
terms of partial arrays.  The facts about updates are then inductions over them.
-/

namespace Jacl.Hamt
open Sparse

variable {K V : Type}

/-! ### Digits and paths -/

/-- The `j`-th digit of a hash. -/
def digit (h : BitVec 32) (j : Nat) : Nat := bitIndex h (5 * j)

/-- The hash starts with these digits. -/
def OnPath (path : List Nat) (h : BitVec 32) : Prop :=
  path = (List.range path.length).map (digit h)

theorem bitIndex_lt (h : BitVec 32) (s : Nat) : bitIndex h s < 32 := by
  unfold bitIndex
  rw [BitVec.toNat_and, show (0x1F#32).toNat = 2 ^ 5 - 1 from rfl, Nat.and_two_pow_sub_one_eq_mod]
  exact Nat.mod_lt _ (by decide)

theorem bitIndex_shift (h : BitVec 32) {n : Nat} {path : List Nat} (hp : path.length + n = 7) :
    bitIndex h (shift n) = digit h path.length := by
  rw [digit, shift, show 7 - n = path.length from by omega]

theorem onPath_nil (h : BitVec 32) : OnPath [] h := rfl

theorem onPath_concat {path : List Nat} {i : Nat} {h : BitVec 32} :
    OnPath (path ++ [i]) h ↔ OnPath path h ∧ digit h path.length = i := by
  unfold OnPath
  rw [List.length_append, List.length_singleton, List.range_succ, List.map_append,
    List.map_singleton]
  constructor
  · intro heq
    obtain ⟨hpath, hi⟩ := List.append_inj' heq rfl
    exact ⟨hpath, (List.singleton_inj.mp hi).symm⟩
  · rintro ⟨hpath, rfl⟩
    rw [← hpath]

/-- Seven digits determine the hash. -/
theorem eq_of_onPath {path : List Nat} {h h' : BitVec 32} (hlen : path.length = 7)
    (hp : OnPath path h) (hp' : OnPath path h') : h = h' := by
  have hd : ∀ j < 7, digit h j = digit h' j := by
    have := hp.symm.trans hp'
    rw [hlen, List.map_inj_left] at this
    exact fun j hj => this j (List.mem_range.mpr hj)
  refine BitVec.eq_of_getLsbD_eq fun k hk => ?_
  -- bit `k` is bit `k % 5` of digit `k / 5`
  have hbit : ∀ g : BitVec 32, g.getLsbD k = (digit g (k / 5)).testBit (k % 5) := by
    intro g
    rw [digit, bitIndex, BitVec.testBit_toNat, BitVec.getLsbD_and, BitVec.getLsbD_ushiftRight,
      Nat.div_add_mod]
    have hmask : ∀ j < 5, (0x1F#32).getLsbD j = true := by decide
    rw [hmask _ (Nat.mod_lt k (by decide)), Bool.and_true]
  rw [hbit, hbit, hd (k / 5) (by omega)]

/-! ### Internal nodes as partial arrays -/

/-- **What an internal node holds**: the partial array of its children. -/
def Holds (t : Node K V) (f : Nat → Option (Node K V)) : Prop :=
  ∃ bitmap children, t = mkInternal bitmap children ∧ bitmap ≠ 0#32 ∧
    children.length = popcount bitmap ∧ ∀ i, slot bitmap children i = f i

/-- The leaves below a node with `n` digits left, in the order of their paths. -/
def entries : Nat → Node K V → List (Leaf K V)
  | _, .leaf l => [l]
  | _, .collision _ items => items
  | n + 1, .internal _ _ children => children.flatMap (entries n)
  | _, _ => []

@[simp] theorem entries_leaf (n : Nat) (l : Leaf K V) : entries n (.leaf l) = [l] := by
  cases n <;> rfl

@[simp] theorem entries_collision (n : Nat) (h : BitVec 32) (items : List (Leaf K V)) :
    entries n (.collision h items) = items := by
  cases n <;> rfl

@[simp] theorem entries_null (n : Nat) : entries n (.null : Node K V) = [] := by
  cases n <;> rfl

theorem mem_entries_child {n : Nat} {bm : BitVec 32} {c : Nat} {cs : List (Node K V)} {i : Nat}
    {t : Node K V} (hi : cs[i]? = some t) {l : Leaf K V} (hl : l ∈ entries n t) :
    l ∈ entries (n + 1) (.internal bm c cs) :=
  List.mem_flatMap.mpr ⟨t, List.mem_of_getElem? hi, hl⟩

/-- A lookup asks the equality about the keys below the node only. -/
theorem getLeaf_congr {eq eq' : K → K → Bool} {n : Nat} {t : Node K V} {k : K} {h : BitVec 32}
    (he : ∀ l ∈ entries n t, eq' l.key k = eq l.key k) :
    getLeaf eq' n t k h = getLeaf eq n t k h := by
  induction n generalizing t with
  | zero =>
    cases t with
    | null => rfl
    | internal bm c cs => rfl
    | leaf l => rw [getLeaf, getLeaf, he l (by simp)]
    | collision ch items =>
      rw [getLeaf, getLeaf, List.find?_congr fun l hl => he l (by simpa using hl)]
  | succ n ih =>
    cases t with
    | null => rfl
    | leaf l => rw [getLeaf, getLeaf, he l (by simp)]
    | collision ch items =>
      rw [getLeaf, getLeaf, List.find?_congr fun l hl => he l (by simpa using hl)]
    | internal bm c cs =>
      rw [getLeaf, getLeaf]
      split
      · rfl
      · cases hc : cs[getIndex bm (single 32 (bitIndex h (shift (n + 1))))]? with
        | none => rfl
        | some child => exact ih fun l hl => he l (mem_entries_child hc hl)

/-- What a lookup finds is below the node, under a key equal to the one looked up. -/
theorem mem_of_getLeaf {eq : K → K → Bool} {n : Nat} {t : Node K V} {k : K} {h : BitVec 32}
    {l : Leaf K V} (hg : getLeaf eq n t k h = some (some l)) :
    l ∈ entries n t ∧ eq l.key k = true := by
  have hflat : ∀ (ch : BitVec 32) (items : List (Leaf K V)),
      (if ch ≠ h then some none else some (items.find? fun l => eq l.key k)) = some (some l) →
      l ∈ items ∧ eq l.key k = true := by
    intro ch items hf
    split at hf
    · cases hf
    · have hfind := Option.some.inj hf
      exact ⟨List.mem_of_find?_eq_some hfind, by simpa using List.find?_some hfind⟩
  have hleaf : ∀ l' : Leaf K V, some (if eq l'.key k then some l' else none) = some (some l) →
      l = l' ∧ eq l.key k = true := by
    intro l' hf
    split at hf
    · rename_i he
      cases hf
      exact ⟨rfl, he⟩
    · cases hf
  induction n generalizing t with
  | zero =>
    cases t with
    | null => cases hg
    | internal bm c cs => cases hg
    | leaf l' => simpa using hleaf l' hg
    | collision ch items => simpa using hflat ch items hg
  | succ n ih =>
    cases t with
    | null => cases hg
    | leaf l' => simpa using hleaf l' hg
    | collision ch items => simpa using hflat ch items hg
    | internal bm c cs =>
      rw [getLeaf] at hg
      split at hg
      · cases hg
      · cases hc : cs[getIndex bm (single 32 (bitIndex h (shift (n + 1))))]? with
        | none => simp [hc] at hg
        | some child =>
          simp only [hc, Option.bind_eq_bind, Option.bind_some] at hg
          exact (ih hg).imp_left (mem_entries_child hc)

theorem Holds.exists_child {t : Node K V} {f : Nat → Option (Node K V)} (ht : Holds t f) :
    ∃ i c, f i = some c := by
  obtain ⟨bm, cs, rfl, hbm, hlen, hslot⟩ := ht
  have hpos := popcount_pos hbm
  obtain ⟨c, cs', rfl⟩ := List.exists_cons_of_length_pos (by omega : 0 < cs.length)
  obtain ⟨i, hi⟩ := slot_of_mem hlen (List.mem_cons_self (a := c))
  exact ⟨i, c, by rw [← hslot, hi]⟩

theorem Holds.lt {t : Node K V} {f : Nat → Option (Node K V)} (ht : Holds t f) {i : Nat}
    {c : Node K V} (hi : f i = some c) : i < 32 := by
  obtain ⟨bm, cs, rfl, -, -, hslot⟩ := ht
  rw [← hslot] at hi
  exact BitVec.lt_of_getLsbD (mem_of_slot hi).1

theorem Holds.mem_entries {t : Node K V} {f : Nat → Option (Node K V)} (ht : Holds t f) {n : Nat}
    {l : Leaf K V} : l ∈ entries (n + 1) t ↔ ∃ i c, f i = some c ∧ l ∈ entries n c := by
  obtain ⟨bm, cs, rfl, -, hlen, hslot⟩ := ht
  rw [mkInternal, entries, List.mem_flatMap]
  constructor
  · rintro ⟨c, hc, hl⟩
    obtain ⟨i, hi⟩ := slot_of_mem hlen hc
    exact ⟨i, c, by rw [← hslot, hi], hl⟩
  · rintro ⟨i, c, hi, hl⟩
    rw [← hslot] at hi
    exact ⟨c, (mem_of_slot hi).2.2, hl⟩

/-- The node tests and the array index of `hamt.h` read the partial array. -/
theorem child_of_bit {bm : BitVec 32} {cs : List (Node K V)} (hlen : cs.length = popcount bm)
    {i : Nat} (hi : i < 32) :
    (bm &&& single 32 i = 0#32 ∧ bm.getLsbD i = false ∧ slot bm cs i = none) ∨
      (bm &&& single 32 i ≠ 0#32 ∧ bm.getLsbD i = true ∧
        ∃ c, slot bm cs i = some c ∧ cs[getIndex bm (single 32 i)]? = some c) := by
  have hand : ∀ j, (bm &&& single 32 i).getLsbD j = (bm.getLsbD j && decide (j = i)) := by
    intro j
    rw [BitVec.getLsbD_and, getLsbD_single hi]
  cases hb : bm.getLsbD i with
  | false =>
    refine .inl ⟨BitVec.eq_of_getLsbD_eq fun j _ => ?_, rfl, ?_⟩
    · rw [hand]
      by_cases hj : j = i
      · simp [hj, hb]
      · simp [hj]
    · rw [slot, hb]
      rfl
  | true =>
    refine .inr ⟨fun h0 => ?_, rfl, ?_⟩
    · have := hand i
      rw [h0, hb] at this
      simp at this
    · obtain ⟨c, hc, hget⟩ := slot_isSome hlen hb
      exact ⟨c, hc, by rw [getIndex, popcount_mask bm hi]; exact hget⟩

/-- **`H_GET_LEAF` at an internal node** goes to the child in the slot of the digit. -/
theorem Holds.getLeaf {t : Node K V} {f : Nat → Option (Node K V)} (ht : Holds t f)
    (eq : K → K → Bool) (n : Nat) (key : K) (h : BitVec 32) :
    Hamt.getLeaf eq (n + 1) t key h =
      match f (bitIndex h (shift (n + 1))) with
      | none => some none
      | some c => Hamt.getLeaf eq n c key h := by
  obtain ⟨bm, cs, rfl, -, hlen, hslot⟩ := ht
  rw [← hslot, mkInternal, Hamt.getLeaf]
  rcases child_of_bit hlen (bitIndex_lt h (shift (n + 1))) with ⟨h0, -, hs⟩ | ⟨h1, -, c, hs, hget⟩
  · simp only [hs]
    rw [if_pos h0]
  · simp only [hs]
    rw [if_neg h1, hget]
    rfl

theorem holds_single (i : Nat) (hi : i < 32) (c : Node K V) :
    Holds (.internal (single 32 i) (nodeCount c) [c])
      (Function.update (fun _ => none) i (some c)) := by
  refine ⟨single 32 i, [c], by simp [mkInternal], ?_, ?_, ?_⟩
  · intro h0
    have := getLsbD_single hi (j := i)
    rw [h0] at this
    simp at this
  · rw [popcount_single hi, List.length_singleton]
  · intro j
    rw [slot_single hi, Function.update_apply]

theorem holds_replace {bm : BitVec 32} {cs : List (Node K V)} (hbm : bm ≠ 0#32)
    (hlen : cs.length = popcount bm) {i : Nat}
    (hi : bm.getLsbD i = true) (c : Node K V) :
    Holds (mkInternalCopy bm cs bm c (getIndex bm (single 32 i)))
      (Function.update (slot bm cs) i (some c)) := by
  have hlt := BitVec.lt_of_getLsbD hi
  rw [mkInternalCopy, if_neg (Nat.lt_irrefl _), getIndex, popcount_mask bm hlt]
  refine ⟨bm, cs.set (rank bm i) c, rfl, hbm, by rw [List.length_set, hlen], fun j => ?_⟩
  rw [slot_set hlen hi, Function.update_apply]

theorem insert_ne_zero {bm : BitVec 32} {i : Nat} (hi : i < 32) : bm ||| single 32 i ≠ 0#32 := by
  intro h0
  have := getLsbD_insert (b := bm) hi (j := i)
  rw [h0] at this
  simp at this

theorem holds_insert {bm : BitVec 32} {cs : List (Node K V)} (hlen : cs.length = popcount bm)
    {i : Nat} (hlt : i < 32) (hi : bm.getLsbD i = false) (c : Node K V) :
    Holds (mkInternal (bm ||| single 32 i) (cs.insertIdx (rank bm i) c))
      (Function.update (slot bm cs) i (some c)) := by
  have hle : rank bm i ≤ cs.length := by rw [hlen]; exact rank_mono bm (by omega)
  refine ⟨_, _, rfl, insert_ne_zero hlt, ?_, fun j => ?_⟩
  · rw [List.length_insertIdx_of_le_length hle, hlen, popcount_insert hlt hi]
  · rw [slot_insert hlen hlt hi, Function.update_apply]

theorem holds_copy_insert {bm : BitVec 32} {cs : List (Node K V)} (hlen : cs.length = popcount bm)
    {i : Nat} (hlt : i < 32) (hi : bm.getLsbD i = false) (c : Node K V) :
    Holds (mkInternalCopy bm cs (bm ||| single 32 i) c (getIndex bm (single 32 i)))
      (Function.update (slot bm cs) i (some c)) := by
  rw [mkInternalCopy, if_pos (by rw [popcount_insert hlt hi]; omega), getIndex,
    popcount_mask bm hlt]
  exact holds_insert hlen hlt hi c

/-- The two-child node built for different slots. -/
theorem holds_pair {i j : Nat} (hi : i < 32) (hj : j < 32) (hij : i ≠ j) (t : Node K V)
    (l : Leaf K V) :
    Holds (mkPair i j t l)
      (Function.update (Function.update (fun _ => none) i (some t)) j (some (.leaf l))) := by
  have hlen : [t].length = popcount (single 32 i) := by
    rw [popcount_single hi, List.length_singleton]
  have hbit : (single 32 i).getLsbD j = false := by
    rw [getLsbD_single hi, decide_eq_false (fun h => hij h.symm)]
  obtain ⟨bm, cs, heq, hne, hlen', hslot⟩ := holds_insert hlen hj hbit (Node.leaf l)
  refine ⟨bm, cs, ?_, hne, hlen', fun k => ?_⟩
  · rw [← heq, rank_single hi, mkPair, mkInternal]
    by_cases h : i < j
    · simp [h, nodeCount]
    · simp [h, nodeCount, Nat.add_comm]
  · rw [hslot, Function.update_apply, Function.update_apply, slot_single hi, Function.update_apply]

/-! ### The shape of a trie -/

/-- **The shape of a node** with `n` digits left at `path`: leaves carry the hash of
their key, every hash below starts with the path, and collisions have at least two
items of one hash. -/
def Shape (hash : K → BitVec 32) : Nat → List Nat → Node K V → Prop
  | _, path, .leaf l => l.hash = hash l.key ∧ OnPath path l.hash
  | _, path, .collision h items =>
    2 ≤ items.length ∧ OnPath path h ∧ ∀ l ∈ items, l.hash = h ∧ hash l.key = h
  | n + 1, path, .internal bitmap count children =>
    ∃ f, Holds (.internal bitmap count children) f ∧
      ∀ i c, f i = some c → Shape hash n (path ++ [i]) c
  | _, _, _ => False

variable {hash : K → BitVec 32}

@[simp] theorem shape_leaf {n : Nat} {path : List Nat} {l : Leaf K V} :
    Shape hash n path (.leaf l) ↔ l.hash = hash l.key ∧ OnPath path l.hash := by
  cases n <;> rfl

@[simp] theorem shape_collision {n : Nat} {path : List Nat} {h : BitVec 32}
    {items : List (Leaf K V)} :
    Shape hash n path (.collision h items) ↔
      2 ≤ items.length ∧ OnPath path h ∧ ∀ l ∈ items, l.hash = h ∧ hash l.key = h := by
  cases n <;> rfl

theorem Shape.ne_null {n : Nat} {path : List Nat} {t : Node K V} (ht : Shape hash n path t) :
    t ≠ .null := by
  rintro rfl
  cases n <;> exact ht

theorem Holds.shape {t : Node K V} {f : Nat → Option (Node K V)} (ht : Holds t f) {n : Nat}
    {path : List Nat} (hf : ∀ i c, f i = some c → Shape hash n (path ++ [i]) c) :
    Shape hash (n + 1) path t := by
  have ht' := ht
  obtain ⟨bm, cs, rfl, -⟩ := ht
  exact ⟨f, ht', hf⟩

theorem Holds.unique {t : Node K V} {f g : Nat → Option (Node K V)} (hf : Holds t f)
    (hg : Holds t g) : f = g := by
  obtain ⟨bm, cs, rfl, -, -, hslot⟩ := hf
  obtain ⟨bm', cs', heq, -, -, hslot'⟩ := hg
  rw [mkInternal, mkInternal, Node.internal.injEq] at heq
  obtain ⟨rfl, -, rfl⟩ := heq
  funext i
  rw [← hslot, ← hslot']

/-- The children of a well-shaped internal node are well shaped. -/
theorem Holds.shape_child {t : Node K V} {f : Nat → Option (Node K V)} (ht : Holds t f) {n : Nat}
    {path : List Nat} (hs : Shape hash (n + 1) path t) {i : Nat} {c : Node K V}
    (hi : f i = some c) : Shape hash n (path ++ [i]) c := by
  have ht' := ht
  obtain ⟨bm, cs, rfl, -⟩ := ht
  obtain ⟨g, hg, hc⟩ := hs
  exact hc i c (by rw [← ht'.unique hg]; exact hi)

/-- The three kinds of well-shaped nodes. -/
theorem Shape.cases {n : Nat} {path : List Nat} {t : Node K V} (ht : Shape hash n path t) :
    (∃ l, t = .leaf l) ∨ (∃ h items, t = .collision h items) ∨
      ∃ m f, n = m + 1 ∧ Holds t f ∧ ∀ i c, f i = some c → Shape hash m (path ++ [i]) c := by
  cases t with
  | null => exact absurd rfl ht.ne_null
  | leaf l => exact .inl ⟨l, rfl⟩
  | collision h items => exact .inr (.inl ⟨h, items, rfl⟩)
  | internal bm c cs =>
    cases n with
    | zero => exact ht.elim
    | succ m =>
      obtain ⟨f, hf, hc⟩ := ht
      exact .inr (.inr ⟨m, f, rfl, hf, hc⟩)

/-- The leaves below a node carry the hash of their key, on the node's path. -/
theorem Shape.mem_entries {n : Nat} {path : List Nat} {t : Node K V} (ht : Shape hash n path t)
    {l : Leaf K V} (hl : l ∈ entries n t) : l.hash = hash l.key ∧ OnPath path l.hash := by
  induction n generalizing path t with
  | zero =>
    rcases ht.cases with ⟨l', rfl⟩ | ⟨h, items, rfl⟩ | ⟨m, f, hn, -⟩
    · rw [entries_leaf, List.mem_singleton] at hl
      exact hl ▸ shape_leaf.mp ht
    · rw [entries_collision] at hl
      obtain ⟨-, hp, hall⟩ := shape_collision.mp ht
      obtain ⟨hh, hk⟩ := hall l hl
      exact ⟨hh.trans hk.symm, hh ▸ hp⟩
    · omega
  | succ n ih =>
    rcases ht.cases with ⟨l', rfl⟩ | ⟨h, items, rfl⟩ | ⟨m, f, hn, hf, hc⟩
    · rw [entries_leaf, List.mem_singleton] at hl
      exact hl ▸ shape_leaf.mp ht
    · rw [entries_collision] at hl
      obtain ⟨-, hp, hall⟩ := shape_collision.mp ht
      obtain ⟨hh, hk⟩ := hall l hl
      exact ⟨hh.trans hk.symm, hh ▸ hp⟩
    · obtain rfl : n = m := by omega
      obtain ⟨i, c, hi, hl⟩ := hf.mem_entries.mp hl
      obtain ⟨hh, hp⟩ := ih (hc i c hi) hl
      exact ⟨hh, (onPath_concat.mp hp).1⟩

/-- **`jmap_count` counts the leaves.** -/
theorem Shape.nodeCount {n : Nat} {path : List Nat} {t : Node K V} (ht : Shape hash n path t) :
    Hamt.nodeCount t = (entries n t).length := by
  induction n generalizing path t with
  | zero =>
    cases t with
    | null => exact ht.elim
    | leaf l => rfl
    | collision h items => rfl
    | internal bm c cs => exact ht.elim
  | succ n ih =>
    cases t with
    | null => exact ht.elim
    | leaf l => rfl
    | collision h items => rfl
    | internal bm c cs =>
      obtain ⟨f, ⟨bm', cs', heq, -, hlen, hslot⟩, hc⟩ := ht
      rw [mkInternal, Node.internal.injEq] at heq
      obtain ⟨rfl, rfl, rfl⟩ := heq
      rw [Hamt.nodeCount, entries, List.length_flatMap]
      refine congrArg List.sum (List.map_congr_left fun c hmem => ?_)
      obtain ⟨i, hi⟩ := slot_of_mem hlen hmem
      exact ih (hc i c (by rw [← hslot, hi]))

/-- A hash on a node's path is on the path of the child in the slot of its next digit. -/
theorem onPath_step {n : Nat} {path : List Nat} {h : BitVec 32} (hlen : path.length + (n + 1) = 7)
    (hp : OnPath path h) : OnPath (path ++ [bitIndex h (shift (n + 1))]) h :=
  onPath_concat.mpr ⟨hp, (bitIndex_shift h hlen).symm⟩

theorem length_step {n : Nat} {path : List Nat} (i : Nat) (hlen : path.length + (n + 1) = 7) :
    (path ++ [i]).length + n = 7 := by
  rw [List.length_append, List.length_singleton]
  omega

/-- Leaves in different slots have different hashes. -/
theorem Holds.hash_ne {t : Node K V} {f : Nat → Option (Node K V)} (ht : Holds t f) {n : Nat}
    {path : List Nat} (hlen : path.length + (n + 1) = 7) (hs : Shape hash (n + 1) path t)
    {i : Nat} {c : Node K V} (hi : f i = some c) {l : Leaf K V} (hl : l ∈ entries n c)
    {h : BitVec 32} (hne : i ≠ bitIndex h (shift (n + 1))) : l.hash ≠ h := by
  rintro rfl
  obtain ⟨-, hp⟩ := (ht.shape_child hs hi).mem_entries hl
  obtain ⟨-, hd⟩ := onPath_concat.mp hp
  rw [← bitIndex_shift l.hash hlen] at hd
  exact hne hd.symm

/-! ### Lawful handlers -/

/-- **What the map asks of its key handlers**: equality is an equivalence, and equal
keys have equal hashes. -/
structure Lawful (eq : K → K → Bool) (hash : K → BitVec 32) : Prop where
  equiv : Equivalence fun a b => eq a b = true
  hash_eq : ∀ a b, eq a b = true → hash a = hash b

/-- No collision node holds two equal keys. -/
def Distinct (eq : K → K → Bool) : Nat → Node K V → Prop
  | _, .collision _ items => items.Pairwise fun a b => eq a.key b.key = false
  | n + 1, .internal _ _ children => ∀ c ∈ children, Distinct eq n c
  | _, _ => True

variable {eq : K → K → Bool}

theorem Lawful.trans {a b c : K} (hL : Lawful eq hash) (hab : eq a b = true)
    (hbc : eq b c = true) : eq a c = true :=
  hL.equiv.trans hab hbc

theorem Lawful.symm {a b : K} (hL : Lawful eq hash) (hab : eq a b = true) : eq b a = true :=
  hL.equiv.symm hab

theorem Lawful.eq_false_of_hash_ne {a b : K} (hL : Lawful eq hash) (h : hash a ≠ hash b) :
    eq a b = false := by
  rw [← Bool.not_eq_true]
  exact fun he => h (hL.hash_eq a b he)

@[simp] theorem distinct_leaf (n : Nat) (l : Leaf K V) : Distinct eq n (.leaf l) := by
  cases n <;> exact trivial

@[simp] theorem distinct_null (n : Nat) : Distinct eq n (.null : Node K V) := by
  cases n <;> exact trivial

@[simp] theorem distinct_collision {n : Nat} {h : BitVec 32} {items : List (Leaf K V)} :
    Distinct eq n (.collision h items) ↔ items.Pairwise fun a b => eq a.key b.key = false := by
  cases n <;> rfl

theorem Holds.distinct_iff {t : Node K V} {f : Nat → Option (Node K V)} (ht : Holds t f) {n : Nat} :
    Distinct eq (n + 1) t ↔ ∀ i c, f i = some c → Distinct eq n c := by
  obtain ⟨bm, cs, rfl, -, hlen, hslot⟩ := ht
  rw [mkInternal, Distinct]
  constructor
  · intro h i c hi
    rw [← hslot] at hi
    exact h c (mem_of_slot hi).2.2
  · intro h c hc
    obtain ⟨i, hi⟩ := slot_of_mem hlen hc
    exact h i c (by rw [← hslot, hi])

/-- In a list of distinct keys the first equal key is the only one. -/
theorem find_eq_some_iff (hL : Lawful eq hash) {items : List (Leaf K V)}
    (hd : items.Pairwise fun a b => eq a.key b.key = false) {k : K} {l : Leaf K V} :
    items.find? (fun l => eq l.key k) = some l ↔ l ∈ items ∧ eq l.key k = true := by
  constructor
  · intro h
    have hp := List.find?_some (p := fun l : Leaf K V => eq l.key k) h
    exact ⟨List.mem_of_find?_eq_some h, hp⟩
  · rintro ⟨hl, he⟩
    induction items with
    | nil => exact absurd hl List.not_mem_nil
    | cons a items ih =>
      obtain ⟨ha, hd⟩ := List.pairwise_cons.mp hd
      rcases List.mem_cons.mp hl with rfl | hl
      · rw [List.find?_cons_of_pos (p := fun l : Leaf K V => eq l.key k) he]
      · have hne : ¬ eq a.key k = true := by
          intro hak
          have := hL.trans hak (hL.symm he)
          rw [ha l hl] at this
          cases this
        rw [List.find?_cons_of_neg (p := fun l : Leaf K V => eq l.key k) hne]
        exact ih hd hl

theorem getLeaf_leaf (n : Nat) (l : Leaf K V) (k : K) {h : BitVec 32} :
    ∃ o, getLeaf eq n (.leaf l) k h = some o ∧
      ∀ l', o = some l' ↔ l' ∈ entries n (.leaf l) ∧ eq l'.key k = true := by
  refine ⟨if eq l.key k then some l else none, by rw [getLeaf.eq_def], fun l' => ?_⟩
  rw [entries_leaf, List.mem_singleton]
  by_cases he : eq l.key k = true
  · rw [if_pos he, Option.some.injEq]
    exact ⟨fun h => ⟨h.symm, h ▸ he⟩, fun h => h.1.symm⟩
  · rw [if_neg he]
    refine ⟨nofun, ?_⟩
    rintro ⟨rfl, h⟩
    exact absurd h he

theorem getLeaf_collision (hL : Lawful eq hash) (n : Nat) {h : BitVec 32}
    {items : List (Leaf K V)} {path : List Nat} (ht : Shape hash n path (.collision h items))
    (hd : Distinct eq n (.collision h items)) {k : K} :
    ∃ o, getLeaf eq n (.collision h items) k (hash k) = some o ∧
      ∀ l, o = some l ↔ l ∈ entries n (.collision h items) ∧ eq l.key k = true := by
  rw [entries_collision]
  obtain ⟨-, -, hall⟩ := shape_collision.mp ht
  rw [distinct_collision] at hd
  by_cases hh : h = hash k
  · refine ⟨items.find? fun l => eq l.key k, by rw [getLeaf.eq_def]; simp [hh], fun l => ?_⟩
    exact find_eq_some_iff hL hd
  · refine ⟨none, by rw [getLeaf.eq_def]; simp [hh], fun l => ⟨nofun, ?_⟩⟩
    rintro ⟨hl, he⟩
    exact absurd ((hall l hl).2.symm.trans (hL.hash_eq _ _ he)) hh

/-- **`H_GET_LEAF`** finds the leaf with an equal key, if there is one. -/
theorem getLeaf_spec (hL : Lawful eq hash) {n : Nat} {path : List Nat} {t : Node K V}
    (hlen : path.length + n = 7) (ht : Shape hash n path t) (hd : Distinct eq n t) {k : K}
    (hp : OnPath path (hash k)) :
    ∃ o, getLeaf eq n t k (hash k) = some o ∧
      ∀ l, o = some l ↔ l ∈ entries n t ∧ eq l.key k = true := by
  induction n generalizing path t with
  | zero =>
    rcases ht.cases with ⟨l', rfl⟩ | ⟨h, items, rfl⟩ | ⟨m, f, hn, -⟩
    · exact getLeaf_leaf _ _ _
    · exact getLeaf_collision hL _ ht hd
    · omega
  | succ n ih =>
    rcases ht.cases with ⟨l', rfl⟩ | ⟨h, items, rfl⟩ | ⟨m, f, hn, hf, hc⟩
    · exact getLeaf_leaf _ _ _
    · exact getLeaf_collision hL _ ht hd
    · obtain rfl : n = m := by omega
      rw [hf.getLeaf]
      cases hfd : f (bitIndex (hash k) (shift (n + 1))) with
      | none =>
        refine ⟨none, rfl, fun l => ⟨nofun, ?_⟩⟩
        rintro ⟨hl, he⟩
        obtain ⟨i, c, hi, hl⟩ := hf.mem_entries.mp hl
        have hne : l.hash ≠ hash k := by
          refine hf.hash_ne hlen ht hi hl ?_
          rintro rfl
          rw [hfd] at hi
          cases hi
        obtain ⟨hh, -⟩ := ((hf.shape_child ht hi).mem_entries hl)
        exact absurd (hh.trans (hL.hash_eq _ _ he)) hne
      | some c =>
        obtain ⟨o, ho, hspec⟩ := ih (length_step _ hlen) (hc _ c hfd)
          (hf.distinct_iff.mp hd _ c hfd) (onPath_step hlen hp)
        refine ⟨o, ho, fun l => ?_⟩
        rw [hspec l, hf.mem_entries]
        constructor
        · rintro ⟨hl, he⟩
          exact ⟨⟨_, c, hfd, hl⟩, he⟩
        · rintro ⟨⟨i, c', hi, hl⟩, he⟩
          obtain ⟨hh, -⟩ := ((hf.shape_child ht hi).mem_entries hl)
          obtain rfl : i = bitIndex (hash k) (shift (n + 1)) := by
            by_contra hne
            exact hf.hash_ne hlen ht hi hl hne (hh.trans (hL.hash_eq _ _ he))
          rw [hfd] at hi
          exact ⟨(Option.some.inj hi) ▸ hl, he⟩

/-- **The leaves of a map have pairwise different keys.** -/
theorem pairwise_entries (hL : Lawful eq hash) {n : Nat} {path : List Nat} {t : Node K V}
    (hlen : path.length + n = 7) (ht : Shape hash n path t) (hd : Distinct eq n t) :
    (entries n t).Pairwise fun a b => eq a.key b.key = false := by
  induction n generalizing path t with
  | zero =>
    rcases ht.cases with ⟨l', rfl⟩ | ⟨h, items, rfl⟩ | ⟨m, f, hn, -⟩
    · simp
    · simpa using hd
    · omega
  | succ n ih =>
    rcases ht.cases with ⟨l', rfl⟩ | ⟨h, items, rfl⟩ | ⟨m, f, hn, hf, hc⟩
    · simp
    · simpa using hd
    · obtain rfl : n = m := by omega
      have hf' := hf
      obtain ⟨bm, cs, rfl, -, hlenc, hslot⟩ := hf
      rw [mkInternal, entries, List.pairwise_flatMap]
      constructor
      · intro c hmem
        obtain ⟨i, hi⟩ := slot_of_mem hlenc hmem
        rw [hslot] at hi
        exact ih (length_step i hlen) (hc i c hi) (hf'.distinct_iff.mp hd i c hi)
      · refine pairwise_of_slots hlenc fun i j c c' hij hi hj a ha b hb => ?_
        rw [hslot] at hi hj
        obtain ⟨hha, hpa⟩ := (hc i c hi).mem_entries ha
        obtain ⟨hhb, hpb⟩ := (hc j c' hj).mem_entries hb
        refine hL.eq_false_of_hash_ne fun heq => hij ?_
        rw [← hha, ← hhb] at heq
        rw [heq] at hpa
        rw [← (onPath_concat.mp hpa).2, ← (onPath_concat.mp hpb).2]

end Jacl.Hamt
