import Jacl.HamtStoreRefines
import Mathlib.Data.Set.Card

/-!
# The map refines a finite map

What a map is for: a partial function on keys up to the equality handler
(`AbstractMap`), updated at one class of keys at a time.  `Denotes` says which
abstract map a trie stands for; `set_denotes` and `unset_denotes` are the two step
lemmas.  Over a whole run of updates every root that was ever made, read in the
memory the run ends with, denotes the abstract map of the updates before it
(`run_refines`).
-/

namespace Jacl.Hamt

variable {K V : Type} {eq : K → K → Bool} {hash : K → BitVec 32}

/-! ### Abstract maps -/

/-- Keys that the equality handler identifies. -/
def keySetoid (hL : Lawful eq hash) : Setoid K := ⟨fun a b => eq a b = true, hL.equiv⟩

/-- A partial function on classes of equal keys. -/
abbrev AbstractMap (hL : Lawful eq hash) (V : Type) := Quotient (keySetoid hL) → Option V

/-- The class of a key. -/
def cls (hL : Lawful eq hash) (k : K) : Quotient (keySetoid hL) := Quotient.mk (keySetoid hL) k

theorem cls_eq_iff (hL : Lawful eq hash) {a b : K} : cls hL a = cls hL b ↔ eq a b = true := by
  constructor
  · intro h
    exact Quotient.exact h
  · intro h
    exact Quotient.sound h

/-- An update of a map. -/
inductive Op (K V : Type) where
  | set (key : K) (value : V)
  | unset (key : K)

open Classical in
/-- An update of an abstract map. -/
noncomputable def AbstractMap.apply (hL : Lawful eq hash) (m : AbstractMap hL V) :
    Op K V → AbstractMap hL V
  | .set key value => Function.update m (cls hL key) (some value)
  | .unset key => Function.update m (cls hL key) none

theorem AbstractMap.apply_set (hL : Lawful eq hash) (m : AbstractMap hL V) (key k : K) (v : V) :
    m.apply hL (.set key v) (cls hL k) = if eq k key = true then some v else m (cls hL k) := by
  classical
  rw [AbstractMap.apply, Function.update_apply]
  by_cases h : eq k key = true
  · rw [if_pos h, if_pos ((cls_eq_iff hL).mpr h)]
  · rw [if_neg h, if_neg fun hc => h ((cls_eq_iff hL).mp hc)]

theorem AbstractMap.apply_unset (hL : Lawful eq hash) (m : AbstractMap hL V) (key k : K) :
    m.apply hL (.unset key) (cls hL k) = if eq k key = true then none else m (cls hL k) := by
  classical
  rw [AbstractMap.apply, Function.update_apply]
  by_cases h : eq k key = true
  · rw [if_pos h, if_pos ((cls_eq_iff hL).mpr h)]
  · rw [if_neg h, if_neg fun hc => h ((cls_eq_iff hL).mp hc)]

/-- The abstract map after some updates of the empty one. -/
noncomputable def AbstractMap.ofOps (hL : Lawful eq hash) (ops : List (Op K V)) :
    AbstractMap hL V :=
  ops.foldl (AbstractMap.apply hL) fun _ => none

/-- The number of bindings of an abstract map. -/
noncomputable def AbstractMap.bindings {hL : Lawful eq hash} (m : AbstractMap hL V) : Nat :=
  Set.ncard { c | (m c).isSome = true }

/-! ### What a trie denotes -/

/-- **The abstract map a trie stands for**: the trie is empty or well shaped, and its
leaves are the bindings. -/
structure Denotes (hL : Lawful eq hash) (t : Node K V) (m : AbstractMap hL V) : Prop where
  shape : t = .null ∨ Shape hash 7 [] t
  distinct : Distinct eq 7 t
  entry : ∀ k v, m (cls hL k) = some v ↔ ∃ l ∈ entries 7 t, eq l.key k = true ∧ l.value = v

variable {hL : Lawful eq hash} {t : Node K V} {m : AbstractMap hL V}

theorem denotes_empty (hL : Lawful eq hash) : Denotes hL (.null : Node K V) fun _ => none := by
  refine ⟨.inl rfl, distinct_null 7, fun k v => ⟨nofun, ?_⟩⟩
  rintro ⟨l, hl, -⟩
  rw [entries_null] at hl
  exact absurd hl List.not_mem_nil

/-- **Reading.**  `jmap_get` finds the binding of the key's class. -/
theorem Denotes.getLeaf (hm : Denotes hL t m) (k : K) :
    ∃ o, Hamt.getLeaf eq 7 t k (hash k) = some o ∧ o.map Leaf.value = m (cls hL k) := by
  rcases hm.shape with rfl | hs
  · refine ⟨none, rfl, ?_⟩
    cases hmk : m (cls hL k) with
    | none => rfl
    | some v =>
      obtain ⟨l, hl, -⟩ := (hm.entry k v).mp hmk
      rw [entries_null] at hl
      exact absurd hl List.not_mem_nil
  · obtain ⟨o, ho, hspec⟩ := getLeaf_spec hL rfl hs hm.distinct (onPath_nil (hash k))
    refine ⟨o, ho, ?_⟩
    cases o with
    | some l =>
      obtain ⟨hl, he⟩ := (hspec l).mp rfl
      exact ((hm.entry k l.value).mpr ⟨l, hl, he, rfl⟩).symm
    | none =>
      cases hmk : m (cls hL k) with
      | none => rfl
      | some v =>
        obtain ⟨l, hl, he, -⟩ := (hm.entry k v).mp hmk
        cases (hspec l).mpr ⟨hl, he⟩

/-- **Counting.**  `jmap_count` is the number of bindings. -/
theorem Denotes.count (hm : Denotes hL t m) : nodeCount t = m.bindings := by
  have hlen : nodeCount t = (entries 7 t).length := by
    rcases hm.shape with rfl | hs
    · rw [entries_null]
      rfl
    · exact hs.nodeCount
  have hpw : (entries 7 t).Pairwise fun a b => eq a.key b.key = false := by
    rcases hm.shape with rfl | hs
    · rw [entries_null]
      exact List.Pairwise.nil
    · exact pairwise_entries hL rfl hs hm.distinct
  have hnodup : ((entries 7 t).map fun l => cls hL l.key).Nodup := by
    rw [List.Nodup, List.pairwise_map]
    refine hpw.imp fun {a b} hab h => ?_
    rw [cls_eq_iff] at h
    rw [hab] at h
    cases h
  classical
  have hset : { c | (m c).isSome = true } =
      (((entries 7 t).map fun l => cls hL l.key).toFinset : Set (Quotient (keySetoid hL))) := by
    ext c
    induction c using Quotient.ind with | _ k
    change (m (cls hL k)).isSome = true ↔ _
    rw [List.coe_toFinset, Set.mem_ofPred_eq, List.mem_map, Option.isSome_iff_exists]
    constructor
    · rintro ⟨v, hv⟩
      obtain ⟨l, hl, he, -⟩ := (hm.entry k v).mp hv
      exact ⟨l, hl, (cls_eq_iff hL).mpr he⟩
    · rintro ⟨l, hl, he⟩
      exact ⟨l.value, (hm.entry k _).mpr ⟨l, hl, (cls_eq_iff hL).mp he, rfl⟩⟩
  rw [hlen, AbstractMap.bindings, hset, Set.ncard_coe_finset, List.toFinset_card_of_nodup hnodup,
    List.length_map]

/-- The bindings after a set, from the leaves after it. -/
theorem denotes_of_set (hm : Denotes hL t m) (new : Leaf K V) {t' : Node K V}
    (hs' : Shape hash 7 [] t') (hd' : Distinct eq 7 t')
    (hmem : ∀ l, l ∈ entries 7 t' ↔ l = new ∨ l ∈ entries 7 t ∧ eq l.key new.key = false) :
    Denotes hL t' (m.apply hL (.set new.key new.value)) := by
  refine ⟨.inr hs', hd', fun k v => ?_⟩
  rw [AbstractMap.apply_set]
  split
  · rename_i hk
    constructor
    · intro hv
      exact ⟨new, (hmem new).mpr (.inl rfl), hL.symm hk, Option.some.inj hv⟩
    · rintro ⟨l, hl, he, rfl⟩
      rcases (hmem l).mp hl with rfl | ⟨-, hne⟩
      · rfl
      · rw [hL.trans he hk] at hne
        cases hne
  · rename_i hk
    rw [hm.entry]
    constructor
    · rintro ⟨l, hl, he, rfl⟩
      refine ⟨l, (hmem l).mpr (.inr ⟨hl, ?_⟩), he, rfl⟩
      rw [← Bool.not_eq_true]
      exact fun h => hk (hL.trans (hL.symm he) h)
    · rintro ⟨l, hl, he, rfl⟩
      rcases (hmem l).mp hl with rfl | ⟨hl, -⟩
      · exact absurd (hL.symm he) hk
      · exact ⟨l, hl, he, rfl⟩

/-- **One set.** -/
theorem set_denotes (hm : Denotes hL t m) (key : K) (value : V) :
    ∃ t', set eq hash t key value = some t' ∧ Denotes hL t' (m.apply hL (.set key value)) := by
  have hnew : OnPath [] (⟨key, value, hash key⟩ : Leaf K V).hash := onPath_nil _
  rcases hm.shape with rfl | hs
  · refine ⟨.leaf ⟨key, value, hash key⟩, rfl, ?_⟩
    refine denotes_of_set hm ⟨key, value, hash key⟩ (shape_leaf.mpr ⟨rfl, onPath_nil _⟩)
      (distinct_leaf 7 _) fun l => ?_
    simp
  · obtain ⟨t', hset, hto⟩ := setRecursive_setTo eq ⟨key, value, hash key⟩ rfl hs hnew
    exact ⟨t', hset, denotes_of_set hm _ (hto.shape rfl hs rfl hnew) (hto.distinct hL hm.distinct)
      (hto.mem_entries hL rfl hs hm.distinct rfl hnew)⟩

/-- **One unset.** -/
theorem unset_denotes (hm : Denotes hL t m) (key : K) :
    ∃ t' b, unsetRecursive eq 7 t key (hash key) = some (t', b) ∧
      Denotes hL t' (m.apply hL (.unset key)) := by
  have hgoal : ∀ {t' : Node K V}, (t' = .null ∨ Shape hash 7 [] t') → Distinct eq 7 t' →
      (∀ l, l ∈ entries 7 t' ↔ l ∈ entries 7 t ∧ eq l.key key = false) →
      Denotes hL t' (m.apply hL (.unset key)) := by
    intro t' hs' hd' hmem
    refine ⟨hs', hd', fun k v => ?_⟩
    rw [AbstractMap.apply_unset]
    split
    · rename_i hk
      refine ⟨nofun, ?_⟩
      rintro ⟨l, hl, he, -⟩
      have hne := ((hmem l).mp hl).2
      rw [hL.trans he hk] at hne
      cases hne
    · rename_i hk
      rw [hm.entry]
      constructor
      · rintro ⟨l, hl, he, rfl⟩
        refine ⟨l, (hmem l).mpr ⟨hl, ?_⟩, he, rfl⟩
        rw [← Bool.not_eq_true]
        exact fun h => hk (hL.trans (hL.symm he) h)
      · rintro ⟨l, hl, he, rfl⟩
        exact ⟨l, ((hmem l).mp hl).1, he, rfl⟩
  rcases hm.shape with rfl | hs
  · exact ⟨.null, true, rfl, hgoal (.inl rfl) hm.distinct fun l => by simp⟩
  · obtain ⟨t', b, hun, hto⟩ := unsetRecursive_unsetTo eq key (hash key) hs
    exact ⟨t', b, hun, hgoal (hto.shape rfl hs fun l _ => hL.hash_eq _ _) (hto.distinct hm.distinct)
      (hto.mem_entries hL rfl hs hm.distinct)⟩

/-! ### Runs -/

namespace Store

/-- A run's memory, and the roots it made, the empty map's first. -/
structure History (K V : Type) where
  cells : Cells K V
  roots : List Ptr

/-- One update of the latest root. -/
def step (eq : K → K → Bool) (hash : K → BitVec 32) (s : History K V) (op : Op K V) :
    Option (History K V) := do
  let root := s.roots.getLastD none
  let (cells, root') ← match op with
    | .set key value => set eq hash s.cells root key value
    | .unset key => unset eq hash s.cells root key
  some ⟨cells, s.roots ++ [root']⟩

/-- A run of updates from the empty map. -/
def run (eq : K → K → Bool) (hash : K → BitVec 32) (ops : List (Op K V)) :
    Option (History K V) :=
  ops.foldlM (step eq hash) ⟨[], [none]⟩

/-- Read through a root, a map agrees with an abstract map: each key is bound, and to
the same value, in both or in neither, and the count is the number of bindings. -/
def Agrees [Zero V] (hL : Lawful eq hash) (cells : Cells K V) (root : Ptr)
    (m : AbstractMap hL V) : Prop :=
  (∀ k, has eq hash cells root k = some (m (cls hL k)).isSome ∧
    get eq hash cells root k = some ((m (cls hL k)).getD 0)) ∧
  count cells root = some m.bindings

theorem agrees_of_stored [Zero V] {σ : Cells K V} {p : Ptr} (hst : Stored 7 σ p t)
    (hm : Denotes hL t m) : Agrees hL σ p m := by
  constructor
  · intro k
    obtain ⟨o, ho, hval⟩ := hm.getLeaf k
    rw [has, get, getLeaf_stored hst, ho, ← hval, Option.map_some, Option.map_some,
      Option.isSome_map]
    exact ⟨rfl, rfl⟩
  · rw [count, nodeCount_stored hst, hm.count]

/-- **The invariant of a run**: root `i` stands for a trie that denotes the abstract
map of the first `i` updates. -/
def Faithful (hL : Lawful eq hash) (ops : List (Op K V)) (s : History K V) : Prop :=
  s.roots.length = ops.length + 1 ∧
    ∀ i p, s.roots[i]? = some p →
      ∃ t, Stored 7 s.cells p t ∧ Denotes hL t (AbstractMap.ofOps hL (ops.take i))

/-- A new root, in a memory that only grew. -/
theorem Faithful.push {ops : List (Op K V)} {s : History K V} (hs : Faithful hL ops s)
    (op : Op K V) {τ : Cells K V} {p : Ptr} (hst : Stored 7 (s.cells ++ τ) p t)
    (hm : Denotes hL t (AbstractMap.ofOps hL (ops ++ [op]))) :
    Faithful hL (ops ++ [op]) ⟨s.cells ++ τ, s.roots ++ [p]⟩ := by
  obtain ⟨hlen, hall⟩ := hs
  refine ⟨by simp [hlen], fun i q hq => ?_⟩
  rcases Nat.lt_or_ge i s.roots.length with hi | hi
  · -- an earlier root keeps its trie
    rw [List.getElem?_append_left hi] at hq
    obtain ⟨t', hst', hm'⟩ := hall i q hq
    refine ⟨t', hst'.mono τ, ?_⟩
    rwa [List.take_append_of_le_length (by omega)]
  · obtain rfl : i = s.roots.length := by
      have := (List.getElem?_eq_some_iff.mp hq).1
      simp only [List.length_append, List.length_singleton] at this
      omega
    obtain rfl : p = q := by simpa using hq
    refine ⟨t, hst, ?_⟩
    rwa [List.take_of_length_le (by simp [hlen])]

/-- **One step of a run.** -/
theorem Faithful.step {ops : List (Op K V)} {s : History K V} (hs : Faithful hL ops s)
    (op : Op K V) : ∃ s', Store.step eq hash s op = some s' ∧ Faithful hL (ops ++ [op]) s' := by
  obtain ⟨t, hst, hm⟩ : ∃ t, Stored 7 s.cells (s.roots.getLastD none) t ∧
      Denotes hL t (AbstractMap.ofOps hL ops) := by
    have hlast : s.roots[ops.length]? = some (s.roots.getLastD none) := by
      rw [List.getLastD_eq_getLast?, List.getLast?_eq_getElem?, hs.1, Nat.add_sub_cancel,
        List.getElem?_eq_getElem (by rw [hs.1]; omega)]
      rfl
    obtain ⟨t, hst, hm⟩ := hs.2 _ _ hlast
    exact ⟨t, hst, by rwa [List.take_of_length_le (Nat.le_refl _)] at hm⟩
  have happ : AbstractMap.ofOps hL (ops ++ [op]) =
      (AbstractMap.ofOps hL ops).apply hL op := by
    rw [AbstractMap.ofOps, List.foldl_append]
    rfl
  cases op with
  | set key value =>
    obtain ⟨t', hset, hm'⟩ := set_denotes hm key value
    obtain ⟨τ, a, hres, -, hst'⟩ := setRecursive_stored hst hset
    refine ⟨_, ?_, hs.push _ hst' (happ ▸ hm')⟩
    rw [Store.step, set, hres]
    rfl
  | unset key =>
    obtain ⟨t', b, hun, hm'⟩ := unset_denotes hm key
    obtain ⟨τ, q, hres, hst', -⟩ := unsetRecursive_stored hst hun
    refine ⟨_, ?_, hs.push _ hst' (happ ▸ hm')⟩
    rw [Store.step, unset, hres]
    rfl

/-- Every run is defined and faithful. -/
theorem run_faithful (hL : Lawful eq hash) (ops : List (Op K V)) :
    ∃ s, run eq hash ops = some s ∧ Faithful hL ops s := by
  induction ops using List.reverseRecOn with
  | nil =>
    refine ⟨⟨[], [none]⟩, rfl, rfl, fun i p hp => ?_⟩
    obtain ⟨hi, rfl⟩ := List.getElem?_eq_some_iff.mp hp
    obtain rfl : i = 0 := by simpa using hi
    exact ⟨.null, rfl, denotes_empty hL⟩
  | append_singleton ops op ih =>
    obtain ⟨s, hrun, hs⟩ := ih
    obtain ⟨s', hstep, hs'⟩ := hs.step op
    refine ⟨s', ?_, hs'⟩
    rw [run, List.foldlM_append]
    rw [run] at hrun
    rw [hrun]
    simp [hstep]

/-- **The map refines a finite map.**  For lawful handlers and any sequence of
`jmap_set` and `jmap_unset` from the empty map, every operation is defined, and every
root made on the way, read in the final memory, agrees with the abstract map of the
updates before it. -/
theorem run_refines [Zero V] (hL : Lawful eq hash) (ops : List (Op K V)) :
    ∃ s, run eq hash ops = some s ∧ s.roots.length = ops.length + 1 ∧
      ∀ i p, s.roots[i]? = some p →
        Agrees hL s.cells p (AbstractMap.ofOps hL (ops.take i)) := by
  obtain ⟨s, hrun, hlen, hall⟩ := run_faithful hL ops
  refine ⟨s, hrun, hlen, fun i p hp => ?_⟩
  obtain ⟨t, hst, hm⟩ := hall i p hp
  exact agrees_of_stored hst hm

/-- Keys modulo 8 under a hash that sends pairs of classes to one value: the run makes
collision nodes, overwrites a key by an equal one and shrinks a collision again. -/
theorem run_refines_mod_eight :
    ∃ hL : Lawful (fun a b : Nat => decide (a % 8 = b % 8)) (fun k => BitVec.ofNat 32 (k % 8 / 2)),
      ∃ s, run (fun a b : Nat => decide (a % 8 = b % 8)) (fun k => BitVec.ofNat 32 (k % 8 / 2))
          [Op.set 2 10, Op.set 3 11, Op.set 5 12, Op.set 11 13, Op.unset 2] = some s ∧
        s.roots.length = 6 ∧ ∀ i p, s.roots[i]? = some p → Agrees hL s.cells p
          (AbstractMap.ofOps hL ([Op.set 2 10, Op.set 3 11, Op.set 5 12, Op.set 11 13,
            Op.unset 2].take i)) := by
  have hL : Lawful (fun a b : Nat => decide (a % 8 = b % 8))
      (fun k => BitVec.ofNat 32 (k % 8 / 2)) := by
    refine ⟨⟨fun a => by simp, fun h => ?_, fun h h' => ?_⟩, fun a b h => ?_⟩
    · exact decide_eq_true (of_decide_eq_true h).symm
    · exact decide_eq_true ((of_decide_eq_true h).trans (of_decide_eq_true h'))
    · simp only [of_decide_eq_true h]
  exact ⟨hL, run_refines hL _⟩

end Store

end Jacl.Hamt
