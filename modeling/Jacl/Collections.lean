import Jacl.ValueClosed
import Jacl.HamtUnset

/-!
# Vectors and maps as values (`runtime/collections.c`)

The operations on vector and map values.  The map's key handlers are the equality and
the hash of `ValueEqual`, on the heap at the time of the call.  Errors propagate: a map
operation on an error, or with an error as key or value, returns the error.
-/

namespace Jacl
open JaclVal

/-- `jacl_vec_empty`. -/
def vecEmpty (h : Heap) : Heap × JaclVal :=
  let (h, p) := h.alloc (.vec RrbVec.empty)
  (h, plain 0x06 p)

/-- `jacl_vec_push`. -/
def vecPush (h : Heap) (vec elem : JaclVal) : Option (Heap × JaclVal) := do
  let r ← vecRoot h vec
  let r ← RrbVec.pushBack r elem
  let (h, p) := h.alloc (.vec r)
  some (h, plain 0x06 p)

/-- A new vector's root. -/
theorem vecRoot_alloc (h : Heap) (r : RrbVec.Root JaclVal) :
    vecRoot (h.alloc (.vec r)).1 (plain 0x06 h.next) = some r := by
  have hcell : (h.alloc (.vec r)).1.cells (plain 0x06 h.next).payload = some (.vec r) :=
    Heap.cells_alloc h (.vec r)
  rw [vecRoot, hcell]

/-- `jacl_map_empty`. -/
def mapEmpty : JaclVal := plain 0x07 0

/-- `jaclrt_from_ptr(JACL_TAG_MAP, root)`, with a cell for the new root. -/
def mapOf (h : Heap) : Hamt.Node JaclVal JaclVal → Heap × JaclVal
  | .null => (h, mapEmpty)
  | t =>
    let (h, p) := h.alloc (.map t)
    (h, plain 0x07 p)

/-- `jacl_map_set`. -/
def mapSet (fl : FloatOps) (fuel : Nat) (h : Heap) (m key val : JaclVal) :
    Option (Heap × JaclVal) :=
  if m.error then
    some (h, m)
  else if key.error then
    some (h, key)
  else if val.error then
    some (h, val)
  else do
    let root ← mapRoot h m
    let root ← Hamt.set (valEqual fl h fuel) (keyHash h fuel) root key val
    some (mapOf h root)

/-- `jacl_map_get`. -/
def mapGet (fl : FloatOps) (fuel : Nat) (h : Heap) (m key : JaclVal) : Option JaclVal :=
  mapGetWith (valEqual fl h fuel) (keyHash h fuel) h m key

/-- `jacl_map_remove`. -/
def mapRemove (fl : FloatOps) (fuel : Nat) (h : Heap) (m key : JaclVal) :
    Option (Heap × JaclVal) :=
  if m.error then
    some (h, m)
  else if key.error then
    some (h, key)
  else do
    let root ← mapRoot h m
    let root ← Hamt.unset (valEqual fl h fuel) (keyHash h fuel) root key
    some (mapOf h root)

/-! ### Maps in a heap -/

/-- **A map value**: a trie whose leaves are placed by the hash of their keys, and
whose keys are closed. -/
structure MapOk (n : Nat) (h : Heap) (m : JaclVal) (t : Hamt.Node JaclVal JaclVal) : Prop where
  type_eq : m.type = 0x07
  no_error : m.error = false
  heap : h.Ok
  root : mapRoot h m = some t
  shape : t = .null ∨ Hamt.Shape (keyHash h n) 7 [] t
  closed : ∀ l ∈ Hamt.entries 7 t, Closed h n l.key

theorem mapOk_empty (n : Nat) {h : Heap} (hok : h.Ok) : MapOk n h mapEmpty .null where
  type_eq := rfl
  no_error := rfl
  heap := hok
  root := rfl
  shape := .inl rfl
  closed := fun l hl => absurd hl (by simp)

theorem mapOf_le {h : Heap} (hok : h.Ok) (t : Hamt.Node JaclVal JaclVal) :
    h.Le (mapOf h t).1 ∧ (mapOf h t).1.Ok := by
  cases t with
  | null => exact ⟨Heap.Le.refl h, hok⟩
  | leaf | collision | internal => exact ⟨Heap.le_alloc hok _, Heap.ok_alloc hok _⟩

theorem mapRoot_mapOf {h : Heap} (hok : h.Ok) (t : Hamt.Node JaclVal JaclVal) :
    mapRoot (mapOf h t).1 (mapOf h t).2 = some t := by
  have hne : h.next ≠ 0 := by
    have := hok.1
    omega
  cases t with
  | null => rfl
  | leaf | collision | internal => simp [mapOf, mapRoot, plain, Heap.alloc, hne]

theorem mapOf_type (h : Heap) (t : Hamt.Node JaclVal JaclVal) :
    (mapOf h t).2.type = 0x07 ∧ (mapOf h t).2.error = false := by
  cases t <;> exact ⟨rfl, rfl⟩

theorem Hamt.Shape.congr {K V : Type} {hash hash' : K → BitVec 32} {n : Nat} {path : List Nat}
    {t : Hamt.Node K V} (ht : Hamt.Shape hash n path t)
    (hh : ∀ l ∈ Hamt.entries n t, hash' l.key = hash l.key) : Hamt.Shape hash' n path t := by
  induction n generalizing path t with
  | zero =>
    rcases ht.cases with ⟨l, rfl⟩ | ⟨c, items, rfl⟩ | ⟨m, f, hm, -⟩
    · rw [Hamt.shape_leaf] at ht ⊢
      rw [hh l (by simp)]
      exact ht
    · rw [Hamt.shape_collision] at ht ⊢
      exact ⟨ht.1, ht.2.1, fun l hl => by rw [hh l (by simpa using hl)]; exact ht.2.2 l hl⟩
    · omega
  | succ n ih =>
    rcases ht.cases with ⟨l, rfl⟩ | ⟨c, items, rfl⟩ | ⟨m, f, hm, hf, hc⟩
    · rw [Hamt.shape_leaf] at ht ⊢
      rw [hh l (by simp)]
      exact ht
    · rw [Hamt.shape_collision] at ht ⊢
      exact ⟨ht.1, ht.2.1, fun l hl => by rw [hh l (by simpa using hl)]; exact ht.2.2 l hl⟩
    · obtain rfl : n = m := by omega
      exact hf.shape fun i c hi =>
        ih (hc i c hi) fun l hl => hh l (hf.mem_entries.mpr ⟨i, c, hi, hl⟩)

/-- The trie of a map in a grown heap. -/
theorem MapOk.mono {n : Nat} {h h' : Heap} {m : JaclVal} {t : Hamt.Node JaclVal JaclVal}
    (hm : MapOk n h m t) (hle : h.Le h') (hok : h'.Ok) : MapOk n h' m t where
  type_eq := hm.type_eq
  no_error := hm.no_error
  heap := hok
  root := by
    have hr := hm.root
    rw [mapRoot] at hr ⊢
    split at hr
    · rename_i h0
      rw [if_pos h0, hr]
    · rename_i h0
      rw [if_neg h0]
      cases hc : h.cells m.payload with
      | none => simp [hc] at hr
      | some o =>
        rw [hc] at hr
        rw [hle _ _ hc]
        exact hr
  shape := hm.shape.imp_right fun hs =>
    hs.congr fun l hl => keyHash_mono hle (hm.closed l hl)
  closed := fun l hl => (hm.closed l hl).mono hle

/-- A new root, on the heap that holds it. -/
theorem mapOk_mapOf {n : Nat} {h : Heap} (hok : h.Ok) {t : Hamt.Node JaclVal JaclVal}
    (hs : t = .null ∨ Hamt.Shape (keyHash h n) 7 [] t)
    (hc : ∀ l ∈ Hamt.entries 7 t, Closed h n l.key) :
    MapOk n (mapOf h t).1 (mapOf h t).2 t := by
  obtain ⟨hle, hok'⟩ := mapOf_le hok t
  exact {
    type_eq := (mapOf_type h t).1
    no_error := (mapOf_type h t).2
    heap := hok'
    root := mapRoot_mapOf hok t
    shape := hs.imp_right fun hs => hs.congr fun l hl => keyHash_mono hle (hc l hl)
    closed := fun l hl => (hc l hl).mono hle }

/-- **`jacl_map_set`** on a map: what is done to the trie, and the map that results. -/
theorem MapOk.set {n : Nat} {h : Heap} {m : JaclVal} {t : Hamt.Node JaclVal JaclVal}
    (hm : MapOk n h m t) (fl : FloatOps) {key val : JaclVal} (hk : Closed h n key)
    (hke : key.error = false) (hve : val.error = false) :
    ∃ t', mapSet fl n h m key val = some (mapOf h t') ∧
      MapOk n (mapOf h t').1 (mapOf h t').2 t' ∧
      ((t = .null ∧ t' = .leaf ⟨key, val, keyHash h n key⟩) ∨
        Hamt.SetTo (valEqual fl h n) ⟨key, val, keyHash h n key⟩ 7 t t') := by
  have hrun : ∀ t', Hamt.set (valEqual fl h n) (keyHash h n) t key val = some t' →
      mapSet fl n h m key val = some (mapOf h t') := by
    intro t' ht'
    simp [mapSet, hm.no_error, hke, hve, hm.root, ht']
  rcases hm.shape with rfl | hs
  · refine ⟨_, hrun _ rfl, mapOk_mapOf hm.heap (.inr ?_) ?_, .inl ⟨rfl, rfl⟩⟩
    · exact Hamt.shape_leaf.mpr ⟨rfl, Hamt.onPath_nil _⟩
    · intro l hl
      rw [List.mem_singleton.mp hl]
      exact hk
  · obtain ⟨t', hset, hto⟩ := Hamt.setRecursive_setTo (valEqual fl h n)
      ⟨key, val, keyHash h n key⟩ (show ([] : List Nat).length + 7 = 7 from rfl) hs
      (Hamt.onPath_nil _)
    refine ⟨t', hrun _ hset, mapOk_mapOf hm.heap (.inr ?_) ?_, .inr hto⟩
    · exact hto.shape rfl hs rfl (Hamt.onPath_nil _)
    · intro l hl
      rcases hto.mem_of_mem hl with rfl | hl
      · exact hk
      · exact hm.closed l hl

end Jacl
