import Jacl.HamtInvariant

/-!
# Updating a trie

`SetTo` and `UnsetTo` list everything `H_SET_RECURSIVE` and `H_UNSET_RECURSIVE` can
do to a well-shaped node, with internal nodes read as partial arrays;
`setRecursive_setTo` and `unsetRecursive_unsetTo` say that the code does one of
these and never leaves its defined behaviour.  Everything else about updates is an
induction over the two relations: the shape is kept, and, for lawful handlers, the
leaves are those of the updated map.
-/

namespace Jacl.Hamt
open Sparse

variable {K V : Type} {eq : K → K → Bool} {hash : K → BitVec 32}

/-! ### Set -/

/-- A leaf or a collision whose one hash differs from the hash of the new leaf, so
that the two part at some digit. -/
inductive Parts (eq : K → K → Bool) (new : Leaf K V) : Node K V → BitVec 32 → Prop
  | leaf {l : Leaf K V} : eq l.key new.key = false → l.hash ≠ new.hash → Parts eq new (.leaf l) l.hash
  | collision {h : BitVec 32} {items : List (Leaf K V)} : h ≠ new.hash →
      Parts eq new (.collision h items) h

/-- **Everything a set can do** to a node with `n` digits left. -/
inductive SetTo (eq : K → K → Bool) (new : Leaf K V) : Nat → Node K V → Node K V → Prop
  | replace {n : Nat} {l : Leaf K V} : eq l.key new.key = true →
      SetTo eq new n (.leaf l) (.leaf new)
  | collide {n : Nat} {l : Leaf K V} : eq l.key new.key = false → l.hash = new.hash →
      SetTo eq new n (.leaf l) (.collision new.hash [l, new])
  | update {n i : Nat} {items : List (Leaf K V)} :
      items.findIdx? (fun l => eq l.key new.key) = some i →
      SetTo eq new n (.collision new.hash items) (.collision new.hash (items.set i new))
  | extend {n : Nat} {items : List (Leaf K V)} :
      items.findIdx? (fun l => eq l.key new.key) = none →
      SetTo eq new n (.collision new.hash items) (.collision new.hash (items ++ [new]))
  | deeper {n : Nat} {t c node : Node K V} {h : BitVec 32} : Parts eq new t h →
      bitIndex h (shift (n + 1)) = bitIndex new.hash (shift (n + 1)) → SetTo eq new n t c →
      Holds node (Function.update (fun _ => none) (bitIndex new.hash (shift (n + 1))) (some c)) →
      SetTo eq new (n + 1) t node
  | pair {n : Nat} {t node : Node K V} {h : BitVec 32} : Parts eq new t h →
      bitIndex h (shift (n + 1)) ≠ bitIndex new.hash (shift (n + 1)) →
      Holds node (Function.update
        (Function.update (fun _ => none) (bitIndex h (shift (n + 1))) (some t))
        (bitIndex new.hash (shift (n + 1))) (some (.leaf new))) →
      SetTo eq new (n + 1) t node
  | descend {n : Nat} {t c c' t' : Node K V} {f : Nat → Option (Node K V)} : Holds t f →
      f (bitIndex new.hash (shift (n + 1))) = some c → SetTo eq new n c c' →
      Holds t' (Function.update f (bitIndex new.hash (shift (n + 1))) (some c')) →
      SetTo eq new (n + 1) t t'
  | insert {n : Nat} {t t' : Node K V} {f : Nat → Option (Node K V)} : Holds t f →
      f (bitIndex new.hash (shift (n + 1))) = none →
      Holds t' (Function.update f (bitIndex new.hash (shift (n + 1))) (some (.leaf new))) →
      SetTo eq new (n + 1) t t'

theorem Parts.ne {new : Leaf K V} {t : Node K V} {h : BitVec 32} (hp : Parts eq new t h) :
    h ≠ new.hash := by
  cases hp with
  | leaf _ h => exact h
  | collision h => exact h

/-- A node with one hash moves down the path of its hash. -/
theorem Parts.shape {new : Leaf K V} {t : Node K V} {h : BitVec 32} (hp : Parts eq new t h)
    {n m : Nat} {path : List Nat} (ht : Shape hash n path t) :
    OnPath path h ∧ ∀ path', OnPath path' h → Shape hash m path' t := by
  cases hp with
  | leaf he hh =>
    obtain ⟨hh, hp⟩ := shape_leaf.mp ht
    exact ⟨hp, fun path' hp' => shape_leaf.mpr ⟨hh, hp'⟩⟩
  | collision hh =>
    obtain ⟨hlen, hp, hall⟩ := shape_collision.mp ht
    exact ⟨hp, fun path' hp' => shape_collision.mpr ⟨hlen, hp', hall⟩⟩

/-- The code on a node that parts from the new leaf. -/
theorem Parts.setRecursive {new : Leaf K V} {t : Node K V} {h : BitVec 32} (hp : Parts eq new t h)
    (n : Nat) :
    Hamt.setRecursive eq (n + 1) t new.key new.value new.hash =
      if bitIndex h (shift (n + 1)) = bitIndex new.hash (shift (n + 1)) then
        (Hamt.setRecursive eq n t new.key new.value new.hash).bind fun c =>
          some (.internal (single 32 (bitIndex new.hash (shift (n + 1)))) (nodeCount c) [c])
      else some (mkPair (bitIndex h (shift (n + 1))) (bitIndex new.hash (shift (n + 1))) t new) := by
  cases hp with
  | leaf he hh =>
    rw [Hamt.setRecursive]
    simp only [he, if_neg hh, Bool.false_eq_true, if_false]
    split
    · rename_i hidx
      rw [hidx]
      rfl
    · rfl
  | collision hh =>
    rw [Hamt.setRecursive]
    simp only [if_pos hh]
    split
    · rename_i hidx
      rw [hidx]
      rfl
    · rfl

theorem setRecursive_parts {new : Leaf K V} {n : Nat} {path : List Nat} {t : Node K V}
    {h : BitVec 32} (hp : Parts eq new t h) (hlen : path.length + n = 7)
    (ht : Shape hash n path t) (hnew : OnPath path new.hash)
    (ih : ∀ m, n = m + 1 → ∀ path', path'.length + m = 7 → Shape hash m path' t →
      OnPath path' new.hash →
      ∃ t', setRecursive eq m t new.key new.value new.hash = some t' ∧ SetTo eq new m t t') :
    ∃ t', setRecursive eq n t new.key new.value new.hash = some t' ∧ SetTo eq new n t t' := by
  obtain ⟨hpath, hmove⟩ := hp.shape (m := n - 1) ht
  cases n with
  | zero => exact absurd (eq_of_onPath (by omega) hpath hnew) hp.ne
  | succ n =>
    rw [hp.setRecursive n]
    split
    · rename_i hidx
      -- the two hashes share this digit, and the node stands one level further down
      have hpath' := onPath_step hlen hpath
      rw [hidx] at hpath'
      obtain ⟨c, hset, hc⟩ := ih n rfl _ (length_step _ hlen) (hmove _ hpath')
        (onPath_step hlen hnew)
      rw [hset]
      exact ⟨_, rfl, .deeper hp hidx hc (holds_single _ (bitIndex_lt _ _) c)⟩
    · rename_i hidx
      exact ⟨_, rfl, .pair hp hidx (holds_pair (bitIndex_lt _ _) (bitIndex_lt _ _) hidx t new)⟩

/-- The code on a leaf or a collision. -/
theorem setRecursive_flat {new : Leaf K V} {n : Nat} {path : List Nat} {t : Node K V}
    (hflat : (∃ l, t = .leaf l) ∨ ∃ h items, t = .collision h items)
    (hlen : path.length + n = 7) (ht : Shape hash n path t) (hnew : OnPath path new.hash)
    (ih : ∀ m, n = m + 1 → ∀ path', path'.length + m = 7 → Shape hash m path' t →
      OnPath path' new.hash →
      ∃ t', setRecursive eq m t new.key new.value new.hash = some t' ∧ SetTo eq new m t t') :
    ∃ t', setRecursive eq n t new.key new.value new.hash = some t' ∧ SetTo eq new n t t' := by
  rcases hflat with ⟨l, rfl⟩ | ⟨h, items, rfl⟩
  · by_cases he : eq l.key new.key = true
    · exact ⟨.leaf new, by rw [setRecursive.eq_def]; simp [he], .replace he⟩
    · rw [Bool.not_eq_true] at he
      by_cases hh : l.hash = new.hash
      · exact ⟨_, by rw [setRecursive.eq_def]; simp [he, hh], .collide he hh⟩
      · exact setRecursive_parts (.leaf he hh) hlen ht hnew ih
  · by_cases hh : h = new.hash
    · subst hh
      cases hf : items.findIdx? (fun l => eq l.key new.key) with
      | some i => exact ⟨_, by rw [setRecursive.eq_def]; simp [hf], .update hf⟩
      | none => exact ⟨_, by rw [setRecursive.eq_def]; simp [hf], .extend hf⟩
    · exact setRecursive_parts (.collision hh) hlen ht hnew ih

/-- **`H_SET_RECURSIVE` is defined on every well-shaped node**, and does what `SetTo` says. -/
theorem setRecursive_setTo (eq : K → K → Bool) (new : Leaf K V) {n : Nat} {path : List Nat} {t : Node K V}
    (hlen : path.length + n = 7) (ht : Shape hash n path t) (hnew : OnPath path new.hash) :
    ∃ t', setRecursive eq n t new.key new.value new.hash = some t' ∧ SetTo eq new n t t' := by
  induction n generalizing path t with
  | zero =>
    cases t with
    | null => exact ht.elim
    | internal bm c cs => exact ht.elim
    | leaf l =>
      exact setRecursive_flat (.inl ⟨l, rfl⟩) hlen ht hnew (fun m hm => by omega)
    | collision h items =>
      exact setRecursive_flat (.inr ⟨h, items, rfl⟩) hlen ht hnew (fun m hm => by omega)
  | succ n ih =>
    cases t with
    | null => exact ht.elim
    | leaf l =>
      refine setRecursive_flat (.inl ⟨l, rfl⟩) hlen ht hnew fun m hm => ?_
      obtain rfl : n = m := by omega
      exact fun path' hl ht' hn' => ih hl ht' hn'
    | collision h items =>
      refine setRecursive_flat (.inr ⟨h, items, rfl⟩) hlen ht hnew fun m hm => ?_
      obtain rfl : n = m := by omega
      exact fun path' hl ht' hn' => ih hl ht' hn'
    | internal bm c cs =>
      obtain ⟨f, hf, hc⟩ := ht
      have hf' := hf
      obtain ⟨bm', cs', heq, hbm, hlenc, hslot⟩ := hf
      rw [mkInternal, Node.internal.injEq] at heq
      obtain ⟨rfl, -, rfl⟩ := heq
      have hlt := bitIndex_lt new.hash (shift (n + 1))
      have hfun : slot bm cs = f := funext hslot
      rw [setRecursive]
      rcases child_of_bit hlenc hlt with ⟨h0, hb, hs⟩ | ⟨h1, hb, c, hs, hget⟩
      · simp only [h0, ne_eq, not_true_eq_false, if_false]
        refine ⟨_, rfl, .insert hf' (by rw [← hfun]; exact hs) ?_⟩
        rw [← hfun]
        exact holds_copy_insert hlenc hlt hb (.leaf new)
      · rw [hfun] at hs
        have hnew' := onPath_step hlen hnew
        obtain ⟨c', hset, hto⟩ := ih (length_step _ hlen) (hc _ c hs) hnew'
        simp only [h1, ne_eq, not_false_eq_true, if_true, hget, hset, Option.bind_eq_bind,
          Option.bind_some]
        refine ⟨_, rfl, .descend hf' hs hto ?_⟩
        rw [← hfun]
        exact holds_replace hbm hlenc hb c'

/-- A set keeps the shape. -/
theorem SetTo.shape {new : Leaf K V} {n : Nat} {t t' : Node K V} (hset : SetTo eq new n t t')
    {path : List Nat} (hlen : path.length + n = 7) (ht : Shape hash n path t)
    (hnew : new.hash = hash new.key) (hp : OnPath path new.hash) : Shape hash n path t' := by
  induction hset generalizing path with
  | replace he => exact shape_leaf.mpr ⟨hnew, hp⟩
  | @collide n l he hh =>
    obtain ⟨hl, -⟩ := shape_leaf.mp ht
    refine shape_collision.mpr ⟨Nat.le_refl 2, hp, fun l' hl' => ?_⟩
    rcases List.mem_pair.mp hl' with rfl | rfl
    · exact ⟨hh, by rw [← hl, hh]⟩
    · exact ⟨rfl, hnew.symm⟩
  | update hf =>
    obtain ⟨h2, -, hall⟩ := shape_collision.mp ht
    refine shape_collision.mpr ⟨by rwa [List.length_set], hp, fun l hl => ?_⟩
    rcases List.mem_or_eq_of_mem_set hl with hl | rfl
    · exact hall l hl
    · exact ⟨rfl, hnew.symm⟩
  | extend hf =>
    obtain ⟨h2, -, hall⟩ := shape_collision.mp ht
    refine shape_collision.mpr ⟨by rw [List.length_append]; omega, hp, fun l hl => ?_⟩
    rcases List.mem_append.mp hl with hl | hl
    · exact hall l hl
    · rw [List.mem_singleton.mp hl]
      exact ⟨rfl, hnew.symm⟩
  | @deeper n t c node h hparts hidx _ hholds ih =>
    obtain ⟨hpath, hmove⟩ := hparts.shape (m := n) ht
    refine hholds.shape fun i d hd => ?_
    rw [Function.update_apply] at hd
    split at hd
    · rename_i hi
      subst hi
      obtain rfl := Option.some.inj hd
      have hpath' := onPath_step hlen hpath
      rw [hidx] at hpath'
      exact ih (length_step _ hlen) (hmove _ hpath') (onPath_step hlen hp)
    · cases hd
  | @pair n t node h hparts hidx hholds =>
    obtain ⟨hpath, hmove⟩ := hparts.shape (m := n) ht
    refine hholds.shape fun i d hd => ?_
    rw [Function.update_apply, Function.update_apply] at hd
    split at hd
    · rename_i hi
      subst hi
      obtain rfl := Option.some.inj hd
      exact shape_leaf.mpr ⟨hnew, onPath_step hlen hp⟩
    · split at hd
      · rename_i hi
        subst hi
        obtain rfl := Option.some.inj hd
        exact hmove _ (onPath_step hlen hpath)
      · cases hd
  | @descend n t c c' t' f hf hc _ hholds ih =>
    refine hholds.shape fun i d hd => ?_
    rw [Function.update_apply] at hd
    split at hd
    · rename_i hi
      subst hi
      obtain rfl := Option.some.inj hd
      exact ih (length_step _ hlen) (hf.shape_child ht hc) (onPath_step hlen hp)
    · exact hf.shape_child ht hd
  | @insert n t t' f hf hc hholds =>
    refine hholds.shape fun i d hd => ?_
    rw [Function.update_apply] at hd
    split at hd
    · rename_i hi
      subst hi
      obtain rfl := Option.some.inj hd
      exact shape_leaf.mpr ⟨hnew, onPath_step hlen hp⟩
    · exact hf.shape_child ht hd

/-- A set adds no leaf but the new one. -/
theorem SetTo.mem_of_mem {new : Leaf K V} {n : Nat} {t t' : Node K V} (hset : SetTo eq new n t t')
    {l : Leaf K V} (hl : l ∈ entries n t') : l = new ∨ l ∈ entries n t := by
  induction hset with
  | replace he => exact .inl (by simpa using hl)
  | collide he hh =>
    rcases List.mem_pair.mp (by simpa using hl) with rfl | rfl
    · exact .inr (by simp)
    · exact .inl rfl
  | update hf =>
    rw [entries_collision] at hl ⊢
    exact (List.mem_or_eq_of_mem_set hl).symm
  | extend hf =>
    rw [entries_collision] at hl ⊢
    rcases List.mem_append.mp hl with hl | hl
    · exact .inr hl
    · exact .inl (List.mem_singleton.mp hl)
  | @deeper n t c node h hparts _ _ hholds ih =>
    obtain ⟨i, d, hd, hl⟩ := hholds.mem_entries.mp hl
    rw [Function.update_apply] at hd
    split at hd
    · obtain rfl := Option.some.inj hd
      refine (ih hl).imp_right fun hl => ?_
      cases hparts <;> simpa using hl
    · cases hd
  | @pair n t node h hparts _ hholds =>
    obtain ⟨i, d, hd, hl⟩ := hholds.mem_entries.mp hl
    rw [Function.update_apply, Function.update_apply] at hd
    split at hd
    · obtain rfl := Option.some.inj hd
      exact .inl (by simpa using hl)
    · split at hd
      · obtain rfl := Option.some.inj hd
        refine .inr ?_
        cases hparts <;> simpa using hl
      · cases hd
  | @descend n t c c' t' f hf hc _ hholds ih =>
    obtain ⟨i, d, hd, hl⟩ := hholds.mem_entries.mp hl
    rw [Function.update_apply] at hd
    split at hd
    · obtain rfl := Option.some.inj hd
      exact (ih hl).imp_right fun hl => hf.mem_entries.mpr ⟨_, _, hc, hl⟩
    · exact .inr (hf.mem_entries.mpr ⟨i, d, hd, hl⟩)
  | @insert n t t' f hf hc hholds =>
    obtain ⟨i, d, hd, hl⟩ := hholds.mem_entries.mp hl
    rw [Function.update_apply] at hd
    split at hd
    · obtain rfl := Option.some.inj hd
      exact .inl (by simpa using hl)
    · exact .inr (hf.mem_entries.mpr ⟨i, d, hd, hl⟩)

/-- The leaves below an internal node, slot by slot. -/
theorem Holds.entries_eq {t : Node K V} {f : Nat → Option (Node K V)} (ht : Holds t f) (n : Nat) :
    entries (n + 1) t = (List.range 32).flatMap fun i => (f i).toList.flatMap (entries n) := by
  obtain ⟨bm, cs, rfl, -, hlen, hslot⟩ := ht
  rw [mkInternal, entries, ← filterMap_slot hlen, List.filterMap_eq_flatMap_toList,
    List.flatMap_assoc]
  simp only [hslot]

theorem flatMap_single {n i : Nat} (hi : i < 32) (t : Node K V) :
    ((List.range 32).flatMap fun j =>
      (Function.update (fun _ => none) i (some t) j).toList.flatMap (entries n)) = entries n t := by
  rw [← (holds_single i hi t).entries_eq n]
  simp [entries]

/-- One slot gains a leaf, the others stay. -/
theorem perm_slots {β : Type} {w i : Nat} (hi : i < w) {g g' : Nat → List β} {x : β}
    (hx : (g' i).Perm (x :: g i)) (hg : ∀ j, j ≠ i → g' j = g j) :
    ((List.range w).flatMap g').Perm (x :: (List.range w).flatMap g) := by
  obtain ⟨l₁, l₂, hl⟩ := List.append_of_mem (List.mem_range.mpr hi)
  have hnd : (l₁ ++ i :: l₂).Nodup := hl ▸ List.nodup_range
  have hne : ∀ j ∈ l₁ ++ l₂, j ≠ i := by
    rintro j hj rfl
    have := (List.nodup_middle.mp hnd)
    exact (List.nodup_cons.mp this).1 hj
  have hsame : ∀ l : List Nat, (∀ j ∈ l, j ≠ i) → l.flatMap g' = l.flatMap g :=
    fun l hl => List.flatMap_congr fun j hj => hg j (hl j hj)
  rw [hl, List.flatMap_append, List.flatMap_append, List.flatMap_cons, List.flatMap_cons,
    hsame l₁ fun j hj => hne j (List.mem_append_left _ hj),
    hsame l₂ fun j hj => hne j (List.mem_append_right _ hj)]
  refine ((List.Perm.append_right _ hx).append_left _).trans ?_
  rw [List.cons_append]
  exact List.perm_middle

/-- **A set under a new key adds one leaf** and keeps the others. -/
theorem SetTo.perm {new : Leaf K V} {n : Nat} {t t' : Node K V} (hset : SetTo eq new n t t')
    (hnew : ∀ l ∈ entries n t, eq l.key new.key = false) :
    (entries n t').Perm (new :: entries n t) := by
  induction hset with
  | replace he => rw [hnew _ (by simp)] at he; cases he
  | collide he hh =>
    rw [entries_collision, entries_leaf]
    exact List.Perm.swap _ _ _
  | @update n i items hf =>
    obtain ⟨hlt, he, -⟩ := List.findIdx?_eq_some_iff_getElem.mp hf
    rw [hnew _ (by simp)] at he
    cases he
  | extend hf =>
    rw [entries_collision, entries_collision]
    exact List.perm_append_singleton _ _
  | @deeper n t c node h hparts _ _ hholds ih =>
    have hflat : entries (n + 1) t = entries n t := by cases hparts <;> simp
    rw [hflat] at hnew ⊢
    rw [hholds.entries_eq, flatMap_single (bitIndex_lt _ _)]
    exact ih hnew
  | @pair n t node h hparts hne hholds =>
    have hflat : entries (n + 1) t = entries n t := by cases hparts <;> simp
    rw [hholds.entries_eq, hflat, ← flatMap_single (n := n) (bitIndex_lt h (shift (n + 1))) t]
    refine perm_slots (bitIndex_lt new.hash (shift (n + 1))) ?_ fun j hj => ?_
    · rw [Function.update_self, Function.update_of_ne hne.symm]
      simp
    · rw [Function.update_of_ne hj]
  | @descend n t c c' t' f hf hc _ hholds ih =>
    rw [hholds.entries_eq, hf.entries_eq]
    refine perm_slots (bitIndex_lt new.hash (shift (n + 1))) ?_ fun j hj => ?_
    · rw [Function.update_self, hc]
      simpa using ih fun l hl => hnew l (hf.mem_entries.mpr ⟨_, _, hc, hl⟩)
    · rw [Function.update_of_ne hj]
  | @insert n t t' f hf hc hholds =>
    rw [hholds.entries_eq, hf.entries_eq]
    refine perm_slots (bitIndex_lt new.hash (shift (n + 1))) ?_ fun j hj => ?_
    · rw [Function.update_self, hc]
      simp
    · rw [Function.update_of_ne hj]

/-- **Reading back what was set**, under a key that the equality cannot tell from the
new one on the keys below the node. -/
theorem SetTo.getLeaf_new {new : Leaf K V} {n : Nat} {t t' : Node K V}
    (hset : SetTo eq new n t t') {eq' : K → K → Bool} {k : K} (hk : eq' new.key k = true)
    (hcongr : ∀ l ∈ entries n t, eq' l.key k = eq l.key new.key) :
    getLeaf eq' n t' k new.hash = some (some new) := by
  have hleaf : ∀ m, getLeaf eq' m (.leaf new) k new.hash = some (some new) := by
    intro m
    cases m <;> rw [getLeaf, if_pos hk]
  have hitems : ∀ (m : Nat) (items : List (Leaf K V)),
      items.find? (fun l => eq' l.key k) = some new →
      getLeaf eq' m (.collision new.hash items) k new.hash = some (some new) := by
    intro m items hfind
    cases m <;> rw [getLeaf, if_neg (fun h => h rfl), hfind]
  induction hset with
  | replace he => exact hleaf _
  | @collide n l he hh =>
    refine hitems _ _ ?_
    rw [List.find?_cons_of_neg (by rw [hcongr l (by simp), he]; simp),
      List.find?_cons_of_pos (by exact hk)]
  | @update n i items hf =>
    refine hitems _ _ ?_
    obtain ⟨hlt, -, hbefore⟩ := List.findIdx?_eq_some_iff_getElem.mp hf
    rw [List.find?_eq_some_iff_getElem]
    refine ⟨hk, i, by rwa [List.length_set], by rw [List.getElem_set_self], fun j hj => ?_⟩
    have hjlt : j < items.length := by omega
    rw [List.getElem_set_ne (by omega), hcongr _ (by simp), Bool.not_eq_true']
    simpa using hbefore j hj
  | @extend n items hf =>
    refine hitems _ _ ?_
    rw [List.find?_append, List.find?_eq_none.mpr, Option.none_or, List.find?_cons_of_pos (by exact hk)]
    intro l hl
    rw [hcongr l (by simpa using hl), List.findIdx?_eq_none_iff.mp hf l hl]
    simp
  | @deeper n t c node h hparts _ _ hholds ih =>
    rw [hholds.getLeaf, Function.update_self]
    refine ih fun l hl => hcongr l ?_
    cases hparts <;> simpa using hl
  | pair hparts _ hholds =>
    rw [hholds.getLeaf, Function.update_self]
    exact hleaf _
  | descend hf hc _ hholds ih =>
    rw [hholds.getLeaf, Function.update_self]
    exact ih fun l hl => hcongr l (hf.mem_entries.mpr ⟨_, _, hc, hl⟩)
  | insert hf hc hholds =>
    rw [hholds.getLeaf, Function.update_self]
    exact hleaf _

/-- Replacing the first equal key among distinct ones leaves no other. -/
theorem mem_set_find (hL : Lawful eq hash) {items : List (Leaf K V)} {new : Leaf K V} {i : Nat}
    (hd : items.Pairwise fun a b => eq a.key b.key = false)
    (hf : items.findIdx? (fun l => eq l.key new.key) = some i) :
    (∀ l, l ∈ items.set i new ↔ l = new ∨ l ∈ items ∧ eq l.key new.key = false) ∧
      (items.set i new).Pairwise fun a b => eq a.key b.key = false := by
  induction items generalizing i with
  | nil => simp at hf
  | cons a items ih =>
    obtain ⟨ha, hd⟩ := List.pairwise_cons.mp hd
    rw [List.findIdx?_cons] at hf
    split at hf
    · rename_i he
      obtain rfl := Option.some.inj hf
      -- the head is the equal key, so nothing after it is
      have hrest : ∀ l ∈ items, eq l.key new.key = false := by
        intro l hl
        rw [← Bool.not_eq_true]
        intro h
        have := hL.trans he (hL.symm h)
        rw [ha l hl] at this
        cases this
      rw [List.set_cons_zero]
      refine ⟨fun l => ?_, List.pairwise_cons.mpr ⟨fun l hl => ?_, hd⟩⟩
      · rw [List.mem_cons, List.mem_cons]
        constructor
        · rintro (rfl | hl)
          · exact .inl rfl
          · exact .inr ⟨.inr hl, hrest l hl⟩
        · rintro (rfl | ⟨rfl | hl, hne⟩)
          · exact .inl rfl
          · rw [he] at hne
            cases hne
          · exact .inr hl
      · rw [← Bool.not_eq_true]
        intro h
        have := hL.symm h
        rw [hrest l hl] at this
        cases this
    · rename_i he
      rw [Bool.not_eq_true] at he
      obtain ⟨j, hj, rfl⟩ := Option.map_eq_some_iff.mp hf
      obtain ⟨hmem, hpw⟩ := ih hd hj
      rw [List.set_cons_succ]
      refine ⟨fun l => ?_, List.pairwise_cons.mpr ⟨fun l hl => ?_, hpw⟩⟩
      · rw [List.mem_cons, hmem l, List.mem_cons]
        constructor
        · rintro (rfl | rfl | ⟨hl, hne⟩)
          · exact .inr ⟨.inl rfl, he⟩
          · exact .inl rfl
          · exact .inr ⟨.inr hl, hne⟩
        · rintro (rfl | ⟨rfl | hl, hne⟩)
          · exact .inr (.inl rfl)
          · exact .inl rfl
          · exact .inr (.inr ⟨hl, hne⟩)
      · rcases (hmem l).mp hl with rfl | ⟨hl, -⟩
        · exact he
        · exact ha l hl

theorem findIdx_eq_none {items : List (Leaf K V)} {k : K}
    (hf : items.findIdx? (fun l => eq l.key k) = none) : ∀ l ∈ items, eq l.key k = false := by
  intro l hl
  exact List.findIdx?_eq_none_iff.mp hf l hl

/-- A node that parts from the new leaf holds no equal key. -/
theorem Parts.eq_false (hL : Lawful eq hash) {new : Leaf K V} {t : Node K V} {h : BitVec 32}
    (hp : Parts eq new t h) {n : Nat} {path : List Nat} (ht : Shape hash n path t)
    (hnew : new.hash = hash new.key) {m : Nat} :
    ∀ l ∈ entries m t, eq l.key new.key = false := by
  intro l hl
  cases hp with
  | leaf he hh =>
    rw [entries_leaf, List.mem_singleton] at hl
    exact hl ▸ he
  | collision hh =>
    rw [entries_collision] at hl
    obtain ⟨-, -, hall⟩ := shape_collision.mp ht
    refine hL.eq_false_of_hash_ne ?_
    rw [(hall l hl).2, ← hnew]
    exact hh

theorem Parts.entries {new : Leaf K V} {t : Node K V} {h : BitVec 32} (hp : Parts eq new t h)
    (m n : Nat) : Hamt.entries m t = Hamt.entries n t := by
  cases hp with
  | leaf => rw [entries_leaf, entries_leaf]
  | collision => rw [entries_collision, entries_collision]

theorem Parts.distinct {new : Leaf K V} {t : Node K V} {h : BitVec 32} (hp : Parts eq new t h)
    {m n : Nat} (hd : Distinct eq m t) : Distinct eq n t := by
  cases hp with
  | leaf => exact distinct_leaf _ _
  | collision => exact distinct_collision.mpr (distinct_collision.mp hd)

/-- **The leaves after a set**: the new one, and the old ones with other keys. -/
theorem SetTo.mem_entries (hL : Lawful eq hash) {new : Leaf K V} {n : Nat} {t t' : Node K V}
    (hset : SetTo eq new n t t') {path : List Nat} (hlen : path.length + n = 7)
    (ht : Shape hash n path t) (hd : Distinct eq n t) (hnew : new.hash = hash new.key)
    (hp : OnPath path new.hash) (l : Leaf K V) :
    l ∈ entries n t' ↔ l = new ∨ l ∈ entries n t ∧ eq l.key new.key = false := by
  induction hset generalizing path with
  | replace he =>
    rw [entries_leaf, entries_leaf, List.mem_singleton, List.mem_singleton]
    refine ⟨.inl, ?_⟩
    rintro (rfl | ⟨rfl, hne⟩)
    · rfl
    · rw [he] at hne
      cases hne
  | collide he hh =>
    rw [entries_collision, entries_leaf, List.mem_pair, List.mem_singleton]
    constructor
    · rintro (rfl | rfl)
      · exact .inr ⟨rfl, he⟩
      · exact .inl rfl
    · rintro (rfl | ⟨rfl, -⟩)
      · exact .inr rfl
      · exact .inl rfl
  | update hf =>
    rw [entries_collision, entries_collision]
    exact (mem_set_find hL (distinct_collision.mp hd) hf).1 l
  | extend hf =>
    rw [entries_collision, entries_collision, List.mem_append, List.mem_singleton]
    constructor
    · rintro (hl | rfl)
      · exact .inr ⟨hl, findIdx_eq_none hf l hl⟩
      · exact .inl rfl
    · rintro (rfl | ⟨hl, -⟩)
      · exact .inr rfl
      · exact .inl hl
  | @deeper n t c node h hparts hidx _ hholds ih =>
    obtain ⟨hpath, hmove⟩ := hparts.shape (m := n) ht
    have hpath' := onPath_step hlen hpath
    rw [hidx] at hpath'
    have hrec := ih (length_step _ hlen) (hmove _ hpath') (hparts.distinct hd)
      (onPath_step hlen hp)
    rw [hholds.mem_entries, hparts.entries (n + 1) n, ← hrec]
    constructor
    · rintro ⟨i, d, hd, hl⟩
      rw [Function.update_apply] at hd
      split at hd
      · exact Option.some.inj hd ▸ hl
      · cases hd
    · exact fun hl => ⟨_, c, Function.update_self _ _ _, hl⟩
  | @pair n t node h hparts hidx hholds =>
    rw [hholds.mem_entries, hparts.entries (n + 1) n]
    constructor
    · rintro ⟨i, d, hd, hl⟩
      rw [Function.update_apply, Function.update_apply] at hd
      split at hd
      · obtain rfl := Option.some.inj hd
        rw [entries_leaf, List.mem_singleton] at hl
        exact .inl hl
      · split at hd
        · obtain rfl := Option.some.inj hd
          exact .inr ⟨hl, hparts.eq_false hL ht hnew l hl⟩
        · cases hd
    · rintro (rfl | ⟨hl, -⟩)
      · exact ⟨_, .leaf l, Function.update_self _ _ _, by simp⟩
      · exact ⟨_, t, by rw [Function.update_of_ne hidx, Function.update_self], hl⟩
  | @descend n t c c' t' f hf hc _ hholds ih =>
    have hrec := ih (length_step _ hlen) (hf.shape_child ht hc) (hf.distinct_iff.mp hd _ c hc)
      (onPath_step hlen hp)
    rw [hholds.mem_entries, hf.mem_entries]
    constructor
    · rintro ⟨i, d, hd, hl⟩
      rw [Function.update_apply] at hd
      split at hd
      · obtain rfl := Option.some.inj hd
        rcases hrec.mp hl with rfl | ⟨hl, hne⟩
        · exact .inl rfl
        · exact .inr ⟨⟨_, c, hc, hl⟩, hne⟩
      · rename_i hi
        have hne := hf.hash_ne hlen ht hd hl hi
        obtain ⟨hh, -⟩ := (hf.shape_child ht hd).mem_entries hl
        rw [hh, hnew] at hne
        exact .inr ⟨⟨i, d, hd, hl⟩, hL.eq_false_of_hash_ne hne⟩
    · rintro (rfl | ⟨⟨i, d, hd, hl⟩, hne⟩)
      · exact ⟨_, c', Function.update_self _ _ _, hrec.mpr (.inl rfl)⟩
      · by_cases hi : i = bitIndex new.hash (shift (n + 1))
        · subst hi
          rw [hc] at hd
          obtain rfl := Option.some.inj hd
          exact ⟨_, c', Function.update_self _ _ _, hrec.mpr (.inr ⟨hl, hne⟩)⟩
        · exact ⟨i, d, by rw [Function.update_of_ne hi]; exact hd, hl⟩
  | @insert n t t' f hf hc hholds =>
    rw [hholds.mem_entries, hf.mem_entries]
    constructor
    · rintro ⟨i, d, hd, hl⟩
      rw [Function.update_apply] at hd
      split at hd
      · obtain rfl := Option.some.inj hd
        rw [entries_leaf, List.mem_singleton] at hl
        exact .inl hl
      · rename_i hi
        have hne := hf.hash_ne hlen ht hd hl hi
        obtain ⟨hh, -⟩ := (hf.shape_child ht hd).mem_entries hl
        rw [hh, hnew] at hne
        exact .inr ⟨⟨i, d, hd, hl⟩, hL.eq_false_of_hash_ne hne⟩
    · rintro (rfl | ⟨⟨i, d, hd, hl⟩, -⟩)
      · exact ⟨_, .leaf l, Function.update_self _ _ _, by simp⟩
      · have hi : i ≠ bitIndex new.hash (shift (n + 1)) := by
          rintro rfl
          rw [hc] at hd
          cases hd
        exact ⟨i, d, by rw [Function.update_of_ne hi]; exact hd, hl⟩

/-- A set keeps the keys of collision nodes distinct. -/
theorem SetTo.distinct (hL : Lawful eq hash) {new : Leaf K V} {n : Nat} {t t' : Node K V}
    (hset : SetTo eq new n t t') (hd : Distinct eq n t) : Distinct eq n t' := by
  induction hset with
  | replace he => exact distinct_leaf _ _
  | collide he hh =>
    refine distinct_collision.mpr (List.pairwise_pair.mpr he)
  | update hf =>
    exact distinct_collision.mpr (mem_set_find hL (distinct_collision.mp hd) hf).2
  | extend hf =>
    refine distinct_collision.mpr (List.pairwise_append.mpr
      ⟨distinct_collision.mp hd, List.pairwise_singleton _ _, fun a ha b hb => ?_⟩)
    rw [List.mem_singleton.mp hb]
    exact findIdx_eq_none hf a ha
  | deeper hparts hidx _ hholds ih =>
    refine hholds.distinct_iff.mpr fun i d hd' => ?_
    rw [Function.update_apply] at hd'
    split at hd'
    · exact Option.some.inj hd' ▸ ih (hparts.distinct hd)
    · cases hd'
  | pair hparts hidx hholds =>
    refine hholds.distinct_iff.mpr fun i d hd' => ?_
    rw [Function.update_apply, Function.update_apply] at hd'
    split at hd'
    · exact Option.some.inj hd' ▸ distinct_leaf _ _
    · split at hd'
      · exact Option.some.inj hd' ▸ hparts.distinct hd
      · cases hd'
  | descend hf hc _ hholds ih =>
    have hchild := hf.distinct_iff.mp hd
    refine hholds.distinct_iff.mpr fun i d hd' => ?_
    rw [Function.update_apply] at hd'
    split at hd'
    · exact Option.some.inj hd' ▸ ih (hchild _ _ hc)
    · exact hchild i d hd'
  | insert hf hc hholds =>
    have hchild := hf.distinct_iff.mp hd
    refine hholds.distinct_iff.mpr fun i d hd' => ?_
    rw [Function.update_apply] at hd'
    split at hd'
    · exact Option.some.inj hd' ▸ distinct_leaf _ _
    · exact hchild i d hd'

end Jacl.Hamt
