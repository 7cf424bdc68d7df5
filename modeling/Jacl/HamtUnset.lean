import Jacl.HamtUpdate

/-!
# Removing a key from a trie

`UnsetTo` lists everything `H_UNSET_RECURSIVE` can do to a well-shaped node; its
flag says whether the source returns the node's own pointer.  Removing the last
child of an internal node removes the node, so a removal may leave `NULL`.
-/

namespace Jacl.Hamt
open Sparse

variable {K V : Type} {eq : K → K → Bool} {hash : K → BitVec 32}

/-- **Everything an unset can do** to a node with `n` digits left. -/
inductive UnsetTo (eq : K → K → Bool) (key : K) (h : BitVec 32) :
    Nat → Node K V → Node K V → Bool → Prop
  | missLeaf {n : Nat} {l : Leaf K V} : eq l.key key = false →
      UnsetTo eq key h n (.leaf l) (.leaf l) true
  | hitLeaf {n : Nat} {l : Leaf K V} : eq l.key key = true →
      UnsetTo eq key h n (.leaf l) .null false
  | missCollision {n : Nat} {c : BitVec 32} {items : List (Leaf K V)} :
      items.findIdx? (fun l => eq l.key key) = none →
      UnsetTo eq key h n (.collision c items) (.collision c items) true
  | keepOne {n found : Nat} {c : BitVec 32} {items : List (Leaf K V)} {l : Leaf K V} :
      items.findIdx? (fun l => eq l.key key) = some found → items.length = 2 →
      items.eraseIdx found = [l] → UnsetTo eq key h n (.collision c items) (.leaf l) false
  | shrink {n found : Nat} {c : BitVec 32} {items : List (Leaf K V)} :
      items.findIdx? (fun l => eq l.key key) = some found → items.length ≠ 2 →
      UnsetTo eq key h n (.collision c items) (.collision h (items.eraseIdx found)) false
  | absent {n : Nat} {t : Node K V} {f : Nat → Option (Node K V)} : Holds t f →
      f (bitIndex h (shift (n + 1))) = none → UnsetTo eq key h (n + 1) t t true
  | emptied {n : Nat} {t c : Node K V} {b : Bool} {f : Nat → Option (Node K V)} : Holds t f →
      f (bitIndex h (shift (n + 1))) = some c → UnsetTo eq key h n c .null b →
      (∀ i, i ≠ bitIndex h (shift (n + 1)) → f i = none) → UnsetTo eq key h (n + 1) t .null false
  | removed {n : Nat} {t c t' : Node K V} {b : Bool} {f : Nat → Option (Node K V)} : Holds t f →
      f (bitIndex h (shift (n + 1))) = some c → UnsetTo eq key h n c .null b →
      Holds t' (Function.update f (bitIndex h (shift (n + 1))) none) →
      UnsetTo eq key h (n + 1) t t' false
  | kept {n : Nat} {t c c' : Node K V} {f : Nat → Option (Node K V)} : Holds t f →
      f (bitIndex h (shift (n + 1))) = some c → c' ≠ .null → UnsetTo eq key h n c c' true →
      UnsetTo eq key h (n + 1) t t true
  | changed {n : Nat} {t c c' t' : Node K V} {f : Nat → Option (Node K V)} : Holds t f →
      f (bitIndex h (shift (n + 1))) = some c → c' ≠ .null → UnsetTo eq key h n c c' false →
      Holds t' (Function.update f (bitIndex h (shift (n + 1))) (some c')) →
      UnsetTo eq key h (n + 1) t t' false

/-- The item kept of two is what erasing the other leaves. -/
theorem keep_of_two {items : List (Leaf K V)} {found : Nat} (hf : found < items.length)
    (h2 : items.length = 2) :
    ∃ l, items[if found = 0 then 1 else 0]? = some l ∧ items.eraseIdx found = [l] := by
  obtain ⟨a, b, rfl⟩ := List.length_eq_two.mp h2
  rcases Nat.lt_or_ge found 1 with h | h
  · obtain rfl : found = 0 := by omega
    exact ⟨b, rfl, rfl⟩
  · obtain rfl : found = 1 := by
      simp only [List.length_cons, List.length_nil] at hf
      omega
    exact ⟨a, rfl, rfl⟩

/-- The code on a leaf or a collision. -/
theorem unsetRecursive_flat {key : K} {h : BitVec 32} {n : Nat} {t : Node K V}
    (hflat : (∃ l, t = .leaf l) ∨ ∃ c items, t = .collision c items) :
    ∃ t' b, unsetRecursive eq n t key h = some (t', b) ∧ UnsetTo eq key h n t t' b := by
  rcases hflat with ⟨l, rfl⟩ | ⟨c, items, rfl⟩
  · by_cases he : eq l.key key = true
    · exact ⟨_, _, by rw [unsetRecursive.eq_def]; simp [he], .hitLeaf he⟩
    · rw [Bool.not_eq_true] at he
      exact ⟨_, _, by rw [unsetRecursive.eq_def]; simp [he], .missLeaf he⟩
  · cases hf : items.findIdx? (fun l => eq l.key key) with
    | none => exact ⟨_, _, by rw [unsetRecursive.eq_def]; simp [hf], .missCollision hf⟩
    | some found =>
      by_cases h2 : items.length = 2
      · obtain ⟨hlt, -⟩ := List.findIdx?_eq_some_iff_getElem.mp hf
        obtain ⟨l, hget, herase⟩ := keep_of_two hlt h2
        refine ⟨.leaf l, false, ?_, .keepOne hf h2 herase⟩
        rw [unsetRecursive.eq_def]
        simp only [hf, if_pos h2, hget]
        rfl
      · refine ⟨_, _, ?_, .shrink hf h2⟩
        rw [unsetRecursive.eq_def]
        simp only [hf, if_neg h2]

/-- Erasing the child of a slot. -/
theorem holds_erase {bm : BitVec 32} {cs : List (Node K V)} (hlen : cs.length = popcount bm)
    {i : Nat} (hi : bm.getLsbD i = true) (hne : bm &&& ~~~ single 32 i ≠ 0#32) :
    Holds (mkInternal (bm &&& ~~~ single 32 i) (cs.eraseIdx (getIndex bm (single 32 i))))
      (Function.update (slot bm cs) i none) := by
  have hlt : rank bm i < cs.length := by rw [hlen]; exact rank_lt_popcount hi
  have hpop := popcount_erase hi
  rw [getIndex, popcount_mask bm (BitVec.lt_of_getLsbD hi)]
  refine ⟨_, _, rfl, hne, ?_, fun j => ?_⟩
  · rw [List.length_eraseIdx_of_lt hlt]
    omega
  · rw [slot_erase hi, Function.update_apply]

/-- Erasing the only present slot. -/
theorem slot_of_erase_zero {bm : BitVec 32} {cs : List (Node K V)} {i : Nat}
    (hi : bm.getLsbD i = true) (h0 : bm &&& ~~~ single 32 i = 0#32) {j : Nat} (hj : j ≠ i) :
    slot bm cs j = none := by
  have hbit := getLsbD_erase (b := bm) (j := j) (BitVec.lt_of_getLsbD hi)
  rw [h0, BitVec.getLsbD_zero, decide_eq_true hj, Bool.and_true] at hbit
  rw [slot, ← hbit]
  rfl

/-- **`H_UNSET_RECURSIVE` is defined on every well-shaped node**, and does what
`UnsetTo` says. -/
theorem unsetRecursive_unsetTo (eq : K → K → Bool) (key : K) (h : BitVec 32) {n : Nat}
    {path : List Nat} {t : Node K V} (ht : Shape hash n path t) :
    ∃ t' b, unsetRecursive eq n t key h = some (t', b) ∧ UnsetTo eq key h n t t' b := by
  induction n generalizing path t with
  | zero =>
    cases t with
    | null => exact ht.elim
    | internal bm c cs => exact ht.elim
    | leaf l => exact unsetRecursive_flat (.inl ⟨l, rfl⟩)
    | collision c items => exact unsetRecursive_flat (.inr ⟨c, items, rfl⟩)
  | succ n ih =>
    cases t with
    | null => exact ht.elim
    | leaf l => exact unsetRecursive_flat (.inl ⟨l, rfl⟩)
    | collision c items => exact unsetRecursive_flat (.inr ⟨c, items, rfl⟩)
    | internal bm count cs =>
      obtain ⟨f, hf, hc⟩ := ht
      have hf' := hf
      obtain ⟨bm', cs', heq, hbm, hlenc, hslot⟩ := hf
      rw [mkInternal, Node.internal.injEq] at heq
      obtain ⟨rfl, -, rfl⟩ := heq
      have hfun : slot bm cs = f := funext hslot
      rw [unsetRecursive]
      rcases child_of_bit hlenc (bitIndex_lt h (shift (n + 1))) with
        ⟨h0, hb, hs⟩ | ⟨h1, hb, c, hs, hget⟩
      · rw [hfun] at hs
        exact ⟨_, true, by simp only [h0, if_true], .absent hf' hs⟩
      · rw [hfun] at hs
        obtain ⟨c', b, hrec, hto⟩ := ih (hc _ c hs)
        simp only [h1, if_false, hget, hrec, Option.bind_eq_bind, Option.bind_some]
        by_cases hnull : c' = .null
        · subst hnull
          by_cases hz : bm &&& ~~~ single 32 (bitIndex h (shift (n + 1))) = 0#32
          · refine ⟨_, _, by simp only [if_pos hz], .emptied hf' hs hto fun i hi => ?_⟩
            rw [← hfun]
            exact slot_of_erase_zero hb hz hi
          · refine ⟨_, false, by simp only [if_neg hz]; rfl, .removed hf' hs hto ?_⟩
            rw [← hfun]
            exact holds_erase hlenc hb hz
        · cases b with
          | true =>
            refine ⟨_, true, ?_, .kept hf' hs hnull hto⟩
            cases c' with
            | null => exact absurd rfl hnull
            | leaf => rfl
            | collision => rfl
            | internal => rfl
          | false =>
            refine ⟨mkInternalCopy bm cs bm c' (getIndex bm (single 32 (bitIndex h (shift (n + 1))))),
              false, ?_, .changed hf' hs hnull hto ?_⟩
            · cases c' with
              | null => exact absurd rfl hnull
              | leaf => rfl
              | collision => rfl
              | internal => rfl
            · rw [← hfun]
              exact holds_replace hbm hlenc hb c'

/-- The node returned under its own pointer is the node. -/
theorem UnsetTo.same {key : K} {h : BitVec 32} {n : Nat} {t t' : Node K V} {b : Bool}
    (hun : UnsetTo eq key h n t t' b) (hb : b = true) : t' = t := by
  cases hun with
  | missLeaf | missCollision | absent | kept => rfl
  | hitLeaf | keepOne | shrink | emptied | removed | changed => cases hb

/-- Erasing the first equal key among distinct ones leaves the other keys. -/
theorem mem_erase_find (hL : Lawful eq hash) {items : List (Leaf K V)} {key : K} {i : Nat}
    (hd : items.Pairwise fun a b => eq a.key b.key = false)
    (hf : items.findIdx? (fun l => eq l.key key) = some i) (l : Leaf K V) :
    l ∈ items.eraseIdx i ↔ l ∈ items ∧ eq l.key key = false := by
  induction items generalizing i with
  | nil => simp at hf
  | cons a items ih =>
    obtain ⟨ha, hd⟩ := List.pairwise_cons.mp hd
    rw [List.findIdx?_cons] at hf
    split at hf
    · rename_i he
      obtain rfl := Option.some.inj hf
      rw [List.eraseIdx_cons_zero, List.mem_cons]
      constructor
      · intro hl
        refine ⟨.inr hl, ?_⟩
        rw [← Bool.not_eq_true]
        intro h
        have := hL.trans he (hL.symm h)
        rw [ha l hl] at this
        cases this
      · rintro ⟨rfl | hl, hne⟩
        · rw [he] at hne
          cases hne
        · exact hl
    · rename_i he
      rw [Bool.not_eq_true] at he
      obtain ⟨j, hj, rfl⟩ := Option.map_eq_some_iff.mp hf
      rw [List.eraseIdx_cons_succ, List.mem_cons, ih hd hj, List.mem_cons]
      constructor
      · rintro (rfl | ⟨hl, hne⟩)
        · exact ⟨.inl rfl, he⟩
        · exact ⟨.inr hl, hne⟩
      · rintro ⟨rfl | hl, hne⟩
        · exact .inl rfl
        · exact .inr ⟨hl, hne⟩

/-- The hash of a collision node is that of the key found in it. -/
theorem collision_hash {items : List (Leaf K V)} {key : K} {c : BitVec 32} {i n : Nat}
    {path : List Nat} (ht : Shape hash n path (.collision c items))
    (hk : ∀ l ∈ items, eq l.key key = true → hash l.key = hash key)
    (hf : items.findIdx? (fun l => eq l.key key) = some i) : c = hash key := by
  obtain ⟨hlt, he, -⟩ := List.findIdx?_eq_some_iff_getElem.mp hf
  obtain ⟨-, -, hall⟩ := shape_collision.mp ht
  rw [← (hall _ (List.getElem_mem hlt)).2]
  exact hk _ (List.getElem_mem hlt) he

/-- An unset keeps the shape, or leaves nothing, when the keys equal to the one it
removes have its hash. -/
theorem UnsetTo.shape {key : K} {n : Nat} {t t' : Node K V} {b : Bool}
    (hun : UnsetTo eq key (hash key) n t t' b) {path : List Nat}
    (hlen : path.length + n = 7) (ht : Shape hash n path t)
    (hk : ∀ l ∈ entries n t, eq l.key key = true → hash l.key = hash key) :
    t' = .null ∨ Shape hash n path t' := by
  induction hun generalizing path with
  | missLeaf | missCollision | absent | kept => exact .inr ht
  | hitLeaf | emptied => exact .inl rfl
  | keepOne hf h2 herase =>
    obtain ⟨-, hp, hall⟩ := shape_collision.mp ht
    obtain ⟨hh, hk⟩ := hall _ (List.mem_of_mem_eraseIdx (herase ▸ List.mem_singleton_self _))
    exact .inr (shape_leaf.mpr ⟨hh.trans hk.symm, hh ▸ hp⟩)
  | @shrink n found c items hf h2 =>
    have hc := collision_hash ht (by simpa using hk) hf
    obtain ⟨hle, hp, hall⟩ := shape_collision.mp ht
    obtain ⟨hlt, -⟩ := List.findIdx?_eq_some_iff_getElem.mp hf
    rw [hc] at hp hall
    refine .inr (shape_collision.mpr ⟨?_, hp, fun l hl => hall l (List.mem_of_mem_eraseIdx hl)⟩)
    rw [List.length_eraseIdx_of_lt hlt]
    omega
  | @removed n t c t' b f hf hc hun hholds ih =>
    refine .inr (hholds.shape fun i d hd => ?_)
    rw [Function.update_apply] at hd
    split at hd
    · cases hd
    · exact hf.shape_child ht hd
  | @changed n t c c' t' f hf hc hne hun hholds ih =>
    refine .inr (hholds.shape fun i d hd => ?_)
    rw [Function.update_apply] at hd
    split at hd
    · rename_i hi
      subst hi
      obtain rfl := Option.some.inj hd
      exact (ih (length_step _ hlen) (hf.shape_child ht hc)
        fun l hl => hk l (hf.mem_entries.mpr ⟨_, _, hc, hl⟩)).resolve_left hne
    · exact hf.shape_child ht hd

/-- An unset adds no leaf. -/
theorem UnsetTo.mem_of_mem {key : K} {h : BitVec 32} {n : Nat} {t t' : Node K V} {b : Bool}
    (hun : UnsetTo eq key h n t t' b) {l : Leaf K V} (hl : l ∈ entries n t') : l ∈ entries n t := by
  induction hun with
  | missLeaf | missCollision | absent | kept => exact hl
  | hitLeaf | emptied =>
    rw [entries_null] at hl
    exact absurd hl List.not_mem_nil
  | keepOne hf h2 herase =>
    rw [entries_leaf, ← herase] at hl
    rw [entries_collision]
    exact List.mem_of_mem_eraseIdx hl
  | shrink hf h2 =>
    rw [entries_collision] at hl ⊢
    exact List.mem_of_mem_eraseIdx hl
  | @removed n t c t' b f hf hc hun hholds ih =>
    obtain ⟨i, d, hd, hl⟩ := hholds.mem_entries.mp hl
    rw [Function.update_apply] at hd
    split at hd
    · cases hd
    · exact hf.mem_entries.mpr ⟨i, d, hd, hl⟩
  | @changed n t c c' t' f hf hc hne hun hholds ih =>
    obtain ⟨i, d, hd, hl⟩ := hholds.mem_entries.mp hl
    rw [Function.update_apply] at hd
    split at hd
    · obtain rfl := Option.some.inj hd
      exact hf.mem_entries.mpr ⟨_, _, hc, ih hl⟩
    · exact hf.mem_entries.mpr ⟨i, d, hd, hl⟩

/-- **The leaves after an unset**: those with other keys. -/
theorem UnsetTo.mem_entries (hL : Lawful eq hash) {key : K} {n : Nat} {t t' : Node K V} {b : Bool}
    (hun : UnsetTo eq key (hash key) n t t' b) {path : List Nat} (hlen : path.length + n = 7)
    (ht : Shape hash n path t) (hd : Distinct eq n t) (l : Leaf K V) :
    l ∈ entries n t' ↔ l ∈ entries n t ∧ eq l.key key = false := by
  -- leaves in other slots have other hashes, hence other keys
  have hother : ∀ {m : Nat} {s : Node K V} {f : Nat → Option (Node K V)} {p : List Nat},
      Holds s f → p.length + (m + 1) = 7 → Shape hash (m + 1) p s → ∀ {i c}, f i = some c →
      l ∈ entries m c → i ≠ bitIndex (hash key) (shift (m + 1)) → eq l.key key = false := by
    intro m s f p hf hlen hs i c hi hl hne
    obtain ⟨hh, -⟩ := (hf.shape_child hs hi).mem_entries hl
    have := hf.hash_ne hlen hs hi hl hne
    rw [hh] at this
    exact hL.eq_false_of_hash_ne this
  induction hun generalizing path with
  | missLeaf he =>
    rw [entries_leaf, List.mem_singleton]
    exact ⟨fun h => ⟨h, h ▸ he⟩, fun h => h.1⟩
  | hitLeaf he =>
    rw [entries_null, entries_leaf, List.mem_singleton]
    refine ⟨fun h => absurd h List.not_mem_nil, ?_⟩
    rintro ⟨rfl, hne⟩
    rw [he] at hne
    cases hne
  | missCollision hf =>
    rw [entries_collision]
    exact ⟨fun h => ⟨h, findIdx_eq_none hf l h⟩, fun h => h.1⟩
  | keepOne hf h2 herase =>
    rw [entries_leaf, entries_collision, ← mem_erase_find hL (distinct_collision.mp hd) hf, herase]
  | shrink hf h2 =>
    rw [entries_collision, entries_collision]
    exact mem_erase_find hL (distinct_collision.mp hd) hf l
  | @absent n t f hf hc =>
    refine ⟨fun h => ⟨h, ?_⟩, fun h => h.1⟩
    obtain ⟨i, c, hi, hl⟩ := hf.mem_entries.mp h
    refine hother hf hlen ht hi hl ?_
    rintro rfl
    rw [hc] at hi
    cases hi
  | @emptied n t c b f hf hc hun hz ih =>
    have hrec := ih (length_step _ hlen) (hf.shape_child ht hc) (hf.distinct_iff.mp hd _ c hc)
    rw [entries_null] at hrec ⊢
    refine ⟨fun h => absurd h List.not_mem_nil, ?_⟩
    rintro ⟨hl, hne⟩
    obtain ⟨i, d, hi, hl⟩ := hf.mem_entries.mp hl
    by_cases hidx : i = bitIndex (hash key) (shift (n + 1))
    · subst hidx
      rw [hc] at hi
      obtain rfl := Option.some.inj hi
      exact hrec.mpr ⟨hl, hne⟩
    · rw [hz i hidx] at hi
      cases hi
  | @removed n t c t' b f hf hc hun hholds ih =>
    have hrec := ih (length_step _ hlen) (hf.shape_child ht hc) (hf.distinct_iff.mp hd _ c hc)
    rw [entries_null] at hrec
    rw [hholds.mem_entries, hf.mem_entries]
    constructor
    · rintro ⟨i, d, hi, hl⟩
      rw [Function.update_apply] at hi
      split at hi
      · cases hi
      · rename_i hidx
        exact ⟨⟨i, d, hi, hl⟩, hother hf hlen ht hi hl hidx⟩
    · rintro ⟨⟨i, d, hi, hl⟩, hne⟩
      by_cases hidx : i = bitIndex (hash key) (shift (n + 1))
      · subst hidx
        rw [hc] at hi
        obtain rfl := Option.some.inj hi
        exact absurd (hrec.mpr ⟨hl, hne⟩) List.not_mem_nil
      · exact ⟨i, d, by rw [Function.update_of_ne hidx]; exact hi, hl⟩
  | @kept n t c c' f hf hc hnull hun ih =>
    have hrec := ih (length_step _ hlen) (hf.shape_child ht hc) (hf.distinct_iff.mp hd _ c hc)
    rw [hun.same rfl] at hrec
    refine ⟨fun h => ⟨h, ?_⟩, fun h => h.1⟩
    obtain ⟨i, d, hi, hl⟩ := hf.mem_entries.mp h
    by_cases hidx : i = bitIndex (hash key) (shift (n + 1))
    · subst hidx
      rw [hc] at hi
      obtain rfl := Option.some.inj hi
      exact (hrec.mp hl).2
    · exact hother hf hlen ht hi hl hidx
  | @changed n t c c' t' f hf hc hnull hun hholds ih =>
    have hrec := ih (length_step _ hlen) (hf.shape_child ht hc) (hf.distinct_iff.mp hd _ c hc)
    rw [hholds.mem_entries, hf.mem_entries]
    constructor
    · rintro ⟨i, d, hi, hl⟩
      rw [Function.update_apply] at hi
      split at hi
      · obtain rfl := Option.some.inj hi
        obtain ⟨hl, hne⟩ := hrec.mp hl
        exact ⟨⟨_, c, hc, hl⟩, hne⟩
      · rename_i hidx
        exact ⟨⟨i, d, hi, hl⟩, hother hf hlen ht hi hl hidx⟩
    · rintro ⟨⟨i, d, hi, hl⟩, hne⟩
      by_cases hidx : i = bitIndex (hash key) (shift (n + 1))
      · subst hidx
        rw [hc] at hi
        obtain rfl := Option.some.inj hi
        exact ⟨_, c', Function.update_self _ _ _, hrec.mpr ⟨hl, hne⟩⟩
      · exact ⟨i, d, by rw [Function.update_of_ne hidx]; exact hi, hl⟩

/-- An unset keeps the keys of collision nodes distinct. -/
theorem UnsetTo.distinct {key : K} {h : BitVec 32} {n : Nat} {t t' : Node K V} {b : Bool}
    (hun : UnsetTo eq key h n t t' b) (hd : Distinct eq n t) : Distinct eq n t' := by
  induction hun with
  | missLeaf | missCollision | absent | kept => exact hd
  | hitLeaf | emptied => exact distinct_null _
  | keepOne => exact distinct_leaf _ _
  | shrink hf h2 =>
    exact distinct_collision.mpr
      ((distinct_collision.mp hd).sublist (List.eraseIdx_sublist _ _))
  | removed hf hc hun hholds ih =>
    have hchild := hf.distinct_iff.mp hd
    refine hholds.distinct_iff.mpr fun i d hi => ?_
    rw [Function.update_apply] at hi
    split at hi
    · cases hi
    · exact hchild i d hi
  | changed hf hc hne hun hholds ih =>
    have hchild := hf.distinct_iff.mp hd
    refine hholds.distinct_iff.mpr fun i d hi => ?_
    rw [Function.update_apply] at hi
    split at hi
    · exact Option.some.inj hi ▸ ih (hchild _ _ hc)
    · exact hchild i d hi

end Jacl.Hamt
