import Jacl.HamtStore
import Jacl.Entrywise

/-!
# Pointers stand for trees

`Stored n σ p t` says that pointer `p`, with `n` digits left, stands for the tree `t`
in store `σ`.  Every operation on pointers does what the operation on trees does and
only adds cells (`setRecursive_stored`, `unsetRecursive_stored`,
`getLeaf_stored`), so whatever a pointer stood for it still stands for.
-/

namespace Jacl.Hamt.Store
open Sparse List Entrywise

variable {K V : Type} {eq : K → K → Bool}

/-- **The tree a pointer stands for.** -/
def Stored : Nat → Cells K V → Ptr → Node K V → Prop
  | _, _, p, .null => p = none
  | _, σ, p, .leaf l => load σ p = some (.leaf l)
  | _, σ, p, .collision h items =>
    ∃ ps, load σ p = some (.collision h ps) ∧
      Forall₂ (fun q l => load σ q = some (.leaf l)) ps items
  | 0, _, _, .internal _ _ _ => False
  | n + 1, σ, p, .internal bitmap count children =>
    ∃ ps, load σ p = some (.internal bitmap count ps) ∧ Forall₂ (Stored n σ) ps children

@[simp] theorem stored_null {n : Nat} {σ : Cells K V} {p : Ptr} :
    Stored n σ p .null ↔ p = none := by
  cases n <;> rfl

@[simp] theorem stored_leaf {n : Nat} {σ : Cells K V} {p : Ptr} {l : Leaf K V} :
    Stored n σ p (.leaf l) ↔ load σ p = some (.leaf l) := by
  cases n <;> rfl

@[simp] theorem stored_collision {n : Nat} {σ : Cells K V} {p : Ptr} {h : BitVec 32}
    {items : List (Leaf K V)} :
    Stored n σ p (.collision h items) ↔ ∃ ps, load σ p = some (.collision h ps) ∧
      Forall₂ (fun q l => load σ q = some (.leaf l)) ps items := by
  cases n <;> rfl

/-! ### Extending the store -/

theorem load_none (σ : Cells K V) : load σ none = none := rfl

theorem load_append {σ : Cells K V} {p : Ptr} {c : Cell K V} (hp : load σ p = some c)
    (τ : Cells K V) : load (σ ++ τ) p = some c := by
  cases p with
  | none => cases hp
  | some a =>
    obtain ⟨ha, -⟩ := List.getElem?_eq_some_iff.mp hp
    rw [← hp]
    exact List.getElem?_append_left ha

/-- A pointer to a cell of the store is not the next one allocated. -/
theorem load_fresh (σ : Cells K V) : load σ (some σ.length) = none :=
  List.getElem?_eq_none (Nat.le_refl _)

theorem load_alloc (σ : Cells K V) (c : Cell K V) : load (σ ++ [c]) (some σ.length) = some c :=
  List.getElem?_concat_length

/-- **A pointer keeps its tree** when cells are added. -/
theorem Stored.mono {n : Nat} {σ : Cells K V} {p : Ptr} {t : Node K V} (h : Stored n σ p t)
    (τ : Cells K V) : Stored n (σ ++ τ) p t := by
  induction n generalizing p t with
  | zero =>
    cases t with
    | null => exact stored_null.mpr (stored_null.mp h)
    | leaf l => exact stored_leaf.mpr (load_append (stored_leaf.mp h) τ)
    | collision c items =>
      obtain ⟨ps, hp, hall⟩ := stored_collision.mp h
      exact stored_collision.mpr ⟨ps, load_append hp τ, hall.imp fun _ _ h => load_append h τ⟩
    | internal bm c cs => exact h.elim
  | succ n ih =>
    cases t with
    | null => exact stored_null.mpr (stored_null.mp h)
    | leaf l => exact stored_leaf.mpr (load_append (stored_leaf.mp h) τ)
    | collision c items =>
      obtain ⟨ps, hp, hall⟩ := stored_collision.mp h
      exact stored_collision.mpr ⟨ps, load_append hp τ, hall.imp fun _ _ h => load_append h τ⟩
    | internal bm c cs =>
      obtain ⟨ps, hp, hall⟩ := h
      exact ⟨ps, load_append hp τ, hall.imp fun _ _ h => ih h⟩

theorem stored_children_mono {n : Nat} {σ : Cells K V} {ps : List Ptr} {cs : List (Node K V)}
    (h : Forall₂ (Stored n σ) ps cs) (τ : Cells K V) : Forall₂ (Stored n (σ ++ τ)) ps cs :=
  h.imp fun _ _ h => h.mono τ

/-- The pointer of a node other than `NULL` is an address in the store. -/
theorem Stored.addr {n : Nat} {σ : Cells K V} {p : Ptr} {t : Node K V} (h : Stored n σ p t)
    (ht : t ≠ .null) : ∃ a, p = some a ∧ a < σ.length := by
  have hload : ∃ c, load σ p = some c := by
    cases t with
    | null => exact absurd rfl ht
    | leaf l => exact ⟨_, stored_leaf.mp h⟩
    | collision c items =>
      obtain ⟨ps, hp, -⟩ := stored_collision.mp h
      exact ⟨_, hp⟩
    | internal bm c cs =>
      cases n with
      | zero => exact h.elim
      | succ n =>
        obtain ⟨ps, hp, -⟩ := h
        exact ⟨_, hp⟩
  obtain ⟨c, hc⟩ := hload
  cases p with
  | none => cases hc
  | some a => exact ⟨a, rfl, (List.getElem?_eq_some_iff.mp hc).1⟩

theorem nodeCount_stored {n : Nat} {σ : Cells K V} {p : Ptr} {t : Node K V}
    (h : Stored n σ p t) : nodeCount σ p = some (Hamt.nodeCount t) := by
  by_cases ht : t = .null
  · subst ht
    rw [stored_null.mp h]
    rfl
  · obtain ⟨a, rfl, -⟩ := h.addr ht
    cases t with
    | null => exact absurd rfl ht
    | leaf l =>
      rw [nodeCount, stored_leaf.mp h]
      rfl
    | collision c items =>
      obtain ⟨ps, hp, hall⟩ := stored_collision.mp h
      rw [nodeCount, hp, Hamt.nodeCount, ← hall.length_eq]
      rfl
    | internal bm c cs =>
      cases n with
      | zero => exact h.elim
      | succ n =>
        obtain ⟨ps, hp, -⟩ := h
        rw [nodeCount, hp]
        rfl

theorem loadLeaves {σ : Cells K V} {ps : List Ptr} {items : List (Leaf K V)}
    (h : Forall₂ (fun q l => load σ q = some (.leaf l)) ps items) :
    ps.mapM (loadLeaf σ) = some items := by
  rw [mapM_eq_some (g := id) h fun q l hq => by rw [loadLeaf, hq]; rfl, List.map_id]

/-! ### Building internal nodes -/

/-- **What an allocating branch returns**: more cells, and a pointer to a new one that
stands for the tree. -/
def Fresh (n : Nat) (σ : Cells K V) (res : Option (Cells K V × Ptr)) (t : Node K V) : Prop :=
  ∃ τ a, res = some (σ ++ τ, some a) ∧ σ.length ≤ a ∧ Stored n (σ ++ τ) (some a) t

theorem Fresh.after {n : Nat} {σ τ : Cells K V} {res : Option (Cells K V × Ptr)} {t : Node K V}
    (h : Fresh n (σ ++ τ) res t) : Fresh n σ res t := by
  obtain ⟨ρ, a, hres, hle, hst⟩ := h
  rw [List.length_append] at hle
  rw [List.append_assoc] at hres hst
  exact ⟨τ ++ ρ, a, hres, by omega, hst⟩

theorem fresh_leaf (n : Nat) (σ : Cells K V) (l : Leaf K V) :
    Fresh n σ (some (alloc σ (.leaf l))) (.leaf l) :=
  ⟨[.leaf l], σ.length, rfl, Nat.le_refl _, stored_leaf.mpr (load_alloc σ _)⟩

theorem fresh_collision (n : Nat) {σ : Cells K V} {ps : List Ptr} {items : List (Leaf K V)}
    (h : BitVec 32) (hall : Forall₂ (fun q l => load σ q = some (.leaf l)) ps items) :
    Fresh n σ (some (alloc σ (.collision h ps))) (.collision h items) := by
  refine ⟨[.collision h ps], σ.length, rfl, Nat.le_refl _, ?_⟩
  exact stored_collision.mpr ⟨ps, load_alloc σ _, hall.imp fun _ _ h => load_append h _⟩

theorem fresh_internal {n : Nat} {σ : Cells K V} {ps : List Ptr} {cs : List (Node K V)}
    (bm : BitVec 32) (c : Nat) (hall : Forall₂ (Stored n σ) ps cs) :
    Fresh (n + 1) σ (some (alloc σ (.internal bm c ps))) (.internal bm c cs) :=
  ⟨[.internal bm c ps], σ.length, rfl, Nat.le_refl _, ps, load_alloc σ _,
    stored_children_mono hall _⟩

theorem fresh_mkInternal {n : Nat} {σ : Cells K V} {ps : List Ptr} {cs : List (Node K V)}
    (bm : BitVec 32) (hall : Forall₂ (Stored n σ) ps cs) :
    Fresh (n + 1) σ (mkInternal σ bm ps) (Hamt.mkInternal bm cs) := by
  have hcounts := mapM_eq_some hall fun _ _ h => nodeCount_stored h
  rw [mkInternal, hcounts]
  exact fresh_internal bm _ hall

theorem fresh_mkInternalCopy {n : Nat} {σ : Cells K V} {ps : List Ptr} {cs : List (Node K V)}
    (bm bm' : BitVec 32) (i : Nat) (hall : Forall₂ (Stored n σ) ps cs) {q : Ptr} {c : Node K V}
    (hq : Stored n σ q c) :
    Fresh (n + 1) σ (mkInternalCopy σ bm ps bm' q i) (Hamt.mkInternalCopy bm cs bm' c i) := by
  rw [mkInternalCopy, Hamt.mkInternalCopy]
  split
  · exact fresh_mkInternal bm' (forall₂_insertIdx hall hq i)
  · exact fresh_mkInternal bm' (forall₂_set hall hq i)

theorem fresh_mkPair {n : Nat} {σ : Cells K V} {p : Ptr} {t : Node K V} (i j : Nat)
    (hp : Stored n σ p t) (l : Leaf K V) :
    Fresh (n + 1) σ (mkPair σ i j p l) (Hamt.mkPair i j t l) := by
  have hl : Stored n (σ ++ [.leaf l]) (some σ.length) (.leaf l) :=
    stored_leaf.mpr (load_alloc σ _)
  have hp' := hp.mono [.leaf l]
  rw [mkPair, nodeCount_stored hp, Hamt.mkPair]
  refine Fresh.after (τ := [.leaf l]) ?_
  by_cases hij : i < j
  · simp only [if_pos hij]
    exact fresh_internal _ _ (.cons hp' (.cons hl .nil))
  · simp only [if_neg hij]
    exact fresh_internal _ _ (.cons hl (.cons hp' .nil))

/-- One level of path above a new child. -/
theorem fresh_single {n : Nat} {σ : Cells K V} {res : Option (Cells K V × Ptr)} {c : Node K V}
    (h : Fresh n σ res c) (i : Nat) :
    Fresh (n + 1) σ
      (res.bind fun r => (nodeCount r.1 r.2).bind fun count =>
        some (alloc r.1 (.internal (single 32 i) count [r.2])))
      (.internal (single 32 i) (Hamt.nodeCount c) [c]) := by
  obtain ⟨τ, a, rfl, -, hst⟩ := h
  simp only [Option.bind_some, nodeCount_stored hst]
  exact Fresh.after (fresh_internal _ _ (.cons hst .nil))

/-! ### Set -/

/-- A leaf or a collision. -/
theorem setRecursive_stored_flat {n : Nat} {σ : Cells K V} {p : Ptr} {t t' : Node K V} {key : K}
    {value : V} {hash : BitVec 32} (hflat : (∃ l, t = .leaf l) ∨ ∃ h items, t = .collision h items)
    (hst : Stored n σ p t) (hset : Hamt.setRecursive eq n t key value hash = some t')
    (ih : ∀ m, n = m + 1 → ∀ t'', Hamt.setRecursive eq m t key value hash = some t'' →
      Fresh m σ (setRecursive eq m σ p key value hash) t'') :
    Fresh n σ (setRecursive eq n σ p key value hash) t' := by
  rcases hflat with ⟨l, rfl⟩ | ⟨h, items, rfl⟩
  · obtain ⟨a, rfl, -⟩ := hst.addr (by simp)
    have hload := stored_leaf.mp hst
    rw [setRecursive.eq_def]
    rw [Hamt.setRecursive.eq_def] at hset
    simp only [hload, Option.bind_eq_bind, Option.bind_some] at hset ⊢
    split at hset
    · rename_i he
      obtain rfl := Option.some.inj hset
      rw [if_pos he]
      exact fresh_leaf n σ _
    rename_i he
    rw [if_neg he]
    split at hset
    · rename_i hh
      obtain rfl := Option.some.inj hset
      rw [if_pos hh]
      refine Fresh.after (τ := [.leaf ⟨key, value, hash⟩]) (fresh_collision n hash ?_)
      exact .cons (load_append hload _) (.cons (load_alloc σ _) .nil)
    rename_i hh
    rw [if_neg hh]
    cases n with
    | zero => cases hset
    | succ n =>
      simp only at hset ⊢
      split at hset
      · rename_i hidx
        rw [if_pos hidx]
        obtain ⟨c, hc, hres⟩ := Option.bind_eq_some_iff.mp hset
        obtain rfl := Option.some.inj hres
        exact fresh_single (ih n rfl c hc) _
      · rename_i hidx
        rw [if_neg hidx]
        obtain rfl := Option.some.inj hset
        exact fresh_mkPair _ _ (stored_leaf.mpr hload) _
  · obtain ⟨a, rfl, -⟩ := hst.addr (by simp)
    obtain ⟨ps, hload, hall⟩ := stored_collision.mp hst
    rw [setRecursive.eq_def]
    rw [Hamt.setRecursive.eq_def] at hset
    simp only [hload, Option.bind_eq_bind, Option.bind_some] at hset ⊢
    split at hset
    · rename_i hh
      rw [if_pos hh]
      cases n with
      | zero => cases hset
      | succ n =>
        simp only at hset ⊢
        split at hset
        · rename_i hidx
          rw [if_pos hidx]
          obtain ⟨c, hc, hres⟩ := Option.bind_eq_some_iff.mp hset
          obtain rfl := Option.some.inj hres
          exact fresh_single (ih n rfl c hc) _
        · rename_i hidx
          rw [if_neg hidx]
          obtain rfl := Option.some.inj hset
          exact fresh_mkPair _ _ (stored_collision.mpr ⟨ps, hload, hall⟩) _
    · rename_i hh
      rw [if_neg hh, loadLeaves hall]
      have hall' := hall.imp fun _ _ h => load_append h [Cell.leaf ⟨key, value, hash⟩]
      have hnew := load_alloc σ (Cell.leaf ⟨key, value, hash⟩)
      refine Fresh.after (τ := [.leaf ⟨key, value, hash⟩]) ?_
      cases hf : items.findIdx? (fun l => eq l.key key) with
      | some i =>
        rw [hf] at hset
        obtain rfl := Option.some.inj hset
        simp only [Option.bind_some, alloc, hf]
        exact fresh_collision n hash (forall₂_set hall' hnew i)
      | none =>
        rw [hf] at hset
        obtain rfl := Option.some.inj hset
        simp only [Option.bind_some, alloc, hf]
        exact fresh_collision n hash (forall₂_concat hall' hnew)

/-- **`H_SET_RECURSIVE` on pointers** does what it does on trees, in new cells. -/
theorem setRecursive_stored {n : Nat} {σ : Cells K V} {p : Ptr} {t t' : Node K V} {key : K}
    {value : V} {hash : BitVec 32} (hst : Stored n σ p t)
    (hset : Hamt.setRecursive eq n t key value hash = some t') :
    Fresh n σ (setRecursive eq n σ p key value hash) t' := by
  induction n generalizing p t t' with
  | zero =>
    cases t with
    | null =>
      rw [stored_null.mp hst, setRecursive]
      obtain rfl := Option.some.inj hset
      exact fresh_leaf 0 σ _
    | leaf l => exact setRecursive_stored_flat (.inl ⟨l, rfl⟩) hst hset (fun m hm => by omega)
    | collision h items =>
      exact setRecursive_stored_flat (.inr ⟨h, items, rfl⟩) hst hset (fun m hm => by omega)
    | internal bm c cs => exact hst.elim
  | succ n ih =>
    -- the induction hypothesis for a node that moves down a level with its cells
    have hdown : ∀ {t : Node K V}, ((∃ l, t = .leaf l) ∨ ∃ h items, t = .collision h items) →
        Stored (n + 1) σ p t → ∀ m, n + 1 = m + 1 → ∀ t'',
        Hamt.setRecursive eq m t key value hash = some t'' →
        Fresh m σ (setRecursive eq m σ p key value hash) t'' := by
      intro t hflat hst m hm t'' h
      obtain rfl : n = m := by omega
      refine ih ?_ h
      rcases hflat with ⟨l, rfl⟩ | ⟨c, items, rfl⟩
      · exact stored_leaf.mpr (stored_leaf.mp hst)
      · exact stored_collision.mpr (stored_collision.mp hst)
    cases t with
    | null =>
      rw [stored_null.mp hst, setRecursive]
      obtain rfl := Option.some.inj hset
      exact fresh_leaf (n + 1) σ _
    | leaf l =>
      exact setRecursive_stored_flat (.inl ⟨l, rfl⟩) hst hset (hdown (.inl ⟨l, rfl⟩) hst)
    | collision h items =>
      exact setRecursive_stored_flat (.inr ⟨h, items, rfl⟩) hst hset
        (hdown (.inr ⟨h, items, rfl⟩) hst)
    | internal bm c cs =>
      obtain ⟨a, rfl, ha⟩ := hst.addr (by simp)
      obtain ⟨ps, hload, hall⟩ := hst
      rw [setRecursive.eq_def]
      rw [Hamt.setRecursive.eq_def] at hset
      simp only [hload, Option.bind_eq_bind, Option.bind_some] at hset ⊢
      split at hset
      · rename_i hbit
        rw [if_pos hbit]
        obtain ⟨child, hget, hset⟩ := Option.bind_eq_some_iff.mp hset
        obtain ⟨newChild, hrec, hres⟩ := Option.bind_eq_some_iff.mp hset
        obtain rfl := Option.some.inj hres
        obtain ⟨q, hq, hqs⟩ := exists_left hall hget
        obtain ⟨τ, b, heq, hle, hst'⟩ := ih hqs hrec
        rw [hq, Option.bind_some, heq, Option.bind_some]
        -- the new child is in a new cell, so the pointers differ
        have hne : ¬ some b = q := by
          rintro rfl
          by_cases hnull : child = .null
          · subst hnull
            cases stored_null.mp hqs
          · obtain ⟨b', hb', hlt⟩ := hqs.addr hnull
            cases hb'
            omega
        simp only [if_neg hne]
        exact Fresh.after (fresh_mkInternalCopy _ _ _ (stored_children_mono hall τ) hst')
      · rename_i hbit
        rw [if_neg hbit]
        obtain rfl := Option.some.inj hset
        refine Fresh.after (τ := [.leaf ⟨key, value, hash⟩]) ?_
        exact fresh_mkInternalCopy _ _ _ (stored_children_mono hall _)
          (stored_leaf.mpr (load_alloc σ _))

/-! ### Unset -/

/-- **What an unset returns**: perhaps more cells, and a pointer to the result, which is
the argument's pointer exactly when the flag says so. -/
def Unsets (n : Nat) (σ : Cells K V) (p : Ptr) (res : Option (Cells K V × Ptr)) (t : Node K V)
    (same : Bool) : Prop :=
  ∃ τ q, res = some (σ ++ τ, q) ∧ Stored n (σ ++ τ) q t ∧ (q = p ↔ same = true)

theorem unsets_old {n : Nat} {σ : Cells K V} {p q : Ptr} {t : Node K V} {same : Bool}
    (hst : Stored n σ q t) (h : q = p ↔ same = true) : Unsets n σ p (some (σ, q)) t same :=
  ⟨[], q, by rw [List.append_nil], hst.mono [], h⟩

theorem Fresh.unsets {n : Nat} {σ τ : Cells K V} {p : Ptr} {a : Nat} (hp : p = some a)
    (ha : a < σ.length) {res : Option (Cells K V × Ptr)} {t : Node K V}
    (h : Fresh n (σ ++ τ) res t) : Unsets n σ p res t false := by
  obtain ⟨ρ, b, hres, hle, hst⟩ := h.after
  refine ⟨ρ, some b, hres, hst, ?_⟩
  rw [hp, Option.some.injEq]
  constructor
  · rintro rfl
    omega
  · rintro ⟨⟩

theorem Stored.null_iff {n : Nat} {σ : Cells K V} {p : Ptr} {t : Node K V} (h : Stored n σ p t) :
    p = none ↔ t = .null := by
  constructor
  · rintro rfl
    by_contra ht
    obtain ⟨a, ha, -⟩ := h.addr ht
    cases ha
  · rintro rfl
    exact stored_null.mp h

/-- A leaf or a collision. -/
theorem unsetRecursive_stored_flat {n : Nat} {σ : Cells K V} {p : Ptr} {t t' : Node K V} {b : Bool}
    {key : K} {hash : BitVec 32}
    (hflat : (∃ l, t = .leaf l) ∨ ∃ h items, t = .collision h items) (hst : Stored n σ p t)
    (hun : Hamt.unsetRecursive eq n t key hash = some (t', b)) :
    Unsets n σ p (unsetRecursive eq n σ p key hash) t' b := by
  rcases hflat with ⟨l, rfl⟩ | ⟨h, items, rfl⟩
  · obtain ⟨a, rfl, ha⟩ := hst.addr (by simp)
    have hload := stored_leaf.mp hst
    rw [unsetRecursive.eq_def]
    rw [Hamt.unsetRecursive.eq_def] at hun
    simp only [hload, Option.bind_eq_bind, Option.bind_some] at hun ⊢
    split at hun
    · rename_i he
      obtain ⟨rfl, rfl⟩ := Prod.mk.inj (Option.some.inj hun)
      rw [if_pos he]
      exact unsets_old (stored_null.mpr rfl) (by simp)
    · rename_i he
      obtain ⟨rfl, rfl⟩ := Prod.mk.inj (Option.some.inj hun)
      rw [if_neg he]
      exact unsets_old hst (by simp)
  · obtain ⟨a, rfl, ha⟩ := hst.addr (by simp)
    obtain ⟨ps, hload, hall⟩ := stored_collision.mp hst
    rw [unsetRecursive.eq_def]
    rw [Hamt.unsetRecursive.eq_def] at hun
    simp only [hload, loadLeaves hall, Option.bind_eq_bind, Option.bind_some] at hun ⊢
    cases hf : items.findIdx? (fun l => eq l.key key) with
    | none =>
      rw [hf] at hun
      obtain ⟨rfl, rfl⟩ := Prod.mk.inj (Option.some.inj hun)
      exact unsets_old hst (by simp)
    | some found =>
      simp only [hf] at hun ⊢
      rw [hall.length_eq]
      split at hun
      · rename_i h2
        obtain ⟨l, hget, hres⟩ := Option.bind_eq_some_iff.mp hun
        obtain ⟨rfl, rfl⟩ := Prod.mk.inj (Option.some.inj hres)
        obtain ⟨q, hq, hql⟩ := exists_left hall hget
        simp only [if_pos h2, hq, Option.bind_some]
        refine unsets_old (stored_leaf.mpr hql) ?_
        -- the kept item is a leaf, the argument a collision
        constructor
        · rintro rfl
          rw [hload] at hql
          cases hql
        · rintro ⟨⟩
      · rename_i h2
        obtain ⟨rfl, rfl⟩ := Prod.mk.inj (Option.some.inj hun)
        simp only [if_neg h2]
        exact Fresh.unsets (τ := []) rfl ha
          (by rw [List.append_nil]; exact fresh_collision n hash (forall₂_eraseIdx hall found))

/-- **`H_UNSET_RECURSIVE` on pointers** does what it does on trees. -/
theorem unsetRecursive_stored {n : Nat} {σ : Cells K V} {p : Ptr} {t t' : Node K V} {b : Bool}
    {key : K} {hash : BitVec 32} (hst : Stored n σ p t)
    (hun : Hamt.unsetRecursive eq n t key hash = some (t', b)) :
    Unsets n σ p (unsetRecursive eq n σ p key hash) t' b := by
  induction n generalizing p t t' b with
  | zero =>
    cases t with
    | null =>
      obtain ⟨rfl, rfl⟩ := Prod.mk.inj (Option.some.inj hun)
      rw [stored_null.mp hst, unsetRecursive]
      exact unsets_old (stored_null.mpr rfl) (by simp)
    | leaf l => exact unsetRecursive_stored_flat (.inl ⟨l, rfl⟩) hst hun
    | collision h items => exact unsetRecursive_stored_flat (.inr ⟨h, items, rfl⟩) hst hun
    | internal bm c cs => exact hst.elim
  | succ n ih =>
    cases t with
    | null =>
      obtain ⟨rfl, rfl⟩ := Prod.mk.inj (Option.some.inj hun)
      rw [stored_null.mp hst, unsetRecursive]
      exact unsets_old (stored_null.mpr rfl) (by simp)
    | leaf l => exact unsetRecursive_stored_flat (.inl ⟨l, rfl⟩) hst hun
    | collision h items => exact unsetRecursive_stored_flat (.inr ⟨h, items, rfl⟩) hst hun
    | internal bm c cs =>
      obtain ⟨a, rfl, ha⟩ := hst.addr (by simp)
      have hst' := hst
      obtain ⟨ps, hload, hall⟩ := hst
      rw [unsetRecursive.eq_def]
      rw [Hamt.unsetRecursive.eq_def] at hun
      simp only [hload, Option.bind_eq_bind, Option.bind_some] at hun ⊢
      split at hun
      · rename_i hbit
        obtain ⟨rfl, rfl⟩ := Prod.mk.inj (Option.some.inj hun)
        rw [if_pos hbit]
        exact unsets_old hst' (by simp)
      rename_i hbit
      rw [if_neg hbit]
      obtain ⟨child, hget, hun⟩ := Option.bind_eq_some_iff.mp hun
      obtain ⟨⟨child', same⟩, hrec, hun⟩ := Option.bind_eq_some_iff.mp hun
      obtain ⟨q, hq, hqs⟩ := exists_left hall hget
      obtain ⟨τ, q', heq, hq's, hsame⟩ := ih hqs hrec
      have hall' := stored_children_mono hall τ
      rw [hq, Option.bind_some, heq, Option.bind_some]
      simp only
      by_cases hnull : child' = .null
      · subst hnull
        rw [if_pos (hq's.null_iff.mpr rfl)]
        simp only at hun
        split at hun
        · rename_i hz
          obtain ⟨rfl, rfl⟩ := Prod.mk.inj (Option.some.inj hun)
          rw [if_pos hz]
          exact ⟨τ, none, rfl, stored_null.mpr rfl, by simp⟩
        · rename_i hz
          obtain ⟨rfl, rfl⟩ := Prod.mk.inj (Option.some.inj hun)
          rw [if_neg hz]
          exact Fresh.unsets rfl ha (fresh_mkInternal _ (forall₂_eraseIdx hall' _))
      · rw [if_neg (fun h => hnull (hq's.null_iff.mp h))]
        have hun : (if same = true then some (Node.internal bm c cs, true)
            else some (Hamt.mkInternalCopy bm cs bm child'
              (getIndex bm (single 32 (bitIndex hash (shift (n + 1))))), false)) = some (t', b) := by
          cases child' with
          | null => exact absurd rfl hnull
          | leaf => exact hun
          | collision => exact hun
          | internal => exact hun
        cases same with
        | true =>
          obtain ⟨rfl, rfl⟩ := Prod.mk.inj (Option.some.inj hun)
          rw [if_pos (hsame.mpr rfl)]
          exact ⟨τ, some a, rfl, hst'.mono τ, by simp⟩
        | false =>
          obtain ⟨rfl, rfl⟩ := Prod.mk.inj (Option.some.inj hun)
          rw [if_neg (fun h => by cases hsame.mp h)]
          exact Fresh.unsets rfl ha (fresh_mkInternalCopy _ _ _ hall' hq's)

/-! ### Reading -/

/-- `NULL`, a leaf or a collision. -/
theorem getLeaf_stored_flat {n : Nat} {σ : Cells K V} {p : Ptr} {t : Node K V} {key : K}
    {h : BitVec 32} (hflat : t = .null ∨ (∃ l, t = .leaf l) ∨ ∃ c items, t = .collision c items)
    (hst : Stored n σ p t) : getLeaf eq n σ p key h = Hamt.getLeaf eq n t key h := by
  rw [getLeaf.eq_def, Hamt.getLeaf.eq_def]
  rcases hflat with rfl | ⟨l, rfl⟩ | ⟨c, items, rfl⟩
  · rw [stored_null.mp hst]
  · obtain ⟨a, rfl, -⟩ := hst.addr (by simp)
    simp only [stored_leaf.mp hst, Option.bind_eq_bind, Option.bind_some]
  · obtain ⟨a, rfl, -⟩ := hst.addr (by simp)
    obtain ⟨ps, hload, hall⟩ := stored_collision.mp hst
    simp only [hload, loadLeaves hall, Option.bind_eq_bind, Option.bind_some]

/-- **`H_GET_LEAF` on pointers** finds what it finds on trees. -/
theorem getLeaf_stored {n : Nat} {σ : Cells K V} {p : Ptr} {t : Node K V} {key : K}
    {h : BitVec 32} (hst : Stored n σ p t) :
    getLeaf eq n σ p key h = Hamt.getLeaf eq n t key h := by
  induction n generalizing p t with
  | zero =>
    cases t with
    | null => exact getLeaf_stored_flat (.inl rfl) hst
    | leaf l => exact getLeaf_stored_flat (.inr (.inl ⟨l, rfl⟩)) hst
    | collision c items => exact getLeaf_stored_flat (.inr (.inr ⟨c, items, rfl⟩)) hst
    | internal bm c cs => exact hst.elim
  | succ n ih =>
    cases t with
    | null => exact getLeaf_stored_flat (.inl rfl) hst
    | leaf l => exact getLeaf_stored_flat (.inr (.inl ⟨l, rfl⟩)) hst
    | collision c items => exact getLeaf_stored_flat (.inr (.inr ⟨c, items, rfl⟩)) hst
    | internal bm c cs =>
      obtain ⟨a, rfl, -⟩ := hst.addr (by simp)
      obtain ⟨ps, hload, hall⟩ := hst
      rw [getLeaf.eq_def, Hamt.getLeaf]
      simp only [hload, Option.bind_eq_bind, Option.bind_some]
      split
      · rfl
      · cases hget : cs[getIndex bm (single 32 (bitIndex h (shift (n + 1))))]? with
        | none =>
          have hlen := hall.length_eq
          have hge := List.getElem?_eq_none_iff.mp hget
          rw [List.getElem?_eq_none (by omega)]
          rfl
        | some child =>
          obtain ⟨q, hq, hqs⟩ := exists_left hall hget
          rw [hq]
          exact ih hqs

end Jacl.Hamt.Store
