import Mathlib.Logic.Equiv.Basic
import Mathlib.Data.List.Range
import Mathlib.Tactic

/-!
# Heap sort of an array seen as a function

An array is the function from its indices to its elements, and every step of a
heap sort exchanges two elements.  `Within m f g` says that `g` holds the elements
of `f`, moved about below `m` only.

`sift` lets the element at a root sink.  It makes a heap of a heap with a hole at
the root (`sift_heap`); `buildHeap` lets every parent sink, from the last one to the
root, and `extract` takes the greatest element off the heap until nothing is left
(`buildHeap_heap`, `extract_sorted`).  The order is any weak order: elements that
are not less than each other need not be equal.
-/

namespace Jacl.HeapSort
variable {α : Type*}

/-- A strict weak order: what `lt` says of two elements does not change when one is
replaced by an equivalent one. -/
structure WeakOrder (lt : α → α → Prop) : Prop where
  asymm : ∀ {a b}, lt a b → ¬ lt b a
  trans : ∀ {a b c}, ¬ lt b a → ¬ lt c b → ¬ lt c a

theorem WeakOrder.irrefl {lt : α → α → Prop} (h : WeakOrder lt) (a : α) : ¬ lt a a :=
  fun ha => h.asymm ha ha

/-! ### Exchanges -/

/-- `g` holds the elements of `f` in an order that differs only below `m`. -/
def Within (m : Nat) (f g : Nat → α) : Prop :=
  ∃ σ : Equiv.Perm Nat, (∀ i, m ≤ i → σ i = i) ∧ ∀ i, g i = f (σ i)

/-- The array with the elements at `i` and `j` exchanged. -/
def exchange (f : Nat → α) (i j : Nat) : Nat → α :=
  fun k => if k = i then f j else if k = j then f i else f k

variable {f g h : Nat → α} {m n i j k r : Nat}

theorem exchange_apply (f : Nat → α) (i j k : Nat) :
    exchange f i j k = f (Equiv.swap i j k) := by
  unfold exchange
  rw [Equiv.swap_apply_def]
  split
  · rfl
  · split
    · rfl
    · rfl

theorem exchange_of_ne (hi : k ≠ i) (hj : k ≠ j) : exchange f i j k = f k := by
  rw [exchange, if_neg hi, if_neg hj]

@[simp] theorem exchange_left : exchange f i j i = f j := if_pos rfl

@[simp] theorem exchange_right : exchange f i j j = f i := by
  unfold exchange
  split
  · rename_i hji
    rw [hji]
  · exact if_pos rfl

theorem Within.refl : Within m f f :=
  ⟨Equiv.refl _, fun _ _ => rfl, fun _ => rfl⟩

theorem Within.trans (hfg : Within m f g) (hgh : Within m g h) : Within m f h := by
  obtain ⟨σ, hσ, hg⟩ := hfg
  obtain ⟨τ, hτ, hh⟩ := hgh
  refine ⟨τ.trans σ, fun i hi => ?_, fun i => ?_⟩
  · rw [Equiv.trans_apply, hτ i hi, hσ i hi]
  · rw [hh, hg, Equiv.trans_apply]

theorem Within.mono (hmn : m ≤ n) (hfg : Within m f g) : Within n f g := by
  obtain ⟨σ, hσ, hg⟩ := hfg
  exact ⟨σ, fun i hi => hσ i (Nat.le_trans hmn hi), hg⟩

theorem within_exchange (hi : i < m) (hj : j < m) : Within m f (exchange f i j) := by
  refine ⟨Equiv.swap i j, fun k hk => ?_, fun k => exchange_apply f i j k⟩
  exact Equiv.swap_apply_of_ne_of_ne (by omega) (by omega)

theorem Within.outside (hfg : Within m f g) (hi : m ≤ i) : g i = f i := by
  obtain ⟨σ, hσ, hg⟩ := hfg
  rw [hg, hσ i hi]

theorem Within.maps_lt {σ : Equiv.Perm Nat} (hσ : ∀ i, m ≤ i → σ i = i) (hi : i < m) : σ i < m := by
  by_contra hge
  have hfix := hσ (σ i) (by omega)
  have hback := σ.injective hfix
  omega

/-- What holds of every element below `m` still does. -/
theorem Within.forall (hfg : Within m f g) {p : α → Prop} (hp : ∀ i, i < m → p (f i)) (hi : i < m) :
    p (g i) := by
  obtain ⟨σ, hσ, hg⟩ := hfg
  rw [hg]
  exact hp _ (Within.maps_lt hσ hi)

theorem Within.perm (hfg : Within m f g) : ((List.range m).map g).Perm ((List.range m).map f) := by
  obtain ⟨σ, hσ, hg⟩ := hfg
  have hmap : (List.range m).map g = ((List.range m).map σ).map f := by
    rw [List.map_map]
    exact List.map_congr_left fun i _ => hg i
  rw [hmap]
  apply List.Perm.map
  rw [List.perm_ext_iff_of_nodup ((List.nodup_map_iff σ.injective).mpr List.nodup_range) List.nodup_range]
  intro i
  rw [List.mem_map, List.mem_range]
  constructor
  · rintro ⟨k, hk, rfl⟩
    exact Within.maps_lt hσ (List.mem_range.mp hk)
  · intro hi
    refine ⟨σ.symm i, List.mem_range.mpr ?_, σ.apply_symm_apply i⟩
    by_contra hge
    have hfix := hσ (σ.symm i) (by omega)
    rw [σ.apply_symm_apply] at hfix
    omega

/-! ### Sifting -/

/-- `c` is a child of `p`. -/
def Child (p c : Nat) : Prop := c = 2 * p + 1 ∨ c = 2 * p + 2

theorem Child.parent_lt {p c : Nat} (h : Child p c) : p < c := by
  rcases h with h | h <;> omega

theorem Child.parent_eq {p q c : Nat} (hp : Child p c) (hq : Child q c) : p = q := by
  rcases hp with hp | hp <;> rcases hq with hq | hq <;> omega

section Order
variable (lt : α → α → Prop) [DecidableRel lt]

/-- The child of `r` that holds the greater element, of those below `n`. -/
def greaterChild (n : Nat) (f : Nat → α) (r : Nat) : Nat :=
  if 2 * r + 2 < n ∧ lt (f (2 * r + 1)) (f (2 * r + 2)) then 2 * r + 2 else 2 * r + 1

theorem greaterChild_cases (n : Nat) (f : Nat → α) (r : Nat) :
    greaterChild lt n f r = 2 * r + 1 ∨ greaterChild lt n f r = 2 * r + 2 ∧ 2 * r + 2 < n := by
  unfold greaterChild
  split
  · rename_i hright
    exact .inr ⟨rfl, hright.1⟩
  · exact .inl rfl

theorem lt_greaterChild : r < greaterChild lt n f r := by
  rcases greaterChild_cases lt n f r with h | ⟨h, -⟩ <;> omega

theorem greaterChild_lt (hr : 2 * r + 1 < n) : greaterChild lt n f r < n := by
  rcases greaterChild_cases lt n f r with h | ⟨h, hn⟩ <;> omega

/-- The element at `r` sinks, in the heap of the indices below `n`, as long as a
child is greater. -/
def sift (n : Nat) (f : Nat → α) (r : Nat) : Nat → α :=
  if _ : 2 * r + 1 < n then
    if lt (f r) (f (greaterChild lt n f r)) then
      sift n (exchange f r (greaterChild lt n f r)) (greaterChild lt n f r)
    else f
  else f
termination_by n - r
decreasing_by
  have := lt_greaterChild lt (n := n) (f := f) (r := r)
  omega

/-- The parents sink, from `s - 1` down to the root. -/
def buildHeap (n : Nat) : (f : Nat → α) → Nat → Nat → α
  | f, 0 => f
  | f, s + 1 => buildHeap n (sift lt n f s) s

/-- The greatest element of the heap goes to its end, which moves down from `e`. -/
def extract : (f : Nat → α) → Nat → Nat → α
  | f, 0 => f
  | f, e + 1 => extract (sift lt (e + 1) (exchange f 0 (e + 1)) 0) e

theorem sift_within (hr : r < n) : Within n f (sift lt n f r) := by
  induction f, r using sift.induct lt n with
  | case1 f r hchild hlt ih =>
    rw [sift, dif_pos hchild, if_pos hlt]
    have hc := greaterChild_lt lt (f := f) hchild
    exact (within_exchange hr hc).trans (ih hc)
  | case2 f r hchild hlt =>
    rw [sift, dif_pos hchild, if_neg hlt]
    exact .refl
  | case3 f r hchild =>
    rw [sift, dif_neg hchild]
    exact .refl

theorem buildHeap_within {s : Nat} (hs : s ≤ n) : Within n f (buildHeap lt n f s) := by
  induction s generalizing f with
  | zero => exact .refl
  | succ s ih => exact (sift_within lt (by omega)).trans (ih (by omega))

theorem extract_within {e : Nat} : Within (e + 1) f (extract lt f e) := by
  induction e generalizing f with
  | zero => exact .refl
  | succ e ih =>
    have hex := within_exchange (f := f) (show 0 < e + 1 + 1 by omega) (show e + 1 < e + 1 + 1 by omega)
    have hsift := sift_within lt (f := exchange f 0 (e + 1)) (n := e + 1) (r := 0) (by omega)
    have hrest := ih (f := sift lt (e + 1) (exchange f 0 (e + 1)) 0)
    exact hex.trans ((hsift.mono (Nat.le_succ _)).trans (hrest.mono (Nat.le_succ _)))

theorem child_greaterChild (n : Nat) (f : Nat → α) (r : Nat) : Child r (greaterChild lt n f r) := by
  rcases greaterChild_cases lt n f r with h | ⟨h, -⟩
  · exact .inl h
  · exact .inr h

/-- From `k` on, no parent is less than a child of its below `n`. -/
def Heap (n k : Nat) (f : Nat → α) : Prop :=
  ∀ p c, k ≤ p → Child p c → c < n → ¬ lt (f p) (f c)

/-- A heap but for the element at `r`, whose parent is not less than its children. -/
structure HeapBut (n k r : Nat) (f : Nat → α) : Prop where
  off : ∀ p c, k ≤ p → p ≠ r → Child p c → c < n → ¬ lt (f p) (f c)
  around : ∀ p c, k ≤ p → Child p r → Child r c → c < n → ¬ lt (f p) (f c)

variable {lt}

omit [DecidableRel lt] in
theorem HeapBut.heap (hb : HeapBut lt n k r f) (hr : ∀ c, Child r c → c < n → ¬ lt (f r) (f c)) :
    Heap lt n k f := by
  intro p c hkp hpc hc
  rcases Classical.em (p = r) with rfl | hpr
  · exact hr c hpc hc
  · exact hb.off p c hkp hpr hpc hc

/-- The greater child is not less than either. -/
theorem not_lt_greaterChild (ho : WeakOrder lt) {c : Nat} (hc : Child r c) (hcn : c < n) :
    ¬ lt (f (greaterChild lt n f r)) (f c) := by
  unfold greaterChild
  split
  · rename_i hright
    rcases hc with rfl | rfl
    · exact ho.asymm hright.2
    · exact ho.irrefl _
  · rename_i hleft
    rcases hc with rfl | rfl
    · exact ho.irrefl _
    · exact fun hlt => hleft ⟨hcn, hlt⟩

/-- One exchange moves the hole to the greater child. -/
theorem HeapBut.sink (ho : WeakOrder lt) (hb : HeapBut lt n k r f) (hkr : k ≤ r)
    (hchild : 2 * r + 1 < n) (hlt : lt (f r) (f (greaterChild lt n f r))) :
    HeapBut lt n k (greaterChild lt n f r) (exchange f r (greaterChild lt n f r)) := by
  have hgr := child_greaterChild lt n f r
  have hg := fun c hc hcn => not_lt_greaterChild (n := n) (f := f) (r := r) (c := c) ho hc hcn
  have hgn : greaterChild lt n f r < n := greaterChild_lt lt hchild
  generalize greaterChild lt n f r = g at hlt hgr hg hgn
  have hrg := hgr.parent_lt
  constructor
  · intro p c hkp hpg hpc hcn
    rcases Classical.em (p = r) with rfl | hpr
    · rw [exchange_left]
      rcases Classical.em (c = g) with rfl | hcg
      · rw [exchange_right]
        exact ho.asymm hlt
      · rw [exchange_of_ne (by have := hpc.parent_lt; omega) hcg]
        exact hg c hpc hcn
    · rw [exchange_of_ne hpr hpg]
      have hcg : c ≠ g := fun h => hpr ((h ▸ hpc).parent_eq hgr)
      rcases Classical.em (c = r) with rfl | hcr
      · rw [exchange_left]
        exact hb.around p g hkp hpc hgr hgn
      · rw [exchange_of_ne hcr hcg]
        exact hb.off p c hkp hpr hpc hcn
  · intro p c hkp hpg hgc hcn
    have hpr : p = r := hpg.parent_eq hgr
    have hgc' := hgc.parent_lt
    rw [hpr, exchange_left, exchange_of_ne (by omega) (by omega)]
    exact hb.off g c (by omega) (by omega) hgc hcn

/-- **Sifting closes the hole.** -/
theorem sift_heap (ho : WeakOrder lt) (hkr : k ≤ r) (hb : HeapBut lt n k r f) :
    Heap lt n k (sift lt n f r) := by
  induction f, r using sift.induct lt n with
  | case1 f r hchild hlt ih =>
    rw [sift, dif_pos hchild, if_pos hlt]
    have hg := lt_greaterChild lt (n := n) (f := f) (r := r)
    exact ih (by omega) (hb.sink ho hkr hchild hlt)
  | case2 f r hchild hlt =>
    rw [sift, dif_pos hchild, if_neg hlt]
    apply hb.heap
    intro c hc hcn
    exact ho.trans (not_lt_greaterChild ho hc hcn) hlt
  | case3 f r hchild =>
    rw [sift, dif_neg hchild]
    apply hb.heap
    intro c hc hcn
    rcases hc with hc | hc <;> omega

omit [DecidableRel lt] in
theorem Heap.but (hh : Heap lt n (k + 1) f) : HeapBut lt n k k f := by
  constructor
  · intro p c hkp hpk hpc hcn
    exact hh p c (by omega) hpc hcn
  · intro p c hkp hpk _ _
    have := hpk.parent_lt
    omega

theorem buildHeap_heap (ho : WeakOrder lt) {s : Nat} (hh : Heap lt n s f) :
    Heap lt n 0 (buildHeap lt n f s) := by
  induction s generalizing f with
  | zero => exact hh
  | succ s ih => exact ih (sift_heap ho (Nat.le_refl s) hh.but)

omit [DecidableRel lt] in
/-- There are no parents in the upper half. -/
theorem heap_half (f : Nat → α) : Heap lt n (n / 2) f := by
  intro p c hp hpc hcn
  rcases hpc with hpc | hpc <;> omega

omit [DecidableRel lt] in
/-- The root of a heap is its greatest element. -/
theorem Heap.root (ho : WeakOrder lt) (hh : Heap lt n 0 f) (hi : i < n) : ¬ lt (f 0) (f i) := by
  induction i using Nat.strong_induction_on with
  | _ i ih =>
    rcases Nat.eq_zero_or_pos i with rfl | hpos
    · exact ho.irrefl _
    · have hchild : Child ((i - 1) / 2) i := by
        unfold Child
        omega
      have hparent := hh ((i - 1) / 2) i (Nat.zero_le _) hchild hi
      have habove := ih ((i - 1) / 2) (by omega) (by omega)
      exact ho.trans hparent habove

/-- Ordered from index `k` on, below `n`. -/
def Ordered (lt : α → α → Prop) (n k : Nat) (f : Nat → α) : Prop :=
  ∀ i j, k ≤ i → i < j → j < n → ¬ lt (f j) (f i)

/-- Between two extractions: the indices up to `e` are a heap, above them the array
is ordered, and nothing above is less than an element of the heap. -/
structure Extracting (lt : α → α → Prop) (n e : Nat) (f : Nat → α) : Prop where
  heap : Heap lt (e + 1) 0 f
  ordered : Ordered lt n (e + 1) f
  above : ∀ i j, i ≤ e → e < j → j < n → ¬ lt (f j) (f i)

theorem Extracting.next (ho : WeakOrder lt) {e : Nat} (hx : Extracting lt n (e + 1) f) :
    Extracting lt n e (sift lt (e + 1) (exchange f 0 (e + 1)) 0) := by
  have hw := sift_within lt (f := exchange f 0 (e + 1)) (n := e + 1) (r := 0) (by omega)
  have hout : ∀ j, e + 1 < j → sift lt (e + 1) (exchange f 0 (e + 1)) 0 j = f j := by
    intro j hj
    rw [hw.outside (by omega), exchange_of_ne (by omega) (by omega)]
  have hend : sift lt (e + 1) (exchange f 0 (e + 1)) 0 (e + 1) = f 0 := by
    rw [hw.outside (Nat.le_refl _), exchange_right]
  -- every element left in the heap was in it before
  have hin : ∀ i, i ≤ e → ∃ i', i' ≤ e + 1 ∧ sift lt (e + 1) (exchange f 0 (e + 1)) 0 i = f i' := by
    intro i hi
    apply hw.forall (p := fun a => ∃ i', i' ≤ e + 1 ∧ a = f i') ?_ (by omega)
    intro i hi
    rcases Nat.eq_zero_or_pos i with rfl | hpos
    · exact ⟨e + 1, Nat.le_refl _, exchange_left⟩
    · exact ⟨i, by omega, exchange_of_ne (by omega) (by omega)⟩
  constructor
  · apply sift_heap ho (Nat.le_refl 0)
    constructor
    · intro p c _ hp0 hpc hc
      have hlt := hpc.parent_lt
      rw [exchange_of_ne hp0 (by omega), exchange_of_ne (by omega) (by omega)]
      exact hx.heap p c (Nat.zero_le _) hpc (by omega)
    · intro p c _ hp0 _ _
      have := hp0.parent_lt
      omega
  · intro i j hi hij hj
    rcases Nat.eq_or_lt_of_le hi with rfl | hi'
    · rw [hend, hout j hij]
      exact hx.above 0 j (Nat.zero_le _) hij hj
    · rw [hout i hi', hout j (by omega)]
      exact hx.ordered i j (by omega) hij hj
  · intro i j hi hj hjn
    obtain ⟨i', hi', hfi⟩ := hin i hi
    rw [hfi]
    rcases Nat.eq_or_lt_of_le (show e + 1 ≤ j from hj) with rfl | hj'
    · rw [hend]
      exact hx.heap.root ho (by omega)
    · rw [hout j hj']
      exact hx.above i' j hi' hj' hjn

theorem extract_ordered (ho : WeakOrder lt) {e : Nat} (he : e < n) (hx : Extracting lt n e f) :
    Ordered lt n 0 (extract lt f e) := by
  induction e generalizing f with
  | zero =>
    intro i j _ hij hj
    rcases Nat.eq_zero_or_pos i with rfl | hpos
    · exact hx.above 0 j (Nat.le_refl _) hij hj
    · exact hx.ordered i j hpos hij hj
  | succ e ih => exact ih (by omega) (hx.next ho)

/-- The heap sort of the `n` first elements. -/
def heapSort (lt : α → α → Prop) [DecidableRel lt] (n : Nat) (f : Nat → α) : Nat → α :=
  extract lt (buildHeap lt n f (n / 2)) (n - 1)

/-- **A heap sort orders the array.** -/
theorem heapSort_ordered (ho : WeakOrder lt) (hn : 0 < n) (f : Nat → α) :
    Ordered lt n 0 (heapSort lt n f) := by
  apply extract_ordered ho (by omega)
  constructor
  · rw [Nat.sub_add_cancel hn]
    exact buildHeap_heap ho (heap_half f)
  · intro i j hi hij hj
    omega
  · intro i j _ hj hjn
    omega

/-- **A heap sort moves the elements and changes none.** -/
theorem heapSort_within (lt : α → α → Prop) [DecidableRel lt] (hn : 0 < n) (f : Nat → α) :
    Within n f (heapSort lt n f) := by
  have hextract := extract_within lt (f := buildHeap lt n f (n / 2)) (e := n - 1)
  rw [Nat.sub_add_cancel hn] at hextract
  exact (buildHeap_within lt (by omega)).trans hextract

theorem Ordered.pairwise {lt : α → α → Prop} (h : Ordered lt n 0 f) :
    ((List.range n).map f).Pairwise fun a b => ¬ lt b a := by
  rw [List.pairwise_map]
  refine List.pairwise_lt_range.imp_of_mem fun {i j} hi hj hij => ?_
  exact h i j (Nat.zero_le _) hij (List.mem_range.mp hj)

end Order

end Jacl.HeapSort
