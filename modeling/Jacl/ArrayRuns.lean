import Jacl.Arrays
import Jacl.HeapAllocRuns

/-!
# Arrays denote lists (`runtime/collections.c`)

`Rep` is what holds of the cells of one array, `Denotes` of all of them: every array stands for a
list, its header has the list's length, which is at most the capacity, and no two arrays share a
cell of slots.  An operation that runs changes the list as `Op.apply` says; one that does not needs a
cell larger than the heap, to hold more than `2 ^ 20` elements.
-/

namespace Jacl.Arrays
open Function JaclVal FlatBuf HeapAlloc

/-- The array at `p` stands for `l`; its slots are in the cell at `d`. -/
structure Rep (h : Heap) (p : Nat) (l : List JaclVal) (d : Nat) (slots : List JaclVal) : Prop where
  hdr : h.cells p = some (.header ⟨l.length, slots.length, d⟩)
  data : h.cells d = some (.data slots)
  elems : slots.take l.length = l
  cap : ∃ k, slots.length = 2 ^ (k + 3)
  fits : slots.length ≤ 2 ^ 20

/-- The lists that the arrays stand for. -/
abbrev Lists := Nat → Option (List JaclVal)

/-- **Every array stands for its list**, with cells of its own. -/
structure Denotes (h : Heap) (M : Lists) : Prop where
  reps : ∀ p l, M p = some l → ∃ d slots, Rep h p l d slots
  apart : ∀ p q l l' d s s', M p = some l → M q = some l' → Rep h p l d s → Rep h q l' d s' → p = q
  fresh : ∀ p, h.next ≤ p → h.cells p = none

/-- A step on the array at `p`, whose slots were at `d`: it now stands for `l`, and the cells of the
others are as before. -/
structure Changed (h h' : Heap) (p d : Nat) (l : List JaclVal) : Prop where
  rep : ∃ d' slots, Rep h' p l d' slots ∧ (d' = d ∨ h.next ≤ d')
  frame : ∀ q, q ≠ p → q ≠ d → q < h.next → h'.cells q = h.cells q
  next_le : h.next ≤ h'.next
  fresh : ∀ q, h'.next ≤ q → h'.cells q = none

variable {h h' : Heap} {p d i : Nat} {l l' slots : List JaclVal} {a v idx fill : JaclVal} {M : Lists}

namespace Rep

theorem ne (hr : Rep h p l d slots) : d ≠ p := by
  intro heq
  have hdata := hr.data
  rw [heq, hr.hdr] at hdata
  cases hdata

/-- **The length is at most the capacity.** -/
theorem length_le (hr : Rep h p l d slots) : l.length ≤ slots.length := by
  have hlen := congrArg List.length hr.elems
  rw [List.length_take] at hlen
  omega

theorem slots_eq (hr : Rep h p l d slots) : h.slots d = slots := by rw [Heap.slots, hr.data]

theorem getElem? (hr : Rep h p l d slots) (hi : i < l.length) : slots[i]? = l[i]? := by
  have hget := congrArg (fun xs : List JaclVal => xs[i]?) hr.elems
  rw [List.getElem?_take, if_pos hi] at hget
  exact hget

theorem arrHdr (hr : Rep h a.payload l d slots) (ht : a.type = 0x1A) :
    arrHdr h a = some ⟨l.length, slots.length, d⟩ := by
  rw [Arrays.arrHdr, if_neg (not_not_intro ht), hr.hdr]

/-- The array is determined by the memory. -/
theorem unique {l' slots' : List JaclVal} {d' : Nat} (hr : Rep h p l d slots)
    (hr' : Rep h p l' d' slots') : d' = d ∧ slots' = slots ∧ l' = l := by
  have hhdr := hr.hdr.symm.trans hr'.hdr
  injection hhdr with hcell
  injection hcell with hh
  injection hh with hlen hcap hd
  have hdata := hr'.data
  rw [← hd, hr.data] at hdata
  injection hdata with hcell'
  injection hcell' with hs
  have hll : l'.length = l.length := by omega
  exact ⟨hd.symm, hs.symm, by rw [← hr'.elems, ← hr.elems, hll, hs]⟩

end Rep

namespace Heap

@[simp] theorem put_next (c : Cell) : (h.put p c).next = h.next := rfl

theorem put_same (c : Cell) : (h.put p c).cells p = some c := update_self ..

theorem put_of_ne {q : Nat} {c : Cell} (hq : q ≠ p) : (h.put p c).cells q = h.cells q := update_of_ne hq ..

theorem putSlot_eq (hs : h.slots d = slots) (hi : i < slots.length) :
    h.putSlot d i v = some (h.put d (.data (slots.set i v))) := by rw [putSlot, hs, if_pos hi]

end Heap

/-! ### Small steps -/

theorem lt_next (hf : ∀ q, h.next ≤ q → h.cells q = none) {c : Cell} (hc : h.cells p = some c) :
    p < h.next := by
  by_contra hge
  rw [hf p (Nat.le_of_not_lt hge)] at hc
  cases hc

namespace Changed

/-- The steps of one array compose. -/
theorem trans {h₁ h₂ : Heap} {l₁ l₂ : List JaclVal} {d₁ : Nat} {s₁ : List JaclVal}
    (h₁c : Changed h h₁ p d l₁) (hr : Rep h₁ p l₁ d₁ s₁) (h₂c : Changed h₁ h₂ p d₁ l₂) :
    Changed h h₂ p d l₂ := by
  obtain ⟨d', s', hr', hd'⟩ := h₁c.rep
  obtain ⟨rfl, rfl, -⟩ := hr.unique hr'
  obtain ⟨d'', s'', hr'', hd''⟩ := h₂c.rep
  have hle := h₁c.next_le
  refine ⟨⟨d'', s'', hr'', ?_⟩, ?_, Nat.le_trans hle h₂c.next_le, h₂c.fresh⟩
  · obtain rfl | hge := hd''
    · exact hd'
    · exact .inr (Nat.le_trans hle hge)
  · intro q hp hd hlt
    rw [h₂c.frame q hp (by omega) (Nat.lt_of_lt_of_le hlt hle), h₁c.frame q hp hd hlt]

/-- **What a step does to all arrays**: the cells of the others are not those of the one. -/
theorem denotes_of_apart (hD : Denotes h M) (hapart : ∀ q m e s, q ≠ p → M q = some m → Rep h q m e s →
      e ≠ d ∧ q ≠ d ∧ e ≠ p) (hc : Changed h h' p d l') : Denotes h' (update M p (some l')) := by
  obtain ⟨d', slots', hr', hd'⟩ := hc.rep
  have hother : ∀ q m, q ≠ p → M q = some m → ∃ e s, Rep h q m e s ∧ Rep h' q m e s ∧ e ≠ d' := by
    intro q m hq hm
    obtain ⟨e, s, hre⟩ := hD.reps q m hm
    obtain ⟨hed, hqd, hep⟩ := hapart q m e s hq hm hre
    have helt := lt_next hD.fresh hre.data
    refine ⟨e, s, hre, ⟨?_, ?_, hre.elems, hre.cap, hre.fits⟩, by omega⟩
    · rw [hc.frame q hq hqd (lt_next hD.fresh hre.hdr), hre.hdr]
    · rw [hc.frame e hep hed helt, hre.data]
  refine ⟨?_, ?_, hc.fresh⟩
  · intro q m hm
    by_cases hq : q = p
    · rw [hq, update_self] at hm
      cases hm
      exact ⟨d', slots', hq ▸ hr'⟩
    · rw [update_of_ne hq] at hm
      obtain ⟨e, s, -, hre, -⟩ := hother q m hq hm
      exact ⟨e, s, hre⟩
  · intro q r m m' e s s' hm hm' hre hre'
    by_cases hq : q = p <;> by_cases hrp : r = p
    · rw [hq, hrp]
    · rw [update_of_ne hrp] at hm'
      rw [hq, update_self] at hm
      cases hm
      obtain ⟨e', t, -, hro, hne⟩ := hother r m' hrp hm'
      obtain ⟨rfl, -, -⟩ := hro.unique hre'
      obtain ⟨rfl, -, -⟩ := hr'.unique (hq ▸ hre)
      exact absurd rfl hne
    · rw [update_of_ne hq] at hm
      rw [hrp, update_self] at hm'
      cases hm'
      obtain ⟨e', t, -, hro, hne⟩ := hother q m hq hm
      obtain ⟨rfl, -, -⟩ := hro.unique hre
      obtain ⟨rfl, -, -⟩ := hr'.unique (hrp ▸ hre')
      exact absurd rfl hne
    · rw [update_of_ne hq] at hm
      rw [update_of_ne hrp] at hm'
      obtain ⟨e', t, hrq, hrq', -⟩ := hother q m hq hm
      obtain ⟨e'', t', hrr, hrr', -⟩ := hother r m' hrp hm'
      obtain ⟨rfl, -, -⟩ := hrq'.unique hre
      obtain ⟨rfl, -, -⟩ := hrr'.unique hre'
      exact hD.apart q r m m' e t t' hm hm' hrq hrr

/-- A step on an array. -/
theorem denotes (hD : Denotes h M) (hp : M p = some l) (hr : Rep h p l d slots)
    (hc : Changed h h' p d l') : Denotes h' (update M p (some l')) := by
  refine denotes_of_apart hD (fun q m e s hq hm hre => ⟨?_, ?_, ?_⟩) hc
  · rintro rfl
    exact hq (hD.apart _ _ _ _ _ _ _ hm hp hre hr)
  · rintro rfl
    have hhdr := hre.hdr
    rw [hr.data] at hhdr
    cases hhdr
  · rintro rfl
    have hdata := hre.data
    rw [hr.hdr] at hdata
    cases hdata

end Changed

/-- A step that leaves the cells as they are. -/
theorem Rep.unchanged (hr : Rep h p l d slots) (hf : ∀ q, h.next ≤ q → h.cells q = none) :
    Changed h h p d l :=
  ⟨⟨d, slots, hr, .inl rfl⟩, fun _ _ _ _ => rfl, Nat.le_refl _, hf⟩

/-- **A store in place**: new slots of the same number, and a new count. -/
theorem Rep.store {slots' : List JaclVal} (hr : Rep h p l d slots)
    (hf : ∀ q, h.next ≤ q → h.cells q = none) (hlen : slots'.length = slots.length)
    (helems : slots'.take l'.length = l') :
    Changed h ((h.put d (.data slots')).put p (.header ⟨l'.length, slots.length, d⟩)) p d l' := by
  have hne := hr.ne
  refine ⟨⟨d, slots', ⟨?_, ?_, helems, hlen ▸ hr.cap, hlen ▸ hr.fits⟩, .inl rfl⟩, ?_, Nat.le_refl _, ?_⟩
  · rw [Heap.put_same, hlen]
  · rw [Heap.put_of_ne hne, Heap.put_same]
  · intro q hp hd _
    rw [Heap.put_of_ne hp, Heap.put_of_ne hd]
  · intro q hq
    have hp := lt_next hf hr.hdr
    have hd := lt_next hf hr.data
    have hq' : h.next ≤ q := hq
    rw [Heap.put_of_ne (by omega), Heap.put_of_ne (by omega), hf q hq']

/-! ### Push -/

theorem cellFor_data {c : Nat} (hc : c ≤ 2 ^ 21) :
    dataBytes c = c * 8 ∧ cellFor (dataBytes c) = (8 + c * 8 + 15) / 16 * 16 := by
  have hbytes : dataBytes c = c * 8 := by
    rw [dataBytes, u32, Int.emod_eq_of_lt (by omega) (by omega), Int.toNat_natCast]
    exact Nat.mod_eq_of_lt (by omega)
  refine ⟨hbytes, ?_⟩
  rw [hbytes]
  refine cellFor_eq ?_
  rw [sizeofObj_eq, regionBytes_eq]
  omega

/-- **A move to a new cell.** -/
theorem Rep.move {slots' : List JaclVal} (hr : Rep h p l d slots)
    (hf : ∀ q, h.next ≤ q → h.cells q = none) (c : Cell) (helems : slots'.take l.length = l)
    (hcap : ∃ k, slots'.length = 2 ^ (k + 3)) (hfits : slots'.length ≤ 2 ^ 20) :
    Rep (((h.alloc c).1.put h.next (.data slots')).put p (.header ⟨l.length, slots'.length, h.next⟩))
        p l h.next slots' ∧
      Changed h (((h.alloc c).1.put h.next (.data slots')).put p
        (.header ⟨l.length, slots'.length, h.next⟩)) p d l := by
  have hp := lt_next hf hr.hdr
  have hrep : Rep (((h.alloc c).1.put h.next (.data slots')).put p
      (.header ⟨l.length, slots'.length, h.next⟩)) p l h.next slots' := by
    refine ⟨Heap.put_same _, ?_, helems, hcap, hfits⟩
    rw [Heap.put_of_ne (by omega), Heap.put_same]
  refine ⟨hrep, ⟨h.next, slots', hrep, .inr (Nat.le_refl _)⟩, ?_, Nat.le_add_right _ _, ?_⟩
  · intro q hq _ hlt
    rw [Heap.put_of_ne hq, Heap.put_of_ne (by omega)]
    exact update_of_ne (by omega) ..
  · intro q hq
    have hq' : h.next + granule ≤ q := hq
    rw [granule_eq] at hq'
    rw [Heap.put_of_ne (by omega), Heap.put_of_ne (by omega)]
    exact (update_of_ne (by omega) ..).trans (hf q (by omega))

/-- **The growth of a full array** keeps its elements. -/
theorem grow_spec (hr : Rep h p l d slots) (hf : ∀ q, h.next ≤ q → h.cells q = none)
    (hfull : l.length = slots.length) (hlt : slots.length < 2 ^ 20) :
    ∃ h' s', grow h p ⟨l.length, slots.length, d⟩ = some (h', ⟨l.length, s'.length, h.next⟩) ∧
      Rep h' p l h.next s' ∧ l.length < s'.length ∧ Changed h h' p d l := by
  obtain ⟨k, hk⟩ := hr.cap
  have hpos : 0 < slots.length := by
    rw [hk]
    exact Nat.pow_pos (by decide)
  have hs' : (l ++ List.replicate slots.length nil).length = 2 * slots.length := by
    rw [List.length_append, List.length_replicate]
    omega
  have hcap : int32 ((slots.length : Int) * 2) = ((l ++ List.replicate slots.length nil).length : Nat) := by
    rw [hs', int32_eq_iff.mpr ⟨by omega, by omega⟩]
    omega
  obtain ⟨hbytes, hcell⟩ := cellFor_data (show 2 * slots.length ≤ 2 ^ 21 by omega)
  have hnew : arrDataNew h ((l ++ List.replicate slots.length nil).length : Nat) =
      some (h.alloc (.data (List.replicate (2 * slots.length) nil))) := by
    rw [hs', arrDataNew, if_neg (by rw [hcell, heapBytes_eq]; omega), hbytes,
      Nat.mul_div_cancel _ (by decide)]
  have hslots : (h.alloc (.data (List.replicate (2 * slots.length) nil))).1.slots h.next =
      List.replicate (2 * slots.length) nil := by
    rw [Heap.slots, Heap.alloc]
    dsimp only
    rw [update_self]
  have hmoved : slots.take l.length ++ (List.replicate (2 * slots.length) nil).drop l.length =
      l ++ List.replicate slots.length nil := by
    rw [hr.elems, List.drop_replicate, hfull]
    congr 2
    omega
  have hcap' : ∃ k, (l ++ List.replicate slots.length nil).length = 2 ^ (k + 3) :=
    ⟨k + 1, by rw [hs', hk]; exact (pow_succ' 2 (k + 3)).symm⟩
  have hfits : (l ++ List.replicate slots.length nil).length ≤ 2 ^ 20 := by
    -- a power of 2 below `2 ^ 20` is at most half of it
    have hk20 : k + 3 < 20 := (Nat.pow_lt_pow_iff_right (by decide)).mp (hk ▸ hlt)
    rw [hs', hk, ← Nat.pow_succ']
    exact Nat.pow_le_pow_right (by decide) (by omega)
  obtain ⟨hrep, hchanged⟩ := hr.move hf (.data (List.replicate (2 * slots.length) nil))
    List.take_left hcap' hfits
  refine ⟨_, _, ?_, hrep, by omega, hchanged⟩
  rw [grow, hcap, hnew, Option.bind_some]
  dsimp only
  rw [Int.toNat_natCast, hr.slots_eq]
  show (if slots.length < l.length ∨ (Heap.slots _ h.next).length < l.length then none else
    some (((h.alloc _).1.put h.next (.data (slots.take l.length ++ (Heap.slots _ h.next).drop l.length))).put p _, _)) = _
  rw [hslots, if_neg (by rw [List.length_replicate]; omega), hmoved]
  rfl

theorem take_set_append (helems : slots.take l.length = l) (hlt : l.length < slots.length) :
    (slots.set l.length v).take (l ++ [v]).length = l ++ [v] := by
  rw [List.length_append, List.length_singleton,
    List.take_succ_eq_append_getElem (by rw [List.length_set]; exact hlt), List.getElem_set_self,
    List.take_set_of_le (Nat.le_refl _), helems]

/-- **A push** appends, unless the array has `2 ^ 20` elements. -/
theorem arrPush_spec (hr : Rep h a.payload l d slots) (hf : ∀ q, h.next ≤ q → h.cells q = none)
    (ht : a.type = 0x1A) (hlt : l.length < 2 ^ 20) :
    ∃ h', arrPush h a v = some (h', a) ∧ Changed h h' a.payload d (l ++ [v]) := by
  -- a push into an array with room
  have hroom : ∀ (h : Heap) (d : Nat) (slots : List JaclVal), Rep h a.payload l d slots →
      (∀ q, h.next ≤ q → h.cells q = none) → l.length < slots.length →
      ∃ h', ((h.putSlot d l.length v).map fun h' =>
          (h'.put a.payload (.header ⟨int32 ((l.length : Int) + 1), slots.length, d⟩), a)) = some (h', a) ∧
        Changed h h' a.payload d (l ++ [v]) := by
    intro h d slots hr hf hroom
    have hcount : int32 ((l.length : Int) + 1) = (l ++ [v]).length := by
      rw [List.length_append, List.length_singleton, int32_eq_iff.mpr ⟨by omega, by omega⟩]
      omega
    refine ⟨_, by rw [Heap.putSlot_eq hr.slots_eq hroom, Option.map_some, hcount], ?_⟩
    exact hr.store hf List.length_set (take_set_append hr.elems hroom)
  rw [arrPush, hr.arrHdr ht]
  dsimp only
  by_cases hfull : l.length = slots.length
  · obtain ⟨h₁, s₁, hgrow, hr₁, hlt₁, hc₁⟩ := grow_spec hr hf hfull (by omega)
    rw [if_pos (by rw [hfull]), hgrow, Option.bind_some]
    obtain ⟨h', heq, hc⟩ := hroom h₁ _ s₁ hr₁ hc₁.fresh hlt₁
    exact ⟨h', heq, hc₁.trans hr₁ hc⟩
  · have hle := hr.length_le
    rw [if_neg (by omega), Option.bind_some]
    exact hroom h d slots hr hf (by omega)

/-- A push into an array of `2 ^ 20` elements needs a cell larger than the heap. -/
theorem arrPush_none (hr : Rep h a.payload l d slots) (ht : a.type = 0x1A) (hlen : 2 ^ 20 ≤ l.length) :
    arrPush h a v = none := by
  have hle := hr.length_le
  have hfits := hr.fits
  have hcap : int32 ((slots.length : Int) * 2) = (2 * slots.length : Nat) := by
    rw [int32_eq_iff.mpr ⟨by omega, by omega⟩]
    omega
  have hgrow : grow h a.payload ⟨l.length, slots.length, d⟩ = none := by
    rw [grow, hcap, arrDataNew, if_pos, Option.bind_none]
    rw [(cellFor_data (by omega)).2, heapBytes_eq]
    omega
  rw [arrPush, hr.arrHdr ht]
  dsimp only
  rw [if_pos (by omega), hgrow, Option.bind_none]

/-! ### Pop and get -/

theorem count_emod (hr : Rep h p l d slots) : ((l.length : Int) % 2 ^ 32).toNat = l.length := by
  have hle := hr.length_le
  have hfits := hr.fits
  omega

theorem arrCount_spec (hr : Rep h a.payload l d slots) (ht : a.type = 0x1A) : arrCount h a = l.length := by
  rw [arrCount, hr.arrHdr ht]
  exact count_emod hr

/-- **A pop** takes the last element; its slot is cleared. -/
theorem arrPop_spec (hr : Rep h a.payload l d slots) (hf : ∀ q, h.next ≤ q → h.cells q = none)
    (ht : a.type = 0x1A) :
    ∃ h', arrPop h a = some (h', l.getLastD nil) ∧ Changed h h' a.payload d l.dropLast := by
  have hle := hr.length_le
  rw [arrPop, hr.arrHdr ht]
  dsimp only
  by_cases hzero : l.length = 0
  · rw [List.length_eq_zero_iff] at hzero
    subst hzero
    exact ⟨h, rfl, hr.unchanged hf⟩
  · have hlast : slots[l.length - 1]? = some (l.getLastD nil) := by
      rw [hr.getElem? (by omega), List.getLastD_eq_getLast?, ← List.getLast?_eq_getElem?]
      obtain ⟨x, hx⟩ := Option.ne_none_iff_exists'.mp (mt List.getLast?_eq_none_iff.mp
        (mt List.length_eq_zero_iff.mpr hzero))
      rw [hx, Option.getD_some]
    have hcount : (l.length : Int) - 1 = l.dropLast.length := by
      rw [List.length_dropLast]
      omega
    rw [if_neg (by omega), Int.toNat_natCast, hr.slots_eq, hlast, Option.bind_some,
      Heap.putSlot_eq hr.slots_eq (by omega), Option.map_some, hcount]
    refine ⟨_, rfl, hr.store hf List.length_set ?_⟩
    rw [List.length_dropLast, List.take_set_of_le (Nat.le_refl _), List.dropLast_eq_take]
    have htake := congrArg (List.take (l.length - 1)) hr.elems
    rw [List.take_take, Nat.min_eq_left (Nat.sub_le ..)] at htake
    exact htake

/-- **A get** of an index, inside the list or outside. -/
theorem arrGetAt_spec (hr : Rep h a.payload l d slots) (ht : a.type = 0x1A) :
    arrGetAt h a idx = some ((Alias.array a).read l idx) := by
  rw [arrGetAt, Alias.read, listGet, arrGet, hr.arrHdr ht]
  dsimp only
  rw [count_emod hr, hr.slots_eq]
  by_cases herr : a.error = true
  · rw [if_pos herr, if_pos herr]
  rw [if_neg herr, if_neg herr]
  cases hi32 : idx.isI32 with
  | false => rfl
  | true =>
    rw [if_neg (Bool.noConfusion : ¬ true = false), if_pos rfl]
    by_cases hneg : idx.asI32 < 0
    · rw [if_pos hneg, if_pos hneg]
    have hidx : (idx.asI32 % 2 ^ 32).toNat = idx.asI32.toNat := by
      have hlt := (BitVec.ofNat 32 idx.payload).toInt_lt
      rw [Int.emod_eq_of_lt (by omega) (by rw [asI32]; omega)]
    rw [if_neg hneg, if_neg hneg, hidx, List.getD_eq_getElem?_getD]
    by_cases hpast : l.length ≤ idx.asI32.toNat
    · rw [if_pos hpast, List.getElem?_eq_none hpast, Option.getD_none]
    · rw [if_neg hpast, hr.getElem? (by omega), List.getElem?_eq_getElem (by omega), Option.getD_some]

/-! ### Set -/

theorem rightpad_of_le {n : Nat} (hn : n ≤ l.length) : l.rightpad n v = l := by
  rw [List.rightpad, Nat.sub_eq_zero_of_le hn, List.replicate_zero, List.append_nil]

theorem rightpad_succ {n : Nat} (hn : l.length < n) : (l ++ [v]).rightpad n v = l.rightpad n v := by
  rw [List.rightpad, List.rightpad, List.append_assoc, List.length_append, List.length_singleton,
    show n - l.length = n - (l.length + 1) + 1 by omega, List.replicate_succ, List.singleton_append]

/-- **The growth to an index** fills the gap, if it ends up with at most `2 ^ 20` elements. -/
theorem fillTo_spec (fill : JaclVal) {fuel : Nat} (hr : Rep h a.payload l d slots) (hf : ∀ q, h.next ≤ q → h.cells q = none)
    (ht : a.type = 0x1A) (hfuel : i + 1 - l.length < fuel) (hi : i < 2 ^ 20) :
    ∃ h', fillTo fill a i fuel h = some h' ∧ Changed h h' a.payload d (l.rightpad (i + 1) fill) := by
  induction fuel generalizing h l d slots with
  | zero => exact absurd hfuel (Nat.not_lt_zero _)
  | succ fuel ih =>
    have hle := hr.length_le
    have hfits := hr.fits
    have hcount : (BitVec.ofNat 32 (arrCount h a)).toInt = l.length := by
      rw [arrCount_spec hr ht, BitVec.toInt_eq_toNat_bmod, BitVec.toNat_ofNat, Int.bmod_def]
      omega
    rw [fillTo, hcount]
    by_cases hgap : l.length ≤ i
    · obtain ⟨h₁, hpush, hc⟩ := arrPush_spec (v := fill) hr hf ht (by omega)
      obtain ⟨d₁, s₁, hr₁, -⟩ := hc.rep
      rw [if_pos (by omega), hpush, Option.bind_some]
      obtain ⟨h', hfill, hc'⟩ := ih hr₁ hc.fresh (by
        rw [List.length_append, List.length_singleton]
        omega)
      rw [rightpad_succ (by omega)] at hc'
      exact ⟨h', hfill, hc.trans hr₁ hc'⟩
    · rw [if_neg (by omega), rightpad_of_le (by omega)]
      exact ⟨h, rfl, hr.unchanged hf⟩

/-- A growth to more elements needs a cell larger than the heap. -/
theorem fillTo_none {fuel : Nat} (hr : Rep h a.payload l d slots) (hf : ∀ q, h.next ≤ q → h.cells q = none)
    (ht : a.type = 0x1A) (hi : 2 ^ 20 ≤ i) (hi' : i < 2 ^ 31) : fillTo fill a i fuel h = none := by
  induction fuel generalizing h l d slots with
  | zero => rfl
  | succ fuel ih =>
    have hle := hr.length_le
    have hfits := hr.fits
    have hcount : (BitVec.ofNat 32 (arrCount h a)).toInt = l.length := by
      rw [arrCount_spec hr ht, BitVec.toInt_eq_toNat_bmod, BitVec.toNat_ofNat, Int.bmod_def]
      omega
    rw [fillTo, hcount, if_pos (by omega)]
    by_cases hlen : 2 ^ 20 ≤ l.length
    · rw [arrPush_none hr ht hlen, Option.bind_none]
    · obtain ⟨h₁, hpush, hc⟩ := arrPush_spec (v := fill) hr hf ht (by omega)
      obtain ⟨d₁, s₁, hr₁, -⟩ := hc.rep
      rw [hpush, Option.bind_some]
      exact ih hr₁ hc.fresh

/-- A store into one slot. -/
theorem Rep.setSlot (hr : Rep h p l d slots) (hf : ∀ q, h.next ≤ q → h.cells q = none) :
    Changed h (h.put d (.data (slots.set i v))) p d (l.set i v) := by
  have hne := hr.ne
  refine ⟨⟨d, slots.set i v, ⟨?_, Heap.put_same _, ?_, ?_, ?_⟩, .inl rfl⟩, ?_, Nat.le_refl _, ?_⟩
  · rw [Heap.put_of_ne (Ne.symm hne), hr.hdr, List.length_set, List.length_set]
  · rw [List.length_set, List.take_set, hr.elems]
  · rw [List.length_set]
    exact hr.cap
  · rw [List.length_set]
    exact hr.fits
  · intro q _ hd _
    exact Heap.put_of_ne hd
  · intro q hq
    have hd := lt_next hf hr.data
    have hq' : h.next ≤ q := hq
    rw [Heap.put_of_ne (by omega), hf q hq']

/-- **A set** follows the rule of lists, or needs more than `2 ^ 20` elements. -/
theorem setWith_spec (fill : JaclVal) (hr : Rep h a.payload l d slots)
    (hf : ∀ q, h.next ≤ q → h.cells q = none) (ht : a.type = 0x1A) :
    (∃ h', setWith fill h a idx v = some (h', (wordSet fill l a idx v).2) ∧
        Changed h h' a.payload d (wordSet fill l a idx v).1) ∨
      setWith fill h a idx v = none ∧ 2 ^ 20 < (wordSet fill l a idx v).1.length := by
  have hsame := hr.unchanged hf
  rw [setWith, wordSet, listSet, hr.arrHdr ht]
  dsimp only
  by_cases herr : a.error = true
  · rw [if_pos herr, if_pos herr]
    exact .inl ⟨h, rfl, hsame⟩
  rw [if_neg herr, if_neg herr]
  cases hi32 : idx.isI32 with
  | false => exact .inl ⟨h, rfl, hsame⟩
  | true =>
    rw [if_neg (Bool.noConfusion : ¬ true = false), if_pos rfl]
    by_cases hneg : idx.asI32 < 0
    · rw [if_pos hneg, if_pos (.inl hneg)]
      exact .inl ⟨h, rfl, hsame⟩
    by_cases hgap : maxGap < idx.asI32 - l.length
    · rw [if_neg hneg, if_pos hgap, if_pos (.inr hgap)]
      exact .inl ⟨h, rfl, hsame⟩
    rw [if_neg hneg, if_neg hgap, if_neg (by omega)]
    have hlt := (BitVec.ofNat 32 idx.payload).toInt_lt
    obtain ⟨i, hi⟩ := Int.eq_ofNat_of_zero_le (Int.not_lt.mp hneg)
    rw [asI32] at hi
    simp only [asI32, hi, Int.toNat_natCast]
    have hlen : (l.rightpad (i + 1) fill).length = max (i + 1) l.length := List.length_rightpad ..
    by_cases hbig : 2 ^ 20 ≤ i
    · rw [fillTo_none hr hf ht hbig (by omega), Option.bind_none, List.length_set, hlen]
      exact .inr ⟨rfl, by omega⟩
    · obtain ⟨h₁, hfill, hc⟩ := fillTo_spec fill hr hf ht
        (show i + 1 - l.length < ((i : Int) + 1 - l.length).toNat + 1 by omega) (Nat.lt_of_not_le hbig)
      obtain ⟨d₁, s₁, hr₁, hd₁⟩ := hc.rep
      have hle := hr₁.length_le
      rw [hfill, Option.bind_some, hr₁.arrHdr ht]
      dsimp only
      rw [Heap.putSlot_eq hr₁.slots_eq (by omega), Option.map_some]
      exact .inl ⟨_, rfl, hc.trans hr₁ (hr₁.setSlot hc.fresh)⟩

/-! ### Operations and runs -/

/-- A get through an alias. -/
theorem get_spec {t : Alias} (hr : Rep h t.root.payload l d slots) (ht : t.root.type = 0x1A) :
    t.get h idx = some (t.read l idx) := by
  induction t generalizing idx with
  | array a => exact arrGetAt_spec hr ht
  | fat base off ih =>
    rw [Alias.get, Alias.read]
    split
    · exact ih hr ht
    · rfl

/-- A set through an alias. -/
theorem setAt_spec {t : Alias} (hr : Rep h t.root.payload l d slots)
    (hf : ∀ q, h.next ≤ q → h.cells q = none) (ht : t.root.type = 0x1A) :
    (∃ h', t.setAt h idx v = some (h', (t.write l idx v).2) ∧
        Changed h h' t.root.payload d (t.write l idx v).1) ∨
      t.setAt h idx v = none ∧ 2 ^ 20 < (t.write l idx v).1.length := by
  induction t generalizing idx with
  | array a => exact setWith_spec nil hr hf ht
  | fat base off ih =>
    rw [Alias.setAt, Alias.write]
    split
    · exact ih hr ht
    · exact .inl ⟨h, rfl, hr.unchanged hf⟩

/-- A push by a program. -/
theorem arrPushV_spec (hr : Rep h a.payload l d slots) (hf : ∀ q, h.next ≤ q → h.cells q = none)
    (ht : a.type = 0x1A) :
    (∃ h', arrPushV h a v = some (h', ((Op.pushV a v).apply l).2) ∧
        Changed h h' a.payload d ((Op.pushV a v).apply l).1) ∨
      arrPushV h a v = none ∧ 2 ^ 20 < ((Op.pushV a v).apply l).1.length := by
  rw [arrPushV, Op.apply]
  by_cases ha : a.error = true
  · rw [if_pos ha, if_pos ha]
    exact .inl ⟨h, rfl, hr.unchanged hf⟩
  by_cases hv : v.error = true
  · rw [if_neg ha, if_neg ha, if_pos hv, if_pos hv]
    exact .inl ⟨h, rfl, hr.unchanged hf⟩
  rw [if_neg ha, if_neg ha, if_neg hv, if_neg hv]
  by_cases hlt : l.length < 2 ^ 20
  · obtain ⟨h', hpush, hc⟩ := arrPush_spec hr hf ht hlt
    obtain ⟨d', s', hr', -⟩ := hc.rep
    refine .inl ⟨h', ?_, hc⟩
    rw [hpush, Option.map_some, if_neg ha, arrCount_spec hr' ht, List.length_append,
      List.length_singleton, Int.natCast_add, Int.natCast_one]
  · refine .inr ⟨by rw [arrPush_none hr ht (Nat.le_of_not_lt hlt), Option.map_none], ?_⟩
    rw [List.length_append, List.length_singleton]
    omega

/-- **One operation**: what `Op.apply` says of the list, unless it needs more than `2 ^ 20`
elements. -/
theorem exec_spec {op : Op} (hr : Rep h op.target.payload l d slots)
    (hf : ∀ q, h.next ≤ q → h.cells q = none) (ht : op.target.type = 0x1A) :
    (∃ h', op.exec h = some (h', (op.apply l).2) ∧ Changed h h' op.target.payload d (op.apply l).1) ∨
      op.exec h = none ∧ 2 ^ 20 < (op.apply l).1.length := by
  cases op with
  | push a v =>
    by_cases hlt : l.length < 2 ^ 20
    · exact .inl (arrPush_spec hr hf ht hlt)
    · refine .inr ⟨arrPush_none hr ht (Nat.le_of_not_lt hlt), ?_⟩
      show 2 ^ 20 < (l ++ [v]).length
      rw [List.length_append, List.length_singleton]
      omega
  | pushV a v => exact arrPushV_spec hr hf ht
  | pop a => exact .inl (arrPop_spec hr hf ht)
  | get t idx =>
    refine .inl ⟨h, ?_, hr.unchanged hf⟩
    show (t.get h idx).map _ = _
    rw [get_spec hr ht, Option.map_some]
    rfl
  | set t idx v => exact setAt_spec hr hf ht
  | setZero a idx v => exact setWith_spec (i32 0) hr hf ht
  | len a =>
    refine .inl ⟨h, ?_, hr.unchanged hf⟩
    have hcount : arrCount h a = l.length := arrCount_spec hr ht
    show some (h, len h a) = some (h, if a.error then a else i32 l.length)
    rw [len, hcount]

/-- **A new array** is empty. -/
theorem arrNew_spec (hD : Denotes h M) :
    ∃ h', arrNew h = some (h', plain 0x1A h.next) ∧ M h.next = none ∧
      Denotes h' (update M h.next (some [])) := by
  obtain ⟨hbytes, hcell⟩ := @cellFor_data 8 (by decide)
  have hM : M h.next = none := by
    refine Option.eq_none_iff_forall_ne_some.mpr fun l hl => ?_
    obtain ⟨d, slots, hr⟩ := hD.reps _ l hl
    exact absurd (lt_next hD.fresh hr.hdr) (Nat.lt_irrefl _)
  have hr : Rep (((h.alloc (.header ⟨0, minCap, 0⟩)).1.alloc (.data (List.replicate 8 nil))).1.put h.next
      (.header ⟨0, minCap, h.next + granule⟩)) h.next [] (h.next + granule) (List.replicate 8 nil) := by
    refine ⟨Heap.put_same _, ?_, rfl, ⟨0, rfl⟩, by decide⟩
    rw [Heap.put_of_ne (by rw [granule_eq]; omega)]
    exact update_self ..
  have hnew : arrNew h = some (((h.alloc (.header ⟨0, minCap, 0⟩)).1.alloc
      (.data (List.replicate 8 nil))).1.put h.next (.header ⟨0, minCap, h.next + granule⟩),
      plain 0x1A h.next) := by
    rw [arrNew, arrDataNew, show minCap = ((8 : Nat) : Int) from rfl, hcell, if_neg (by decide), hbytes]
    rfl
  refine ⟨_, hnew, hM, ?_⟩
  have hc : Changed h (((h.alloc (.header ⟨0, minCap, 0⟩)).1.alloc (.data (List.replicate 8 nil))).1.put
      h.next (.header ⟨0, minCap, h.next + granule⟩)) h.next h.next [] := by
    refine ⟨⟨_, _, hr, .inr (Nat.le_add_right _ _)⟩, ?_, ?_, ?_⟩
    · intro q hq _ hlt
      rw [Heap.put_of_ne hq]
      exact (update_of_ne (by show q ≠ h.next + granule; omega) ..).trans (update_of_ne hq ..)
    · show h.next ≤ h.next + granule + granule
      omega
    · intro q hq
      have hq' : h.next + granule + granule ≤ q := hq
      rw [granule_eq] at hq'
      rw [Heap.put_of_ne (by omega)]
      refine (update_of_ne (by show q ≠ h.next + granule; rw [granule_eq]; omega) ..).trans ?_
      exact (update_of_ne (by omega) ..).trans (hD.fresh q (by omega))
  refine Changed.denotes_of_apart hD (fun q m e s hq hm hre => ⟨?_, hq, ?_⟩) hc
  · exact Nat.ne_of_lt (lt_next hD.fresh hre.data)
  · exact Nat.ne_of_lt (lt_next hD.fresh hre.data)

/-- **A run of a program**: the arrays it made, each with the list it stands for. -/
inductive Run : Heap → Lists → Prop
  | empty : Run .empty fun _ => none
  | new {h h' : Heap} {M : Lists} {a : JaclVal} : Run h M → arrNew h = some (h', a) → Run h' (update M a.payload (some []))
  | step {h h' : Heap} {M : Lists} {l : List JaclVal} {r : JaclVal} (op : Op) : Run h M → op.target.type = 0x1A → M op.target.payload = some l →
      op.exec h = some (h', r) → Run h' (update M op.target.payload (some (op.apply l).1))

/-- What an operation that runs leaves. -/
theorem Denotes.step {op : Op} {r : JaclVal} (hD : Denotes h M) (ht : op.target.type = 0x1A)
    (hl : M op.target.payload = some l) (he : op.exec h = some (h', r)) :
    r = (op.apply l).2 ∧ Denotes h' (update M op.target.payload (some (op.apply l).1)) := by
  obtain ⟨d, slots, hr⟩ := hD.reps _ l hl
  obtain ⟨h₁, hexec, hc⟩ | ⟨hnone, -⟩ := exec_spec hr hD.fresh ht
  · cases he.symm.trans hexec
    exact ⟨rfl, hc.denotes hD hl hr⟩
  · rw [hnone] at he
    cases he

/-- **In every run every array stands for its list.** -/
theorem Run.denotes (hrun : Run h M) : Denotes h M := by
  induction hrun with
  | empty =>
    refine ⟨fun p l hl => ?_, fun p q l l' d s s' hl => ?_, fun _ _ => rfl⟩
    · cases hl
    · cases hl
  | new _ hnew ih =>
    obtain ⟨h₁, hnew', -, hD⟩ := arrNew_spec ih
    cases hnew.symm.trans hnew'
    exact hD
  | step op _ ht hl he ih => exact (ih.step ht hl he).2

/-- **Arrays are lists.**  In every state of a run every array stands for its list, with at most as
many elements as its capacity; a new array is empty and shares nothing; and every operation, through
any alias, returns and leaves what it does on the list, or the program ends for want of a cell that
the heap can hold, with more than `2 ^ 20` elements. -/
theorem arrays_denote (hrun : Run h M) :
    Denotes h M ∧ (∀ p l, M p = some l → ∃ d slots, Rep h p l d slots ∧ l.length ≤ slots.length) ∧
      (∃ h' a, arrNew h = some (h', a) ∧ a.type = 0x1A ∧ M a.payload = none ∧
        Run h' (update M a.payload (some []))) ∧
      ∀ (op : Op) (l : List JaclVal), op.target.type = 0x1A → M op.target.payload = some l →
        (∃ h', op.exec h = some (h', (op.apply l).2) ∧
          Run h' (update M op.target.payload (some (op.apply l).1))) ∨
        op.exec h = none ∧ 2 ^ 20 < (op.apply l).1.length := by
  have hD := hrun.denotes
  refine ⟨hD, ?_, ?_, ?_⟩
  · intro p l hl
    obtain ⟨d, slots, hr⟩ := hD.reps p l hl
    exact ⟨d, slots, hr, hr.length_le⟩
  · obtain ⟨h', hnew, hM, -⟩ := arrNew_spec hD
    exact ⟨h', _, hnew, rfl, hM, hrun.new hnew⟩
  · intro op l ht hl
    obtain ⟨d, slots, hr⟩ := hD.reps _ l hl
    obtain ⟨h', hexec, -⟩ | hnone := exec_spec hr hD.fresh ht
    · exact .inl ⟨h', hexec, hrun.step op ht hl hexec⟩
    · exact .inr hnone

/-- A run that makes an array, sets an element past its end, and reads through a fat pointer. -/
theorem arrays_denote_gap :
    ∃ h, Run h (update (update (fun _ => none) 16 (some [])) 16 (some [nil, nil, i32 7])) ∧
      (Op.get (.fat (.array (plain 0x1A 16)) (i32 1)) (i32 1)).exec h = some (h, i32 7) := by
  obtain ⟨-, -, ⟨h₁, a, hnew, -, -, -⟩, -⟩ := arrays_denote .empty
  cases hnew
  have hrun := Run.empty.new (rfl : arrNew .empty = _)
  obtain ⟨-, -, -, hstep⟩ := arrays_denote hrun
  obtain ⟨h₂, hset, hrun₂⟩ | ⟨-, hlong⟩ := hstep (.set (.array (plain 0x1A 16)) (i32 2) (i32 7)) [] rfl rfl
  · refine ⟨h₂, hrun₂, ?_⟩
    obtain ⟨-, -, -, hstep₂⟩ := arrays_denote hrun₂
    obtain ⟨h₃, hget, -⟩ | ⟨-, hlong⟩ :=
      hstep₂ (.get (.fat (.array (plain 0x1A 16)) (i32 1)) (i32 1)) [nil, nil, i32 7] rfl rfl
    · obtain ⟨v, -, heq⟩ := Option.map_eq_some_iff.mp hget
      cases heq
      exact hget
    · exact absurd hlong (by decide)
  · exact absurd hlong (by decide)

end Jacl.Arrays
