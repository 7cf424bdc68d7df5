import Mathlib.Tactic

/-!
# Sparse arrays under a bitmap

A bitmap and a list of entries represent a partial array: bit `i` says whether
index `i` is present, and the entry of a present index stands at its **rank**, the
number of present indices below it.  `slot` reads the array; `slot_set`,
`slot_insert` and `slot_erase` say what replacing, inserting and removing one entry
do to it.
-/

namespace Jacl.Sparse

variable {w : Nat} {α : Type}

/-- The number of set bits below `i`. -/
def rank (bitmap : BitVec w) : Nat → Nat
  | 0 => 0
  | i + 1 => rank bitmap i + (bitmap.getLsbD i).toNat

/-- The number of set bits. -/
def popcount (bitmap : BitVec w) : Nat := rank bitmap w

/-- The single bit `i`. -/
def single (w i : Nat) : BitVec w := 1#w <<< i

/-- The entry at index `i`, if it is present. -/
def slot (bitmap : BitVec w) (entries : List α) (i : Nat) : Option α :=
  if bitmap.getLsbD i then entries[rank bitmap i]? else none

/-! ### Ranks -/

@[simp] theorem rank_zero (i : Nat) : rank (0#w) i = 0 := by
  induction i with
  | zero => rfl
  | succ i ih => simp [rank, ih]

theorem rank_succ (b : BitVec w) (i : Nat) :
    rank b (i + 1) = rank b i + (b.getLsbD i).toNat := rfl

theorem rank_mono (b : BitVec w) {i j : Nat} (hij : i ≤ j) : rank b i ≤ rank b j := by
  induction j with
  | zero => rw [Nat.le_zero.mp hij]
  | succ j ih =>
    rcases Nat.lt_or_ge j i with h | h
    · rw [show i = j + 1 from by omega]
    · have := ih h
      rw [rank_succ]
      omega

/-- A present index has a smaller rank than every index above it. -/
theorem rank_lt {b : BitVec w} {i j : Nat} (hi : b.getLsbD i = true) (hij : i < j) :
    rank b i < rank b j := by
  have hle := rank_mono b (show i + 1 ≤ j from hij)
  rw [rank_succ, hi] at hle
  exact hle

theorem rank_inj {b : BitVec w} {i j : Nat} (hi : b.getLsbD i = true) (hj : b.getLsbD j = true)
    (h : rank b i = rank b j) : i = j := by
  rcases Nat.lt_trichotomy i j with hlt | heq | hgt
  · have := rank_lt hi hlt
    omega
  · exact heq
  · have := rank_lt hj hgt
    omega

theorem rank_lt_popcount {b : BitVec w} {i : Nat} (hi : b.getLsbD i = true) :
    rank b i < popcount b :=
  rank_lt hi (BitVec.lt_of_getLsbD hi)

/-- Every rank below the number of set bits is taken. -/
theorem exists_rank {b : BitVec w} {k n : Nat} (hk : k < rank b n) :
    ∃ i, b.getLsbD i = true ∧ rank b i = k := by
  induction n with
  | zero => exact absurd hk (Nat.not_lt_zero k)
  | succ n ih =>
    by_cases hlt : k < rank b n
    · exact ih hlt
    · rw [rank_succ] at hk
      cases hn : b.getLsbD n with
      | false =>
        rw [hn, Bool.toNat_false] at hk
        omega
      | true =>
        rw [hn, Bool.toNat_true] at hk
        exact ⟨n, hn, by omega⟩

@[simp] theorem getLsbD_single {i j : Nat} (hi : i < w) :
    (single w i).getLsbD j = decide (j = i) := by
  rw [single, ← BitVec.twoPow_eq, BitVec.getLsbD_twoPow]
  by_cases h : j = i
  · simp [h, hi]
  · simp [h, Ne.symm h]

theorem getLsbD_insert {b : BitVec w} {i j : Nat} (hi : i < w) :
    (b ||| single w i).getLsbD j = (b.getLsbD j || decide (j = i)) := by
  rw [BitVec.getLsbD_or, getLsbD_single hi]

theorem getLsbD_erase {b : BitVec w} {i j : Nat} (hi : i < w) :
    (b &&& ~~~ single w i).getLsbD j = (b.getLsbD j && decide (j ≠ i)) := by
  rw [BitVec.getLsbD_and, BitVec.getLsbD_not, getLsbD_single hi]
  by_cases hj : j < w
  · simp [hj]
  · simp [BitVec.getLsbD_of_ge b j (by omega)]

/-- Setting bit `i` moves the ranks above it up by one. -/
theorem rank_insert {b : BitVec w} {i : Nat} (hi : i < w) (hb : b.getLsbD i = false) (j : Nat) :
    rank (b ||| single w i) j = rank b j + if i < j then 1 else 0 := by
  induction j with
  | zero => rfl
  | succ j ih =>
    rw [rank_succ, rank_succ, ih, getLsbD_insert hi]
    rcases Nat.lt_trichotomy i j with h | h | h
    · rw [if_pos h, if_pos (by omega), decide_eq_false (by omega), Bool.or_false]
      omega
    · subst h
      rw [hb]
      simp
    · rw [if_neg (by omega), if_neg (by omega), decide_eq_false (by omega), Bool.or_false]
      omega

/-- Clearing bit `i` moves the ranks above it down by one. -/
theorem rank_erase {b : BitVec w} {i : Nat} (hb : b.getLsbD i = true) (j : Nat) :
    rank (b &&& ~~~ single w i) j + (if i < j then 1 else 0) = rank b j := by
  have hi := BitVec.lt_of_getLsbD hb
  induction j with
  | zero => rfl
  | succ j ih =>
    rw [rank_succ, rank_succ, ← ih, getLsbD_erase hi]
    rcases Nat.lt_trichotomy i j with h | h | h
    · rw [if_pos h, if_pos (by omega), decide_eq_true (by omega), Bool.and_true]
      omega
    · subst h
      rw [hb]
      simp
    · rw [if_neg (by omega), if_neg (by omega), decide_eq_true (by omega), Bool.and_true]
      omega

theorem popcount_insert {b : BitVec w} {i : Nat} (hi : i < w) (hb : b.getLsbD i = false) :
    popcount (b ||| single w i) = popcount b + 1 := by
  rw [popcount, rank_insert hi hb, if_pos hi, popcount]

theorem rank_single {i : Nat} (hi : i < w) (j : Nat) :
    rank (single w i) j = if i < j then 1 else 0 := by
  have h := rank_insert (b := 0#w) hi (by simp) j
  rwa [BitVec.zero_or, rank_zero, Nat.zero_add] at h

theorem popcount_single {i : Nat} (hi : i < w) : popcount (single w i) = 1 := by
  rw [popcount, rank_single hi, if_pos hi]

theorem popcount_erase {b : BitVec w} {i : Nat} (hb : b.getLsbD i = true) :
    popcount (b &&& ~~~ single w i) + 1 = popcount b := by
  have h := rank_erase hb w
  rwa [if_pos (BitVec.lt_of_getLsbD hb)] at h

theorem popcount_pos {b : BitVec w} (hb : b ≠ 0#w) : 0 < popcount b := by
  by_contra h0
  refine hb (BitVec.eq_of_getLsbD_eq fun i _ => ?_)
  rw [BitVec.getLsbD_zero]
  by_contra hne
  have := rank_lt_popcount (Bool.not_eq_false _ ▸ hne : b.getLsbD i = true)
  omega

/-- **The mask computes the rank**: the set bits below bit `i` are those under the
mask `2 ^ i - 1`. -/
theorem popcount_mask (b : BitVec w) {i : Nat} (hi : i < w) :
    popcount (b &&& (single w i - 1#w)) = rank b i := by
  have hbit : ∀ j, (single w i - 1#w).getLsbD j = decide (j < i) := by
    intro j
    have hpow : 2 ^ i < 2 ^ w := Nat.pow_lt_pow_right (by omega) hi
    have hone : 1 < 2 ^ w := by
      have := Nat.two_pow_pos i
      omega
    have hnat : (single w i - 1#w).toNat = 2 ^ i - 1 := by
      rw [BitVec.toNat_sub, single, ← BitVec.twoPow_eq, BitVec.toNat_twoPow_of_lt hi,
        BitVec.toNat_one (by omega),
        show 2 ^ w - 1 + 2 ^ i = 2 ^ i - 1 + 2 ^ w from by have := Nat.two_pow_pos i; omega,
        Nat.add_mod_right, Nat.mod_eq_of_lt (by omega)]
    rw [BitVec.getLsbD, hnat, Nat.testBit_two_pow_sub_one]
  have key : ∀ j, rank (b &&& (single w i - 1#w)) j = rank b (min i j) := by
    intro j
    induction j with
    | zero => simp [rank]
    | succ j ih =>
      rw [rank_succ, ih, BitVec.getLsbD_and, hbit]
      by_cases h : j < i
      · rw [decide_eq_true h, Bool.and_true, Nat.min_eq_right (by omega), Nat.min_eq_right (by omega),
          rank_succ]
      · rw [decide_eq_false h, Bool.and_false, Nat.min_eq_left (by omega),
          Nat.min_eq_left (by omega)]
        rfl
  rw [popcount, key, Nat.min_eq_left (by omega)]

/-! ### Reading the array -/

theorem slot_of_mem {b : BitVec w} {xs : List α} (hlen : xs.length = popcount b) {x : α}
    (hx : x ∈ xs) : ∃ i, slot b xs i = some x := by
  obtain ⟨k, hk, rfl⟩ := List.getElem_of_mem hx
  obtain ⟨i, hi, hr⟩ := exists_rank (b := b) (n := w) (k := k) (by rw [hlen] at hk; exact hk)
  refine ⟨i, ?_⟩
  rw [slot, if_pos hi, hr, List.getElem?_eq_getElem hk]

theorem mem_of_slot {b : BitVec w} {xs : List α} {i : Nat} {x : α} (h : slot b xs i = some x) :
    b.getLsbD i = true ∧ xs[rank b i]? = some x ∧ x ∈ xs := by
  unfold slot at h
  split at h
  · rename_i hi
    exact ⟨hi, h, List.mem_of_getElem? h⟩
  · cases h

/-- The entries are what the present indices hold. -/
theorem mem_iff_slot {b : BitVec w} {xs : List α} (hlen : xs.length = popcount b) {x : α} :
    x ∈ xs ↔ ∃ i, slot b xs i = some x :=
  ⟨slot_of_mem hlen, fun ⟨_, h⟩ => (mem_of_slot h).2.2⟩

theorem slot_isSome {b : BitVec w} {xs : List α} (hlen : xs.length = popcount b) {i : Nat}
    (hi : b.getLsbD i = true) : ∃ x, slot b xs i = some x ∧ xs[rank b i]? = some x := by
  have hk : rank b i < xs.length := by rw [hlen]; exact rank_lt_popcount hi
  refine ⟨xs[rank b i], ?_, List.getElem?_eq_getElem hk⟩
  rw [slot, if_pos hi, List.getElem?_eq_getElem hk]

/-- Entries at different ranks belong to different indices. -/
theorem pairwise_of_slots {b : BitVec w} {xs : List α} (hlen : xs.length = popcount b)
    {R : α → α → Prop}
    (hR : ∀ i j x y, i ≠ j → slot b xs i = some x → slot b xs j = some y → R x y) :
    xs.Pairwise R := by
  rw [List.pairwise_iff_getElem]
  intro k l hk hl hkl
  obtain ⟨i, hi, hri⟩ := exists_rank (b := b) (n := w) (k := k) (by rw [hlen] at hk; exact hk)
  obtain ⟨j, hj, hrj⟩ := exists_rank (b := b) (n := w) (k := l) (by rw [hlen] at hl; exact hl)
  refine hR i j _ _ ?_ ?_ ?_
  · rintro rfl
    omega
  · rw [slot, if_pos hi, hri, List.getElem?_eq_getElem hk]
  · rw [slot, if_pos hj, hrj, List.getElem?_eq_getElem hl]

/-- The entries, in the order of their indices. -/
theorem filterMap_slot {b : BitVec w} {xs : List α} (hlen : xs.length = popcount b) :
    (List.range w).filterMap (slot b xs) = xs := by
  have key : ∀ k, (List.range k).filterMap (slot b xs) = xs.take (rank b k) := by
    intro k
    induction k with
    | zero => rfl
    | succ k ih =>
      rw [List.range_succ, List.filterMap_append, ih, rank_succ]
      by_cases hb : b.getLsbD k = true
      · obtain ⟨x, hx, hget⟩ := slot_isSome hlen hb
        rw [hb, Bool.toNat_true, List.take_add_one, hget, List.filterMap_cons, hx]
        rfl
      · rw [Bool.not_eq_true] at hb
        simp [slot, hb]
  rw [key w, List.take_of_length_le (by rw [hlen]; rfl)]

/-! ### Updating the array -/

/-- Replacing the entry of a present index. -/
theorem slot_set {b : BitVec w} {xs : List α} (hlen : xs.length = popcount b) {i : Nat}
    (hi : b.getLsbD i = true) (x : α) (j : Nat) :
    slot b (xs.set (rank b i) x) j = if j = i then some x else slot b xs j := by
  by_cases hj : j = i
  · subst hj
    rw [if_pos rfl, slot, if_pos hi, List.getElem?_set_self (by rw [hlen]; exact rank_lt_popcount hi)]
  · rw [if_neg hj, slot, slot]
    split
    · rename_i hbj
      rw [List.getElem?_set_ne (fun h => hj (rank_inj hi hbj h).symm)]
    · rfl

/-- Inserting an entry at an absent index. -/
theorem slot_insert {b : BitVec w} {xs : List α} (hlen : xs.length = popcount b) {i : Nat}
    (hw : i < w) (hi : b.getLsbD i = false) (x : α) (j : Nat) :
    slot (b ||| single w i) (xs.insertIdx (rank b i) x) j =
      if j = i then some x else slot b xs j := by
  have hle : rank b i ≤ xs.length := by rw [hlen]; exact rank_mono b (by omega)
  rw [slot, getLsbD_insert hw, rank_insert hw hi]
  rcases Nat.lt_trichotomy i j with h | h | h
  · rw [if_pos h, if_neg (show ¬ j = i by omega), decide_eq_false (by omega), Bool.or_false, slot]
    split
    · have hr : rank b i ≤ rank b j := rank_mono b (by omega)
      rw [List.getElem?_insertIdx_of_gt (by omega), Nat.add_sub_cancel]
    · rfl
  · subst h
    rw [if_neg (Nat.lt_irrefl _), if_pos rfl, Nat.add_zero, List.getElem?_insertIdx_self,
      if_pos hle]
    simp
  · rw [if_neg (show ¬ i < j by omega), if_neg (show ¬ j = i by omega),
      decide_eq_false (show ¬ j = i by omega), Bool.or_false, Nat.add_zero, slot]
    split
    · rename_i hj
      rw [List.getElem?_insertIdx_of_lt (rank_lt hj h)]
    · rfl

/-- Removing the entry of a present index. -/
theorem slot_erase {b : BitVec w} {xs : List α} {i : Nat}
    (hi : b.getLsbD i = true) (j : Nat) :
    slot (b &&& ~~~ single w i) (xs.eraseIdx (rank b i)) j =
      if j = i then none else slot b xs j := by
  have hw := BitVec.lt_of_getLsbD hi
  have hr := rank_erase hi j
  rw [slot, getLsbD_erase hw]
  rcases Nat.lt_trichotomy i j with h | h | h
  · rw [if_pos h] at hr
    rw [if_neg (show ¬ j = i by omega), decide_eq_true (by omega), Bool.and_true, slot]
    split
    · have hlt := rank_lt hi h
      rw [List.getElem?_eraseIdx_of_ge (by omega), hr]
    · rfl
  · subst h
    simp
  · rw [if_neg (by omega), Nat.add_zero] at hr
    rw [if_neg (show ¬ j = i by omega), decide_eq_true (by omega), Bool.and_true, slot, hr]
    split
    · rename_i hj
      rw [List.getElem?_eraseIdx_of_lt (rank_lt hj h)]
    · rfl

/-- An array with one present index. -/
theorem slot_single {i : Nat} (hi : i < w) (x : α) (j : Nat) :
    slot (single w i) [x] j = if j = i then some x else none := by
  have hlen : ([] : List α).length = popcount (0#w) := by simp [popcount]
  have h := slot_insert hlen hi (by simp) x j
  simpa [rank_zero, slot] using h

end Jacl.Sparse
