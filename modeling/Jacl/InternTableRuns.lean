import Jacl.InternTable

/-!
# The intern table in every run

Whatever is interned and evicted in whatever order, a slot is free, every string of the table
is found, and a string that was not evicted is interned to itself.
-/

namespace Jacl.InternTable
open Tombstones

def hashOf (data : List Byte) : Nat := (fnv1a data).toNat

/-- **The table of a run.** -/
structure Table.Ok (t : Table) : Prop where
  pow : ∃ m, t.cap = 2 ^ m
  length : t.entries.length = t.cap
  sound : Sound HeapString.data hashOf t.entries
  cells : ∀ a b, t.Live a → t.Live b → a.cell = b.cell → a = b
  count : t.count = t.entries.countP Slot.isLive
  tombstones : t.tombstoneCount = t.entries.countP Slot.isTombstone

/-- The load of a run's table. -/
structure Table.Light (t : Table) : Prop where
  load : (t.count + t.tombstoneCount) * 4 ≤ t.cap * 3
  low : 16 ≤ t.cap
  high : t.cap ≤ 2 ^ 27

variable {t t' : Table} {s str : HeapString} {cell : Cell} {data : List Byte} {slot newCap m : Nat}
  {entries old new : List (Slot HeapString)}

/-! ### Searching -/

theorem findSlotFrom_eq {n i : Nat} {first : Option Nat} (hcap : entries.length = 2 ^ m) :
    findSlotFrom entries (2 ^ m) data (fnv1a data) n i first =
      find HeapString.data entries data n i first := by
  induction n generalizing i first with
  | zero => rfl
  | succ n ih =>
    rw [findSlotFrom, find, Nat.and_two_pow_sub_one_eq_mod, hcap]
    cases hslot : entries[i]? with
    | none => rfl
    | some s =>
      cases s with
      | empty => rfl
      | tombstone => exact ih
      | live entry =>
        have hsame : (entry.hash = fnv1a data ∧ entry.data.length = data.length ∧ entry.data = data) ↔
            entry.data = data := by
          refine ⟨fun h => h.2.2, ?_⟩
          rintro rfl
          exact ⟨entry.hash_eq, rfl, rfl⟩
        simp only [hsame, ih]

theorem findSlot_eq (hcap : entries.length = 2 ^ m) : findSlot entries (2 ^ m) data (fnv1a data) =
    find HeapString.data entries data entries.length (hashOf data % entries.length) none := by
  rw [findSlot, findSlotFrom_eq hcap, Nat.and_two_pow_sub_one_eq_mod, hcap, hashOf]

/-- **A search** in a sound table with a free slot finds the string, or a slot for it. -/
theorem findSlot_cases (hcap : ∃ m, newCap = 2 ^ m) (hlen : entries.length = newCap)
    (hs : Sound HeapString.data hashOf entries) (hempty : .empty ∈ entries) (data : List Byte) :
    (∃ i a, findSlot entries newCap data (fnv1a data) = some i ∧ entries[i]? = some (.live a) ∧
      a.data = data) ∨
    (∃ i, findSlot entries newCap data (fnv1a data) = some i ∧
      (entries[i]? = some .empty ∨ entries[i]? = some .tombstone) ∧
      (∀ a, .live a ∈ entries → a.data ≠ data) ∧
      ∀ a : HeapString, a.data = data → Sound HeapString.data hashOf (entries.set i (.live a))) := by
  obtain ⟨m, rfl⟩ := hcap
  rw [findSlot_eq hlen]
  rcases hs.find_cases hempty data with hit | ⟨i, hi, hslot, hnot, hput⟩
  · exact .inl hit
  · refine .inr ⟨i, hi, hslot, fun a ha => ?_, hput⟩
    obtain ⟨j, hj⟩ := List.mem_iff_getElem?.mp ha
    exact hnot j a hj

/-! ### Rehashing -/

/-- **The loop of a rehash** puts every string into the new table. -/
theorem rehashEntries (hcap : ∃ m, newCap = 2 ^ m) (hlen : new.length = newCap)
    (hs : Sound HeapString.data hashOf new) (htomb : new.countP Slot.isTombstone = 0)
    (hold : ∀ (i j : Nat) (a b : HeapString), old[i]? = some (.live a) → old[j]? = some (.live b) →
      a.data = b.data → i = j)
    (hnew : ∀ a b : HeapString, .live a ∈ old → .live b ∈ new → b.data ≠ a.data)
    (hroom : old.countP Slot.isLive + new.countP Slot.isLive < newCap) :
    ∃ entries, old.foldlM (rehashEntry newCap) new = some entries ∧
      Sound HeapString.data hashOf entries ∧ entries.length = newCap ∧
      entries.countP Slot.isTombstone = 0 ∧
      entries.countP Slot.isLive = old.countP Slot.isLive + new.countP Slot.isLive ∧
      ∀ a, .live a ∈ entries ↔ .live a ∈ old ∨ .live a ∈ new := by
  induction old generalizing new with
  | nil => exact ⟨new, rfl, hs, hlen, htomb, by simp, by simp⟩
  | cons x old ih =>
    have hold' : ∀ (i j : Nat) (a b : HeapString), old[i]? = some (.live a) → old[j]? = some (.live b) →
        a.data = b.data → i = j := fun i j a b ha hb hab => Nat.succ_injective (hold (i + 1) (j + 1) a b ha hb hab)
    have hskip (hx : x.isLive = false) : ∃ entries, old.foldlM (rehashEntry newCap) new = some entries ∧
        Sound HeapString.data hashOf entries ∧ entries.length = newCap ∧
        entries.countP Slot.isTombstone = 0 ∧
        entries.countP Slot.isLive = (x :: old).countP Slot.isLive + new.countP Slot.isLive ∧
        ∀ a, .live a ∈ entries ↔ .live a ∈ x :: old ∨ .live a ∈ new := by
      have hcount : (x :: old).countP Slot.isLive = old.countP Slot.isLive := by
        rw [List.countP_cons, hx]
        rfl
      have hmem : ∀ a, .live a ∈ x :: old ↔ .live a ∈ old := by
        intro a
        rw [List.mem_cons]
        refine ⟨?_, .inr⟩
        rintro (rfl | h)
        · cases hx
        · exact h
      simp only [hcount, hmem]
      exact ih hlen hs htomb hold' (fun a b ha => hnew a b (List.mem_cons_of_mem _ ha)) (hcount ▸ hroom)
    cases x with
    | empty => exact hskip rfl
    | tombstone => exact hskip rfl
    | live s =>
      have hcount : (Slot.live s :: old).countP Slot.isLive = old.countP Slot.isLive + 1 := List.countP_cons
      rw [hcount] at hroom
      have hempty : Slot.empty ∈ new := empty_mem (by omega)
      rcases findSlot_cases hcap hlen hs hempty s.data with ⟨i, a, -, ha, hdata⟩ | ⟨i, hi, hslot, -, hput⟩
      · exact absurd hdata (hnew s a List.mem_cons_self (List.mem_of_getElem? ha))
      · have hnone : new[i]? = some .empty := by
          refine hslot.resolve_right fun ht => ?_
          have hpos := List.countP_pos_iff.mpr ⟨_, List.mem_of_getElem? ht, show Slot.isTombstone .tombstone = true from rfl⟩
          omega
        obtain ⟨hlt, -⟩ := List.getElem?_eq_some_iff.mp hnone
        have hfree : ∀ b, new[i]? ≠ some (.live b) := by
          rw [hnone]
          rintro b ⟨⟩
        have hmem (a : HeapString) : .live a ∈ new.set i (.live s) ↔ a = s ∨ .live a ∈ new := live_mem_put hlt hfree
        have hlive := @countP_isLive_put _ new s i _ hnone rfl
        have htomb' : (new.set i (.live s)).countP Slot.isTombstone = 0 := by
          rw [countP_isTombstone_put hnone, htomb]
          rfl
        have hdiffer : ∀ a b : HeapString, .live a ∈ old → .live b ∈ new.set i (.live s) → b.data ≠ a.data := by
          intro a b ha hb hab
          rcases (hmem b).mp hb with rfl | hb
          · obtain ⟨j, hj⟩ := List.mem_iff_getElem?.mp ha
            exact absurd (hold 0 (j + 1) b a rfl hj hab) (Nat.zero_ne_add_one j)
          · exact hnew a b (List.mem_cons_of_mem _ ha) hb hab
        obtain ⟨entries, hfold, hs', hlen', ht', hc', hm'⟩ :=
          ih (by rw [List.length_set, hlen]) (hput s rfl) htomb' hold' hdiffer (by omega)
        refine ⟨entries, ?_, hs', hlen', ht', by omega, fun a => ?_⟩
        · rw [List.foldlM_cons, rehashEntry, s.hash_eq, hi]
          exact hfold
        · rw [hm', hmem, List.mem_cons, Slot.live.injEq]
          tauto

/-- **A rehash** keeps the strings and drops the tombstones. -/
theorem rehash_spec (h : t.Ok) (hcap : ∃ m, newCap = 2 ^ m) (hroom : t.count < newCap) :
    ∃ t', rehash t newCap = some t' ∧ t'.Ok ∧ t'.cap = newCap ∧ t'.count = t.count ∧
      t'.tombstoneCount = 0 ∧ ∀ s, t'.Live s ↔ t.Live s := by
  have hzero : (List.replicate newCap (Slot.empty : Slot HeapString)).countP Slot.isLive = 0 := by
    rw [List.countP_replicate]
    rfl
  have hnone : ∀ b : HeapString, Slot.live b ∉ List.replicate newCap (Slot.empty : Slot HeapString) := by
    intro b hb
    cases List.eq_of_mem_replicate hb
  obtain ⟨entries, hfold, hs, hlen, htomb, hcount, hmem⟩ :=
    @rehashEntries newCap t.entries (List.replicate newCap .empty) hcap List.length_replicate sound_replicate
      (by rw [List.countP_replicate]; rfl) h.sound.unique (fun a b _ hb => absurd hb (hnone b))
      (by rw [hzero, ← h.count]; exact hroom)
  have hlive (s : HeapString) : .live s ∈ entries ↔ t.Live s := by
    rw [hmem, Table.Live]
    exact or_iff_left (hnone s)
  refine ⟨⟨entries, t.count, 0, newCap⟩, by rw [rehash, hfold]; rfl, ?_, rfl, rfl, rfl, hlive⟩
  exact {
    pow := hcap
    length := hlen
    sound := hs
    cells := fun a b ha hb => h.cells a b ((hlive a).mp ha) ((hlive b).mp hb)
    count := by
      show t.count = entries.countP Slot.isLive
      rw [hcount, hzero, h.count, Nat.add_zero]
    tombstones := htomb.symm }

/-! ### A new string -/

/-- The slot is one for the new string. -/
structure Offers (t : Table) (str : HeapString) (slot : Nat) : Prop where
  free : t.entries[slot]? = some .empty ∨ t.entries[slot]? = some .tombstone
  sound : Sound HeapString.data hashOf (t.entries.set slot (.live str))

/-- No more strings than cells of the heap. -/
theorem Table.Ok.count_le (h : t.Ok) : t.count ≤ 2 ^ 25 := by
  have hcard := @countP_isLive_le HeapString t.entries (Fin 4096 × Fin 8192) _
    (fun s => (s.cell.block, s.cell.granule)) ?_
  · rw [Fintype.card_prod, Fintype.card_fin, Fintype.card_fin, ← h.count] at hcard
    exact hcard
  · intro i j a b ha hb hcell
    have hsame : a.cell = b.cell := by
      obtain ⟨hblock, hgranule⟩ := Prod.mk.inj hcell
      cases hca : a.cell
      cases hcb : b.cell
      rw [hca, hcb] at hblock hgranule
      exact Cell.mk.injEq .. ▸ ⟨hblock, hgranule⟩
    obtain rfl := h.cells a b (List.mem_of_getElem? ha) (List.mem_of_getElem? hb) hsame
    exact h.sound.unique i j a a ha hb rfl

theorem Table.Ok.empty_mem (h : t.Ok) (hl : t.Light) : .empty ∈ t.entries := by
  apply Tombstones.empty_mem
  have hload := hl.load
  have hlow := hl.low
  rw [← h.count, ← h.tombstones, h.length]
  omega

theorem refind_spec (h : t.Ok) (hcap : ∃ m, newCap = 2 ^ m) (hroom : t.count < newCap)
    (hnew : ∀ a, t.Live a → a.data ≠ str.data) :
    ∃ t' slot, refind t newCap str = some (t', slot) ∧ t'.Ok ∧ t'.cap = newCap ∧ t'.count = t.count ∧
      t'.tombstoneCount = 0 ∧ (∀ s, t'.Live s ↔ t.Live s) ∧ Offers t' str slot := by
  obtain ⟨t', hre, hok, hcap', hcount, htomb, hlive⟩ := rehash_spec h hcap hroom
  have hempty : Slot.empty ∈ t'.entries := by
    apply Tombstones.empty_mem
    rw [← hok.count, ← hok.tombstones, hok.length]
    omega
  rcases findSlot_cases hok.pow hok.length hok.sound hempty str.data with ⟨i, a, -, ha, hdata⟩ |
    ⟨i, hi, hslot, -, hput⟩
  · exact absurd hdata (hnew a ((hlive a).mp (List.mem_of_getElem? ha)))
  · refine ⟨t', i, ?_, hok, hcap', hcount, htomb, hlive, hslot, hput str rfl⟩
    rw [refind, hre]
    dsimp only
    rw [str.hash_eq, hi, Option.map_some]

/-- **After the compaction** no more than a quarter of the slots are tombstones. -/
theorem compact_spec (h : t.Ok) (hl : t.Light) (hoff : Offers t str slot)
    (hnew : ∀ a, t.Live a → a.data ≠ str.data) :
    ∃ t' slot', compact t str slot = some (t', slot') ∧ t'.Ok ∧ t'.Light ∧ t'.tombstoneCount * 4 ≤ t'.cap ∧
      (∀ s, t'.Live s ↔ t.Live s) ∧ Offers t' str slot' := by
  have hload := hl.load
  have hlow := hl.low
  have hhigh := hl.high
  have hwrap : u32 (t.tombstoneCount * 4) = t.tombstoneCount * 4 := Nat.mod_eq_of_lt (by omega)
  rw [compact, hwrap]
  split_ifs with hmany
  · obtain ⟨t', slot', hre, hok, hcap, hcount, htomb, hlive, hoff'⟩ :=
      refind_spec h h.pow (show t.count < t.cap by omega) hnew
    exact ⟨t', slot', hre, hok, ⟨by omega, by omega, by omega⟩, by omega, hlive, hoff'⟩
  · exact ⟨t, slot, rfl, h, hl, Nat.not_lt.mp hmany, fun _ => Iff.rfl, hoff⟩

/-- **After the resize** there is room for one more. -/
theorem resize_spec (h : t.Ok) (hl : t.Light) (hquarter : t.tombstoneCount * 4 ≤ t.cap)
    (hoff : Offers t str slot) (hnew : ∀ a, t.Live a → a.data ≠ str.data) :
    ∃ t' slot', resize t str slot = some (t', slot') ∧ t'.Ok ∧ t'.Light ∧
      (t'.count + t'.tombstoneCount + 1) * 4 ≤ t'.cap * 3 ∧ (∀ s, t'.Live s ↔ t.Live s) ∧
      Offers t' str slot' := by
  have hload := hl.load
  have hlow := hl.low
  have hhigh := hl.high
  have hcount := h.count_le
  have hwrap1 : u32 (t.cap * 3) = t.cap * 3 := Nat.mod_eq_of_lt (by omega)
  have hwrap2 : u32 ((t.count + t.tombstoneCount + 1) * 4) = (t.count + t.tombstoneCount + 1) * 4 :=
    Nat.mod_eq_of_lt (by omega)
  have hwrap3 : u32 (t.cap * 2) = t.cap * 2 := Nat.mod_eq_of_lt (by omega)
  rw [resize, hwrap1, hwrap2, hwrap3]
  split_ifs with hfull
  · obtain ⟨m, hm⟩ := h.pow
    -- The strings alone fill half of the table, and there are no more of them than cells.
    have hm26 : m ≤ 26 := by
      by_contra hbig
      have hpow : 2 ^ 27 ≤ 2 ^ m := Nat.pow_le_pow_right (by omega) (by omega)
      omega
    have hpow : 2 ^ m ≤ 2 ^ 26 := Nat.pow_le_pow_right (by omega) hm26
    obtain ⟨t', slot', hre, hok, hcap, hcount', htomb, hlive, hoff'⟩ :=
      refind_spec h ⟨m + 1, by rw [hm, pow_succ]⟩ (show t.count < t.cap * 2 by omega) hnew
    exact ⟨t', slot', hre, hok, ⟨by omega, by omega, by omega⟩, by omega, hlive, hoff'⟩
  · exact ⟨t, slot, rfl, h, hl, Nat.not_lt.mp hfull, fun _ => Iff.rfl, hoff⟩

/-- **The store.** -/
theorem store_spec (h : t.Ok) (hl : t.Light) (hroom : (t.count + t.tombstoneCount + 1) * 4 ≤ t.cap * 3)
    (hoff : Offers t str slot) (hcell : ∀ a, t.Live a → a.cell ≠ str.cell) :
    (t.store str slot).Ok ∧ (t.store str slot).Light ∧
      ∀ s, (t.store str slot).Live s ↔ s = str ∨ t.Live s := by
  have hlow := hl.low
  have hhigh := hl.high
  obtain ⟨e, he, hfree⟩ : ∃ e, t.entries[slot]? = some e ∧ e.isLive = false := by
    rcases hoff.free with hslot | hslot
    · exact ⟨_, hslot, rfl⟩
    · exact ⟨_, hslot, rfl⟩
  obtain ⟨hlt, -⟩ := List.getElem?_eq_some_iff.mp he
  have hnone : ∀ b, t.entries[slot]? ≠ some (.live b) := by
    intro b hb
    rw [he] at hb
    obtain rfl := Option.some.inj hb
    cases hfree
  have hlive (s : HeapString) : (t.store str slot).Live s ↔ s = str ∨ t.Live s := live_mem_put hlt hnone
  have hcount : (t.store str slot).count = t.count + 1 := Nat.mod_eq_of_lt (by omega)
  have htomb : (t.store str slot).tombstoneCount = t.tombstoneCount - if e.isTombstone then 1 else 0 := by
    show (if (t.entries[slot]?.map Slot.isTombstone).getD false = true then _ else _) = _
    rw [he, Option.map_some, Option.getD_some]
    split_ifs with ht
    · have hpos : 0 < t.entries.countP Slot.isTombstone :=
        List.countP_pos_iff.mpr ⟨e, List.mem_of_getElem? he, ht⟩
      rw [← h.tombstones] at hpos
      rw [u32]
      omega
    · rfl
  refine ⟨⟨h.pow, ?_, hoff.sound, ?_, ?_, ?_⟩, ⟨?_, hlow, hhigh⟩, hlive⟩
  · show (t.entries.set slot _).length = t.cap
    rw [List.length_set, h.length]
  · intro a b ha hb hab
    rcases (hlive a).mp ha with ha' | ha' <;> rcases (hlive b).mp hb with hb' | hb'
    · exact ha'.trans hb'.symm
    · exact absurd (hab.symm.trans (congrArg HeapString.cell ha')) (hcell b hb')
    · exact absurd (hab.trans (congrArg HeapString.cell hb')) (hcell a ha')
    · exact h.cells a b ha' hb' hab
  · rw [hcount, h.count]
    exact (countP_isLive_put he hfree).symm
  · rw [htomb, h.tombstones]
    exact (countP_isTombstone_put he).symm
  · show ((t.store str slot).count + (t.store str slot).tombstoneCount) * 4 ≤ t.cap * 3
    rw [hcount, htomb]
    omega

/-- **A new string** is stored, whatever was compacted or resized. -/
theorem insert_spec (h : t.Ok) (hl : t.Light) (hoff : Offers t str slot)
    (hnew : ∀ a, t.Live a → a.data ≠ str.data) (hcell : ∀ a, t.Live a → a.cell ≠ str.cell) :
    ∃ t', insert t str slot = some (t', str) ∧ t'.Ok ∧ t'.Light ∧ ∀ s, t'.Live s ↔ s = str ∨ t.Live s := by
  obtain ⟨t₁, slot₁, hc, hok₁, hl₁, hquarter, hlive₁, hoff₁⟩ := compact_spec h hl hoff hnew
  obtain ⟨t₂, slot₂, hr, hok₂, hl₂, hroom, hlive₂, hoff₂⟩ :=
    resize_spec hok₁ hl₁ hquarter hoff₁ fun a ha => hnew a ((hlive₁ a).mp ha)
  have hback (a : HeapString) : t₂.Live a ↔ t.Live a := (hlive₂ a).trans (hlive₁ a)
  obtain ⟨hok, hl', hlive⟩ := store_spec hok₂ hl₂ hroom hoff₂ fun a ha => hcell a ((hback a).mp ha)
  refine ⟨t₂.store str slot₂, ?_, hok, hl', fun s => (hlive s).trans (or_congr_right (hback s))⟩
  rw [insert, hc]
  dsimp only
  rw [hr, Option.map_some]

/-! ### Interning and evicting -/

/-- **Interning** finds the string of the table with these bytes, or stores a new one. -/
theorem jaclIntern_cases (h : t.Ok) (hl : t.Light) (hfresh : ∀ a, t.Live a → a.cell ≠ cell) :
    (∃ s, t.Live s ∧ s.data = data ∧ jaclIntern t cell data = some (t, s)) ∨
    (∀ a, t.Live a → a.data ≠ data) ∧ ∃ t' s, jaclIntern t cell data = some (t', s) ∧ s.data = data ∧
      t'.Ok ∧ t'.Light ∧ ∀ a, t'.Live a ↔ a = s ∨ t.Live a := by
  rcases findSlot_cases h.pow h.length h.sound (h.empty_mem hl) data with ⟨i, a, hi, ha, hdata⟩ |
    ⟨i, hi, hslot, hnew, hput⟩
  · refine .inl ⟨a, List.mem_of_getElem? ha, hdata, ?_⟩
    rw [jaclIntern, hi]
    dsimp only
    rw [ha]
  · refine .inr ⟨hnew, ?_⟩
    obtain ⟨t', hins, hok, hl', hlive⟩ :=
      @insert_spec t ⟨cell, fnv1a data, data, rfl⟩ i h hl ⟨hslot, hput _ rfl⟩ hnew hfresh
    refine ⟨t', _, ?_, rfl, hok, hl', hlive⟩
    rw [jaclIntern, hi]
    dsimp only
    rcases hslot with hs | hs <;> rw [hs] <;> exact hins

theorem sweepEntry_ok {dead : HeapString → Bool} {i : Nat} (h : t.Ok) (hl : t.Light) :
    (sweepEntry dead t i).Ok ∧ (sweepEntry dead t i).Light ∧
      ∀ s, dead s = false → t.Live s → (sweepEntry dead t i).Live s := by
  have hload := hl.load
  have hlow := hl.low
  have hhigh := hl.high
  have hsame : t.Ok ∧ t.Light ∧ ∀ s, dead s = false → t.Live s → t.Live s := ⟨h, hl, fun _ _ hs => hs⟩
  rw [sweepEntry]
  cases hslot : t.entries[i]? with
  | none => exact hsame
  | some e =>
    cases e with
    | empty => exact hsame
    | tombstone => exact hsame
    | live entry =>
      dsimp only
      split_ifs with hdead
      · have hlive := countP_isLive_bury hslot
        have htomb := countP_isTombstone_bury hslot
        have hcount : u32 (t.count + (2 ^ 32 - 1)) + 1 = t.count := by
          have hpos := h.count
          rw [u32]
          omega
        have htombs : u32 (t.tombstoneCount + 1) = t.tombstoneCount + 1 := Nat.mod_eq_of_lt (by omega)
        have hmem (a : HeapString) (ha : .live a ∈ t.entries.set i .tombstone) : t.Live a := by
          obtain ⟨j, hj⟩ := List.mem_iff_getElem?.mp ha
          exact List.mem_of_getElem? (live_of_bury hj).2
        refine ⟨⟨h.pow, ?_, h.sound.bury, fun a b ha hb => h.cells a b (hmem a ha) (hmem b hb), ?_, ?_⟩,
          ⟨?_, hlow, hhigh⟩, fun s hs hsl => ?_⟩
        · exact List.length_set.trans h.length
        · show u32 _ = (t.entries.set i .tombstone).countP Slot.isLive
          rw [← h.count] at hlive
          omega
        · show u32 _ = _
          rw [htombs, htomb, h.tombstones]
        · show (u32 _ + u32 _) * 4 ≤ t.cap * 3
          rw [htombs]
          omega
        · obtain ⟨j, hj⟩ := List.mem_iff_getElem?.mp hsl
          refine List.mem_of_getElem? (i := j) ?_
          rw [List.getElem?_set_ne, hj]
          rintro rfl
          rw [hslot] at hj
          obtain rfl := Slot.live.inj (Option.some.inj hj)
          rw [hs] at hdead
          cases hdead
      · exact hsame

/-- **A sweep** keeps the table and the strings that are not dead. -/
theorem sweep_ok {dead : HeapString → Bool} (h : t.Ok) (hl : t.Light) :
    (sweep t dead).Ok ∧ (sweep t dead).Light ∧ ∀ s, dead s = false → t.Live s → (sweep t dead).Live s := by
  rw [sweep]
  generalize List.range t.cap = l
  induction l generalizing t with
  | nil => exact ⟨h, hl, fun _ _ hs => hs⟩
  | cons i l ih =>
    obtain ⟨hok, hl', hkeep⟩ := @sweepEntry_ok t dead i h hl
    obtain ⟨hok', hl'', hkeep'⟩ := ih hok hl'
    exact ⟨hok', hl'', fun s hs hsl => hkeep' s hs (hkeep s hs hsl)⟩

/-! ### Runs -/

theorem ok_init : Table.init.Ok ∧ Table.init.Light := by
  refine ⟨⟨⟨4, rfl⟩, rfl, sound_replicate, ?_, rfl, rfl⟩, ⟨by decide, by decide, by decide⟩⟩
  intro a b ha
  cases List.eq_of_mem_replicate ha

theorem Step.ok (h : Step t t') (hok : t.Ok) (hl : t.Light) : t'.Ok ∧ t'.Light := by
  cases h with
  | intern fresh hi =>
    rcases jaclIntern_cases hok hl fresh with ⟨s, -, -, hs⟩ | ⟨-, t₁, s, hs, -, hok', hl', -⟩
    · rw [hi] at hs
      cases hs
      exact ⟨hok, hl⟩
    · rw [hi] at hs
      cases hs
      exact ⟨hok', hl'⟩
  | evict dead =>
    obtain ⟨hok', hl', -⟩ := @sweep_ok t dead hok hl
    exact ⟨hok', hl'⟩

theorem Reachable.ok (h : Reachable t) : t.Ok ∧ t.Light := by
  induction h with
  | init => exact ok_init
  | step _ hs ih => exact hs.ok ih.1 ih.2

/-- A string that is not evicted stays. -/
theorem Keeps.ok (h : Keeps s t t') (hok : t.Ok) (hl : t.Light) (hs : t.Live s) :
    t'.Ok ∧ t'.Light ∧ t'.Live s := by
  induction h with
  | refl => exact ⟨hok, hl, hs⟩
  | intern _ fresh hi ih =>
    obtain ⟨hok₂, hl₂, hs₂⟩ := ih
    rcases jaclIntern_cases hok₂ hl₂ fresh with ⟨a, -, -, ha⟩ | ⟨-, t₁, a, ha, -, hok', hl', hlive⟩
    · rw [hi] at ha
      cases ha
      exact ⟨hok₂, hl₂, hs₂⟩
    · rw [hi] at ha
      cases ha
      exact ⟨hok', hl', (hlive s).mpr (.inr hs₂)⟩
  | evict _ hdead ih =>
    obtain ⟨hok₂, hl₂, hs₂⟩ := ih
    obtain ⟨hok', hl', hkeep⟩ := sweep_ok hok₂ hl₂
    exact ⟨hok', hl', hkeep s hdead hs₂⟩

/-- **What holds of the table**: a slot is free and so every search ends, every string is found
from its hash with no free slot before it, no two have the same bytes, and the counts are right. -/
structure Table.Holds (t : Table) : Prop where
  free : ∃ i : Nat, t.entries[i]? = some .empty
  ends : ∀ data, ∃ slot, findSlot t.entries t.cap data (fnv1a data) = some slot
  reach : ∀ (i : Nat) (s : HeapString), t.entries[i]? = some (.live s) → ∃ d < t.cap,
    (s.hash.toNat + d) % t.cap = i ∧ ∀ e < d, t.entries[(s.hash.toNat + e) % t.cap]? ≠ some .empty
  unique : ∀ (i j : Nat) (s s' : HeapString), t.entries[i]? = some (.live s) →
    t.entries[j]? = some (.live s') → s.data = s'.data → i = j
  count : t.count = t.entries.countP Slot.isLive
  tombstones : t.tombstoneCount = t.entries.countP Slot.isTombstone

theorem Table.Ok.holds (h : t.Ok) (hl : t.Light) : t.Holds where
  free := List.mem_iff_getElem?.mp (h.empty_mem hl)
  ends data := by
    rcases findSlot_cases h.pow h.length h.sound (h.empty_mem hl) data with ⟨i, a, hi, -⟩ | ⟨i, hi, -⟩
    · exact ⟨i, hi⟩
    · exact ⟨i, hi⟩
  reach i s hs := by
    have hreach := h.sound.reach i s hs
    rw [h.length, hashOf, ← s.hash_eq] at hreach
    exact hreach
  unique := h.sound.unique
  count := h.count
  tombstones := h.tombstones

end Jacl.InternTable
