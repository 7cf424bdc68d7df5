import Jacl.RegexMatches

/-!
# Character classes

Which bytes a class comes to: the other case of its letters, and the complement that is made by
sorting the ranges, merging those that touch and taking what lies between.
-/

namespace Jacl.Regex

/-! ### Bytes -/


theorem toNat_max (a b : Byte) : (max a b).toNat = max a.toNat b.toNat := by
  change (if a ≤ b then b else a).toNat = _
  split_ifs with h
  all_goals
    rw [UInt8.le_iff_toNat_le] at h
    omega

theorem toNat_min (a b : Byte) : (min a b).toNat = min a.toNat b.toNat := by
  change (if a ≤ b then a else b).toNat = _
  split_ifs with h
  all_goals
    rw [UInt8.le_iff_toNat_le] at h
    omega

theorem admits_iff (r : Range) (c : Byte) :
    r.admits c = true ↔ r.lo.toNat ≤ c.toNat ∧ c.toNat ≤ r.hi.toNat := by
  simp only [Range.admits, Bool.and_eq_true, decide_eq_true_eq, UInt8.le_iff_toNat_le]

theorem isAlpha_iff (c : Byte) : isAlpha c = true ↔
    97 ≤ c.toNat ∧ c.toNat ≤ 122 ∨ 65 ≤ c.toNat ∧ c.toNat ≤ 90 := by
  simp only [isAlpha, Bool.or_eq_true, Bool.and_eq_true, decide_eq_true_eq, UInt8.le_iff_toNat_le]
  rfl

theorem toNat_swapCase {c : Byte} (h : isAlpha c = true) :
    (swapCase c).toNat = if 97 ≤ c.toNat then c.toNat - 32 else c.toNat + 32 := by
  rw [isAlpha_iff] at h
  have ha : (ch 'a').toNat = 97 := rfl
  have h32 : (32 : Byte).toNat = 32 := rfl
  unfold swapCase
  split_ifs with h1 h2 h2
  all_goals rw [UInt8.le_iff_toNat_le, ha] at h1
  · rw [UInt8.toNat_sub_of_le, h32]
    rw [UInt8.le_iff_toNat_le, h32]
    omega
  · omega
  · omega
  · rw [UInt8.toNat_add, h32]
    omega

theorem admits_upper {r : Range} (h : r.lo ≤ ch 'z' ∧ ch 'a' ≤ r.hi) (c : Byte) :
    Range.admits ⟨max r.lo (ch 'a') - 32, min r.hi (ch 'z') - 32⟩ c = true ↔
      max r.lo.toNat 97 ≤ c.toNat + 32 ∧ c.toNat + 32 ≤ min r.hi.toNat 122 := by
  have ha : (ch 'a').toNat = 97 := rfl
  have hz : (ch 'z').toNat = 122 := rfl
  have h32 : (32 : Byte).toNat = 32 := rfl
  simp only [UInt8.le_iff_toNat_le, ha, hz] at h
  rw [admits_iff, UInt8.toNat_sub_of_le, UInt8.toNat_sub_of_le, toNat_max, toNat_min, ha, hz, h32]
  · omega
  · rw [UInt8.le_iff_toNat_le, toNat_min, hz, h32]
    omega
  · rw [UInt8.le_iff_toNat_le, toNat_max, ha, h32]
    omega

theorem admits_lower {r : Range} (h : r.lo ≤ ch 'Z' ∧ ch 'A' ≤ r.hi) (c : Byte) :
    Range.admits ⟨max r.lo (ch 'A') + 32, min r.hi (ch 'Z') + 32⟩ c = true ↔
      max r.lo.toNat 65 + 32 ≤ c.toNat ∧ c.toNat ≤ min r.hi.toNat 90 + 32 := by
  have ha : (ch 'A').toNat = 65 := rfl
  have hz : (ch 'Z').toNat = 90 := rfl
  have h32 : (32 : Byte).toNat = 32 := rfl
  simp only [UInt8.le_iff_toNat_le, ha, hz] at h
  rw [admits_iff, UInt8.toNat_add, UInt8.toNat_add, toNat_max, toNat_min, ha, hz, h32]
  omega

theorem any_icaseRange (r : Range) (c : Byte) : (icaseRange r).any (·.admits c) = true ↔
    r.admits c = true ∨ isAlpha c = true ∧ r.admits (swapCase c) = true := by
  have ha : (ch 'a').toNat = 97 := rfl
  have hz : (ch 'z').toNat = 122 := rfl
  have hA : (ch 'A').toNat = 65 := rfl
  have hZ : (ch 'Z').toNat = 90 := rfl
  have hupper : (if r.lo ≤ ch 'z' ∧ ch 'a' ≤ r.hi then
      [(⟨max r.lo (ch 'a') - 32, min r.hi (ch 'z') - 32⟩ : Range)] else []).any (·.admits c) = true ↔
      max r.lo.toNat 97 ≤ c.toNat + 32 ∧ c.toNat + 32 ≤ min r.hi.toNat 122 := by
    split_ifs with h
    · rw [List.any_cons, List.any_nil, Bool.or_false, admits_upper h]
    · simp only [UInt8.le_iff_toNat_le, ha, hz] at h
      simp only [List.any_nil, Bool.false_eq_true, false_iff]
      omega
  have hlower : (if r.lo ≤ ch 'Z' ∧ ch 'A' ≤ r.hi then
      [(⟨max r.lo (ch 'A') + 32, min r.hi (ch 'Z') + 32⟩ : Range)] else []).any (·.admits c) = true ↔
      max r.lo.toNat 65 + 32 ≤ c.toNat ∧ c.toNat ≤ min r.hi.toNat 90 + 32 := by
    split_ifs with h
    · rw [List.any_cons, List.any_nil, Bool.or_false, admits_lower h]
    · simp only [UInt8.le_iff_toNat_le, hA, hZ] at h
      simp only [List.any_nil, Bool.false_eq_true, false_iff]
      omega
  unfold icaseRange
  rw [List.any_cons, List.any_append, Bool.or_eq_true, Bool.or_eq_true, hupper, hlower]
  refine or_congr_right ?_
  constructor
  · intro h
    have halpha : isAlpha c = true := by
      rw [isAlpha_iff]
      omega
    refine ⟨halpha, ?_⟩
    rw [admits_iff, toNat_swapCase halpha]
    split <;> omega
  · rintro ⟨halpha, h⟩
    rw [admits_iff, toNat_swapCase halpha] at h
    rw [isAlpha_iff] at halpha
    split at h <;> omega

theorem any_icaseExpand (ranges : List Range) (c : Byte) :
    (icaseExpand ranges).any (·.admits c) = true ↔
      ∃ r ∈ ranges, r.admits c = true ∨ isAlpha c = true ∧ r.admits (swapCase c) = true := by
  unfold icaseExpand
  rw [List.any_flatMap, List.any_eq_true]
  exact exists_congr fun r => and_congr_right fun _ => any_icaseRange r c

theorem classOp_admits (ranges : List Range) (c : Byte) :
    (classOp ranges).admits c = ranges.any (·.admits c) := by
  rcases ranges with _ | ⟨r, _ | ⟨s, ranges⟩⟩
  · rw [Bool.eq_iff_iff]
    change Range.admits ⟨1, 0⟩ c = true ↔ _
    have h0 : (0 : Byte).toNat = 0 := rfl
    have h1 : (1 : Byte).toNat = 1 := rfl
    simp only [admits_iff, h0, h1, List.any_nil, Bool.false_eq_true, iff_false]
    omega
  · exact (Bool.or_false _).symm
  · rfl

/-! ### Sorting -/

theorem insertRange_perm (r : Range) (ranges : List Range) :
    (insertRange r ranges).Perm (r :: ranges) := by
  induction ranges with
  | nil => exact .refl _
  | cons s rest ih =>
    rw [insertRange]
    split_ifs
    · exact (ih.cons s).trans (.swap r s rest)
    · exact .refl _

theorem insertRange_sorted {r : Range} {ranges : List Range}
    (h : ranges.Pairwise fun a b => a.lo ≤ b.lo) :
    (insertRange r ranges).Pairwise fun a b => a.lo ≤ b.lo := by
  induction ranges with
  | nil => exact List.pairwise_singleton _ _
  | cons s rest ih =>
    obtain ⟨hs, hrest⟩ := List.pairwise_cons.mp h
    rw [insertRange]
    split_ifs with hle
    · refine List.pairwise_cons.mpr ⟨fun a ha => ?_, ih hrest⟩
      rcases List.mem_cons.mp ((insertRange_perm r rest).mem_iff.mp ha) with rfl | ha
      · exact hle
      · exact hs a ha
    · have hlt : r.lo ≤ s.lo := by
        rw [UInt8.le_iff_toNat_le] at hle ⊢
        omega
      refine List.pairwise_cons.mpr ⟨fun a ha => ?_, h⟩
      rcases List.mem_cons.mp ha with rfl | ha
      · exact hlt
      · exact UInt8.le_trans hlt (hs a ha)

theorem sortRanges_spec (ranges : List Range) :
    (sortRanges ranges).Perm ranges ∧ (sortRanges ranges).Pairwise fun a b => a.lo ≤ b.lo := by
  suffices h : ∀ sorted : List Range, sorted.Pairwise (fun a b => a.lo ≤ b.lo) →
      (ranges.foldl (fun sorted r => insertRange r sorted) sorted).Perm (ranges ++ sorted) ∧
        (ranges.foldl (fun sorted r => insertRange r sorted) sorted).Pairwise
          fun a b => a.lo ≤ b.lo by
    have := h [] .nil
    rwa [List.append_nil] at this
  induction ranges with
  | nil => exact fun sorted h => ⟨.refl _, h⟩
  | cons r ranges ih =>
    intro sorted h
    obtain ⟨h1, h2⟩ := ih (insertRange r sorted) (insertRange_sorted h)
    refine ⟨h1.trans ?_, h2⟩
    exact ((insertRange_perm r sorted).append_left ranges).trans List.perm_middle

/-! ### Complements -/

/-- `b` is past `h`, the upper end so far, and before the next range that does not touch it. -/
def GapAfter (b : Nat) : Nat → List Range → Prop
  | h, [] => h < b
  | h, r :: rest =>
    if r.lo.toNat ≤ h + 1 then GapAfter b (max h r.hi.toNat) rest
    else h < b ∧ b < r.lo.toNat ∨ GapAfter b r.hi.toNat rest

theorem any_gaps_cons {prev : Nat} (r : Range) (ranges : List Range) (b : Byte) :
    (gaps prev (r :: ranges)).any (·.admits b) = true ↔
      prev ≤ b.toNat ∧ b.toNat < r.lo.toNat ∨
        (gaps (r.hi.toNat + 1) ranges).any (·.admits b) = true := by
  have hr := r.lo.toNat_lt
  have h1 : (1 : Byte).toNat = 1 := rfl
  rw [gaps]
  split_ifs with hp
  · have hpos : (1 : Byte) ≤ r.lo := by
      rw [UInt8.le_iff_toNat_le, h1]
      omega
    rw [List.any_cons, Bool.or_eq_true, admits_iff, UInt8.toNat_sub_of_le _ _ hpos, h1,
      UInt8.toNat_ofNat_of_lt' (show prev < 2 ^ 8 by omega)]
    refine or_congr_left ?_
    omega
  · refine (or_iff_right ?_).symm
    omega

theorem any_gaps_nil (prev : Nat) (b : Byte) :
    (gaps prev []).any (·.admits b) = true ↔ prev ≤ b.toNat := by
  have hb := b.toNat_lt
  have h255 : (255 : Byte).toNat = 255 := rfl
  rw [gaps]
  split_ifs with hp
  · rw [List.any_cons, List.any_nil, Bool.or_false, admits_iff, h255,
      UInt8.toNat_ofNat_of_lt' (show prev < 2 ^ 8 by omega)]
    omega
  · rw [List.any_nil]
    simp only [Bool.false_eq_true, false_iff]
    omega

theorem any_gaps_mergeRanges {prev : Nat} {last : Range} {rest : List Range} (b : Byte) :
    (gaps prev (mergeRanges last rest)).any (·.admits b) = true ↔
      prev ≤ b.toNat ∧ b.toNat < last.lo.toNat ∨ GapAfter b.toNat last.hi.toNat rest := by
  induction rest generalizing prev last with
  | nil =>
    rw [mergeRanges, any_gaps_cons, any_gaps_nil, GapAfter]
    exact Iff.rfl
  | cons r rest ih =>
    rw [mergeRanges, GapAfter]
    by_cases htouch : r.lo.toNat ≤ last.hi.toNat + 1
    · rw [if_pos htouch, if_pos htouch]
      by_cases hlt : last.hi < r.hi
      · rw [if_pos hlt, ih]
        rw [UInt8.lt_iff_toNat_lt] at hlt
        rw [Nat.max_eq_right (Nat.le_of_lt hlt)]
      · rw [if_neg hlt, ih]
        rw [UInt8.lt_iff_toNat_lt] at hlt
        rw [Nat.max_eq_left (Nat.not_lt.mp hlt)]
    · rw [if_neg htouch, if_neg htouch, any_gaps_cons, ih]
      exact Iff.rfl

/-- One of the ranges is reversed, with `b` between its ends, and `h` and what comes before it end
before it begins. -/
def LeakAfter (b h : Nat) (ranges : List Range) : Prop :=
  ∃ before r after, ranges = before ++ r :: after ∧ h < r.lo.toNat ∧
    (∀ s ∈ before, s.hi.toNat + 1 < r.lo.toNat) ∧ r.hi.toNat < b ∧ b < r.lo.toNat

theorem leakAfter_nil (b h : Nat) : ¬ LeakAfter b h [] := by
  rintro ⟨before, r, after, heq, -⟩
  cases before <;> cases heq

theorem leakAfter_cons {b h : Nat} {r : Range} {rest : List Range} :
    LeakAfter b h (r :: rest) ↔ h < r.lo.toNat ∧ r.hi.toNat < b ∧ b < r.lo.toNat ∨
      LeakAfter b (max h (r.hi.toNat + 1)) rest := by
  constructor
  · rintro ⟨_ | ⟨s, before⟩, r', after, heq, h1, h2, h3, h4⟩
    · obtain ⟨rfl, rfl⟩ := List.cons.inj heq
      exact .inl ⟨h1, h3, h4⟩
    · obtain ⟨rfl, rfl⟩ := List.cons.inj heq
      obtain ⟨hs, hbefore⟩ := List.forall_mem_cons.mp h2
      exact .inr ⟨before, r', after, rfl, Nat.max_lt.mpr ⟨h1, hs⟩, hbefore, h3, h4⟩
  · rintro (⟨h1, h3, h4⟩ | ⟨before, r', after, rfl, h1, h2, h3, h4⟩)
    · exact ⟨[], r, rest, rfl, h1, nofun, h3, h4⟩
    · obtain ⟨h5, h6⟩ := Nat.max_lt.mp h1
      exact ⟨r :: before, r', after, rfl, h5, List.forall_mem_cons.mpr ⟨h6, h2⟩, h3, h4⟩

/-- **What lies between sorted ranges is outside of them, or in a leak.** -/
theorem gapAfter_iff {b : Byte} {h : Nat} {ranges : List Range}
    (hsorted : ranges.Pairwise fun r s => r.lo ≤ s.lo) :
    GapAfter b.toNat h ranges ↔ LeakAfter b.toNat (h + 1) ranges ∨
      h < b.toNat ∧ ∀ r ∈ ranges, ¬ r.admits b = true := by
  induction ranges generalizing h with
  | nil =>
    rw [GapAfter, or_iff_right (leakAfter_nil _ _)]
    exact (and_iff_left nofun).symm
  | cons r rest ih =>
    obtain ⟨hr, hrest⟩ := List.pairwise_cons.mp hsorted
    rw [GapAfter, leakAfter_cons, List.forall_mem_cons, admits_iff]
    have habove : ∀ s ∈ rest, r.lo.toNat ≤ s.lo.toNat := by
      intro s hs
      have := hr s hs
      rwa [UInt8.le_iff_toNat_le] at this
    split_ifs with htouch
    · rw [ih hrest, or_iff_right (b := LeakAfter _ _ _) (by omega)]
      have hmax : max h r.hi.toNat + 1 = max (h + 1) (r.hi.toNat + 1) := by omega
      rw [hmax, ← and_assoc]
      refine or_congr_right (and_congr_left fun _ => ?_)
      omega
    · rw [ih hrest]
      have hbelow : b.toNat < r.lo.toNat → ∀ s ∈ rest, ¬ s.admits b = true := by
        intro hlt s hs hadm
        rw [admits_iff] at hadm
        have := habove s hs
        omega
      by_cases hleak : LeakAfter b.toNat (max (h + 1) (r.hi.toNat + 1)) rest
      · have hleak' : LeakAfter b.toNat (r.hi.toNat + 1) rest := by
          obtain ⟨before, s, after, heq, h1, h2⟩ := hleak
          exact ⟨before, s, after, heq, by omega, h2⟩
        exact iff_of_true (.inr (.inl hleak')) (.inl (.inr hleak))
      · have hleak' : ¬ LeakAfter b.toNat (r.hi.toNat + 1) rest := by
          rintro ⟨before, s, after, rfl, h1, h2⟩
          have := habove s (List.mem_append_right _ List.mem_cons_self)
          exact hleak ⟨before, s, after, rfl, by omega, h2⟩
        rw [or_iff_right hleak', or_iff_left hleak]
        constructor
        · rintro (⟨h1, h2⟩ | ⟨h1, h2⟩)
          · exact .inr ⟨h1, by omega, hbelow h2⟩
          · by_cases hlt : b.toNat < r.lo.toNat
            · exact .inl ⟨by omega, h1, hlt⟩
            · exact .inr ⟨by omega, by omega, h2⟩
        · rintro (⟨-, h2, h3⟩ | ⟨h1, h2, h3⟩)
          · exact .inr ⟨h2, hbelow h3⟩
          · by_cases hlt : b.toNat < r.lo.toNat
            · exact .inl ⟨h1, hlt⟩
            · exact .inr ⟨by omega, h3⟩

/-- Among the ranges in the order in which they are sorted, one is reversed, with `b` between its
ends, and no range before it reaches as far as where it begins. -/
def Leaks (sorted : List Range) (b : Byte) : Prop :=
  ∃ before r after, sorted = before ++ r :: after ∧ (∀ s ∈ before, s.hi.toNat + 1 < r.lo.toNat) ∧
    r.hi < b ∧ b < r.lo

/-- The class has no byte that only ranges past the first ones have, and none that leaks. -/
def Orderly (ranges : List Range) : Prop :=
  ∀ b, ranges.any (·.admits b) = true → (ranges.take sortedMax).any (·.admits b) = true ∧
    ¬ Leaks (sortRanges (ranges.take sortedMax)) b

theorem leaks_iff {sorted : List Range} {b : Byte} : Leaks sorted b ↔ LeakAfter b.toNat 0 sorted := by
  refine exists_congr fun before => exists_congr fun r => exists_congr fun after =>
    and_congr_right fun _ => ?_
  rw [UInt8.lt_iff_toNat_lt, UInt8.lt_iff_toNat_lt]
  constructor
  · rintro ⟨h1, h2, h3⟩
    exact ⟨by omega, h1, h2, h3⟩
  · rintro ⟨-, h1, h2, h3⟩
    exact ⟨h1, h2, h3⟩

/-- What the complement admits. -/
theorem any_complementRanges (ranges : List Range) (b : Byte) :
    (complementRanges ranges).any (·.admits b) = true ↔
      Leaks (sortRanges (ranges.take sortedMax)) b ∨
        ¬ (ranges.take sortedMax).any (·.admits b) = true := by
  obtain ⟨hperm, hsorted⟩ := sortRanges_spec (ranges.take sortedMax)
  rw [leaks_iff, ← hperm.any_eq]
  unfold complementRanges
  cases hs : sortRanges (ranges.take sortedMax) with
  | nil =>
    have h0 : (0 : Byte).toNat = 0 := rfl
    have h255 : (255 : Byte).toNat = 255 := rfl
    have := b.toNat_lt
    refine iff_of_true ?_ (.inr nofun)
    rw [List.any_cons, List.any_nil, Bool.or_false, admits_iff, h0, h255]
    omega
  | cons r rest =>
    rw [hs] at hsorted
    obtain ⟨hr, hrest⟩ := List.pairwise_cons.mp hsorted
    have habove : ∀ s ∈ rest, r.lo.toNat ≤ s.lo.toNat := by
      intro s hs
      have := hr s hs
      rwa [UInt8.le_iff_toNat_le] at this
    have hbelow : b.toNat < r.lo.toNat → ∀ s ∈ rest, ¬ s.admits b = true := by
      intro hlt s hs hadm
      rw [admits_iff] at hadm
      have := habove s hs
      omega
    have hany : ¬ (r :: rest).any (·.admits b) = true ↔
        ¬ r.admits b = true ∧ ∀ s ∈ rest, ¬ s.admits b = true := by
      rw [List.any_eq_true]
      push Not
      exact List.forall_mem_cons
    dsimp only
    rw [any_gaps_mergeRanges, gapAfter_iff hrest, leakAfter_cons, hany, admits_iff,
      Nat.zero_max]
    constructor
    · rintro (⟨-, h1⟩ | h1 | ⟨h1, h2⟩)
      · exact .inr ⟨by omega, hbelow h1⟩
      · exact .inl (.inr h1)
      · exact .inr ⟨by omega, h2⟩
    · rintro ((⟨-, -, h1⟩ | h1) | ⟨h1, h2⟩)
      · exact .inl ⟨Nat.zero_le _, h1⟩
      · exact .inr (.inl h1)
      · by_cases hlt : b.toNat < r.lo.toNat
        · exact .inl ⟨Nat.zero_le _, hlt⟩
        · exact .inr (.inr ⟨by omega, h2⟩)

/-- **The complement is one if and only if the ranges are orderly.** -/
theorem complementOk_iff (ranges : List Range) : ComplementOk ranges ↔ Orderly ranges := by
  refine forall_congr' fun b => ?_
  have hsub : (ranges.take sortedMax).any (·.admits b) = true → ranges.any (·.admits b) = true := by
    intro hb
    obtain ⟨r, hr, hadm⟩ := List.any_eq_true.mp hb
    exact List.any_eq_true.mpr ⟨r, List.mem_of_mem_take hr, hadm⟩
  rw [Bool.eq_iff_iff, Bool.not_eq_true', ← Bool.not_eq_true, any_complementRanges]
  tauto

end Jacl.Regex
