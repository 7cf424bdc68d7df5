import Jacl.RopeEdits

/-!
# The leaves of a rope are cut between codepoints

A leaf of a rope is UTF-8 by itself: `fromStr` splits a string between codepoints, and an edit
splits a leaf only where it splits the text.
-/

namespace Jacl.Ropes
open Utf8 Graphemes
open SumTree hiding empty split

/-- The bytes of the leaf are UTF-8. -/
def Aligned (es : List Byte) (_ : RopeSummary) : Prop := validate es = true

theorem mergeKept_aligned : MergeKept Aligned := fun _ _ _ _ h h' => validate_append h h'

theorem continuationAt_left {xs ys : List Byte} {i : Nat} (hi : i < xs.length) :
    continuationAt (xs ++ ys) i = continuationAt xs i := by
  rw [continuationAt, List.getElem?_append_left hi, continuationAt]

variable {graphemeBreak : Nat → GraphemeBreak} {xs str : List Byte} {r : Rope} {h k o n : Nat}

theorem cutKept_aligned : CutKept (summarize graphemeBreak) Aligned
    fun xs i => continuationAt xs i = false where
  left xs ys i hat hi := by rwa [continuationAt_left hi] at hat
  right xs ys i hat := by rwa [continuationAt_append] at hat
  leaf es s i hes hat hi := by
    have hc : Cut es i := (cut_iff hes).mpr ⟨Nat.le_of_lt hi, hat⟩
    exact ⟨hc.2, hc.drop hes⟩

theorem split_aligned {left right : Rope} (hr : Holds h xs r) (ha : r.Each Aligned)
    (hat : continuationAt xs o = false) (hsplit : split graphemeBreak r o = some (left, right)) :
    left.Each Aligned ∧ right.Each Aligned := by
  rw [split] at hsplit
  obtain ⟨p, hp, heq⟩ := Option.map_eq_some_iff.mp hsplit
  cases p with
  | none =>
    cases heq
    exact ⟨each_empty, each_empty⟩
  | some p =>
    cases heq
    refine split_each cutKept_aligned hr.exact.1 ha ?_ hp
    rw [← hr.text] at hat
    exact hat

/-! ### Construction from a string -/

theorem leafEnd_cut {pos : Nat} (hval : validate str = true) :
    Cut str (leafEnd graphemeBreak str pos) := by
  rw [leafEnd]
  split
  · exact cut_length hval
  · rename_i hlt
    exact graphemeFindSafeSplit_cut hval (Nat.le_of_not_le hlt)

theorem leaves_aligned (hval : validate str = true) {slots pos : Nat} (hc : Cut str pos)
    {ns : List (Node Byte RopeSummary)} (hns : leaves graphemeBreak str slots pos = some ns) :
    ∀ n ∈ ns, n.Each Aligned := by
  induction slots generalizing pos ns with
  | zero =>
    rw [leaves] at hns
    split at hns
    · cases hns
      simp
    · cases hns
  | succ slots ih =>
    rw [leaves] at hns
    split at hns
    · cases hns
      simp
    dsimp only at hns
    split at hns
    · cases hns
    rename_i hgo
    obtain ⟨ms, hms, rfl⟩ := Option.map_eq_some_iff.mp hns
    have hstop := @leafEnd_cut graphemeBreak str pos hval
    intro n hn
    obtain rfl | hn := List.mem_cons.mp hn
    · exact .leaf (validate_between hc hstop (Nat.le_of_not_le hgo))
    · exact ih hstop hms n hn

theorem fromStr_aligned (hr : fromStr graphemeBreak str = some r) : r.Each Aligned := by
  rw [fromStr] at hr
  split at hr
  · cases hr
    exact each_empty
  · rename_i hgood
    have hval : validate str = true := by
      by_contra hv
      exact hgood (.inr (Bool.eq_false_iff.mpr hv))
    obtain ⟨ns, hns, hroot⟩ := Option.bind_eq_some_iff.mp hr
    obtain ⟨⟨n, height⟩, hbuild, rfl⟩ := Option.map_eq_some_iff.mp hroot
    exact each_node (buildUp_each (leaves_aligned hval cut_zero hns) hbuild)

/-! ### Edits -/

theorem insert_aligned {t : Rope} (hr : Holds k xs r) (hval : validate xs = true)
    (ha : r.Each Aligned) (ht : insert graphemeBreak r o str = some t) : t.Each Aligned := by
  by_cases hgo : Cut xs o ∧ validate str = true ∧ str ≠ []
  · obtain ⟨hc, -, hne⟩ := hgo
    rw [insert_passes hr hval hc hne] at ht
    obtain ⟨inserted, hfrom, ht⟩ := Option.bind_eq_some_iff.mp ht
    split at ht
    · cases ht
      exact ha
    obtain ⟨⟨left, right⟩, hsplit, ht⟩ := Option.bind_eq_some_iff.mp ht
    obtain ⟨tmp, htmp, ht⟩ := Option.bind_eq_some_iff.mp ht
    obtain ⟨hl, hr'⟩ := split_aligned hr ha ((cut_iff hval).mp hc).2 hsplit
    exact concat_each mergeKept_aligned
      (concat_each mergeKept_aligned hl (fromStr_aligned hfrom) htmp) hr' ht
  · obtain rfl := Option.some.inj ((insert_refused hr hval hgo).symm.trans ht)
    exact ha

/-- The rest of a rope is cut where the text is, or beyond its end. -/
theorem rest_cut (hlen : xs.length < 2 ^ 64) (hc : Cut xs o) (hend : EndOk xs o n) :
    continuationAt (xs.drop o) (clamped xs.length o n) = false := by
  have hle := hc.1
  rcases Nat.lt_or_ge (o + clamped xs.length o n) (2 ^ 64) with hfit | hwrap
  · rw [EndOk, Nat.mod_eq_of_lt hfit] at hend
    have htake : (xs.take o).length = o := by rw [List.length_take, Nat.min_eq_left hle]
    have hat := @continuationAt_append (clamped xs.length o n) (xs.take o) (xs.drop o)
    rw [htake, List.take_append_drop] at hat
    rw [← hat, hend]
  · rw [continuationAt, List.getElem?_eq_none]
    · rfl
    · rw [List.length_drop]
      omega

theorem delete_aligned {t : Rope} (hr : Holds k xs r) (hval : validate xs = true) (hk : k ≤ pathMax)
    (ha : r.Each Aligned) (ht : delete graphemeBreak r o n = some t) :
    t.Each Aligned := by
  by_cases hgo : Cut xs o ∧ 0 < n ∧ EndOk xs o n
  · obtain ⟨hc, hpos, hend⟩ := hgo
    rw [delete_passes hr hval hc hpos hend] at ht
    obtain ⟨⟨left, rest⟩, hsplit, ht⟩ := Option.bind_eq_some_iff.mp ht
    obtain ⟨⟨part, after⟩, hsplit', ht⟩ := Option.bind_eq_some_iff.mp ht
    obtain ⟨hl, hrest⟩ := split_aligned hr ha ((cut_iff hval).mp hc).2 hsplit
    obtain ⟨left', rest', hs, -, hholds⟩ := hr.split graphemeBreak (by omega) hc.1
    obtain ⟨rfl, rfl⟩ := Prod.mk.inj (Option.some.inj (hs.symm.trans hsplit))
    obtain ⟨-, hafter⟩ := split_aligned hholds hrest (rest_cut hr.length_lt hc hend) hsplit'
    exact concat_each mergeKept_aligned hl hafter ht
  · obtain rfl := Option.some.inj ((delete_refused hr hval hgo).symm.trans ht)
    exact ha

theorem slice_aligned {t : Rope} (hr : Holds k xs r) (hval : validate xs = true) (hk : k ≤ pathMax)
    (ha : r.Each Aligned) (ht : slice graphemeBreak r o n = some t) :
    t.Each Aligned := by
  by_cases hgo : Cut xs o ∧ o < xs.length ∧ 0 < n ∧ EndOk xs o n
  · obtain ⟨hc, hin, hpos, hend⟩ := hgo
    rw [slice_passes hr hval hc hin hpos hend] at ht
    obtain ⟨⟨left, rest⟩, hsplit, ht⟩ := Option.bind_eq_some_iff.mp ht
    obtain ⟨⟨part, after⟩, hsplit', hpart⟩ := Option.bind_eq_some_iff.mp ht
    obtain rfl := Option.some.inj hpart
    obtain ⟨-, hrest⟩ := split_aligned hr ha ((cut_iff hval).mp hc).2 hsplit
    obtain ⟨left', rest', hs, -, hholds⟩ := hr.split graphemeBreak (by omega) hc.1
    obtain ⟨rfl, rfl⟩ := Prod.mk.inj (Option.some.inj (hs.symm.trans hsplit))
    exact (split_aligned hholds hrest (rest_cut hr.length_lt hc hend) hsplit').1
  · obtain rfl := Option.some.inj ((slice_refused hr hval hgo).symm.trans ht)
    exact each_empty

/-- An edit leaves the leaves cut between codepoints. -/
theorem run_aligned {e : Edit} {t : Rope} (hr : Editable r) (ha : r.Each Aligned) (he : e.Sized)
    (ht : e.run graphemeBreak r = some t) : t.Each Aligned := by
  obtain ⟨hholds, hval⟩ := hr
  cases e with
  | insert o str => exact insert_aligned hholds hval ha ht
  | delete o n => exact delete_aligned hholds hval (by decide) ha ht
  | slice o n => exact slice_aligned hholds hval (by decide) ha ht
  | replace o n str =>
    obtain ⟨d, hd, hins⟩ := Option.bind_eq_some_iff.mp ht
    obtain ⟨ys, hys, hv, -⟩ := delete_sound hholds hval (by decide) he.1 he.2 hd
    exact insert_aligned hys hv (delete_aligned hholds hval (by decide) ha hd) hins

/-- **The leaves of the ropes of a run are UTF-8.** -/
theorem Made.aligned (h : Made graphemeBreak r) : r.Each Aligned := by
  induction h with
  | new => exact each_empty
  | fromStr _ hr => exact fromStr_aligned hr
  | edit hm hh he _ hrun ih => exact run_aligned (hm.sound.editable hh) ih he hrun

end Jacl.Ropes
