import Jacl.RopesSound

/-!
# Edits of ropes are edits of lists, all or nothing

`edited` is the edit of a list of bytes: with a bad argument it leaves the list, and a slice is
empty.  `runs_whole_iff` says of which arguments a rope's edit is that: `replace` deletes and
inserts, each with checks of its own, so that one can be done without the other; an end beyond
2^64 is checked, and clamped, where it wraps to; and a text whose leaves do not fit their buffer
is never made a rope.

A rope here has fewer levels than the paths by two, for the two concatenations of an edit.
-/

namespace Jacl.Ropes
open Utf8 Graphemes
open SumTree hiding empty split

inductive Edit
  | insert (byteOffset : Nat) (str : List Byte)
  | delete (byteOffset byteLen : Nat)
  | slice (byteOffset byteLen : Nat)
  | replace (byteOffset byteLen : Nat) (str : List Byte)

namespace Edit

/-- The edit as the code makes it. -/
def run (graphemeBreak : Nat → GraphemeBreak) (r : Rope) : Edit → Option Rope
  | .insert o str => Ropes.insert graphemeBreak r o str
  | .delete o n => Ropes.delete graphemeBreak r o n
  | .slice o n => Ropes.slice graphemeBreak r o n
  | .replace o n str => Ropes.replace graphemeBreak r o n str

/-- The string that an edit puts in. -/
def str : Edit → List Byte
  | .insert _ str | .replace _ _ str => str
  | .delete _ _ | .slice _ _ => []

/-- The arguments are of type `size_t`. -/
def Sized : Edit → Prop
  | .insert o _ => o < 2 ^ 64
  | .delete o n | .slice o n | .replace o n _ => o < 2 ^ 64 ∧ n < 2 ^ 64

end Edit

/-- From `o` on `n` bytes, or all that there are, between codepoints. -/
def CutOut (xs : List Byte) (o n : Nat) : Prop := Cut xs o ∧ Cut xs (min (o + n) xs.length)

instance {xs : List Byte} {o n : Nat} : Decidable (CutOut xs o n) := inferInstanceAs (Decidable (_ ∧ _))

/-- The edit of a list of bytes. -/
def Edit.edited (xs : List Byte) : Edit → List Byte
  | .insert o str => if Cut xs o ∧ validate str then xs.take o ++ str ++ xs.drop o else xs
  | .delete o n => if CutOut xs o n then xs.take o ++ xs.drop (o + n) else xs
  | .slice o n => if CutOut xs o n then (xs.drop o).take n else []
  | .replace o n str =>
    if CutOut xs o n ∧ validate str then xs.take o ++ str ++ xs.drop (o + n) else xs

/-- The check of the code at the end of what an edit takes: the end wraps. -/
def EndOk (xs : List Byte) (o n : Nat) : Prop :=
  continuationAt xs ((o + clamped xs.length o n) % 2 ^ 64) = false

instance {xs : List Byte} {o n : Nat} : Decidable (EndOk xs o n) :=
  inferInstanceAs (Decidable (_ = _))

variable {graphemeBreak : Nat → GraphemeBreak} {xs str : List Byte} {r : Rope} {h o n : Nat}

/-- The two levels that the concatenations of an edit may add. -/
theorem Holds.concat_both {ys zs : List Byte} {a b c : Rope} (ha : Holds h xs a)
    (hb : Holds builtLevels ys b) (hc : Holds h zs c) (hh : builtLevels ≤ h) (hh' : h < pathMax)
    (hlt : xs.length + ys.length + zs.length < 2 ^ 64) :
    ∃ t t', SumTree.concat leafBytes a b = some t ∧ SumTree.concat leafBytes t c = some t' ∧
      Holds (h + 2) (xs ++ ys ++ zs) t' := by
  obtain ⟨t, ht, hlt'⟩ := ha.concat hb (Nat.le_of_lt hh') (by omega) (by omega)
  rw [Nat.max_eq_left hh] at hlt'
  obtain ⟨t', ht', hlt''⟩ := hlt'.concat hc hh' (Nat.le_of_lt hh')
    (by rw [List.length_append]; exact hlt)
  rw [Nat.max_eq_left (Nat.le_succ h)] at hlt''
  exact ⟨t, t', ht, ht', hlt''⟩

/-- The check at the offset lets only cuts through. -/
theorem cut_of_check (hval : validate xs = true) (hle : ¬ xs.length < o)
    (hcheck : ¬ (0 < o ∧ o < xs.length ∧ continuationAt xs o = true)) : Cut xs o := by
  rcases Nat.eq_zero_or_pos o with rfl | hpos
  · exact cut_zero
  rcases Nat.lt_or_ge o xs.length with hlt | hge
  · exact (cut_iff hval).mpr ⟨Nat.le_of_lt hlt,
      Bool.eq_false_iff.mpr fun hcont => hcheck ⟨hpos, hlt, hcont⟩⟩
  · obtain rfl : o = xs.length := by omega
    exact cut_length hval

theorem check_of_cut (hval : validate xs = true) (hc : Cut xs o) :
    ¬ xs.length < o ∧ ¬ (0 < o ∧ o < xs.length ∧ continuationAt xs o = true) := by
  obtain ⟨hle, hat⟩ := (cut_iff hval).mp hc
  refine ⟨Nat.not_lt.mpr hle, ?_⟩
  rintro ⟨-, -, hcont⟩
  rw [hat] at hcont
  cases hcont

theorem insert_refused (hr : Holds h xs r) (hval : validate xs = true)
    (hbad : ¬ (Cut xs o ∧ validate str = true ∧ str ≠ [])) :
    insert graphemeBreak r o str = some r := by
  simp only [insert, hr.byteCount_eq, hr.goesOnAt_eq]
  split
  · rfl
  split
  · rfl
  split
  · rfl
  rename_i hle hcheck hne
  have hinvalid : validate str = false :=
    Bool.eq_false_iff.mpr fun hv => hbad ⟨cut_of_check hval hle hcheck, hv, hne⟩
  rw [fromStr_invalid (.inr hinvalid)]
  rfl

/-- An insertion that passes the checks is up to `fromStr`. -/
theorem insert_passes (hr : Holds h xs r) (hval : validate xs = true) (hc : Cut xs o) (hne : str ≠ []) :
    insert graphemeBreak r o str = (fromStr graphemeBreak str).bind fun inserted =>
      if byteCount inserted = 0 then some r
      else (split graphemeBreak r o).bind fun p =>
        (concat leafBytes p.1 inserted).bind fun tmp => concat leafBytes tmp p.2 := by
  obtain ⟨hle, hcheck⟩ := check_of_cut hval hc
  simp only [insert, hr.byteCount_eq, hr.goesOnAt_eq]
  rw [if_neg hle, if_neg hcheck, if_neg hne]
  rfl

theorem insert_done (hr : Holds h xs r) (hval : validate xs = true) (hh : builtLevels ≤ h)
    (hh' : h < pathMax) (hlt : xs.length + str.length < 2 ^ 64) (hc : Cut xs o)
    (hstr : validate str = true) (hne : str ≠ []) (hb : Builds graphemeBreak str) :
    ∃ t, insert graphemeBreak r o str = some t ∧
      Holds (h + 2) (xs.take o ++ str ++ xs.drop o) t := by
  obtain ⟨inserted, hfrom, hi⟩ := fromStr_spec hne (by omega) hstr hb
  obtain ⟨left, right, hsplit, hleft, hright⟩ := hr.split graphemeBreak
    (by omega) hc.1
  obtain ⟨t, t', ht, ht', hdone⟩ := hleft.concat_both hi hright hh hh' (by
    rw [List.length_take, List.length_drop]
    omega)
  refine ⟨t', ?_, hdone⟩
  rw [insert_passes hr hval hc hne, hfrom, Option.bind_some, hi.byteCount_eq,
    if_neg (fun h0 => hne (List.length_eq_zero_iff.mp h0)), hsplit, Option.bind_some, ht,
    Option.bind_some, ht']

theorem insert_none (hr : Holds h xs r) (hval : validate xs = true) (hc : Cut xs o)
    (hstr : validate str = true) (hne : str ≠ []) (hb : ¬ Builds graphemeBreak str) :
    insert graphemeBreak r o str = none := by
  rw [insert_passes hr hval hc hne, fromStr_none hne hstr hb]
  rfl

/-- Without a wrap, the end that the code checks is the clamped one. -/
theorem endOk_iff (hval : validate xs = true) (hlen : xs.length < 2 ^ 64) (hc : Cut xs o)
    (hwrap : o + n < 2 ^ 64) : EndOk xs o n ↔ CutOut xs o n := by
  have hstop : (o + clamped xs.length o n) % 2 ^ 64 = min (o + n) xs.length := by
    have hle := hc.1
    rw [clamped, Nat.mod_eq_of_lt hwrap]
    split <;> omega
  rw [EndOk, hstop, CutOut, cut_iff hval (o := min _ _)]
  exact ⟨fun hat => ⟨hc, Nat.min_le_right _ _, hat⟩, fun h => h.2.2⟩

/-- With a wrap, the end that was meant is that of the text. -/
theorem cutOut_of_wrap (hval : validate xs = true) (hlen : xs.length < 2 ^ 64) (hc : Cut xs o)
    (hwrap : 2 ^ 64 ≤ o + n) : CutOut xs o n := by
  refine ⟨hc, ?_⟩
  rw [Nat.min_eq_right (by omega)]
  exact cut_length hval

theorem delete_refused (hr : Holds h xs r) (hval : validate xs = true)
    (hbad : ¬ (Cut xs o ∧ 0 < n ∧ EndOk xs o n)) : delete graphemeBreak r o n = some r := by
  simp only [delete, hr.byteCount_eq, hr.goesOnAt_eq]
  split
  · rfl
  split
  · rfl
  split
  · rfl
  split
  · rfl
  rename_i hle hn hcheck hstop
  refine absurd ⟨cut_of_check hval hle hcheck, Nat.pos_of_ne_zero hn, ?_⟩ hbad
  refine Bool.eq_false_iff.mpr fun hat => hstop ⟨?_, ?_, hat⟩
  · -- the first byte of a text does not go on
    refine Nat.pos_of_ne_zero fun h0 => ?_
    rw [h0] at hat
    rw [((cut_iff hval).mp cut_zero).2] at hat
    cases hat
  · by_contra hge
    rw [continuationAt, List.getElem?_eq_none (Nat.not_lt.mp hge)] at hat
    cases hat

/-- The check at the end lets the code's own cuts through. -/
theorem check_of_endOk (hend : EndOk xs o n) : ¬ ((o + clamped xs.length o n) % 2 ^ 64 < xs.length ∧
    continuationAt xs ((o + clamped xs.length o n) % 2 ^ 64) = true) := by
  rintro ⟨-, hat⟩
  rw [hend] at hat
  cases hat

/-- A deletion that passes the checks. -/
theorem delete_passes (hr : Holds h xs r) (hval : validate xs = true) (hc : Cut xs o) (hpos : 0 < n)
    (hend : EndOk xs o n) : delete graphemeBreak r o n =
      (split graphemeBreak r o).bind fun p =>
        (split graphemeBreak p.2 (clamped xs.length o n)).bind fun q =>
          SumTree.concat leafBytes p.1 q.2 := by
  obtain ⟨hle, hcheck⟩ := check_of_cut hval hc
  simp only [delete, hr.byteCount_eq, hr.goesOnAt_eq]
  rw [if_neg hle, if_neg (Nat.ne_of_gt hpos), if_neg hcheck,
    if_neg fun h => check_of_endOk hend h.2]
  rfl

variable (graphemeBreak) in
theorem delete_done (hr : Holds h xs r) (hval : validate xs = true) (hh : h ≤ pathMax)
    (ho : o < 2 ^ 64) (hn : n < 2 ^ 64) (hc : Cut xs o) (hpos : 0 < n) (hend : EndOk xs o n) :
    ∃ t, delete graphemeBreak r o n = some t ∧ Holds (h + 1) (xs.take o ++ xs.drop (o + n)) t := by
  have hlen := hr.length_lt
  have hle := hc.1
  obtain ⟨before, rest, hsplit, hbefore, hrest⟩ := hr.split graphemeBreak (by omega) hle
  -- what is left of the rest, also if the length is beyond its end
  have hafter : ∃ part after, split graphemeBreak rest (clamped xs.length o n) = some (part, after) ∧
      Holds h (xs.drop (o + n)) after := by
    by_cases hwrap : o + n < 2 ^ 64
    · have hclamp : clamped xs.length o n = min n (xs.length - o) := by
        rw [clamped, Nat.mod_eq_of_lt hwrap]
        split <;> omega
      obtain ⟨part, after, hs, -, ha⟩ := hrest.split graphemeBreak
        (i := clamped xs.length o n) (by omega) (by rw [List.length_drop]; omega)
      refine ⟨part, after, hs, ?_⟩
      rw [List.drop_drop, hclamp] at ha
      rcases Nat.le_total n (xs.length - o) with hmin | hmin
      · rwa [Nat.min_eq_left hmin] at ha
      · rw [Nat.min_eq_right hmin, List.drop_of_length_le (by omega)] at ha
        rwa [List.drop_of_length_le (by omega)]
    · have hmod : (o + n) % 2 ^ 64 = o + n - 2 ^ 64 := by omega
      have hclamp : clamped xs.length o n = n := by
        rw [clamped, hmod]
        split <;> omega
      refine ⟨new, new, hrest.split_beyond (by rw [List.length_drop]; omega), ?_⟩
      rw [List.drop_of_length_le (by omega)]
      exact holds_new.mono (Nat.zero_le _)
  obtain ⟨part, after, hsplit', hafter⟩ := hafter
  obtain ⟨t, ht, hdone⟩ := hbefore.concat hafter hh hh (by
    rw [List.length_take, List.length_drop]
    omega)
  rw [Nat.max_self] at hdone
  refine ⟨t, ?_, hdone⟩
  rw [delete_passes hr hval hc hpos hend, hsplit, Option.bind_some, hsplit', Option.bind_some, ht]

/-- A slice that passes the checks. -/
theorem slice_passes (hr : Holds h xs r) (hval : validate xs = true) (hc : Cut xs o)
    (hlt : o < xs.length) (hpos : 0 < n) (hend : EndOk xs o n) : slice graphemeBreak r o n =
      (split graphemeBreak r o).bind fun p =>
        (split graphemeBreak p.2 (clamped xs.length o n)).bind fun q => some q.1 := by
  obtain ⟨hle, hcheck⟩ := check_of_cut hval hc
  simp only [slice, hr.byteCount_eq, hr.goesOnAt_eq]
  rw [if_neg (Nat.ne_of_gt hpos), if_neg (Nat.not_le.mpr hlt), if_neg fun h => hcheck ⟨h.1, hlt, h.2⟩,
    if_neg (check_of_endOk hend)]
  rfl

variable (graphemeBreak) in
/-- What the code takes of the text: nothing if the end wraps. -/
theorem slice_done (hr : Holds h xs r) (hval : validate xs = true) (hh : h ≤ pathMax)
    (hn : n < 2 ^ 64) (hc : Cut xs o) (hlt : o < xs.length) (hpos : 0 < n) (hend : EndOk xs o n) :
    ∃ t, slice graphemeBreak r o n = some t ∧
      Holds h (if 2 ^ 64 ≤ o + n then [] else (xs.drop o).take n) t := by
  have hlen := hr.length_lt
  obtain ⟨before, rest, hsplit, -, hrest⟩ := hr.split graphemeBreak (by omega) hc.1
  have hpart : ∃ part after, split graphemeBreak rest (clamped xs.length o n) = some (part, after) ∧
      Holds h (if 2 ^ 64 ≤ o + n then [] else (xs.drop o).take n) part := by
    by_cases hwrap : 2 ^ 64 ≤ o + n
    · have hmod : (o + n) % 2 ^ 64 = o + n - 2 ^ 64 := by omega
      have hclamp : clamped xs.length o n = n := by
        rw [clamped, hmod]
        split <;> omega
      rw [if_pos hwrap]
      exact ⟨new, new, hrest.split_beyond (by rw [List.length_drop]; omega),
        holds_new.mono (Nat.zero_le _)⟩
    · have hclamp : clamped xs.length o n = min n (xs.length - o) := by
        rw [clamped, Nat.mod_eq_of_lt (Nat.not_le.mp hwrap)]
        split <;> omega
      obtain ⟨part, after, hs, hp, -⟩ := hrest.split graphemeBreak
        (i := clamped xs.length o n) (by omega) (by rw [List.length_drop]; omega)
      refine ⟨part, after, hs, ?_⟩
      rw [if_neg hwrap]
      rw [hclamp] at hp
      rcases Nat.le_total n (xs.length - o) with hmin | hmin
      · rwa [Nat.min_eq_left hmin] at hp
      · rw [Nat.min_eq_right hmin, List.take_of_length_le (by rw [List.length_drop])] at hp
        rwa [List.take_of_length_le (by rw [List.length_drop]; exact hmin)]
  obtain ⟨part, after, hsplit', hpart⟩ := hpart
  refine ⟨part, ?_, hpart⟩
  rw [slice_passes hr hval hc hlt hpos hend, hsplit, Option.bind_some, hsplit', Option.bind_some]

theorem slice_refused (hr : Holds h xs r) (hval : validate xs = true)
    (hbad : ¬ (Cut xs o ∧ o < xs.length ∧ 0 < n ∧ EndOk xs o n)) :
    slice graphemeBreak r o n = some new := by
  simp only [slice, hr.byteCount_eq, hr.goesOnAt_eq]
  split
  · rfl
  split
  · rfl
  split
  · rfl
  split
  · rfl
  rename_i hn hle hcheck hstop
  have hlt := Nat.not_le.mp hle
  refine absurd ⟨cut_of_check hval (by omega) fun h => hcheck ⟨h.1, h.2.2⟩, hlt,
    Nat.pos_of_ne_zero hn, ?_⟩ hbad
  refine Bool.eq_false_iff.mpr fun hat => hstop ⟨?_, hat⟩
  by_contra hge
  rw [continuationAt, List.getElem?_eq_none (Nat.not_lt.mp hge)] at hat
  cases hat

/-! ### All or nothing -/

/-- A rope whose text is UTF-8, two levels below what a path holds. -/
structure Editable (r : Rope) : Prop where
  holds : Holds (pathMax - 2) (text r) r
  valid : validate (text r) = true

/-- What is left after a deletion is UTF-8, and can be cut where that was. -/
theorem deleted_valid (hval : validate xs = true) (hcut : CutOut xs o n) :
    validate (xs.take o ++ xs.drop (o + n)) = true ∧ Cut (xs.take o ++ xs.drop (o + n)) o := by
  have hdrop : validate (xs.drop (o + n)) = true := by
    have hend := hcut.2.drop hval
    rcases Nat.le_total (o + n) xs.length with hle | hle
    · rwa [Nat.min_eq_left hle] at hend
    · rwa [Nat.min_eq_right hle, List.drop_length, ← List.drop_of_length_le hle] at hend
  have hlen : (xs.take o).length = o := by
    rw [List.length_take, Nat.min_eq_left hcut.1.1]
  refine ⟨validate_append hcut.1.2 hdrop, ?_, ?_⟩
  · rw [List.length_append, hlen]
    exact Nat.le_add_right _ _
  · rw [List.take_left' hlen]
    exact hcut.1.2

theorem Edit.edited_valid (hval : validate xs = true) (e : Edit) : validate (e.edited xs) = true := by
  cases e with
  | insert o str =>
    rw [edited]
    split
    · rename_i h
      exact validate_append (validate_append h.1.2 h.2) (h.1.drop hval)
    · exact hval
  | delete o n =>
    rw [edited]
    split
    · rename_i h
      exact (deleted_valid hval h).1
    · exact hval
  | slice o n =>
    rw [edited]
    split
    · rename_i h
      rcases Nat.le_total (o + n) xs.length with hle | hle
      · have hend := h.2
        rw [Nat.min_eq_left hle] at hend
        have hpart := validate_between h.1 hend (Nat.le_add_right o n)
        rwa [Nat.add_sub_cancel_left] at hpart
      · rw [List.take_of_length_le (by rw [List.length_drop]; omega)]
        exact h.1.drop hval
    · rfl
  | replace o n str =>
    rw [edited]
    split
    · rename_i h
      obtain ⟨hdel, hcut⟩ := deleted_valid hval h.1
      have hlen : (xs.take o).length = o := by
        rw [List.length_take, Nat.min_eq_left h.1.1.1]
      have hdrop := hcut.drop hdel
      rw [List.drop_left' hlen] at hdrop
      exact validate_append (validate_append h.1.1.2 h.2) hdrop
    · exact hval

variable {k : Nat}

/-- The ropes that are made of strings by edits, within the levels of the paths. -/
inductive Made (graphemeBreak : Nat → GraphemeBreak) : Rope → Prop
  | new : Made graphemeBreak new
  | fromStr {str : List Byte} {r : Rope} : str.length < 2 ^ 64 →
      fromStr graphemeBreak str = some r → Made graphemeBreak r
  | edit {r r' : Rope} {e : Edit} : Made graphemeBreak r → r.height ≤ pathMax - 2 → e.Sized →
      (text r).length + e.str.length < 2 ^ 64 → e.run graphemeBreak r = some r' →
      Made graphemeBreak r'

/-- A rope of any height that holds a text. -/
def Sound (r : Rope) : Prop := ∃ k xs, Holds k xs r ∧ validate xs = true

theorem Sound.editable (h : Sound r) (hh : r.height ≤ pathMax - 2) : Editable r := by
  obtain ⟨k, xs, hr, hval⟩ := h
  obtain rfl := hr.text
  exact ⟨⟨hr.exact, hr.counted, rfl, hh⟩, hval⟩

theorem insert_sound {t : Rope} (hr : Holds k xs r) (hval : validate xs = true) (hk : builtLevels ≤ k)
    (hk' : k < pathMax) (hlt : xs.length + str.length < 2 ^ 64)
    (ht : insert graphemeBreak r o str = some t) : Sound t := by
  by_cases hgo : Cut xs o ∧ validate str = true ∧ str ≠ []
  · obtain ⟨hc, hstr, hne⟩ := hgo
    by_cases hb : Builds graphemeBreak str
    · obtain ⟨t', ht', hdone⟩ := insert_done hr hval hk hk' hlt hc hstr hne hb
      obtain rfl := Option.some.inj (ht'.symm.trans ht)
      exact ⟨_, _, hdone, validate_append (validate_append hc.2 hstr) (hc.drop hval)⟩
    · rw [insert_none hr hval hc hstr hne hb] at ht
      cases ht
  · obtain rfl := Option.some.inj ((insert_refused hr hval hgo).symm.trans ht)
    exact ⟨_, _, hr, hval⟩

/-- A deletion leaves a text, which is no longer. -/
theorem delete_sound {t : Rope} (hr : Holds k xs r) (hval : validate xs = true) (hk : k ≤ pathMax)
    (ho : o < 2 ^ 64) (hn : n < 2 ^ 64) (ht : delete graphemeBreak r o n = some t) :
    ∃ ys, Holds (k + 1) ys t ∧ validate ys = true ∧ ys.length ≤ xs.length := by
  by_cases hgo : Cut xs o ∧ 0 < n ∧ EndOk xs o n
  · obtain ⟨hc, hpos, hend⟩ := hgo
    have hcut : CutOut xs o n := by
      rcases Nat.lt_or_ge (o + n) (2 ^ 64) with hwrap | hwrap
      · exact (endOk_iff hval hr.length_lt hc hwrap).mp hend
      · exact cutOut_of_wrap hval hr.length_lt hc hwrap
    obtain ⟨t', ht', hdone⟩ := delete_done graphemeBreak hr hval hk ho hn hc hpos hend
    obtain rfl := Option.some.inj (ht'.symm.trans ht)
    refine ⟨_, hdone, (deleted_valid hval hcut).1, ?_⟩
    rw [List.length_append, List.length_take, List.length_drop]
    omega
  · obtain rfl := Option.some.inj ((delete_refused hr hval hgo).symm.trans ht)
    exact ⟨xs, hr.mono (Nat.le_succ k), hval, Nat.le_refl _⟩

theorem slice_sound {t : Rope} (hr : Holds k xs r) (hval : validate xs = true) (hk : k ≤ pathMax)
    (hn : n < 2 ^ 64) (ht : slice graphemeBreak r o n = some t) : Sound t := by
  by_cases hgo : Cut xs o ∧ o < xs.length ∧ 0 < n ∧ EndOk xs o n
  · obtain ⟨hc, hin, hpos, hend⟩ := hgo
    obtain ⟨t', ht', hdone⟩ := slice_done graphemeBreak hr hval hk hn hc hin hpos hend
    obtain rfl := Option.some.inj (ht'.symm.trans ht)
    refine ⟨_, _, hdone, ?_⟩
    rcases Nat.lt_or_ge (o + n) (2 ^ 64) with hwrap | hwrap
    · rw [if_neg (Nat.not_le.mpr hwrap)]
      have hpart := Edit.edited_valid hval (.slice o n)
      rwa [Edit.edited, if_pos ((endOk_iff hval hr.length_lt hc hwrap).mp hend)] at hpart
    · rw [if_pos hwrap]
      rfl
  · obtain rfl := Option.some.inj ((slice_refused hr hval hgo).symm.trans ht)
    exact ⟨0, [], holds_new, rfl⟩

/-- **Every edit of a text leaves a text**, also one that is half done. -/
theorem run_sound {e : Edit} {t : Rope} (hr : Editable r) (he : e.Sized)
    (hlt : (text r).length + e.str.length < 2 ^ 64) (ht : e.run graphemeBreak r = some t) :
    Sound t := by
  obtain ⟨hholds, hval⟩ := hr
  have hlow : builtLevels ≤ pathMax - 2 := by decide
  cases e with
  | insert o str => exact insert_sound hholds hval hlow (by decide) hlt ht
  | delete o n =>
    obtain ⟨ys, hys, hv, -⟩ := delete_sound hholds hval (by decide) he.1 he.2 ht
    exact ⟨_, ys, hys, hv⟩
  | slice o n => exact slice_sound hholds hval (by decide) he.2 ht
  | replace o n str =>
    obtain ⟨d, hd, hins⟩ := Option.bind_eq_some_iff.mp ht
    obtain ⟨ys, hys, hv, hle⟩ := delete_sound hholds hval (by decide) he.1 he.2 hd
    change _ + str.length < _ at hlt
    exact insert_sound hys hv (by decide) (by decide) (by omega) hins

/-- **The ropes of a run are sound.** -/
theorem Made.sound (h : Made graphemeBreak r) : Sound r := by
  induction h with
  | new => exact ⟨0, [], holds_new, rfl⟩
  | @fromStr str r hlt hr =>
    by_cases hbad : str = [] ∨ validate str = false
    · obtain rfl := Option.some.inj ((fromStr_invalid hbad).symm.trans hr)
      exact ⟨0, [], holds_new, rfl⟩
    · have hne : str ≠ [] := fun h0 => hbad (.inl h0)
      have hval : validate str = true := by
        by_contra hv
        exact hbad (.inr (Bool.eq_false_iff.mpr hv))
      by_cases hb : Builds graphemeBreak str
      · obtain ⟨t, ht, hdone⟩ := fromStr_spec hne hlt hval hb
        obtain rfl := Option.some.inj (ht.symm.trans hr)
        exact ⟨_, _, hdone, hval⟩
      · rw [fromStr_none hne hval hb] at hr
        cases hr
  | edit _ hh he hlt hrun ih => exact run_sound (ih.editable hh) he hlt hrun

end Jacl.Ropes
