import Jacl.Utf8Cuts

/-!
# Grapheme clusters backwards (`src/lib/unicode/unicode.h`)

`graphemePrev` goes back to a codepoint that a boundary follows, not beyond 256 bytes, and from
there forward to the last boundary before `pos`.  `graphemeFindSafeSplit` goes back over the
codepoints that extend a cluster and then asks `graphemePrev` and `graphemeNext`.
-/

namespace Jacl.Graphemes
open Utf8

/-- The bytes `graphemePrev` goes back. -/
def backWindow : Nat := 256

/-- Back over continuation bytes, not beyond `limit`. -/
def leadBack (src : List Byte) (limit : Nat) : Nat → Nat
  | 0 => 0
  | s + 1 =>
    if limit < s + 1 ∧ continuationAt src (s + 1) then leadBack src limit s
    else s + 1

section Source
variable (graphemeBreak : Nat → GraphemeBreak) (src : List Byte)

/-- The search for a start, from `s` back: each turn takes a byte of fuel at least. -/
def safePoint (limit : Nat) : Nat → Nat → Nat
  | 0, _ => limit
  | fuel + 1, s =>
    if s ≤ limit then limit
    else
      let s := leadBack src limit (s - 1)
      match decode (src.drop s) with
      | none => s
      | some (cp, n) =>
        if (graphemeBreak cp).isControl then if s ≤ limit then limit else s + n
        else safePoint limit fuel s

/-- The walk forward, to the last boundary before `pos`. -/
def lastBoundary (pos : Nat) : Nat → Nat → Nat
  | 0, scan => scan
  | fuel + 1, scan =>
    if scan < pos ∧ scan < src.length then
      let next := graphemeNext graphemeBreak src scan
      if pos ≤ next then scan
      else if next ≤ scan then next
      else lastBoundary pos fuel next
    else scan

def graphemePrev (pos : Nat) : Nat :=
  if pos = 0 ∨ src.length < pos then 0
  else
    let safe := safePoint graphemeBreak src (pos - backWindow) pos pos
    lastBoundary graphemeBreak src pos pos safe

/-- Back over the codepoints that extend a cluster: each turn takes a byte of fuel at least. -/
def backOverExtend : Nat → Nat → Nat
  | 0, pos => pos
  | fuel + 1, pos =>
    if pos = 0 then 0
    else
      match decode (src.drop pos) with
      | none => pos
      | some (cp, _) =>
        match graphemeBreak cp with
        | .extend | .zwj | .spacingMark => backOverExtend fuel (leadBack src 0 (pos - 1))
        | _ => pos

def graphemeFindSafeSplit (pos : Nat) : Nat :=
  if pos = 0 ∨ src.length ≤ pos then pos
  else
    let pos := leadBack src 0 pos
    let pos := backOverExtend graphemeBreak src pos pos
    if pos = 0 then 0
    else
      let prevBoundary := graphemePrev graphemeBreak src pos
      if prevBoundary < pos ∧ graphemeNext graphemeBreak src prevBoundary ≠ pos then prevBoundary
      else pos

end Source

variable {graphemeBreak : Nat → GraphemeBreak} {src : List Byte}

theorem leadBack_le {limit s : Nat} : leadBack src limit s ≤ s := by
  induction s with
  | zero => exact Nat.le_refl _
  | succ s ih =>
    rw [leadBack]
    split
    · exact Nat.le_succ_of_le ih
    · exact Nat.le_refl _

theorem backOverExtend_le {fuel pos : Nat} : backOverExtend graphemeBreak src fuel pos ≤ pos := by
  induction fuel generalizing pos with
  | zero => exact Nat.le_refl _
  | succ fuel ih =>
    rw [backOverExtend]
    split
    · exact Nat.zero_le _
    split
    · exact Nat.le_refl _
    have hback : backOverExtend graphemeBreak src fuel (leadBack src 0 (pos - 1)) ≤ pos :=
      Nat.le_trans ih (Nat.le_trans leadBack_le (Nat.sub_le _ _))
    split
    · exact hback
    · exact hback
    · exact hback
    · exact Nat.le_refl _

/-- A safe split is not after the position that it is for. -/
theorem graphemeFindSafeSplit_le {pos : Nat} : graphemeFindSafeSplit graphemeBreak src pos ≤ pos := by
  rw [graphemeFindSafeSplit]
  split
  · exact Nat.le_refl _
  have hback : backOverExtend graphemeBreak src (leadBack src 0 pos) (leadBack src 0 pos) ≤ pos :=
    Nat.le_trans backOverExtend_le leadBack_le
  dsimp only
  split
  · exact Nat.zero_le _
  split
  · omega
  · exact hback

/-! ### What the splits of a UTF-8 text are -/

theorem leadBack_spec {limit s : Nat} :
    leadBack src limit s ≤ limit ∨ continuationAt src (leadBack src limit s) = false ∨
      leadBack src limit s = 0 := by
  induction s with
  | zero => exact .inr (.inr rfl)
  | succ s ih =>
    rw [leadBack]
    split
    · exact ih
    · rename_i h
      rcases Nat.lt_or_ge limit (s + 1) with hlt | hge
      · exact .inr (.inl (Bool.eq_false_iff.mpr fun hat => h ⟨hlt, hat⟩))
      · exact .inl hge

theorem le_leadBack {limit s : Nat} (h : limit ≤ s) : limit ≤ leadBack src limit s := by
  induction s with
  | zero => exact h
  | succ s ih =>
    rw [leadBack]
    split
    · rename_i hgo
      exact ih (Nat.le_of_lt_succ hgo.1)
    · exact h

section Valid
variable (hval : validate src = true)
include hval

theorem cut_of_continuationAt {o : Nat} (hle : o ≤ src.length)
    (h : continuationAt src o = false ∨ o = 0) : Cut src o := by
  obtain hat | rfl := h
  · exact (cut_iff hval).mpr ⟨hle, hat⟩
  · exact cut_zero

theorem leadBack_cut {s : Nat} (hle : s ≤ src.length) : Cut src (leadBack src 0 s) := by
  refine cut_of_continuationAt hval (Nat.le_trans leadBack_le hle) ?_
  obtain h | h := @leadBack_spec src 0 s
  · exact .inr (Nat.le_zero.mp h)
  · exact h

theorem graphemeNext_cut {pos : Nat} (hc : Cut src pos) :
    Cut src (graphemeNext graphemeBreak src pos) := by
  by_cases hend : src.length ≤ pos
  · rw [graphemeNext, if_pos hend]
    exact cut_length hval
  obtain ⟨cps, hcps, rfl⟩ := validate_iff.mp hval
  obtain ⟨l, r, rfl, rfl⟩ := (cut_iff_exists hcps).mp hc
  cases r with
  | nil =>
    rw [List.append_nil, length_encodeAll] at hend
    exact absurd (Nat.le_refl _) hend
  | cons cp r =>
    rw [graphemeNext_encodeAll hcps]
    refine (cut_iff_exists hcps).mpr ⟨_, r.drop ((clusters graphemeBreak).taken
      ((clusters graphemeBreak).start cp) r), ?_, rfl⟩
    rw [List.append_assoc, List.cons_append, List.take_append_drop]

theorem safePoint_cut {limit fuel s : Nat} (hle : s ≤ src.length) :
    safePoint graphemeBreak src limit fuel s = limit ∨
      Cut src (safePoint graphemeBreak src limit fuel s) := by
  induction fuel generalizing s with
  | zero => exact .inl rfl
  | succ fuel ih =>
    rw [safePoint]
    split
    · exact .inl rfl
    rename_i hgt
    have hback : leadBack src limit (s - 1) ≤ s - 1 := leadBack_le
    have hlow : limit ≤ leadBack src limit (s - 1) := le_leadBack (by omega)
    have hcut : ¬ leadBack src limit (s - 1) ≤ limit → Cut src (leadBack src limit (s - 1)) :=
      fun h => cut_of_continuationAt hval (by omega) (leadBack_spec.resolve_left h)
    by_cases hlim : leadBack src limit (s - 1) ≤ limit
    · have heq : leadBack src limit (s - 1) = limit := Nat.le_antisymm hlim hlow
      dsimp only
      rw [heq]
      split
      · exact .inl rfl
      split
      · rw [if_pos (Nat.le_refl _)]
        exact .inl rfl
      · exact ih (by omega)
    · dsimp only
      split
      · exact .inr (hcut hlim)
      rename_i hdec
      split
      · exact .inr ((hcut hlim).next hval hdec)
      · exact ih (by omega)

theorem lastBoundary_cut {pos fuel scan : Nat} (hc : Cut src scan) :
    Cut src (lastBoundary graphemeBreak src pos fuel scan) := by
  induction fuel generalizing scan with
  | zero => exact hc
  | succ fuel ih =>
    have hnext := @graphemeNext_cut graphemeBreak src hval scan hc
    rw [lastBoundary]
    split
    · dsimp only
      split
      · exact hc
      split
      · exact hnext
      · exact ih hnext
    · exact hc

/-- A walk that starts inside of a codepoint comes to a cut. -/
theorem lastBoundary_cut_near {pos fuel scan q : Nat} (hq : Cut src q) (hle : scan ≤ q)
    (hlt : q < pos) (hfuel : q - scan ≤ fuel) :
    Cut src (lastBoundary graphemeBreak src pos fuel scan) := by
  induction fuel generalizing scan with
  | zero =>
    obtain rfl : scan = q := by omega
    exact hq
  | succ fuel ih =>
    cases hat : continuationAt src scan with
    | false =>
      exact lastBoundary_cut hval ((cut_iff hval).mpr ⟨Nat.le_trans hle hq.1, hat⟩)
    | true =>
      have hne : scan ≠ q := by
        rintro rfl
        rw [((cut_iff hval).mp hq).2] at hat
        cases hat
      have hin : ¬ src.length ≤ scan := by
        have := hq.1
        omega
      have hnext : graphemeNext graphemeBreak src scan = scan + 1 := by
        rw [graphemeNext, if_neg hin, decode_continuation hat]
      rw [lastBoundary, if_pos ⟨by omega, by omega⟩]
      dsimp only
      rw [hnext, if_neg (by omega), if_neg (by omega)]
      exact ih (by omega) (by omega)

theorem graphemePrev_cut {pos : Nat} (hle : pos ≤ src.length) :
    Cut src (graphemePrev graphemeBreak src pos) := by
  rw [graphemePrev]
  split
  · exact cut_zero
  rename_i hpos
  obtain hsafe | hsafe := @safePoint_cut graphemeBreak src hval (pos - backWindow) pos pos hle
  · rw [hsafe]
    by_cases hwin : pos ≤ backWindow
    · rw [Nat.sub_eq_zero_of_le hwin]
      exact lastBoundary_cut hval cut_zero
    · -- the window may start inside of a codepoint, but is wider than one
      have hwide : 3 < backWindow := by decide
      obtain ⟨q, hge, hnear, hq⟩ := @exists_cut_near (pos - backWindow) src hval (by omega)
      exact lastBoundary_cut_near hval hq hge (by omega) (by omega)
  · exact lastBoundary_cut hval hsafe

theorem backOverExtend_cut {fuel pos : Nat} (hc : Cut src pos) :
    Cut src (backOverExtend graphemeBreak src fuel pos) := by
  induction fuel generalizing pos with
  | zero => exact hc
  | succ fuel ih =>
    have hback : Cut src (backOverExtend graphemeBreak src fuel (leadBack src 0 (pos - 1))) :=
      ih (leadBack_cut hval (Nat.le_trans (Nat.sub_le _ _) hc.1))
    rw [backOverExtend]
    split
    · exact cut_zero
    split
    · exact hc
    split
    · exact hback
    · exact hback
    · exact hback
    · exact hc

/-- **A safe split goes between codepoints.** -/
theorem graphemeFindSafeSplit_cut {pos : Nat} (hle : pos ≤ src.length) :
    Cut src (graphemeFindSafeSplit graphemeBreak src pos) := by
  rw [graphemeFindSafeSplit]
  split
  · rename_i h
    obtain rfl | h := h
    · exact cut_zero
    · obtain rfl : pos = src.length := Nat.le_antisymm hle h
      exact cut_length hval
  have hback := @backOverExtend_cut graphemeBreak src hval (leadBack src 0 pos) _ (leadBack_cut hval hle)
  dsimp only
  split
  · exact cut_zero
  split
  · exact graphemePrev_cut hval hback.1
  · exact hback

end Valid

end Jacl.Graphemes
