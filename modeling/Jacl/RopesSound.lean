import Jacl.Ropes
import Jacl.SumTreeHeight

/-!
# What the ropes hold

`Holds h xs r`: the rope is a sound tree of at most `h` levels that holds `xs`, and its leaves
count what they hold.  The calls of the sum tree keep it, within the levels of their paths.
`Builds` are the texts that `fromStr` makes a rope of.
-/

namespace Jacl.Ropes
open Utf8 Graphemes
open SumTree hiding empty split

/-! ### What a summary counts -/

/-- The parts of a summary that count bytes. -/
inductive Dim
  | bytes | chars | lines

def Dim.part : Dim → RopeSummary → BitVec 64
  | .bytes => RopeSummary.bytes
  | .chars => RopeSummary.chars
  | .lines => RopeSummary.lines

def Dim.measure : Dim → List Byte → Nat
  | .bytes => List.length
  | .chars => codepointCount
  | .lines => lineCount

theorem Dim.measure_append (d : Dim) (xs ys : List Byte) :
    d.measure (xs ++ ys) = d.measure xs + d.measure ys := by
  cases d with
  | bytes => exact List.length_append
  | chars => exact codepointCount_append
  | lines => exact List.count_append

theorem Dim.measure_nil (d : Dim) : d.measure [] = 0 := by cases d <;> rfl

theorem Dim.measure_le_length (d : Dim) (xs : List Byte) : d.measure xs ≤ xs.length := by
  cases d with
  | bytes => exact Nat.le_refl _
  | chars => exact List.countP_le_length
  | lines => exact List.count_le_length

/-- No continuation byte is ASCII. -/
theorem ascii_starts : ∀ b : Byte, b < 0x80#8 → isContinuation b = false := by decide +kernel

theorem codepointCount_of_isAscii {es : List Byte} (h : isAscii es = true) :
    codepointCount es = es.length := by
  rw [codepointCount, List.countP_eq_length]
  intro b hb
  rw [ascii_starts b (of_decide_eq_true (List.all_eq_true.mp h b hb))]
  rfl

variable {graphemeBreak : Nat → GraphemeBreak}

variable (graphemeBreak) in
theorem Dim.measures (d : Dim) :
    Measure (summarize graphemeBreak) d.part fun es => BitVec.ofNat 64 (d.measure es) where
  one := by cases d <;> rfl
  mul s t := by cases d <;> rfl
  nil := by rw [d.measure_nil]; rfl
  append xs ys := by rw [d.measure_append, BitVec.ofNat_add]
  leaf es := by
    rw [summarize]
    split
    · rename_i h
      cases d with
      | bytes => rfl
      | chars => exact congrArg (BitVec.ofNat 64) (codepointCount_of_isAscii h).symm
      | lines => rfl
    · cases d <;> rfl

/-- The summary of a leaf counts its bytes, in every dimension. -/
def Counted (es : List Byte) (s : RopeSummary) : Prop :=
  ∀ d : Dim, d.part s = BitVec.ofNat 64 (d.measure es)

variable (graphemeBreak) in
theorem counted_summarize (es : List Byte) : Counted es (summarize graphemeBreak es) :=
  fun d => (d.measures graphemeBreak).leaf es

theorem mergeKept_counted : MergeKept Counted :=
  fun es s es' s' h h' d => (d.measures fun _ => .other).mergeKept es s es' s' (h d) (h' d)

variable (graphemeBreak) in
theorem cutKept_counted : CutKept (summarize graphemeBreak) Counted fun _ _ => True where
  left _ _ _ _ _ := trivial
  right _ _ _ _ := trivial
  leaf es _ i _ _ _ := ⟨counted_summarize _ (es.take i), counted_summarize _ (es.drop i)⟩

theorem each_dim {n : Node Byte RopeSummary} (h : n.Each Counted) (d : Dim) :
    n.Each fun es s => d.part s = BitVec.ofNat 64 (d.measure es) := by
  induction h with
  | leaf hs => exact .leaf (hs d)
  | internal _ ih => exact .internal ih

/-! ### Ropes that hold a list of bytes -/

/-- A sound tree of at most `h` levels that holds `xs`. -/
structure Holds (h : Nat) (xs : List Byte) (r : Rope) : Prop where
  exact : Exact leafBytes r
  counted : r.Each Counted
  text : text r = xs
  height : r.height ≤ h

variable {h h' i : Nat} {xs ys : List Byte} {r r' : Rope}

theorem holds_new : Holds h [] new := ⟨exact_empty, each_empty, rfl, Nat.zero_le _⟩

namespace Holds

theorem mono (hr : Holds h xs r) (hle : h ≤ h') : Holds h' xs r :=
  ⟨hr.exact, hr.counted, hr.text, Nat.le_trans hr.height hle⟩

theorem length_lt (hr : Holds h xs r) : xs.length < 2 ^ 64 := by
  rw [← hr.text]
  exact hr.exact.2

/-- **The cached summary counts the text.** -/
theorem part_summary (hr : Holds h xs r) (d : Dim) :
    (d.part (summary r)).toNat = d.measure xs := by
  have hlt : d.measure xs < 2 ^ 64 := Nat.lt_of_le_of_lt (d.measure_le_length xs) hr.length_lt
  have hpart : d.part (summary r) = BitVec.ofNat 64 (d.measure xs) := by
    obtain ⟨⟨hsound, -⟩, hcounted, htext, -⟩ := hr
    obtain ⟨_ | n, count, height⟩ := r
    · rw [← htext]
      exact ((d.measures fun _ => .other).one).trans
        (d.measures fun _ => .other).nil.symm
    · have hn := hsound.node n rfl
      have hxs : n.toList = xs := by rw [← htext]; exact (held_some n).symm
      rw [← hxs, ← (d.measures fun _ => .other).total_eq
        (each_dim (hcounted n rfl) d), ← hn.summary_eq]
      rfl
  rw [hpart, BitVec.toNat_ofNat, Nat.mod_eq_of_lt hlt]

theorem byteCount_eq (hr : Holds h xs r) : byteCount r = xs.length := hr.part_summary .bytes

theorem goesOnAt_eq (hr : Holds h xs r) (i : Nat) : goesOnAt r i = continuationAt xs i := by
  have hget := get_spec hr.exact.1 i
  have htext : r.toList = xs := hr.text
  rw [goesOnAt, hget, htext, continuationAt]
  cases xs[i]? <;> rfl

variable (graphemeBreak) in
theorem split (hr : Holds h xs r) (hh : h ≤ pathMax + 1) (hi : i ≤ xs.length) :
    ∃ left right, Ropes.split graphemeBreak r i = some (left, right) ∧
      Holds h (xs.take i) left ∧ Holds h (xs.drop i) right := by
  have htext : r.toList = xs := hr.text
  obtain ⟨left, right, hsplit, hl, hr', hlh, hrh⟩ :=
    (split_spec (summarize graphemeBreak) hr.exact.1 hr.exact.2 i).2 (by rwa [htext])
      (Nat.le_trans hr.height hh)
  obtain ⟨hel, her⟩ := exact_split hr.exact hsplit
  obtain ⟨hcl, hcr⟩ := split_each (cutKept_counted graphemeBreak) hr.exact.1 hr.counted
    trivial hsplit
  refine ⟨left, right, by rw [Ropes.split, hsplit]; rfl, ⟨hel, hcl, ?_, ?_⟩, her, hcr, ?_, ?_⟩
  · rw [← htext]
    exact hl.toList
  · exact Nat.le_trans hlh hr.height
  · rw [← htext]
    exact hr'.toList
  · exact Nat.le_trans hrh hr.height

/-- Beyond the end, a split has nothing on either side. -/
theorem split_beyond (hr : Holds h xs r) (hi : xs.length < i) :
    Ropes.split graphemeBreak r i = some (new, new) := by
  have htext : r.toList = xs := hr.text
  rw [Ropes.split, (split_spec _ hr.exact.1 hr.exact.2 i).1 (by rwa [htext])]
  rfl

theorem concat (hl : Holds h xs r) (hr : Holds h' ys r') (hh : h ≤ pathMax) (hh' : h' ≤ pathMax)
    (hlt : xs.length + ys.length < 2 ^ 64) :
    ∃ t, concat leafBytes r r' = some t ∧ Holds (max h h' + 1) (xs ++ ys) t := by
  have hm : 2 ≤ leafBytes := by decide
  have hxs : r.toList = xs := hl.text
  have hys : r'.toList = ys := hr.text
  have hfits : Fits r r' := by
    rw [Fits, hxs, hys]
    exact hlt
  have hreach : r.node = none ∨ r'.node = none ∨ Reaches r r' := by
    by_cases hn : r.node = none
    · exact .inl hn
    by_cases hn' : r'.node = none
    · exact .inr (.inl hn')
    obtain ⟨n, hn⟩ := Option.ne_none_iff_exists'.mp hn
    obtain ⟨n', hn'⟩ := Option.ne_none_iff_exists'.mp hn'
    have hpos := (hl.exact.1.node n hn).pos
    have hpos' := (hr.exact.1.node n' hn').pos
    have := hl.height
    have := hr.height
    exact .inr (.inr ⟨by omega, by omega⟩)
  obtain ⟨t, hconcat, ht⟩ := concat_spec hm hl.exact.1 hr.exact.1 hfits hreach
  have hhigh := concat_height hm ⟨fun n hn => (hl.exact.1.node n hn).toShape, hl.exact.1.height⟩
    ⟨fun n hn => (hr.exact.1.node n hn).toShape, hr.exact.1.height⟩ hconcat
  refine ⟨t, hconcat, exact_concat hm hl.exact hr.exact hfits hconcat,
    concat_each mergeKept_counted hl.counted hr.counted hconcat, ?_, ?_⟩
  · rw [← hxs, ← hys]
    exact ht.toList
  · have := hl.height
    have := hr.height
    by_cases hg : Grows leafBytes r r'
    · rw [hhigh.higher hg]
      omega
    · rw [hhigh.same hg]
      omega

end Holds

/-! ### Construction from a string -/

/-- From `pos` on, every leaf ends after its start, and `slots` entries are enough for them. -/
inductive LeavesFit (graphemeBreak : Nat → GraphemeBreak) (str : List Byte) : Nat → Nat → Prop
  | done {slots pos : Nat} : str.length ≤ pos → LeavesFit graphemeBreak str slots pos
  | leaf {slots pos : Nat} : pos < str.length → pos < leafEnd graphemeBreak str pos →
      LeavesFit graphemeBreak str slots (leafEnd graphemeBreak str pos) →
      LeavesFit graphemeBreak str (slots + 1) pos

/-- The texts whose leaves fit the buffer that `fromStr` has for them. -/
def Builds (graphemeBreak : Nat → GraphemeBreak) (str : List Byte) : Prop :=
  LeavesFit graphemeBreak str (leafSlots str.length) 0

variable {str : List Byte} {pos slots : Nat}

theorem leafEnd_le : leafEnd graphemeBreak str pos ≤ pos + leafBytes ∧
    leafEnd graphemeBreak str pos ≤ str.length := by
  have hmod := Nat.mod_le (pos + leafBytes) (2 ^ 64)
  have hsafe := @graphemeFindSafeSplit_le graphemeBreak str ((pos + leafBytes) % 2 ^ 64)
  rw [leafEnd]
  split <;> omega

/-- Sound leaves that hold the rest of the string. -/
structure LeavesOf (xs : List Byte) (ns : List (Node Byte RopeSummary)) : Prop where
  elems : elems ns = xs
  sound : ∀ n ∈ ns, n.Sound leafBytes 1
  counted : ∀ n ∈ ns, n.Each Counted
  few : ns.length ≤ xs.length

theorem leaves_spec (hfit : LeavesFit graphemeBreak str slots pos) :
    ∃ ns, leaves graphemeBreak str slots pos = some ns ∧ LeavesOf (str.drop pos) ns := by
  induction hfit with
  | @done slots pos hend =>
    refine ⟨[], by cases slots <;> exact if_pos hend, ?_, nofun, nofun, Nat.zero_le _⟩
    rw [List.drop_of_length_le hend]
    rfl
  | @leaf slots pos hlt hgo _ ih =>
    obtain ⟨ns, hns, hof⟩ := ih
    obtain ⟨hsize, hle⟩ := @leafEnd_le graphemeBreak str pos
    obtain ⟨stop, hstop⟩ : ∃ stop, stop = leafEnd graphemeBreak str pos := ⟨_, rfl⟩
    rw [← hstop] at hgo hns hof hsize hle
    obtain ⟨es, hes⟩ : ∃ es, es = (str.drop pos).take (stop - pos) := ⟨_, rfl⟩
    have hlen : es.length = stop - pos := by
      rw [hes, List.length_take, List.length_drop]
      omega
    have hrest : str.drop pos = es ++ str.drop stop := by
      have hcut := (List.take_append_drop (stop - pos) (str.drop pos)).symm
      rwa [List.drop_drop, Nat.add_sub_cancel' (Nat.le_of_lt hgo), ← hes] at hcut
    refine ⟨mkLeaf (summarize graphemeBreak) es :: ns, ?_, ?_, ?_, ?_, ?_⟩
    · rw [leaves, if_neg (Nat.not_le.mpr hlt)]
      dsimp only
      rw [← hstop, if_neg (Nat.not_le.mpr hgo), hns, hes]
      rfl
    · rw [hrest, elems_cons, hof.elems]
      rfl
    · intro n hn
      obtain rfl | hn := List.mem_cons.mp hn
      · exact sound_mkLeaf _ (List.ne_nil_of_length_pos (by omega)) (by omega)
      · exact hof.sound n hn
    · intro n hn
      obtain rfl | hn := List.mem_cons.mp hn
      · exact .leaf (counted_summarize _ es)
      · exact hof.counted n hn
    · rw [hrest, List.length_cons, List.length_append]
      have := hof.few
      omega

theorem leaves_none (hfit : ¬ LeavesFit graphemeBreak str slots pos) :
    leaves graphemeBreak str slots pos = none := by
  induction slots generalizing pos with
  | zero => exact if_neg fun hend => hfit (.done hend)
  | succ slots ih =>
    rw [leaves, if_neg fun hend => hfit (.done hend)]
    dsimp only
    split
    · rfl
    · rename_i hgo
      rw [ih fun hrest => hfit (.leaf (Nat.not_le.mp fun hend => hfit (.done hend))
        (Nat.not_le.mp hgo) hrest)]
      rfl

/-- The levels of a rope that was built from a string. -/
def builtLevels : Nat := 9

/-- **A string whose leaves fit is made a rope.** -/
theorem fromStr_spec (hne : str ≠ []) (hlt : str.length < 2 ^ 64) (hval : validate str = true)
    (hfit : Builds graphemeBreak str) :
    ∃ r, fromStr graphemeBreak str = some r ∧ Holds builtLevels str r := by
  have hm : 2 ≤ leafBytes := by decide
  obtain ⟨ns, hns, hof⟩ := leaves_spec hfit
  rw [List.drop_zero] at hof
  have hnne : ns ≠ [] := by
    rintro rfl
    exact hne hof.elems.symm
  obtain ⟨n, height, hbuild, hn, hto, hbound⟩ := buildUp_spec hm hnne (Nat.le_refl _) hof.sound
    (by rw [hof.elems]; exact hlt)
  have hsmall : ns.length ≤ leafBytes ^ 8 := by
    have : leafBytes ^ 8 = 2 ^ 64 := by decide
    have := hof.few
    omega
  have htext : n.toList = str := hto.trans hof.elems
  refine ⟨⟨some n, n.count, height⟩, ?_, ⟨?_, ?_⟩, each_node (buildUp_each hof.counted hbuild), ?_,
    hbound 8 hsmall⟩
  · rw [fromStr, if_neg (by rintro (h0 | h0); exacts [hne h0, by rw [hval] at h0; cases h0]), hns,
      Option.bind_some, mkRoot, hbuild]
    rfl
  · exact (rootAs_node hn hn.count_eq).sound
  · rw [(rootAs_node hn hn.count_eq).toList, htext]
    exact hlt
  · exact (held_some n).trans htext

theorem fromStr_invalid (h : str = [] ∨ validate str = false) :
    fromStr graphemeBreak str = some new := if_pos h

theorem fromStr_none (hne : str ≠ []) (hval : validate str = true)
    (hfit : ¬ Builds graphemeBreak str) : fromStr graphemeBreak str = none := by
  rw [fromStr, if_neg (by rintro (h0 | h0); exacts [hne h0, by rw [hval] at h0; cases h0]),
    leaves_none hfit]
  rfl

end Jacl.Ropes
