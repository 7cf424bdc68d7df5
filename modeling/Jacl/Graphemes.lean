import Jacl.BreakMachines
import Jacl.Utf8

/-!
# Grapheme clusters (`src/lib/unicode/unicode.h`)

`graphemeNext` reads on from a boundary, with the class of the codepoint before, a flag for
emoji sequences and a count of regional indicators.  The generated class table is the
parameter `graphemeBreak`.  A cluster of the bytes is a part of the machine `clusters`.
-/

namespace Jacl.Graphemes
open Utf8 BreakMachines

inductive GraphemeBreak
  | other | cr | lf | control | extend | zwj | regionalIndicator | prepend | spacingMark
  | l | v | t | lv | lvt | extendedPictographic
  deriving DecidableEq, Repr

/-- Control, CR or LF. -/
def GraphemeBreak.isControl : GraphemeBreak → Bool
  | .control | .cr | .lf => true
  | _ => false

/-- The variables of the loop: the class before, the flag of GB11, the count of GB12 and GB13. -/
structure Scan where
  prev : GraphemeBreak
  seenExtPic : Bool
  riCount : Nat
  deriving DecidableEq, Repr

def Scan.start (prev : GraphemeBreak) : Scan :=
  ⟨prev, prev == .extendedPictographic, if prev = .regionalIndicator then 1 else 0⟩

/-- The flag after an Extend or a ZWJ. -/
def Scan.kept (s : Scan) (next : GraphemeBreak) : Bool :=
  if next = .zwj ∧ s.seenExtPic then s.seenExtPic
  else if next = .extend then s.seenExtPic
  else false

/-- One turn of the loop: the state with `next` in the cluster, `none` for a break before it. -/
def Scan.step (s : Scan) (next : GraphemeBreak) : Option Scan :=
  if next.isControl then none
  else if s.prev = .l ∧ (next = .l ∨ next = .v ∨ next = .lv ∨ next = .lvt) then
    some { s with prev := next }
  else if (s.prev = .lv ∨ s.prev = .v) ∧ (next = .v ∨ next = .t) then some { s with prev := next }
  else if (s.prev = .lvt ∨ s.prev = .t) ∧ next = .t then some { s with prev := next }
  else if next = .extend ∨ next = .zwj then some ⟨next, s.kept next, 0⟩
  else if next = .spacingMark then some ⟨next, false, 0⟩
  else if s.prev = .prepend then some (Scan.start next)
  else if s.prev = .zwj ∧ s.seenExtPic ∧ next = .extendedPictographic then some ⟨next, true, 0⟩
  else if s.prev = .regionalIndicator ∧ next = .regionalIndicator ∧ s.riCount % 2 = 1 then
    some ⟨next, false, s.riCount + 1⟩
  else none

section Source
variable (graphemeBreak : Nat → GraphemeBreak)

/-- The loop from `cur`, with `rest` the text there: each turn takes a byte of fuel at least. -/
def scan : Nat → List Byte → Nat → Scan → Nat
  | 0, _, cur, _ => cur
  | fuel + 1, rest, cur, s =>
    match decode rest with
    | none => cur
    | some (cp, n) =>
      match s.step (graphemeBreak cp) with
      | none => cur
      | some s' => scan fuel (rest.drop n) (cur + n) s'

/-- Where the line feed at the front of `rest` ends. -/
def lineFeed (rest : List Byte) (cur : Nat) : Option Nat :=
  match decode rest with
  | none => none
  | some (cp, n) => if graphemeBreak cp = .lf then some (cur + n) else none

/-- The next boundary after `pos`. -/
def graphemeNext (src : List Byte) (pos : Nat) : Nat :=
  if src.length ≤ pos then src.length
  else
    match decode (src.drop pos) with
    | none => pos + 1
    | some (cp, consumed) =>
      let cur := pos + consumed
      let prev := graphemeBreak cp
      match if prev = .cr then lineFeed graphemeBreak (src.drop cur) cur else none with
      | some stop => stop
      | none =>
        if prev.isControl then cur
        else scan graphemeBreak src.length (src.drop cur) cur (Scan.start prev)

/-- The boundaries that `graphemeNext` comes to from offset 0. -/
def graphemeBoundaries (src : List Byte) : List Nat :=
  walk (graphemeNext graphemeBreak src) src.length src.length 0

/-- The loop of `graphemeCount`, for at most `fuel` clusters. -/
def countFrom (src : List Byte) : Nat → Nat → Nat
  | 0, _ => 0
  | fuel + 1, pos =>
    if pos < src.length then countFrom src fuel (graphemeNext graphemeBreak src pos) + 1 else 0

def graphemeCount (src : List Byte) : Nat := countFrom graphemeBreak src src.length 0

/-- The rules of `graphemeNext` as one machine over codepoints. -/
def clusters : Machine Nat Scan where
  start cp := Scan.start (graphemeBreak cp)
  next s cp :=
    if s.prev = .cr ∧ graphemeBreak cp = .lf then some (Scan.start .lf)
    else if s.prev.isControl then none
    else s.step (graphemeBreak cp)

end Source

variable {graphemeBreak : Nat → GraphemeBreak} {cps before after : List Nat} {s s' : Scan} {cp : Nat}
  {next : GraphemeBreak}

/-! ### The code on the text of a sequence of codepoints -/

/-- The bytes of the text of `cps`. -/
def offset (cps : List Nat) : Nat := size (fun cp => (encode cp).length) cps

@[simp] theorem offset_nil : offset [] = 0 := rfl

@[simp] theorem offset_cons : offset (cp :: cps) = (encode cp).length + offset cps := rfl

@[simp] theorem offset_append : offset (before ++ after) = offset before + offset after := size_append

theorem length_encodeAll : (encodeAll cps).length = offset cps := by
  induction cps with
  | nil => rfl
  | cons cp cps ih => rw [encodeAll_cons, List.length_append, ih, offset_cons]

theorem drop_encodeAll : (encodeAll (before ++ after)).drop (offset before) = encodeAll after := by
  rw [encodeAll_append, ← length_encodeAll, List.drop_left]

theorem length_le_offset (h : ∀ cp ∈ cps, Scalar cp) : cps.length ≤ offset cps := by
  induction cps with
  | nil => exact Nat.le_refl _
  | cons cp cps ih =>
    have hcp := encode_length_pos (h cp List.mem_cons_self)
    have hcps := ih fun c hc => h c (List.mem_cons_of_mem _ hc)
    rw [List.length_cons, offset_cons]
    omega

/-- A turn of the loop that goes on has the class of the codepoint it took. -/
theorem Scan.step_prev (h : s.step next = some s') : s'.prev = next ∧ next.isControl = false := by
  unfold Scan.step at h
  split_ifs at h with hc
  all_goals
    obtain rfl := Option.some.inj h
    exact ⟨rfl, Bool.eq_false_iff.mpr hc⟩

theorem next_of_control (h : s.prev.isControl = false) :
    (clusters graphemeBreak).next s cp = s.step (graphemeBreak cp) := by
  have hcr : s.prev ≠ .cr := by
    intro hcr
    rw [hcr] at h
    cases h
  show ite _ _ _ = _
  rw [if_neg fun hlf => hcr hlf.1, if_neg (by rw [h]; decide)]

/-- The loop takes what the machine takes. -/
theorem scan_encodeAll {fuel cur : Nat} (hcps : ∀ cp ∈ cps, Scalar cp) (hfuel : cps.length ≤ fuel)
    (hs : s.prev.isControl = false) :
    scan graphemeBreak fuel (encodeAll cps) cur s =
      cur + offset (cps.take ((clusters graphemeBreak).taken s cps)) := by
  induction cps generalizing fuel cur s with
  | nil => cases fuel <;> rfl
  | cons cp cps ih =>
    obtain ⟨fuel, rfl⟩ := Nat.exists_eq_succ_of_ne_zero (Nat.ne_of_gt (Nat.lt_of_lt_of_le
      (Nat.zero_lt_succ _) hfuel))
    have hdecode : decode (encodeAll (cp :: cps)) = some (cp, (encode cp).length) :=
      decode_encode (hcps cp List.mem_cons_self)
    rw [scan, hdecode, Machine.taken, next_of_control hs]
    dsimp only
    cases hstep : s.step (graphemeBreak cp) with
    | none => rfl
    | some s' =>
      obtain ⟨hprev, hcontrol⟩ := Scan.step_prev hstep
      show scan graphemeBreak fuel ((encode cp ++ encodeAll cps).drop (encode cp).length) _ s' = _
      rw [List.drop_left, ih (fun c hc => hcps c (List.mem_cons_of_mem _ hc))
        (Nat.le_of_succ_le_succ hfuel) (hprev ▸ hcontrol), List.take_succ_cons, offset_cons,
        Nat.add_assoc]

/-- Nothing goes with a control character other than the line feed of GB3. -/
theorem taken_of_control (h : s.prev.isControl = true)
    (hlf : ∀ cp rest, cps = cp :: rest → ¬ (s.prev = .cr ∧ graphemeBreak cp = .lf)) :
    (clusters graphemeBreak).taken s cps = 0 := by
  cases cps with
  | nil => rfl
  | cons cp rest =>
    have hnone : (clusters graphemeBreak).next s cp = none := by
      show ite _ _ _ = _
      rw [if_neg (hlf cp rest rfl), if_pos h]
    rw [Machine.taken, hnone]

/-- **A cluster of the code** is a part of the machine. -/
theorem graphemeNext_encodeAll {l r : List Nat} (hcps : ∀ c ∈ l ++ cp :: r, Scalar c) :
    graphemeNext graphemeBreak (encodeAll (l ++ cp :: r)) (offset l) =
      offset (l ++ cp :: r.take ((clusters graphemeBreak).taken ((clusters graphemeBreak).start cp) r)) := by
  have hcp : Scalar cp := hcps cp (by simp)
  have hr : ∀ c ∈ r, Scalar c := fun c hc => hcps c (by simp [hc])
  have hpos := encode_length_pos hcp
  have hlen : ¬ (encodeAll (l ++ cp :: r)).length ≤ offset l := by
    rw [length_encodeAll, offset_append, offset_cons]
    omega
  have hdecode : decode ((encodeAll (l ++ cp :: r)).drop (offset l)) = some (cp, (encode cp).length) := by
    rw [drop_encodeAll]
    exact decode_encode hcp
  have hdrop : (encodeAll (l ++ cp :: r)).drop (offset l + (encode cp).length) = encodeAll r := by
    rw [← List.drop_drop, drop_encodeAll, encodeAll_cons, List.drop_left]
  have hfuel : r.length ≤ (encodeAll (l ++ cp :: r)).length := by
    have hle := length_le_offset hr
    rw [length_encodeAll, offset_append, offset_cons]
    omega
  have hcur : offset (l ++ cp :: r.take ((clusters graphemeBreak).taken ((clusters graphemeBreak).start cp) r)) =
      offset l + (encode cp).length +
        offset (r.take ((clusters graphemeBreak).taken ((clusters graphemeBreak).start cp) r)) := by
    rw [offset_append, offset_cons, Nat.add_assoc]
  rw [graphemeNext, if_neg hlen, hdecode, hcur]
  dsimp only
  rw [hdrop]
  have hstart : ((clusters graphemeBreak).start cp).prev = graphemeBreak cp := rfl
  cases hlf : (if graphemeBreak cp = .cr then
      lineFeed graphemeBreak (encodeAll r) (offset l + (encode cp).length) else none) with
  | some stop =>
    split_ifs at hlf with hcr
    cases r with
    | nil => cases hlf
    | cons c r =>
      have hc : decode (encodeAll (c :: r)) = some (c, (encode c).length) :=
        decode_encode (hr c List.mem_cons_self)
      rw [lineFeed, hc] at hlf
      dsimp only at hlf
      split_ifs at hlf with hbreak
      obtain rfl := Option.some.inj hlf
      have hnext : (clusters graphemeBreak).next ((clusters graphemeBreak).start cp) c =
          some (Scan.start .lf) := by
        show ite _ _ _ = _
        rw [if_pos ⟨hstart.trans hcr, hbreak⟩]
      have hrest : (clusters graphemeBreak).taken (Scan.start .lf) r = 0 :=
        taken_of_control rfl (by rintro c rest - ⟨hcr, -⟩; cases hcr)
      rw [Machine.taken, hnext]
      dsimp only
      rw [hrest, List.take_succ_cons, List.take_zero, offset_cons, offset_nil, Nat.add_zero]
  | none =>
    dsimp only
    split_ifs with hcontrol
    · rw [taken_of_control (hstart.symm ▸ hcontrol)]
      · rfl
      · rintro c rest rfl ⟨hcr, hbreak⟩
        have hc : decode (encodeAll (c :: rest)) = some (c, (encode c).length) :=
          decode_encode (hr c List.mem_cons_self)
        rw [if_pos (hstart.symm.trans hcr), lineFeed, hc] at hlf
        dsimp only at hlf
        rw [if_pos hbreak] at hlf
        cases hlf
    · exact scan_encodeAll hr hfuel (Bool.eq_false_iff.mpr hcontrol)

/-- **The boundaries of the code** are the cuts of the machine. -/
theorem mem_graphemeBoundaries {p : Nat} (hcps : ∀ c ∈ cps, Scalar c) :
    p ∈ graphemeBoundaries graphemeBreak (encodeAll cps) ↔
      ∃ before after, cps = before ++ after ∧ p = offset before ∧ (clusters graphemeBreak).Cut before after := by
  have hfuel : cps.length ≤ (encodeAll cps).length := by
    rw [length_encodeAll]
    exact length_le_offset hcps
  have hwalk := @mem_walk_iff Nat Scan (clusters graphemeBreak) (fun cp => (encode cp).length) cps [] cps
    (graphemeNext graphemeBreak (encodeAll cps)) (encodeAll cps).length p
    (fun c hc => encode_length_pos (hcps c hc))
    (fun l c r hwhole => by subst hwhole; exact graphemeNext_encodeAll hcps) rfl hfuel
  rw [graphemeBoundaries]
  rw [length_encodeAll] at hwalk ⊢
  exact hwalk

/-- The count is of the clusters between the boundaries. -/
theorem length_walk {src : List Byte} {fuel pos : Nat} :
    (walk (graphemeNext graphemeBreak src) src.length fuel pos).length =
      countFrom graphemeBreak src fuel pos + 1 := by
  induction fuel generalizing pos with
  | zero => rfl
  | succ fuel ih =>
    rw [walk, countFrom]
    split_ifs
    · rw [List.length_cons, ih]
    · rfl

theorem graphemeCount_succ {src : List Byte} :
    graphemeCount graphemeBreak src + 1 = (graphemeBoundaries graphemeBreak src).length :=
  length_walk.symm

end Jacl.Graphemes
