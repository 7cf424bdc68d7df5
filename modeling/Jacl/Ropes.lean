import Jacl.GraphemesBack
import Jacl.SumTreeLeaves
import Jacl.Utf8Cuts

/-!
# Ropes (`src/lib/sum_tree/rope.h`)

A rope is a sum tree of bytes, 256 to a leaf, whose summaries count bytes, codepoints, lines and
grapheme clusters.  Trees are values here, so that no operation changes its argument.  `none` is
a call that does not come back as it should: a path longer than its array, or a text whose leaves
do not fit the buffer that `fromStr` puts them in.
-/

namespace Jacl.Ropes
open Utf8 Graphemes
open SumTree hiding empty split

structure RopeSummary where
  bytes : BitVec 64
  chars : BitVec 64
  lines : BitVec 64
  graphemes : BitVec 64
  deriving DecidableEq

/-- `rope_summary_identity`. -/
instance : One RopeSummary := ⟨⟨0, 0, 0, 0⟩⟩

/-- `rope_summary_combine`. -/
instance : Mul RopeSummary where
  mul a b := ⟨a.bytes + b.bytes, a.chars + b.chars, a.lines + b.lines, a.graphemes + b.graphemes⟩

theorem mul_def (a b : RopeSummary) : a * b =
    ⟨a.bytes + b.bytes, a.chars + b.chars, a.lines + b.lines, a.graphemes + b.graphemes⟩ := rfl

theorem one_def : (1 : RopeSummary) = ⟨0, 0, 0, 0⟩ := rfl

instance : Monoid RopeSummary where
  mul_assoc a b c := by simp only [mul_def, BitVec.add_assoc]
  one_mul a := by simp only [one_def, mul_def, BitVec.ofNat_eq_ofNat, BitVec.zero_add]
  mul_one a := by simp only [one_def, mul_def, BitVec.ofNat_eq_ofNat, BitVec.add_zero]

abbrev Rope : Type := Root Byte RopeSummary

/-- `ROPE_LEAF_BYTES`. -/
def leafBytes : Nat := 256

/-- `utf8_line_count`. -/
def lineCount (src : List Byte) : Nat := src.count 0x0A

/-- The line feeds after a carriage return. -/
def crlfPairs : List Byte → Nat
  | 0x0D :: 0x0A :: rest => crlfPairs (0x0A :: rest) + 1
  | _ :: rest => crlfPairs rest
  | [] => 0

def isAscii (elems : List Byte) : Bool := elems.all (· < 0x80)

/-- The text of a rope. -/
def text (r : Rope) : List Byte := r.toList

def summary (r : Rope) : RopeSummary :=
  match r.node with
  | some n => n.summary
  | none => 1

def byteCount (r : Rope) : Nat := (summary r).bytes.toNat

def charCount (r : Rope) : Nat := (summary r).chars.toNat

def lineTotal (r : Rope) : Nat := (summary r).lines.toNat

/-- `rope_new`. -/
def new : Rope := SumTree.empty

/-- The byte at `i` of the rope is a continuation byte. -/
def goesOnAt (r : Rope) (i : Nat) : Bool :=
  match SumTree.get r i with
  | some b => isContinuation b
  | none => false

section Source
variable (graphemeBreak : Nat → GraphemeBreak)

def summarize (elems : List Byte) : RopeSummary :=
  if isAscii elems then
    ⟨.ofNat 64 elems.length, .ofNat 64 elems.length, .ofNat 64 (lineCount elems),
      .ofNat 64 (elems.length - crlfPairs elems)⟩
  else
    ⟨.ofNat 64 elems.length, .ofNat 64 (codepointCount elems), .ofNat 64 (lineCount elems),
      .ofNat 64 (graphemeCount graphemeBreak elems)⟩

/-! ### Construction from a string -/

/-- Where the leaf that starts at `pos` ends. -/
def leafEnd (str : List Byte) (pos : Nat) : Nat :=
  let stop := (pos + leafBytes) % 2 ^ 64
  if str.length ≤ stop then str.length else graphemeFindSafeSplit graphemeBreak str stop

/-- The entries of the buffer for the leaves. -/
def leafSlots (byteLen : Nat) : Nat :=
  let estMax := (byteLen + leafBytes - 1) % 2 ^ 64 / leafBytes + 1
  if 512 < estMax then estMax else 512

/-- The leaves from `pos` on, in a buffer with `slots` entries left. -/
def leaves (str : List Byte) : Nat → Nat → Option (List (Node Byte RopeSummary))
  | 0, pos => if str.length ≤ pos then some [] else none
  | slots + 1, pos =>
    if str.length ≤ pos then some []
    else
      let stop := leafEnd graphemeBreak str pos
      -- an empty leaf is followed by more of them, until the buffer is full
      if stop ≤ pos then none
      else
        (leaves str slots stop).map
          (mkLeaf (summarize graphemeBreak) ((str.drop pos).take (stop - pos)) :: ·)

def mkRoot (nodes : List (Node Byte RopeSummary)) : Option Rope :=
  (buildUp leafBytes nodes.length 1 nodes).map fun (n, height) => ⟨some n, n.count, height⟩

def fromStr (str : List Byte) : Option Rope :=
  if str = [] ∨ validate str = false then some new
  else (leaves graphemeBreak str (leafSlots str.length) 0).bind mkRoot

/-! ### Edits -/

/-- `rope_st_split`: both sides are empty where it is not ok. -/
def split (r : Rope) (index : Nat) : Option (Rope × Rope) :=
  (SumTree.split (summarize graphemeBreak) r index).map (·.getD (new, new))

def insert (r : Rope) (byteOffset : Nat) (str : List Byte) : Option Rope :=
  let total := byteCount r
  if total < byteOffset then some r
  else if 0 < byteOffset ∧ byteOffset < total ∧ goesOnAt r byteOffset then some r
  else if str = [] then some r
  else do
    let inserted ← fromStr graphemeBreak str
    if byteCount inserted = 0 then some r
    else do
      let (left, right) ← split graphemeBreak r byteOffset
      let tmp ← concat leafBytes left inserted
      concat leafBytes tmp right

/-- The length that is left of `byteLen` up to the end of the text. -/
def clamped (total byteOffset byteLen : Nat) : Nat :=
  if total < (byteOffset + byteLen) % 2 ^ 64 then total - byteOffset else byteLen

def delete (r : Rope) (byteOffset byteLen : Nat) : Option Rope :=
  let total := byteCount r
  if total < byteOffset then some r
  else if byteLen = 0 then some r
  else
    let byteLen := clamped total byteOffset byteLen
    let stop := (byteOffset + byteLen) % 2 ^ 64
    if 0 < byteOffset ∧ byteOffset < total ∧ goesOnAt r byteOffset then some r
    else if 0 < stop ∧ stop < total ∧ goesOnAt r stop then some r
    else do
      let (before, rest) ← split graphemeBreak r byteOffset
      let (_, after) ← split graphemeBreak rest byteLen
      concat leafBytes before after

def slice (r : Rope) (byteOffset byteLen : Nat) : Option Rope :=
  let total := byteCount r
  if byteLen = 0 then some new
  else if total ≤ byteOffset then some new
  else
    let byteLen := clamped total byteOffset byteLen
    let stop := (byteOffset + byteLen) % 2 ^ 64
    if 0 < byteOffset ∧ goesOnAt r byteOffset then some new
    else if stop < total ∧ goesOnAt r stop then some new
    else do
      let (_, rest) ← split graphemeBreak r byteOffset
      let (part, _) ← split graphemeBreak rest byteLen
      pure part

def replace (r : Rope) (byteOffset byteLen : Nat) (str : List Byte) : Option Rope := do
  let afterDelete ← delete graphemeBreak r byteOffset byteLen
  insert graphemeBreak afterDelete byteOffset str

end Source

end Jacl.Ropes
