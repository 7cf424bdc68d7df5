import Jacl.Utf8

/-!
# NFD normalisation (`src/lib/unicode/unicode.h`)

`nfd` decomposes a text into a buffer of 256 codepoints, puts the combining marks in order and
encodes the result.  Where the buffer fills up it starts again and goes segment by segment: a
codepoint and the marks after it, in 128 places.  The generated tables are `Tables`; an array
is the list of what was written to it.
-/

namespace Jacl.Nfd
open Utf8

/-- The generated tables: combining classes, decompositions, and the quick check. -/
structure Tables where
  ccc : Nat → Nat
  decomp : Nat → Option (List Nat)
  qc : Nat → Bool

def sBase : Nat := 0xAC00
def lBase : Nat := 0x1100
def vBase : Nat := 0x1161
def tBase : Nat := 0x11A7
def tCount : Nat := 28
def nCount : Nat := 21 * tCount
def sCount : Nat := 19 * nCount

/-- A Hangul syllable. -/
def IsHangul (cp : Nat) : Prop := sBase ≤ cp ∧ cp < sBase + sCount

instance (cp : Nat) : Decidable (IsHangul cp) := inferInstanceAs (Decidable (_ ∧ _))

/-- What `nfd` returned, wrote to its buffer, and gave as the length that is needed. -/
structure Result where
  ret : Int
  dst : List Byte
  outLen : Nat
  deriving DecidableEq

section Source
variable (T : Tables)

/-- `unicode__decompose_cp`. -/
def decomposeCp (cp : Nat) : List Nat :=
  if IsHangul cp then
    let si := cp - sBase
    let l := lBase + si / nCount
    let v := vBase + si % nCount / tCount
    let t := tBase + si % tCount
    if t ≠ tBase then [l, v, t] else [l, v]
  else
    match T.decomp cp with
    | some d => d
    | none => [cp]

/-- A mark goes back past those of a higher class; `done` has the nearest first. -/
def sinkMark (cp : Nat) : List Nat → List Nat
  | [] => [cp]
  | prev :: done =>
    if T.ccc cp < T.ccc prev then prev :: sinkMark cp done else cp :: prev :: done

/-- One turn of the loop of `unicode__canonical_order`. -/
def orderStep (done : List Nat) (cp : Nat) : List Nat :=
  if T.ccc cp = 0 then cp :: done else sinkMark T cp done

/-- `unicode__canonical_order`. -/
def canonicalOrder (cps : List Nat) : List Nat := (cps.foldl (orderStep T) []).reverse

/-- Phase 1: the decomposition of the whole text, `none` where the buffer fills up. -/
def fillBuffer : Nat → List Byte → List Nat → Option (List Nat)
  | _, [], buf => some buf
  | 0, _ :: _, buf => some buf
  | fuel + 1, b :: rest, buf =>
    if b < 0x80#8 then
      if 240 ≤ buf.length + 1 then none else fillBuffer fuel rest (buf ++ [b.toNat])
    else
      match decode (b :: rest) with
      | none => fillBuffer fuel rest buf
      | some (cp, consumed) =>
        let decomposed := decomposeCp T cp
        if 256 ≤ buf.length + decomposed.length then none
        else fillBuffer fuel ((b :: rest).drop consumed) (buf ++ decomposed)

/-- The loop that writes the bytes of `cps` as far as they fit and counts them all. -/
def emit (dstCap : Nat) : List Nat → List Byte × Nat → List Byte × Nat
  | [], out => out
  | cp :: cps, (dst, total) =>
    let enc := encode cp
    emit dstCap cps (if total + enc.length ≤ dstCap then dst ++ enc else dst, total + enc.length)

def finish (dstCap : Nat) (out : List Byte × Nat) : Result :=
  ⟨if out.2 ≤ dstCap then 0 else -1, out.1, out.2⟩

/-- The codepoint at the front, with the fast path for ASCII. -/
def front (src : List Byte) : Option (Nat × Nat) :=
  match src with
  | [] => none
  | b :: _ => if b < 0x80#8 then some (b.toNat, 1) else decode src

/-- The segment ends before `rest`: at the end, at ASCII, at what is no codepoint, or at one whose
decomposition starts with a starter. -/
def endsBefore (rest : List Byte) : Bool :=
  match rest with
  | [] => true
  | b :: _ =>
    if b < 0x80#8 then true
    else
      match decode rest with
      | none => true
      | some (next, _) =>
        match decomposeCp T next with
        | [] => false
        | first :: _ => T.ccc first == 0

/-- One segment, in at most 128 places, and the text after it. -/
def collect : Nat → List Byte → List Nat → List Nat × List Byte
  | 0, src, seg => (seg, src)
  | fuel + 1, src, seg =>
    match src with
    | [] => (seg, [])
    | _ :: tail =>
      match front src with
      | none => collect fuel tail seg
      | some (cp, consumed) =>
        let seg := (seg ++ decomposeCp T cp).take 128
        let rest := src.drop consumed
        if endsBefore T rest then (seg, rest) else collect fuel rest seg

/-- The loop over the segments. -/
def segments (dstCap : Nat) : Nat → List Byte → List Byte × Nat → List Byte × Nat
  | 0, _, out => out
  | fuel + 1, src, out =>
    match src with
    | [] => out
    | _ :: _ =>
      let (seg, rest) := collect T src.length src []
      segments dstCap fuel rest (emit dstCap (canonicalOrder T seg) out)

/-- The path of the single buffer, if it does not overflow. -/
def nfdBuffer (src : List Byte) (dstCap : Nat) : Option Result :=
  (fillBuffer T src.length src []).map fun buf => finish dstCap (emit dstCap (canonicalOrder T buf) ([], 0))

/-- The path of the segments. -/
def nfdSegments (src : List Byte) (dstCap : Nat) : Result :=
  finish dstCap (segments T dstCap src.length src ([], 0))

/-- `unicode_nfd`. -/
def nfd (src : List Byte) (dstCap : Nat) : Result :=
  match nfdBuffer T src dstCap with
  | some result => result
  | none => nfdSegments T src dstCap

/-- `unicode_nfd_length`. -/
def nfdLength (src : List Byte) : Nat := (nfd T src 0).outLen

/-- The loop of `unicode_is_nfd`. -/
def isNfdFrom : Nat → List Byte → Nat → Bool
  | _, [], _ => true
  | 0, _ :: _, _ => false
  | fuel + 1, b :: rest, lastCcc =>
    if b < 0x80#8 then isNfdFrom fuel rest 0
    else
      match decode (b :: rest) with
      | none => false
      | some (cp, consumed) =>
        if IsHangul cp then false
        else if T.qc cp then false
        else if T.ccc cp ≠ 0 ∧ T.ccc cp < lastCcc then false
        else isNfdFrom fuel ((b :: rest).drop consumed) (T.ccc cp)

/-- `unicode_is_nfd`. -/
def isNfd (src : List Byte) : Bool := isNfdFrom T src.length src 0

end Source

/-! ### The form -/

/-- Each run of marks stably sorted by class: `run` is the run that `cps` goes on with. -/
def sortRuns (T : Tables) (run : List Nat) : List Nat → List Nat
  | [] => run.mergeSort fun a b => T.ccc a ≤ T.ccc b
  | cp :: cps =>
    if T.ccc cp = 0 then (run.mergeSort fun a b => T.ccc a ≤ T.ccc b) ++ cp :: sortRuns T [] cps
    else sortRuns T (run ++ [cp]) cps

/-- The decomposition of a text. -/
def decomposed (T : Tables) (cps : List Nat) : List Nat := cps.flatMap (decomposeCp T)

/-- **The canonical decomposition** of a text. -/
def canonicalForm (T : Tables) (cps : List Nat) : List Nat := sortRuns T [] (decomposed T cps)

/-- **The tables are the Unicode data**: ASCII has no decomposition and class 0; decompositions are
full, of scalar values and not empty; the quick check says which codepoints have one. -/
structure Tables.Unicode (T : Tables) : Prop where
  ascii : ∀ cp < 0x80, T.decomp cp = none ∧ T.ccc cp = 0
  full : ∀ cp, Scalar cp → ∀ d ∈ decomposeCp T cp, T.decomp d = none ∧ ¬ IsHangul d
  scalar : ∀ cp, Scalar cp → ∀ d ∈ decomposeCp T cp, Scalar d
  nonempty : ∀ cp, decomposeCp T cp ≠ []
  check : ∀ cp, ¬ IsHangul cp → (T.qc cp = true ↔ (T.decomp cp).isSome)

end Jacl.Nfd
