import Jacl.Regex

/-!
# Regular expressions (`lib/regex/nfa.h`): the compiler

A tree becomes a program of instructions with targets, built fragment by fragment: a fragment has
an entry and a list of targets that are still to be patched.  Instructions are appended with
targets of zero, which the patches set.

Failing allocations are left out; so is freeing.
-/

namespace Jacl.Regex

inductive Op where
  | literal (byte : Byte)
  | range (lo hi : Byte)
  | cls (ranges : List Range)
  | any
  | anyAll
  | matched
  | split
  | jmp
  | anchor (kind : Anchor)
  | save (slot : Nat)
deriving DecidableEq, Repr

/-- `out1` is the second target of a split. -/
structure Inst where
  op : Op
  out : Nat
  out1 : Nat
deriving DecidableEq, Repr

abbrev Code : Type := List Inst

/-- A target to be patched: of which instruction, and whether it is `out1`. -/
abbrev PatchLoc : Type := Nat × Bool

structure Frag where
  start : Nat
  patches : List PatchLoc

/-- What compiling a node does: it appends to the code. -/
abbrev Gen : Type := Code → Frag × Code

def Inst.setTarget (ins : Inst) (which : Bool) (target : Nat) : Inst :=
  if which then { ins with out1 := target } else { ins with out := target }

/-- `_nfa_frag_patch`. -/
def patch (code : Code) (patches : List PatchLoc) (target : Nat) : Code :=
  patches.foldl (fun code p => code.modify p.1 (·.setTarget p.2 target)) code

/-! ### Character classes -/

/-- Insertion in the order of the lower ends, after those that are equal. -/
def insertRange (r : Range) : List Range → List Range
  | [] => [r]
  | s :: rest => if s.lo ≤ r.lo then s :: insertRange r rest else r :: s :: rest

/-- The insertion sort. -/
def sortRanges (ranges : List Range) : List Range :=
  ranges.foldl (fun sorted r => insertRange r sorted) []

/-- Ranges that overlap or touch become one; `last` is the one that may still grow. -/
def mergeRanges (last : Range) : List Range → List Range
  | [] => [last]
  | r :: rest =>
    if r.lo.toNat ≤ last.hi.toNat + 1 then
      mergeRanges (if last.hi < r.hi then { last with hi := r.hi } else last) rest
    else last :: mergeRanges r rest

/-- What lies between the ranges, from `prev` on. -/
def gaps : Nat → List Range → List Range
  | prev, [] => if prev ≤ 255 then [⟨UInt8.ofNat prev, 255⟩] else []
  | prev, r :: rest =>
    if prev < r.lo.toNat then ⟨UInt8.ofNat prev, r.lo - 1⟩ :: gaps (r.hi.toNat + 1) rest
    else gaps (r.hi.toNat + 1) rest

/-- The ranges that the arrays of the complement hold. -/
def sortedMax : Nat := 256

/-- `_nfa_complement_ranges`. -/
def complementRanges (ranges : List Range) : List Range :=
  match sortRanges (ranges.take sortedMax) with
  | [] => [⟨0, 255⟩]
  | r :: rest => gaps 0 (mergeRanges r rest)

def isAlpha (b : Byte) : Bool := (ch 'a' ≤ b && b ≤ ch 'z') || (ch 'A' ≤ b && b ≤ ch 'Z')

/-- A range with the other case of its letters. -/
def icaseRange (r : Range) : List Range :=
  let upper :=
    if r.lo ≤ ch 'z' ∧ ch 'a' ≤ r.hi then [⟨max r.lo (ch 'a') - 32, min r.hi (ch 'z') - 32⟩] else []
  let lower :=
    if r.lo ≤ ch 'Z' ∧ ch 'A' ≤ r.hi then [⟨max r.lo (ch 'A') + 32, min r.hi (ch 'Z') + 32⟩] else []
  r :: (upper ++ lower)

/-- `_nfa_icase_expand`. -/
def icaseExpand (ranges : List Range) : List Range := ranges.flatMap icaseRange

/-- The ranges of a class with respect to case. -/
def classRanges (ranges : List Range) (icase : Bool) : List Range :=
  if icase then icaseExpand ranges else ranges

def classOp : List Range → Op
  | [] => .range 1 0
  | [r] => .range r.lo r.hi
  | ranges => .cls ranges

/-! ### Fragments -/

/-- One instruction, with its target open. -/
def singleGen (op : Op) : Gen := fun code =>
  (⟨code.length, [(code.length, false)]⟩, code ++ [⟨op, 0, 0⟩])

/-- Both cases of a letter. -/
def letterGen (b : Byte) : Gen := fun code =>
  let lower := if ch 'a' ≤ b then b else b + 32
  let upper := if b ≤ ch 'Z' then b else b - 32
  let r0 := code.length + 1
  let r1 := code.length + 2
  (⟨code.length, [(r0, false), (r1, false)]⟩,
    code ++ [⟨.split, r0, r1⟩, ⟨.range lower lower, 0, 0⟩, ⟨.range upper upper, 0, 0⟩])

def byteGen (icase : Bool) (b : Byte) : Gen :=
  if icase && isAlpha b then letterGen b else singleGen (.literal b)

/-- The first fragment's exits lead to the second. -/
def chainGen (first second : Gen) : Gen := fun code =>
  let (f, code) := first code
  let (g, code) := second code
  (⟨f.start, g.patches⟩, patch code f.patches g.start)

/-- One after the other; nothing matches the empty string. -/
def seqGen : List Gen → Gen
  | [] => singleGen .jmp
  | first :: rest => rest.foldl chainGen first

def compileEach : List Gen → Code → List Frag × Code
  | [], code => ([], code)
  | g :: gens, code =>
    let (f, code) := g code
    let (frags, code) := compileEach gens code
    (f :: frags, code)

/-- The splits of an alternation from instruction `n` on: to a branch, and to the next split or
the last branch. -/
def splitChain : Nat → List Frag → Code
  | n, f :: g :: h :: frags => ⟨.split, f.start, n + 1⟩ :: splitChain (n + 1) (g :: h :: frags)
  | _, [f, g] => [⟨.split, f.start, g.start⟩]
  | _, _ => []

def altGen : List Gen → Gen
  | [] => singleGen .jmp
  | [g] => g
  | gens => fun code =>
    let (frags, code) := compileEach gens code
    (⟨code.length, frags.flatMap Frag.patches⟩, code ++ splitChain code.length frags)

/-- A split to a body and to an exit that is to be patched. -/
def loopSplit (greedy : Bool) (body : Nat) : Inst :=
  if greedy then ⟨.split, body, 0⟩ else ⟨.split, 0, body⟩

def starGen (greedy : Bool) (body : Gen) : Gen := fun code =>
  let (f, code) := body code
  let sidx := code.length
  let jidx := sidx + 1
  (⟨sidx, [(sidx, greedy)]⟩,
    patch (code ++ [loopSplit greedy f.start, ⟨.jmp, sidx, 0⟩]) f.patches jidx)

def plusGen (greedy : Bool) (body : Gen) : Gen := fun code =>
  let (f, code) := body code
  let sidx := code.length
  (⟨f.start, [(sidx, greedy)]⟩, patch (code ++ [loopSplit greedy f.start]) f.patches sidx)

def optGen (greedy : Bool) (body : Gen) : Gen := fun code =>
  let (f, code) := body code
  let sidx := code.length
  (⟨sidx, f.patches ++ [(sidx, greedy)]⟩, code ++ [loopSplit greedy f.start])

/-- One more optional copy: a split before it, to which the `chain` before leads, and which is an
exit, as all before are. -/
def optionalCopy (greedy : Bool) (body : Gen) (chain : Option Frag) (exits : Frag) (code : Code) :
    Frag × Frag × Code :=
  let sidx := code.length
  let (f, code) := body (code ++ [⟨.split, 0, 0⟩])
  let code := code.modify sidx (·.setTarget (!greedy) f.start)
  let exits := ⟨exits.start, exits.patches ++ [(sidx, greedy)]⟩
  match chain with
  | some c => (f, exits, patch code c.patches sidx)
  | none => (f, ⟨sidx, exits.patches⟩, code)

/-- `opt` optional copies. -/
def optionalCopies (greedy : Bool) (body : Gen) : Nat → Option Frag → Frag → Code → Frag × Code
  | 0, chain, exits, code => (⟨exits.start, exits.patches ++ (chain.map Frag.patches).getD []⟩, code)
  | opt + 1, chain, exits, code =>
    let (f, exits, code) := optionalCopy greedy body chain exits code
    optionalCopies greedy body opt (some f) exits code

/-- Copies that must be there, if there are any. -/
def mandatory (body : Gen) : Nat → Code → Option Frag × Code
  | 0, code => (none, code)
  | n + 1, code =>
    let (f, code) := (List.replicate n body).foldl chainGen body code
    (some f, code)

/-- The other counted repetitions. -/
def countedGen (min : Nat) (max : Option Nat) (greedy : Bool) (body : Gen) : Gen := fun code =>
  if min = 0 ∧ max = some 0 then singleGen .jmp code
  else
    let (mand, code) := mandatory body min code
    match max with
    | none =>
      let (f, code) := starGen greedy body code
      match mand with
      | some m => (⟨m.start, f.patches⟩, patch code m.patches f.start)
      | none => (f, code)
    | some max =>
      if max = min then (mand.getD ⟨0, []⟩, code)
      else optionalCopies greedy body (max - min) mand ⟨(mand.map Frag.start).getD 0, []⟩ code

def repeatGen (min : Nat) (max : Option Nat) (greedy : Bool) (body : Gen) : Gen :=
  if min = 0 ∧ max = none then starGen greedy body
  else if min = 1 ∧ max = none then plusGen greedy body
  else if min = 0 ∧ max = some 1 then optGen greedy body
  else countedGen min max greedy body

def groupGen (index : Nat) (body : Gen) : Gen := fun code =>
  let openIdx := code.length
  let (f, code) := body (code ++ [⟨.save (2 * index), 0, 0⟩])
  let closeIdx := code.length
  let code := code ++ [⟨.save (2 * index + 1), 0, 0⟩]
  (⟨openIdx, [(closeIdx, false)]⟩,
    patch (code.modify openIdx (·.setTarget false f.start)) f.patches closeIdx)

/-! ### The compiler -/

mutual

/-- `_nfa_compile_node`. -/
def compileNode : Ast → Gen
  | .literal bytes icase => seqGen (bytes.map (byteGen icase))
  | .dot dotAll => singleGen (if dotAll then .anyAll else .any)
  | .anchor kind => singleGen (.anchor kind)
  | .charClass ranges negated icase =>
    let ranges := classRanges ranges icase
    singleGen (classOp (if negated then complementRanges ranges else ranges))
  | .concat children => seqGen (compileNodes children)
  | .alt children => altGen (compileNodes children)
  | .repeated child min max greedy => repeatGen min max greedy (compileNode child)
  | .group child index => groupGen index (compileNode child)

def compileNodes : List Ast → List Gen
  | [] => []
  | a :: as => compileNode a :: compileNodes as

end

mutual

/-- `_nfa_count_groups`. -/
def countGroups : Ast → Nat
  | .group child index => max (index + 1) (countGroups child)
  | .concat children => countGroupsAll children
  | .alt children => countGroupsAll children
  | .repeated child _ _ _ => countGroups child
  | _ => 0

def countGroupsAll : List Ast → Nat
  | [] => 0
  | a :: as => max (countGroups a) (countGroupsAll as)

end

mutual

/-- `_nfa_all_greedy`. -/
def allGreedy : Ast → Bool
  | .repeated child _ _ greedy => greedy && allGreedy child
  | .concat children => allGreedyAll children
  | .alt children => allGreedyAll children
  | .group child _ => allGreedy child
  | _ => true

def allGreedyAll : List Ast → Bool
  | [] => true
  | a :: as => allGreedy a && allGreedyAll as

end

/-! ### The first bytes -/

/-- Where an instruction leads without a byte, whatever an anchor says. -/
def Inst.successors (ins : Inst) : List Nat :=
  match ins.op with
  | .split => [ins.out, ins.out1]
  | .jmp => [ins.out]
  | .save _ => [ins.out]
  | .anchor _ => [ins.out]
  | _ => []

def Range.admits (r : Range) (b : Byte) : Bool := r.lo ≤ b && b ≤ r.hi

/-- The bytes that an instruction consumes. -/
def Op.admits : Op → Byte → Bool
  | .literal byte, b => b == byte
  | .range lo hi, b => Range.admits ⟨lo, hi⟩ b
  | .cls ranges, b => ranges.any (·.admits b)
  | .any, b => b != 10
  | .anyAll, _ => true
  | _, _ => false

/-- What is visited for the first time, in the queue's order. -/
def enqueue (order : List Nat) (pcs : List Nat) : List Nat :=
  pcs.foldl (fun order pc => if pc ∈ order then order else order ++ [pc]) order

/-- The walk without a byte: `order` is the queue, `qh` its head. -/
def walk (code : Code) : Nat → Nat → List Nat → List Nat
  | 0, _, order => order
  | fuel + 1, qh, order =>
    match order[qh]? with
    | none => order
    | some pc =>
      walk code fuel (qh + 1) (enqueue order ((code[pc]?.map Inst.successors).getD []))

structure Program where
  code : Code
  start : Nat
  nCaptures : Nat
  greedyMatch : Bool
  firstByteSet : Byte → Bool
  canMatchEmpty : Bool

/-- `_nfa_compute_first_set`: the instructions that the walk comes to. -/
def firstReached (code : Code) (start : Nat) : List Inst :=
  (walk code (code.length + 1) 0 [start]).filterMap (code[·]?)

def nfaCompile (ast : Ast) : Program :=
  let (f, code) := compileNode ast []
  let code := patch (code ++ [⟨.matched, 0, 0⟩]) f.patches code.length
  { code
    start := f.start
    nCaptures := 2 * countGroups ast
    greedyMatch := allGreedy ast
    firstByteSet := fun b => (firstReached code f.start).any (·.op.admits b)
    canMatchEmpty := (firstReached code f.start).any (·.op == .matched) }

end Jacl.Regex
