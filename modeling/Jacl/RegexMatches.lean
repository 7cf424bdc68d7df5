import Jacl.FlowGraphs
import Jacl.RegexParses
import Jacl.RegexProgram

/-!
# What regular expressions match

`a.Matches w i j`: the bytes of `w` from `i` to `j` match `a`, anchors seeing the bytes before and
after.  A program's instructions make a flow graph over the positions of `w`, and what a fragment
leads through is what its tree matches.
-/

namespace Jacl.Regex

open FlowGraphs

/-! ### Contexts -/

/-- `_nfa_is_word_char`. -/
def isWordChar (b : Byte) : Bool :=
  (ch 'a' ≤ b && b ≤ ch 'z') || (ch 'A' ≤ b && b ≤ ch 'Z') || (ch '0' ≤ b && b ≤ ch '9') || b == ch '_'

/-- Whether an anchor holds between two bytes, either of which may be missing. -/
def Anchor.holds : Anchor → Option Byte → Option Byte → Bool
  | .bol, prev, _ => prev.all (· == 10)
  | .eol, _, next => next.all (· == 10)
  | .word, prev, next => prev.any isWordChar != next.any isWordChar
  | .nonWord, prev, next => prev.any isWordChar == next.any isWordChar

/-- The byte before a position. -/
def prevByte (w : List Byte) (i : Nat) : Option Byte := if i = 0 then none else w[i - 1]?

/-! ### Matching -/

def swapCase (b : Byte) : Byte := if ch 'a' ≤ b then b - 32 else b + 32

/-- A letter without regard to case. -/
def SameByte (icase : Bool) (b c : Byte) : Prop :=
  c = b ∨ icase = true ∧ isAlpha b = true ∧ c = swapCase b

def InClass (ranges : List Range) (icase : Bool) (c : Byte) : Prop :=
  ∃ r ∈ ranges, r.admits c = true ∨
    icase = true ∧ isAlpha c = true ∧ r.admits (swapCase c) = true

/-- One byte, of those in `P`. -/
def OneByte (w : List Byte) (P : Byte → Prop) (i j : Nat) : Prop :=
  ∃ c, w[i]? = some c ∧ P c ∧ j = i + 1

def seqRel : List (Nat → Nat → Prop) → Nat → Nat → Prop
  | [], i, j => i = j
  | R :: Rs, i, j => ∃ k, R i k ∧ seqRel Rs k j

mutual

def Ast.Matches (w : List Byte) : Ast → Nat → Nat → Prop
  | .literal bytes icase => seqRel (bytes.map fun b => OneByte w (SameByte icase b))
  | .dot dotAll => OneByte w fun c => dotAll = true ∨ c ≠ 10
  | .anchor kind => fun i j => kind.holds (prevByte w i) w[i]? = true ∧ i = j
  | .charClass ranges negated icase => OneByte w fun c => (InClass ranges icase c ↔ negated = false)
  | .concat children => seqRel (matchesAll w children)
  | .alt children => fun i j => ∃ R ∈ matchesAll w children, R i j
  | .repeated child min max _ => fun i j =>
    ∃ n, min ≤ n ∧ (∀ m ∈ max, n ≤ m) ∧ power (Ast.Matches w child) n i j
  | .group child _ => Ast.Matches w child

def matchesAll (w : List Byte) : List Ast → List (Nat → Nat → Prop)
  | [] => []
  | a :: as => Ast.Matches w a :: matchesAll w as

end

mutual

/-- What the parser builds: literals are not empty, alternations have branches, and bounds are in
order. -/
def Ast.Built : Ast → Prop
  | .literal bytes _ => bytes ≠ []
  | .concat children => builtAll children
  | .alt children => 2 ≤ children.length ∧ builtAll children
  | .repeated child min max _ => (∀ m ∈ max, min ≤ m) ∧ child.Built
  | .group child _ => child.Built
  | _ => True

def builtAll : List Ast → Prop
  | [] => True
  | a :: as => a.Built ∧ builtAll as

end

theorem builtAll_iff {as : List Ast} : builtAll as ↔ ∀ a ∈ as, a.Built := by
  induction as with
  | nil => exact iff_of_true trivial nofun
  | cons a as ih => rw [builtAll, ih, List.forall_mem_cons]

/-- `_nfa_complement_ranges` of these comes to the complement. -/
def ComplementOk (ranges : List Range) : Prop :=
  ∀ b, (complementRanges ranges).any (·.admits b) = !ranges.any (·.admits b)

mutual

/-- What the negated classes leave out, cases considered, satisfies `Q`. -/
def Ast.NegatedIn (Q : List Range → Prop) : Ast → Prop
  | .charClass ranges negated icase => negated = true → Q (classRanges ranges icase)
  | .concat children => negatedInAll Q children
  | .alt children => negatedInAll Q children
  | .repeated child _ _ _ => child.NegatedIn Q
  | .group child _ => child.NegatedIn Q
  | _ => True

def negatedInAll (Q : List Range → Prop) : List Ast → Prop
  | [] => True
  | a :: as => a.NegatedIn Q ∧ negatedInAll Q as

end

/-! ### Programs as graphs -/

/-- What an instruction does with the text at a position. -/
def Op.Moves (w : List Byte) : Op → Nat → Nat → Prop
  | .matched, i, j => i = j
  | .split, i, j => i = j
  | .jmp, i, j => i = j
  | .save _, i, j => i = j
  | .anchor kind, i, j => kind.holds (prevByte w i) w[i]? = true ∧ i = j
  | op, i, j => OneByte w (fun c => op.admits c = true) i j

def Inst.hasEdge (ins : Inst) (which : Bool) : Prop := which = true → ins.op = .split

def Inst.target (ins : Inst) (which : Bool) : Nat := if which then ins.out1 else ins.out

/-- The flow graph of a program. -/
def codeGraph (w : List Byte) (code : Code) : Graph Nat Bool Nat where
  edge pc which := ∃ ins, code[pc]? = some ins ∧ ins.hasEdge which
  target pc which := ((code[pc]?).map (·.target which)).getD 0
  moves pc which i j := ∃ ins, code[pc]? = some ins ∧ ins.hasEdge which ∧ ins.op.Moves w i j
  edge_of_moves := fun ⟨ins, h1, h2, _⟩ => ⟨ins, h1, h2⟩

/-- The instructions from `lo` up to `hi`. -/
def Within (lo hi : Nat) (pc : Nat) : Prop := lo ≤ pc ∧ pc < hi

/-- `code` again, and perhaps more. -/
structure Grows (code code' : Code) : Prop where
  length : code.length ≤ code'.length
  same : ∀ pc < code.length, code'[pc]? = code[pc]?

/-- A fragment of `code`, from instruction `lo` up to `hi`. -/
structure FragAt (w : List Byte) (code : Code) (lo hi : Nat) (f : Frag) (R : Nat → Nat → Prop) :
    Prop where
  patches : ∀ p ∈ f.patches, Within lo hi p.1
  realizes : Realizes (codeGraph w code) (Within lo hi) (fun pc e => (pc, e) ∈ f.patches) f.start R

/-- Wherever it is put, the fragment that `g` makes relates positions as `R` does. -/
structure Gen.Realizes (w : List Byte) (g : Gen) (R : Nat → Nat → Prop) : Prop where
  grows : ∀ code, Grows code (g code).2
  frag : ∀ code, FragAt w (g code).2 code.length (g code).2.length (g code).1 R

end Jacl.Regex
