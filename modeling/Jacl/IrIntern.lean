import Jacl.IrUnits

/-!
# The tables of the encoder (`codegen/irbuilder.c`)

`irb_to_encoded` goes over the instructions twice: the pre-pass puts every signature and every
foreign function's import into the tables, which are written before the functions, and the
emission of the functions asks the tables for the numbers again.

A table has an index of 1024 slots, which is used while `(uint32_t)n * 4 < 3072`; the product
wraps.  The capacity is an `int`, and an addition to a table that would make it wrap is `none`.
What is compared with this is a plain linear search: `place` in the list of what was asked for.
-/

namespace Jacl.Irb
open Readers Interning

/-- FNV-1a. -/
def irbHashBytes (h : BitVec 32) (bs : List Byte) : BitVec 32 :=
  bs.foldl (fun h b => (h ^^^ b.setWidth 32) * 16777619#32) h

def IrType.number : IrType → Nat
  | .i32 => 0
  | .i64 => 1
  | .f32 => 2
  | .f64 => 3
  | .v128 => 4
  | .ref => 5

def sigHash (s : Sig) : BitVec 32 :=
  let h := irbHashBytes 2166136261#32 (leBytes 4 s.params.length)
  let h := irbHashBytes h (leBytes 4 s.results.length)
  let h := irbHashBytes h (s.params.flatMap fun ty => leBytes 4 ty.number)
  irbHashBytes h (s.results.flatMap fun ty => leBytes 4 ty.number)

/-- An import's name, and the number of its signature. -/
abbrev ImpEntry : Type := List Byte × Nat

def impHash (e : ImpEntry) : BitVec 32 :=
  irbHashBytes (irbHashBytes 2166136261#32 (leBytes 4 e.2)) e.1

/-- One of the two tables, and its capacity. -/
structure Entries (α : Type) extends Table α where
  cap : Nat

def Entries.empty {α : Type} : Entries α := ⟨.empty 1024, 0⟩

section Intern

variable {α : Type} [DecidableEq α] (hash : α → BitVec 32)

/-- The index is less than three quarters full. -/
def Entries.inIndex (t : Entries α) : Bool := t.entries.length * 4 % 2 ^ 32 < 1024 * 3

/-- The capacity with which there is room for one more. -/
def Entries.grown (t : Entries α) : Option Nat :=
  if t.entries.length = t.cap then
    let cap := if t.cap = 0 then 4 else t.cap * 2
    if cap < 2 ^ 31 then some cap else none
  else some t.cap

/-- A new entry, with the slots as they are then. -/
def Entries.append (t : Entries α) (x : α) (ix : List Nat) : Option (Nat × Entries α) := do
  let cap ← t.grown
  pure (t.entries.length, ⟨⟨t.entries ++ [x], ix⟩, cap⟩)

/-- `intern_type` and `intern_import`, which differ in the entries. -/
def Entries.intern (t : Entries α) (x : α) : Option (Nat × Entries α) :=
  if t.inIndex then
    match t.probe 1024 x 1024 ((hash x).toNat % 1024) with
    | some (.inl i) => some (i, t)
    | some (.inr h) => t.append x (t.ix.set h (t.entries.length + 1))
    | none => none
  else if x ∈ t.entries then some (place x t.entries, t)
  else t.append x t.ix

end Intern

structure ImportTable where
  types : Entries Sig
  imports : Entries ImpEntry

def ImportTable.empty : ImportTable := ⟨.empty, .empty⟩

def internType (tab : ImportTable) (sig : Sig) : Option (Nat × ImportTable) := do
  let (i, types) ← tab.types.intern sigHash sig
  pure (i, { tab with types })

def internImport (tab : ImportTable) (e : ImpEntry) : Option (Nat × ImportTable) := do
  let (i, imports) ← tab.imports.intern impHash e
  pure (i, { tab with imports })

/-! ### Requests -/

inductive Request where
  | sig (s : Sig)
  | sym (e : ImpEntry)

def ImportTable.request (tab : ImportTable) : Request → Option (Nat × ImportTable)
  | .sig s => internType tab s
  | .sym e => internImport tab e

/-- The answers to some requests, one after the other. -/
def ImportTable.answers (tab : ImportTable) : List Request → Option (List Nat × ImportTable)
  | [] => some ([], tab)
  | r :: rs => do
    let (i, tab) ← tab.request r
    let (is, tab) ← tab.answers rs
    pure (i :: is, tab)

/-- What the tables have. -/
def ImportTable.tables (tab : ImportTable) : Tables := ⟨tab.types.entries, tab.imports.entries⟩

/-- A linear search in what was asked for before: the number of the first equal entry, or the
next number. -/
def Tables.request (t : Tables) : Request → Nat × Tables
  | .sig s => (place s (add s t.types), { t with types := add s t.types })
  | .sym e => (place e (add e t.imports), { t with imports := add e t.imports })

def Tables.answers (t : Tables) : List Request → List Nat × Tables
  | [] => ([], t)
  | r :: rs =>
    let (i, t) := t.request r
    let (is, t) := t.answers rs
    (i :: is, t)

/-! ### The two passes -/

/-- The pre-pass at an instruction. -/
def prePass (tab : ImportTable) : InstKind → Option ImportTable
  | .callImport name sig _ _ => do
    let (ti, tab) ← internType tab sig
    let (_, tab) ← internImport tab (name.bytes, ti)
    pure tab
  | .callIndirect sig _ _ => do
    let (_, tab) ← internType tab sig
    pure tab
  | _ => some tab

/-- `enc_inst`: the instruction with the numbers that are written for it. -/
def encInst (tab : ImportTable) : InstKind → Option (Numbered × ImportTable)
  | .callImport name sig handle args => do
    let (ti, tab) ← internType tab sig
    let (idx, tab) ← internImport tab (name.bytes, ti)
    pure (.callSym (idx, ti) handle args, tab)
  | .callIndirect sig addr args => do
    let (ti, tab) ← internType tab sig
    pure (.callDyn ti addr args, tab)
  | k => some (k.instr.map (fun _ => 0) (fun _ => (0, 0)), tab)

def encInsts (tab : ImportTable) : List InstKind → Option (List Numbered × ImportTable)
  | [] => some ([], tab)
  | k :: ks => do
    let (i, tab) ← encInst tab k
    let (is, tab) ← encInsts tab ks
    pure (i :: is, tab)

/-- The instructions, function by function and block by block. -/
def IrModule.kinds (m : IrModule) : List InstKind :=
  m.funcs.flatMap fun f => f.blocks.flatMap fun b => b.insts.map Inst.kind

/-- `irb_to_encoded`: the tables after the pre-pass, which are what the sections are written
from, the instructions of the functions, and the tables after these. -/
def irbToEncoded (m : IrModule) : Option (Tables × List Numbered × Tables) := do
  let tab ← m.kinds.foldlM prePass ImportTable.empty
  let (is, tab') ← encInsts tab m.kinds
  pure (tab.tables, is, tab'.tables)

end Jacl.Irb
