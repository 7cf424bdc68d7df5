import Jacl.IrBuilder

/-!
# Units of the temen IR

What the two forms of a module are forms of.  The instructions of a `Body` carry their signatures
and the names they import; in a `TemenUnit` they carry the numbers of these in its tables, which
have them in the order in which the instructions first need them.  The alignment hint of an access
to memory is not part of a unit.

`IrModule.body` is what a built module says: a call has the results that its instruction counts,
and the numbers of the results run on from the block's parameters.
-/

namespace Jacl.Irb
open Readers Interning

/-- The operand widths of the integer operations. -/
inductive Width where
  | w32 | w64
deriving DecidableEq

def Width.type : Width → IrType
  | .w32 => .i32
  | .w64 => .i64

/-- An instruction; a signature is a `σ`, and an imported name with its signature an `ι`. -/
inductive Instr (σ ι : Type) where
  | constI32 (c : Int)
  | constI64 (c : Int)
  | intbin (w : Width) (op : IrBinOp) (a x : IrVal)
  | intcmp (w : Width) (op : IrCmpOp) (a x : IrVal)
  | load (op : IrLoadOp) (addr : IrVal) (offset : Nat)
  | store (op : IrStoreOp) (addr value : IrVal) (offset : Nat)
  | call (callee : Nat) (args : List IrVal)
  | callSym (imp : ι) (handle : IrVal) (args : List IrVal)
  | refFunc (callee : Nat)
  | convert (op : IrConvOp) (a : IrVal)
  | callDyn (sig : σ) (idx : IrVal) (args : List IrVal)
  | suspend (a : IrVal)
  | dataSelf (offset : Nat)
deriving DecidableEq

inductive Terminator where
  | unreachable
  | br (target : Nat) (args : List IrVal)
  | brIf (cond : IrVal) (thenBlk : Nat) (thenArgs : List IrVal) (elseBlk : Nat)
      (elseArgs : List IrVal)
  | ret (vals : List IrVal)
  | returnCall (func : Nat) (args : List IrVal)
deriving DecidableEq

structure BlockBody (σ ι : Type) where
  params : List IrType
  /-- Every instruction with the ids of its results. -/
  insts : List (List IrVal × Instr σ ι)
  term : Terminator
deriving DecidableEq

structure FuncBody (σ ι : Type) where
  sig : Sig
  blocks : List (BlockBody σ ι)
deriving DecidableEq

structure Body (σ ι : Type) where
  data : List (Nat × List Byte)
  memory : Option Nat
  funcs : List (FuncBody σ ι)
deriving DecidableEq

structure TemenUnit where
  types : List Sig
  imports : List (List Byte × Nat)
  body : Body Nat (Nat × Nat)
deriving DecidableEq

/-! ### Interning the signatures and the names -/

variable {σ ι σ' ι' σ'' ι'' : Type}

def Instr.map (f : σ → σ') (g : ι → ι') : Instr σ ι → Instr σ' ι'
  | .constI32 c => .constI32 c
  | .constI64 c => .constI64 c
  | .intbin w op a x => .intbin w op a x
  | .intcmp w op a x => .intcmp w op a x
  | .load op addr offset => .load op addr offset
  | .store op addr value offset => .store op addr value offset
  | .call callee args => .call callee args
  | .callSym imp handle args => .callSym (g imp) handle args
  | .refFunc callee => .refFunc callee
  | .convert op a => .convert op a
  | .callDyn sig idx args => .callDyn (f sig) idx args
  | .suspend a => .suspend a
  | .dataSelf offset => .dataSelf offset

def BlockBody.map (h : Instr σ ι → Instr σ' ι') (b : BlockBody σ ι) : BlockBody σ' ι' :=
  ⟨b.params, b.insts.map fun i => (i.1, h i.2), b.term⟩

def FuncBody.map (h : Instr σ ι → Instr σ' ι') (f : FuncBody σ ι) : FuncBody σ' ι' :=
  ⟨f.sig, f.blocks.map (·.map h)⟩

def Body.map (h : Instr σ ι → Instr σ' ι') (b : Body σ ι) : Body σ' ι' :=
  ⟨b.data, b.memory, b.funcs.map (·.map h)⟩

/-- The instructions in the order of the source. -/
def Body.instrs (b : Body σ ι) : List (Instr σ ι) :=
  b.funcs.flatMap fun f => f.blocks.flatMap fun blk => blk.insts.map Prod.snd

/-- An instruction that names what it needs. -/
abbrev Named : Type := Instr Sig (List Byte × Sig)

/-- An instruction with the numbers of what it needs: an import's own, and its signature's. -/
abbrev Numbered : Type := Instr Nat (Nat × Nat)

structure Tables where
  types : List Sig
  imports : List (List Byte × Nat)

/-- A `call.sym` needs its signature and then its import, a `call.dyn` its signature. -/
def Tables.note (t : Tables) : Named → Tables
  | .callSym (name, sig) _ _ =>
    let types := add sig t.types
    ⟨types, add (name, place sig types) t.imports⟩
  | .callDyn sig _ _ => { t with types := add sig t.types }
  | _ => t

def Tables.number (t : Tables) : Named → Numbered :=
  Instr.map (place · t.types) fun imp =>
    (place (imp.1, place imp.2 t.types) t.imports, place imp.2 t.types)

def Tables.all (is : List Named) : Tables := is.foldl Tables.note ⟨[], []⟩

def Body.intern (b : Body Sig (List Byte × Sig)) : TemenUnit :=
  let t := Tables.all b.instrs
  ⟨t.types, t.imports, b.map t.number⟩

/-! ### What a built module says -/

def widthOf (ty : IrType) : Width := if ty = .i32 then .w32 else .w64

def InstKind.instr : InstKind → Named
  | .constI32 c => .constI32 c.toInt
  | .constI64 c => .constI64 c.toInt
  | .intbin ty op a x => .intbin (widthOf ty) op a x
  | .intcmp ty op a x => .intcmp (widthOf ty) op a x
  | .load op addr offset _ => .load op addr offset
  | .store op addr value offset _ => .store op addr value offset
  | .call callee args => .call callee args
  | .callImport name sig handle args => .callSym (name.bytes, sig) handle args
  | .refFunc callee => .refFunc callee
  | .convert op a => .convert op a
  | .callIndirect sig idx args => .callDyn sig idx args
  | .suspend a => .suspend a
  | .dataSelf offset => .dataSelf offset

def Term.terminator : Term → Terminator
  | .none => .unreachable
  | .br target args => .br target.toNat args
  | .brif cond tb ta eb ea => .brIf cond tb.toNat ta eb.toNat ea
  | .ret vals => .ret vals
  | .returnCall func args => .returnCall func args

/-- The numbers of the results run on. -/
def bound (next : Nat) : List Inst → List (List IrVal × Named)
  | [] => []
  | i :: is => (takeVals next i.nresults, i.kind.instr) :: bound ((next + i.nresults) % 2 ^ 32) is

def Block.body (b : Block) : BlockBody Sig (List Byte × Sig) :=
  ⟨b.params, bound (b.params.length % 2 ^ 32) b.insts, b.term.terminator⟩

def IrFunc.body (f : IrFunc) : FuncBody Sig (List Byte × Sig) := ⟨f.sig, f.blocks.map Block.body⟩

def IrModule.body (m : IrModule) : Body Sig (List Byte × Sig) :=
  ⟨m.data.map fun d => (d.off, d.bytes), m.memory.map BitVec.toNat, m.funcs.map IrFunc.body⟩

/-- The ids of the results of every instruction of every block. -/
def Body.ids (b : Body σ ι) : List (List (List (List IrVal))) :=
  b.funcs.map fun f => f.blocks.map fun blk => blk.insts.map Prod.fst

/-- The ids that the builder's calls returned. -/
def IrModule.ids (m : IrModule) : List (List (List (List IrVal))) :=
  m.funcs.map fun f => f.blocks.map fun blk => blk.insts.map Inst.ids

/-! ### The numbers stand for the names -/

@[simp] theorem Instr.map_map (f : σ → σ') (g : ι → ι') (f' : σ' → σ'') (g' : ι' → ι'')
    (i : Instr σ ι) : (i.map f g).map f' g' = i.map (f' ∘ f) (g' ∘ g) := by
  cases i <;> rfl

theorem Body.map_map (h : Instr σ ι → Instr σ' ι') (h' : Instr σ' ι' → Instr σ'' ι'')
    (b : Body σ ι) : (b.map h).map h' = b.map (h' ∘ h) := by
  simp [Body.map, FuncBody.map, BlockBody.map, Function.comp_def]

theorem Body.mem_instrs {b : Body σ ι} {i : Instr σ ι} :
    i ∈ b.instrs ↔ ∃ f ∈ b.funcs, ∃ blk ∈ f.blocks, ∃ p ∈ blk.insts, p.2 = i := by
  simp [Body.instrs]

theorem map_eq_self {α : Type} {f : α → α} {xs : List α} (h : ∀ x ∈ xs, f x = x) :
    xs.map f = xs := by
  rw [List.map_congr_left h, List.map_id']

theorem Body.map_eq_self {h : Instr σ ι → Instr σ ι} {b : Body σ ι}
    (heq : ∀ i ∈ b.instrs, h i = i) : b.map h = b := by
  have hinsts : ∀ f ∈ b.funcs, ∀ blk ∈ f.blocks, blk.map h = blk := by
    intro f hf blk hblk
    have hs : (blk.insts.map fun i => (i.1, h i.2)) = blk.insts := by
      apply Irb.map_eq_self
      intro p hp
      rw [heq p.2 (Body.mem_instrs.mpr ⟨f, hf, blk, hblk, p, hp, rfl⟩)]
    rw [BlockBody.map, hs]
  have hfuncs : b.funcs.map (·.map h) = b.funcs := by
    apply Irb.map_eq_self
    intro f hf
    rw [FuncBody.map, Irb.map_eq_self (hinsts f hf)]
  rw [Body.map, hfuncs]

/-- The tables have what an instruction needs. -/
def Tables.Has (t : Tables) : Named → Prop
  | .callSym (name, sig) _ _ => sig ∈ t.types ∧ (name, place sig t.types) ∈ t.imports
  | .callDyn sig _ _ => sig ∈ t.types
  | _ => True

/-- Tables that go on from others. -/
structure Tables.Extends (t t' : Tables) : Prop where
  types : t.types <+: t'.types
  imports : t.imports <+: t'.imports

theorem Tables.Extends.refl (t : Tables) : t.Extends t := ⟨List.prefix_rfl, List.prefix_rfl⟩

theorem Tables.Extends.trans {t t' t'' : Tables} (h : t.Extends t') (h' : t'.Extends t'') :
    t.Extends t'' :=
  ⟨h.types.trans h'.types, h.imports.trans h'.imports⟩

theorem Tables.extends_note (t : Tables) (i : Named) : t.Extends (t.note i) := by
  cases i with
  | callSym imp handle args => exact ⟨subset_add _ _, subset_add _ _⟩
  | callDyn sig idx args => exact ⟨subset_add _ _, List.prefix_rfl⟩
  | _ => exact .refl t

theorem Tables.has_note (t : Tables) (i : Named) : (t.note i).Has i := by
  cases i with
  | callSym imp handle args => exact ⟨mem_add _ _, mem_add _ _⟩
  | callDyn sig idx args => exact mem_add _ _
  | _ => exact trivial

theorem Tables.Has.mono {t t' : Tables} {i : Named} (h : t.Has i) (he : t.Extends t') :
    t'.Has i := by
  cases i with
  | callSym imp handle args =>
    refine ⟨he.types.subset h.1, ?_⟩
    rw [place_kept he.types h.1]
    exact he.imports.subset h.2
  | callDyn sig idx args => exact he.types.subset h
  | _ => exact trivial

/-- What is noted again changes nothing. -/
theorem Tables.Has.note_eq {t : Tables} {i : Named} (h : t.Has i) : t.note i = t := by
  cases i with
  | callSym imp handle args =>
    have hadd : add imp.2 t.types = t.types := add_of_mem h.1
    have himp : (t.note (.callSym imp handle args)) = ⟨add imp.2 t.types,
      add (imp.1, place imp.2 (add imp.2 t.types)) t.imports⟩ := rfl
    rw [himp, hadd, add_of_mem h.2]
  | callDyn sig idx args =>
    have hadd : add sig t.types = t.types := add_of_mem h
    have hsig : (t.note (.callDyn sig idx args)) = ⟨add sig t.types, t.imports⟩ := rfl
    rw [hsig, hadd]
  | _ => rfl

theorem Tables.extends_foldl (t : Tables) (is : List Named) : t.Extends (is.foldl note t) := by
  induction is generalizing t with
  | nil => exact .refl t
  | cons i is ih => exact (t.extends_note i).trans (ih (t.note i))

theorem Tables.has_foldl {is : List Named} {i : Named} (t : Tables) (h : i ∈ is) :
    (is.foldl note t).Has i := by
  induction is generalizing t with
  | nil => nomatch h
  | cons j is ih =>
    obtain rfl | h := List.mem_cons.mp h
    · exact (t.has_note i).mono ((t.note i).extends_foldl is)
    · exact ih (t.note j) h

theorem Tables.has_all {is : List Named} {i : Named} (h : i ∈ is) : (Tables.all is).Has i :=
  has_foldl _ h

/-- What the numbers of a unit stand for. -/
def TemenUnit.named (u : TemenUnit) : Body Sig (List Byte × Sig) :=
  u.body.map <| Instr.map (u.types.getD · ⟨[], []⟩) fun k =>
    ((u.imports.getD k.1 ([], 0)).1, u.types.getD k.2 ⟨[], []⟩)

/-- **Nothing is lost by interning.** -/
theorem Body.named_intern (b : Body Sig (List Byte × Sig)) : b.intern.named = b := by
  rw [TemenUnit.named, Body.intern, Body.map_map]
  apply Body.map_eq_self
  intro i hi
  have hhas := Tables.has_all hi
  cases i with
  | callSym imp handle args =>
    obtain ⟨name, sig⟩ := imp
    simp only [Function.comp, Tables.number, Instr.map]
    rw [getD_place hhas.1, getD_place hhas.2]
  | callDyn sig idx args =>
    simp only [Function.comp, Tables.number, Instr.map]
    rw [getD_place hhas]
  | _ => rfl

theorem Body.intern_injective : Function.Injective Body.intern :=
  Function.LeftInverse.injective Body.named_intern

theorem Body.ids_map (h : Instr σ ι → Instr σ' ι') (b : Body σ ι) : (b.map h).ids = b.ids := by
  simp [Body.ids, Body.map, FuncBody.map, BlockBody.map, Function.comp_def]

end Jacl.Irb
