import Jacl.Readers
import Jacl.Interning

/-!
# The IR builder (`codegen/irbuilder.c`)

A module is built function by function, block by block, and is written out in two forms: a text,
and bytes.  A function is known by its index in the module, which is where `irb_func_index` finds
the handle that `irb_func_new` gave; an abort is `none`.

`IrVal` is a `uint32_t`, and the numbers that are given out wrap; counts of lists, which are
`int`s in the source, are lengths.  `ids` is a ghost field of an instruction: the ids that the
call that made it returned.  Left out: failing allocations, and the growing of the buffers.
-/

namespace Jacl.Irb
open Readers

/-! ### Texts -/

def lit (s : String) : List Byte := s.toList.map fun c => BitVec.ofNat 8 c.toNat

/-- `%u`, `%llu`. -/
def dec (n : Nat) : List Byte := (Nat.toDigits 10 n).map fun c => BitVec.ofNat 8 c.toNat

/-- `%d`, `%lld`. -/
def decInt (i : Int) : List Byte := if i < 0 then lit "-" ++ dec i.natAbs else dec i.natAbs

/-- `%02x`. -/
def hex (b : Byte) : List Byte :=
  [b.toNat / 16, b.toNat % 16].map fun d => BitVec.ofNat 8 d.digitChar.toNat

/-- `i ? ", " : ""` before each. -/
def commas : List (List Byte) → List Byte
  | [] => []
  | x :: xs => x ++ xs.flatMap (lit ", " ++ ·)

/-! ### Modules -/

inductive IrType where
  | i32 | i64 | f32 | f64 | v128 | ref
deriving DecidableEq

inductive IrBinOp where
  | add | sub | mul | divS | divU | remS | remU | and | or | xor | shl | shrS | shrU | rotl | rotr
deriving DecidableEq

inductive IrCmpOp where
  | eq | ne | ltS | ltU | leS | leU | gtS | gtU | geS | geU
deriving DecidableEq

inductive IrLoadOp where
  | i32 | i64 | f32 | f64 | i32_8S | i32_8U | i32_16S | i32_16U
  | i64_8S | i64_8U | i64_16S | i64_16U | i64_32S | i64_32U
deriving DecidableEq

inductive IrStoreOp where
  | i32 | i64 | f32 | f64 | i32_8 | i32_16 | i64_8 | i64_16 | i64_32
deriving DecidableEq

inductive IrConvOp where
  | extendI32S | extendI32U | wrapI64
deriving DecidableEq

abbrev IrVal : Type := Nat

/-- An `int`. -/
abbrev IrBlock : Type := BitVec 32

/-- A string that ends at its first zero byte. -/
structure CStr where
  bytes : List Byte
  noZero : 0#8 ∉ bytes
deriving DecidableEq

structure Sig where
  params : List IrType
  results : List IrType
deriving DecidableEq

/-- The kind of an instruction, with the fields that it uses. -/
inductive InstKind where
  | constI32 (c32 : BitVec 32)
  | constI64 (c64 : BitVec 64)
  | intbin (ty : IrType) (op : IrBinOp) (a x : IrVal)
  | intcmp (ty : IrType) (op : IrCmpOp) (a x : IrVal)
  | load (op : IrLoadOp) (addr : IrVal) (offset : Nat) (align : Nat)
  | store (op : IrStoreOp) (addr value : IrVal) (offset : Nat) (align : Nat)
  | call (callee : Nat) (args : List IrVal)
  | callImport (name : CStr) (sig : Sig) (handle : IrVal) (args : List IrVal)
  | refFunc (callee : Nat)
  | convert (op : IrConvOp) (a : IrVal)
  | callIndirect (sig : Sig) (addr : IrVal) (args : List IrVal)
  | suspend (a : IrVal)
  | dataSelf (offset : Nat)

structure Inst where
  kind : InstKind
  nresults : Nat
  ids : List IrVal

inductive Term where
  | none
  | br (target : IrBlock) (args : List IrVal)
  | brif (cond : IrVal) (thenBlk : IrBlock) (thenArgs : List IrVal)
      (elseBlk : IrBlock) (elseArgs : List IrVal)
  | ret (vals : List IrVal)
  | returnCall (func : Nat) (args : List IrVal)

structure Block where
  params : List IrType
  nextVal : IrVal
  insts : List Inst
  term : Term

structure IrFunc where
  sig : Sig
  blocks : List Block

structure DataSeg where
  off : Nat
  bytes : List Byte

structure IrModule where
  funcs : List IrFunc
  /-- `mem_log2`, if `has_memory`. -/
  memory : Option Byte
  data : List DataSeg
  dataTop : Nat

/-! ### Building -/

def irbModuleNew : IrModule := ⟨[], none, [], 0⟩

def irbSetMemory (m : IrModule) (sizeLog2 : Byte) : IrModule := { m with memory := some sizeLog2 }

/-- `data_top` is a `uint64_t`; a segment starts at a multiple of 8. -/
def irbAddData (m : IrModule) (bytes : List Byte) : Nat × IrModule :=
  let off := (m.dataTop + 7) % 2 ^ 64 / 8 * 8
  (off, { m with data := m.data ++ [⟨off, bytes⟩], dataTop := (off + bytes.length) % 2 ^ 64 })

def irbFuncNew (m : IrModule) (params results : List IrType) : Nat × IrModule :=
  (m.funcs.length, { m with funcs := m.funcs ++ [⟨⟨params, results⟩, []⟩] })

/-- The place that a block's number is about, if it is one. -/
def IrBlock.index? (b : IrBlock) : Option Nat := if b.toInt < 0 then none else some b.toNat

/-- The parameters of a block are its first values. -/
def irbBlock (m : IrModule) (f : Nat) (params : List IrType) : Option (IrBlock × IrModule) :=
  m.funcs[f]?.map fun fn =>
    (BitVec.ofNat 32 fn.blocks.length, { m with
      funcs := m.funcs.set f { fn with
        blocks := fn.blocks ++ [⟨params, params.length % 2 ^ 32, [], .none⟩] } })

/-- `take_vals`: `n` ids, one after the other. -/
def takeVals (nextVal n : Nat) : List IrVal := (List.range n).map fun k => (nextVal + k) % 2 ^ 32

def Block.push (blk : Block) (kind : InstKind) (n : Nat) : Block :=
  { blk with
    insts := blk.insts ++ [⟨kind, n % 256, takeVals blk.nextVal n⟩]
    nextVal := (blk.nextVal + n) % 2 ^ 32 }

/-- `block_at`, and what is done there. -/
def IrModule.atBlock (m : IrModule) (f : Nat) (b : IrBlock) (change : Block → Block) :
    Option IrModule := do
  let fn ← m.funcs[f]?
  let i ← b.index?
  let blk ← fn.blocks[i]?
  pure { m with funcs := m.funcs.set f { fn with blocks := fn.blocks.set i (change blk) } }

/-- An instruction with `n` results at the end of a block. -/
def IrModule.emit (m : IrModule) (f : Nat) (b : IrBlock) (kind : InstKind) (n : Nat) :
    Option IrModule :=
  m.atBlock f b (·.push kind n)

/-- The number of results of a function of the module. -/
def IrModule.nresults? (m : IrModule) (callee : Nat) : Option Nat :=
  m.funcs[callee]?.map (·.sig.results.length)

def irbConstI32 (m : IrModule) (f : Nat) (b : IrBlock) (c : BitVec 32) : Option IrModule :=
  m.emit f b (.constI32 c) 1

def irbConstI64 (m : IrModule) (f : Nat) (b : IrBlock) (c : BitVec 64) : Option IrModule :=
  m.emit f b (.constI64 c) 1

def irbIntbin (m : IrModule) (f : Nat) (b : IrBlock) (ty : IrType) (op : IrBinOp) (a x : IrVal) :
    Option IrModule :=
  m.emit f b (.intbin ty op a x) 1

def irbIntcmp (m : IrModule) (f : Nat) (b : IrBlock) (ty : IrType) (op : IrCmpOp) (a x : IrVal) :
    Option IrModule :=
  m.emit f b (.intcmp ty op a x) 1

def irbLoad (m : IrModule) (f : Nat) (b : IrBlock) (op : IrLoadOp) (addr : IrVal)
    (offset align : Nat) : Option IrModule :=
  m.emit f b (.load op addr offset align) 1

def irbStore (m : IrModule) (f : Nat) (b : IrBlock) (op : IrStoreOp) (addr value : IrVal)
    (offset align : Nat) : Option IrModule :=
  m.emit f b (.store op addr value offset align) 0

def irbDataAddr (m : IrModule) (f : Nat) (b : IrBlock) (localOff : Nat) : Option IrModule :=
  m.emit f b (.dataSelf localOff) 1

def irbRefFunc (m : IrModule) (f : Nat) (b : IrBlock) (callee : Nat) : Option IrModule :=
  if callee < m.funcs.length then m.emit f b (.refFunc callee) 1 else none

def irbConvert (m : IrModule) (f : Nat) (b : IrBlock) (op : IrConvOp) (a : IrVal) :
    Option IrModule :=
  m.emit f b (.convert op a) 1

def irbSuspend (m : IrModule) (f : Nat) (b : IrBlock) (value : IrVal) : Option IrModule :=
  m.emit f b (.suspend value) 1

/-- With more results than `most` the call aborts. -/
def irbCallUpTo (most : Nat) (m : IrModule) (f : Nat) (b : IrBlock) (callee : Nat)
    (args : List IrVal) : Option IrModule := do
  let n ← m.nresults? callee
  if most < n then none else m.emit f b (.call callee args) n

def irbCall : IrModule → Nat → IrBlock → Nat → List IrVal → Option IrModule := irbCallUpTo 1

def irbCallMulti : IrModule → Nat → IrBlock → Nat → List IrVal → Option IrModule := irbCallUpTo 255

def irbCallIndirect (m : IrModule) (f : Nat) (b : IrBlock) (sig : Sig) (idx : IrVal)
    (args : List IrVal) : Option IrModule :=
  if 1 < sig.results.length then none
  else m.emit f b (.callIndirect sig idx args) sig.results.length

def irbCallImport (m : IrModule) (f : Nat) (b : IrBlock) (name : CStr) (sig : Sig)
    (handle : IrVal) (args : List IrVal) : Option IrModule :=
  if 1 < sig.results.length then none
  else m.emit f b (.callImport name sig handle args) sig.results.length

def irbTerm (m : IrModule) (f : Nat) (b : IrBlock) (t : Term) : Option IrModule :=
  m.atBlock f b fun blk => { blk with term := t }

def irbBr (m : IrModule) (f : Nat) (b : IrBlock) (target : IrBlock) (args : List IrVal) :
    Option IrModule :=
  irbTerm m f b (.br target args)

def irbBrIf (m : IrModule) (f : Nat) (b : IrBlock) (cond : IrVal) (thenBlk : IrBlock)
    (thenArgs : List IrVal) (elseBlk : IrBlock) (elseArgs : List IrVal) : Option IrModule :=
  irbTerm m f b (.brif cond thenBlk thenArgs elseBlk elseArgs)

def irbReturn (m : IrModule) (f : Nat) (b : IrBlock) (vals : List IrVal) : Option IrModule :=
  irbTerm m f b (.ret vals)

def irbReturnCall (m : IrModule) (f : Nat) (b : IrBlock) (callee : Nat) (args : List IrVal) :
    Option IrModule :=
  if callee < m.funcs.length then irbTerm m f b (.returnCall callee args) else none

/-- A call of the builder's interface that does not abort. -/
inductive Step (m : IrModule) : IrModule → Prop
  | setMemory (n : Byte) : Step m (irbSetMemory m n)
  | addData (bytes : List Byte) : Step m (irbAddData m bytes).2
  | funcNew (params results : List IrType) : Step m (irbFuncNew m params results).2
  | block {f params b m'} : irbBlock m f params = some (b, m') → Step m m'
  | constI32 {f b c m'} : irbConstI32 m f b c = some m' → Step m m'
  | constI64 {f b c m'} : irbConstI64 m f b c = some m' → Step m m'
  | intbin {f b ty op a x m'} : irbIntbin m f b ty op a x = some m' → Step m m'
  | intcmp {f b ty op a x m'} : irbIntcmp m f b ty op a x = some m' → Step m m'
  | load {f b op addr offset align m'} : irbLoad m f b op addr offset align = some m' → Step m m'
  | store {f b op addr value offset align m'} :
      irbStore m f b op addr value offset align = some m' → Step m m'
  | dataAddr {f b localOff m'} : irbDataAddr m f b localOff = some m' → Step m m'
  | refFunc {f b callee m'} : irbRefFunc m f b callee = some m' → Step m m'
  | convert {f b op a m'} : irbConvert m f b op a = some m' → Step m m'
  | suspend {f b value m'} : irbSuspend m f b value = some m' → Step m m'
  | call {f b callee args m'} : irbCall m f b callee args = some m' → Step m m'
  | callMulti {f b callee args m'} : irbCallMulti m f b callee args = some m' → Step m m'
  | callIndirect {f b sig idx args m'} : irbCallIndirect m f b sig idx args = some m' → Step m m'
  | callImport {f b name sig handle args m'} :
      irbCallImport m f b name sig handle args = some m' → Step m m'
  | br {f b target args m'} : irbBr m f b target args = some m' → Step m m'
  | brIf {f b cond tb ta eb ea m'} : irbBrIf m f b cond tb ta eb ea = some m' → Step m m'
  | ret {f b vals m'} : irbReturn m f b vals = some m' → Step m m'
  | returnCall {f b callee args m'} : irbReturnCall m f b callee args = some m' → Step m m'

/-- What the builder's interface can build. -/
def Built : IrModule → Prop := Relation.ReflTransGen Step irbModuleNew

end Jacl.Irb
