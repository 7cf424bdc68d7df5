import Jacl.Readers

/-!
# The syntax wire (`codegen/selfhost/macro_staging/syn_wire.c`)

A syntax tree crosses to a staged macro, and back, as bytes: a version, and then for each node
its type, scope mark, flags and position handle, and what is particular to the type.  Handle
`k` is entry `k - 1` of the position table of the call (`SynwCall`); a node that a macro made has
handle 0, and gets the position of the call.

A node that is missing (a null pointer) is `null`.  Left out: the types that the typer fills in,
which do not cross, the data of the nodes that do not cross, and failing allocations but that
of the position table.  The table of head words is a parameter, `headIdFor`.
-/

namespace Jacl.SynWire
open Readers

/-! ### Nodes -/

/-- A string; its length is a `uint32_t`. -/
structure Str where
  bytes : List Byte
  fits : bytes.length < 2 ^ 32
deriving DecidableEq

/-- A string of `bs.length` bytes, cast to `uint32_t`. -/
def Str.of (bs : List Byte) : Str where
  bytes := bs.take (bs.length % 2 ^ 32)
  fits := by
    have := Nat.mod_lt bs.length (show 0 < 2 ^ 32 by decide)
    rw [List.length_take]
    omega

structure SourcePos where
  line : BitVec 32
  column : BitVec 32
  offset : BitVec 32
deriving DecidableEq

instance : Zero SourcePos := ⟨⟨0, 0, 0⟩⟩

/-- What every node has: where it starts and ends, and the hygiene fields. -/
structure Info where
  start : SourcePos
  stop : SourcePos
  scopeMark : BitVec 32
  isCaret : Bool
  isGensym : Bool
deriving DecidableEq

inductive AstNodeType where
  | command | litInt | litFloat | litString | varRef | block | interpString | use | defstruct
  | defMacro | quote | syntaxQuote | unquote | unquoteSplicing | brk | cont | ret
  | destructureVec | destructureNamed | spread | shellCmd | ctxDecl | error
deriving DecidableEq

def AstNodeType.code : AstNodeType → Byte
  | .command => 0
  | .litInt => 1
  | .litFloat => 2
  | .litString => 3
  | .varRef => 4
  | .block => 5
  | .interpString => 6
  | .use => 7
  | .defstruct => 8
  | .defMacro => 9
  | .quote => 10
  | .syntaxQuote => 11
  | .unquote => 12
  | .unquoteSplicing => 13
  | .brk => 14
  | .cont => 15
  | .ret => 16
  | .destructureVec => 17
  | .destructureNamed => 18
  | .spread => 19
  | .shellCmd => 20
  | .ctxDecl => 21
  | .error => 22

/-- The types with one node in them. -/
inductive Around where
  | quote | syntaxQuote | unquote | unquoteSplicing | spread
deriving DecidableEq

def Around.type : Around → AstNodeType
  | .quote => .quote
  | .syntaxQuote => .syntaxQuote
  | .unquote => .unquote
  | .unquoteSplicing => .unquoteSplicing
  | .spread => .spread

/-- The types that leave with a value, or without one. -/
inductive Leave where
  | brk | ret
deriving DecidableEq

def Leave.type : Leave → AstNodeType
  | .brk => .brk
  | .ret => .ret

/-- The types that are never in an expression. -/
inductive Other where
  | use | defstruct | defMacro | destructureVec | destructureNamed | ctxDecl | error
deriving DecidableEq

def Other.type : Other → AstNodeType
  | .use => .use
  | .defstruct => .defstruct
  | .defMacro => .defMacro
  | .destructureVec => .destructureVec
  | .destructureNamed => .destructureNamed
  | .ctxDecl => .ctxDecl
  | .error => .error

inductive AstNode where
  | null
  | litInt (info : Info) (value : BitVec 64) (big : Option Str)
  | litFloat (info : Info) (value : BitVec 32)
  | litString (info : Info) (value : Str)
  | varRef (info : Info) (name : Str)
  | command (info : Info) (headId : Byte) (head : AstNode) (args : List AstNode)
  | block (info : Info) (trailingSemi : Bool) (commands : List AstNode)
  | interpString (info : Info) (segments : List AstNode)
  | around (info : Info) (type : Around) (child : AstNode)
  | leave (info : Info) (type : Leave) (value : AstNode)
  | cont (info : Info)
  | shellCmd (info : Info) (headId : Byte) (background stream : Bool) (head : AstNode)
      (args : List AstNode)
  | other (info : Info) (type : Other)

/-! ### The position table -/

/-- The table holds no more: its capacity doubles from 64, and 2 ^ 32 is 0 in 32 bits. -/
def placesMax : Nat := 2 ^ 31

/-- `SynwCall`: the places of the nodes that were written, and of the call. -/
structure SynwCall where
  places : List (SourcePos × SourcePos)
  callStart : SourcePos
  callEnd : SourcePos
  expansion : BitVec 32
  fits : places.length ≤ placesMax

/-- `synw_call_begin`. -/
def synwCallBegin (start stop : SourcePos) (expansion : BitVec 32) : SynwCall :=
  ⟨[], start, stop, expansion, Nat.zero_le _⟩

/-- The table with one place more. -/
def SynwCall.add (c : SynwCall) (p : SourcePos × SourcePos) (h : c.places.length ≠ placesMax) :
    SynwCall where
  places := c.places ++ [p]
  callStart := c.callStart
  callEnd := c.callEnd
  expansion := c.expansion
  fits := by
    have := c.fits
    rw [List.length_append, List.length_singleton]
    omega

/-- Why a node cannot cross: the node, and the reason. -/
structure Refusal where
  bad : AstNode
  why : String

/-! ### Encoding -/

/-- The encoder: the bytes so far, and the table, if there is one. -/
structure W where
  buf : List Byte
  call : Option SynwCall

/-- What an encoding comes to; `err` is an error, with the refusal when there is a table. -/
abbrev Written : Type := Except (Option Refusal) W

def W.put (bs : List Byte) (w : W) : W := { w with buf := w.buf ++ bs }

def wU8 (v : Byte) (w : W) : W := w.put (leBytes 1 v.toNat)

def wU32 (v : BitVec 32) (w : W) : W := w.put (leBytes 4 v.toNat)

def wU64 (v : BitVec 64) (w : W) : W := w.put (leBytes 8 v.toNat)

def wStr (s : Str) (w : W) : W := (wU32 (BitVec.ofNat 32 s.bytes.length) w).put s.bytes

/-- `w_refuse`. -/
def wRefuse (n : AstNode) (why : String) (w : W) : Written :=
  .error (w.call.map fun _ => ⟨n, why⟩)

/-- `w_pos`: the handle of a new place. -/
def wPos (i : Info) (w : W) : Except (Option Refusal) (W × BitVec 32) :=
  match w.call with
  | none => .ok (w, 0)
  | some c =>
    if h : c.places.length = placesMax then
      .error none
    else
      .ok ({ w with call := some (c.add (i.start, i.stop) h) },
        BitVec.ofNat 32 (c.places.length + 1))

/-- The flags' byte. -/
def bits (a b : Bool) : Byte := BitVec.ofNat 8 ((if a then 1 else 0) + if b then 2 else 0)

/-- What `w_node` writes for every type. -/
def wHeader (type : AstNodeType) (i : Info) (w : W) : Written := do
  let w := wU8 (bits i.isCaret i.isGensym) (wU32 i.scopeMark (wU8 type.code w))
  let (w, handle) ← wPos i w
  pure (wU32 handle w)

/-- `w_opt`; `node` writes the node `n`. -/
def wOpt (n : AstNode) (node : W → Written) (w : W) : Written :=
  match n with
  | .null => .ok (wU8 0 w)
  | _ => node (wU8 1 w)

mutual

def wNode : AstNode → W → Written
  | .null, _ => .error none
  | .litInt i v big, w => do
    let w ← wHeader .litInt i w
    match big with
    | some _ => wRefuse (.litInt i v big) "a literal wider than 64 bits" w
    | none => pure (wU64 v w)
  | .litFloat i v, w => do
    let w ← wHeader .litFloat i w
    pure (wU32 v w)
  | .litString i s, w => do
    let w ← wHeader .litString i w
    pure (wStr s w)
  | .varRef i s, w => do
    let w ← wHeader .varRef i w
    pure (wStr s w)
  | .command i headId head args, w => do
    let w ← wHeader .command i w
    let w ← wOpt head (wNode head) (wU8 headId w)
    wEach args (wU32 (BitVec.ofNat 32 args.length) w)
  | .block i semi commands, w => do
    let w ← wHeader .block i w
    wEach commands (wU32 (BitVec.ofNat 32 commands.length) (wU8 (bits semi false) w))
  | .interpString i segments, w => do
    let w ← wHeader .interpString i w
    wEach segments (wU32 (BitVec.ofNat 32 segments.length) w)
  | .around i type child, w => do
    let w ← wHeader type.type i w
    wNode child w
  | .leave i type value, w => do
    let w ← wHeader type.type i w
    wOpt value (wNode value) w
  | .cont i, w => wHeader .cont i w
  | .shellCmd i headId background stream head args, w => do
    let w ← wHeader .shellCmd i w
    let w ← wNode head (wU8 (bits background stream) (wU8 headId w))
    wEach args (wU32 (BitVec.ofNat 32 args.length) w)
  | .other i type, w => do
    let w ← wHeader type.type i w
    wRefuse (.other i type) "this form" w

/-- The loop of `w_nodes`. -/
def wEach : List AstNode → W → Written
  | [], w => pure w
  | n :: ns, w => do
    let w ← wNode n w
    wEach ns w

end

def rU8 : Reader Byte := word 1

def rU32 : Reader (BitVec 32) := word 4

def rU64 : Reader (BitVec 64) := word 8

/-- `r_str`.  The copy, with a NUL after it, is of `n + 1` bytes, a `uint32_t`: for 2 ^ 32 - 1
bytes nothing is allocated, and they are written to a null pointer. -/
def rStr : Reader Str := do
  let n ← rU32
  let bs ← bytes n.toNat
  if n + 1 = 0 then stop .undefined else pure (Str.of bs)

/-- `r_opt`; `node` reads a node. -/
def rOpt (node : Reader AstNode) : Reader AstNode := do
  let b ← rU8
  if b = 0 then pure .null else node

/-- `r_nodes`: a node takes ten bytes at least. -/
def rNodes (node : Reader AstNode) : Reader (List AstNode) := do
  let count ← rU32
  let rest ← left
  if rest / 10 < count.toNat then stop .malformed else several node count.toNat

/-- `r_where`. -/
def rWhere (c : SynwCall) (h : BitVec 32) : SourcePos × SourcePos :=
  if h = 0 then (c.callStart, c.callEnd) else c.places.getD (h.toNat - 1) (c.callStart, c.callEnd)

/-- `r_place`, on a new node. -/
def rPlace (c : Option SynwCall) (handle mark : BitVec 32) (fl : Byte) : Info :=
  let place := (c.map fun c => rWhere c handle).getD (0, 0)
  ⟨place.1, place.2, mark, fl.getLsbD 0, fl.getLsbD 1⟩

/-- `r_name_gensym`: a name that this run minted ends with the expansion's number. -/
def rNameGensym (c : Option SynwCall) (i : Info) (handle : BitVec 32) (name : Str) : Str :=
  match c with
  | none => name
  | some c =>
    if handle ≠ 0 ∨ i.isGensym = false then
      name
    else
      Str.of (name.bytes.takeWhile (· != 0) ++ 95 ::
        (Nat.toDigits 10 c.expansion.toNat).map fun d => BitVec.ofNat 8 d.toNat)

variable (headIdFor : List Byte → Byte)

/-- `ast__compute_head_id`. -/
def computeHeadId : AstNode → Byte
  | .litString _ s => headIdFor s.bytes
  | _ => 0

/-- The type of a node that a byte of the wire is for. -/
inductive Form where
  | type (t : AstNodeType)
  | around (t : Around)
  | leave (t : Leave)

/-- The cases of the switch of `r_node`. -/
def Form.ofCode (b : Byte) : Option Form :=
  match b.toNat with
  | 0 => some (.type .command)
  | 1 => some (.type .litInt)
  | 2 => some (.type .litFloat)
  | 3 => some (.type .litString)
  | 4 => some (.type .varRef)
  | 5 => some (.type .block)
  | 6 => some (.type .interpString)
  | 10 => some (.around .quote)
  | 11 => some (.around .syntaxQuote)
  | 12 => some (.around .unquote)
  | 13 => some (.around .unquoteSplicing)
  | 14 => some (.leave .brk)
  | 15 => some (.type .cont)
  | 16 => some (.leave .ret)
  | 19 => some (.around .spread)
  | 20 => some (.type .shellCmd)
  | _ => none

/-- What `r_node` reads after the header. -/
def rData (c : Option SynwCall) (node : Reader AstNode) (i : Info) (handle : BitVec 32) :
    Form → Reader AstNode
  | .type .litInt => do
    let v ← rU64
    pure (.litInt i v none)
  | .type .litFloat => do
    let v ← rU32
    pure (.litFloat i v)
  | .type .litString => do
    let s ← rStr
    pure (.litString i s)
  | .type .varRef => do
    let s ← rStr
    pure (.varRef i (rNameGensym c i handle s))
  | .type .command => do
    let headId ← rU8
    let head ← rOpt node
    let args ← rNodes node
    let headId := if handle = 0 ∧ headId = 0 then computeHeadId headIdFor head else headId
    pure (.command i headId head args)
  | .type .block => do
    let semi ← rU8
    let commands ← rNodes node
    pure (.block i (semi != 0) commands)
  | .type .interpString => do
    let segments ← rNodes node
    pure (.interpString i segments)
  | .around t => do
    let child ← node
    pure (.around i t child)
  | .leave t => do
    let value ← rOpt node
    pure (.leave i t value)
  | .type .cont => pure (.cont i)
  | .type .shellCmd => do
    let headId ← rU8
    let fl ← rU8
    let head ← node
    let args ← rNodes node
    pure (.shellCmd i headId (fl.getLsbD 0) (fl.getLsbD 1) head args)
  | .type _ => stop .malformed

def rNode (c : Option SynwCall) : Nat → Reader AstNode
  | 0 => stop .spent
  | fuel + 1 => do
    let type ← rU8
    let mark ← rU32
    let fl ← rU8
    let handle ← rU32
    let i := rPlace c handle mark fl
    match Form.ofCode type with
    | some form => rData headIdFor c (rNode c fuel) i handle form
    | none => stop .malformed

end Jacl.SynWire
