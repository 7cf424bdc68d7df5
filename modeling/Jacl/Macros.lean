import Jacl.SynWire

/-!
# Macros (`src/syntax.c`)

`ast_expand_macros` first puts the macros that a program defines into the table, and then walks
each of its other nodes: a command whose head is the name of a macro is replaced by what the
macro's body makes of it, and the walk goes on in what it made, one level deeper.

The body runs on the engine, behind the staging hook; here the hook is a parameter, `Stage`, and
what it gives may depend on where the call is (`Path`), as the run is a different one for each
place.  The build is the one without the old evaluator, where macros expand through the hook
only.  Left out: the data of the nodes without a node in them that the expander does not read,
and the counts' 32 bits.
-/

namespace Jacl.Macros
open Readers SynWire

/-! ### Nodes -/

/-- The types with no node in them that the expander takes no notice of. -/
inductive Other where
  | use | error
deriving DecidableEq

/-- A struct's declaration: the fields with their types, if they have one. -/
structure StructDecl where
  name : List Byte
  fields : List (List Byte × Option (List Byte))
deriving DecidableEq

inductive AstNode where
  | null
  | litInt (info : Info) (value : BitVec 64) (big : Option (List Byte))
  | litFloat (info : Info) (value : BitVec 32)
  | litString (info : Info) (value : List Byte)
  | varRef (info : Info) (name : List Byte)
  | command (info : Info) (headId : Byte) (head : AstNode) (args : List AstNode)
  | block (info : Info) (trailingSemi : Bool) (commands : List AstNode)
  | interpString (info : Info) (segments : List AstNode)
  | around (info : Info) (type : Around) (child : AstNode)
  | leave (info : Info) (type : Leave) (value : AstNode)
  | cont (info : Info)
  | shellCmd (info : Info) (headId : Byte) (background stream : Bool) (head : AstNode)
      (args : List AstNode)
  | ctxDecl (info : Info) (defaultExpr : AstNode)
  | defMacro (info : Info) (name : List Byte) (params : List (List Byte)) (variadic : Bool)
      (body : AstNode)
  | defstruct (info : Info) (decl : StructDecl)
  | destructureVec (info : Info) (names : List (List Byte))
  | destructureNamed (info : Info) (names : List (List Byte))
  | other (info : Info) (type : Other)

def AstNode.start : AstNode → SourcePos
  | .null => 0
  | .litInt i .. | .litFloat i .. | .litString i .. | .varRef i .. | .command i .. | .block i ..
  | .interpString i .. | .around i .. | .leave i .. | .cont i | .shellCmd i .. | .ctxDecl i ..
  | .defMacro i .. | .defstruct i .. | .destructureVec i .. | .destructureNamed i ..
  | .other i .. => i.start

/-- A statement of the program that only the first pass reads. -/
def AstNode.isDefMacro : AstNode → Bool
  | .defMacro .. => true
  | _ => false

/-! ### The table -/

/-- `MACRO_TABLE_MAX`. -/
def macroTableMax : Nat := 64

structure MacroEntry where
  name : List Byte
  params : List (List Byte)
  /-- The last parameter receives the remaining arguments. -/
  variadic : Bool
  isBuiltin : Bool
  body : AstNode

structure MacroTable where
  entries : List MacroEntry
  fits : entries.length ≤ macroTableMax

/-- `macro_table_lookup`. -/
def MacroTable.lookup (t : MacroTable) (name : List Byte) : Option MacroEntry :=
  t.entries.find? fun e => e.name = name

/-- The table with one entry more. -/
def MacroTable.add (t : MacroTable) (e : MacroEntry) (h : t.entries.length < macroTableMax) :
    MacroTable where
  entries := t.entries ++ [e]
  fits := by
    rw [List.length_append, List.length_singleton]
    exact h

/-- The first entry of the name is replaced. -/
def replaceFirst (name : List Byte) (e : MacroEntry) : List MacroEntry → List MacroEntry
  | [] => []
  | f :: fs => if f.name = name then e :: fs else f :: replaceFirst name e fs

theorem length_replaceFirst (name : List Byte) (e : MacroEntry) (es : List MacroEntry) :
    (replaceFirst name e es).length = es.length := by
  induction es with
  | nil => rfl
  | cons f fs ih =>
    rw [replaceFirst]
    split_ifs
    · rfl
    · exact congrArg (· + 1) ih

def MacroTable.replace (t : MacroTable) (name : List Byte) (e : MacroEntry) : MacroTable where
  entries := replaceFirst name e t.entries
  fits := by
    rw [length_replaceFirst]
    exact t.fits

/-! ### Errors -/

/-- A text of the source. -/
def text (s : String) : List Byte := s.toList.map fun c => BitVec.ofNat 8 c.toNat

def decimal (n : Nat) : List Byte := (Nat.toDigits 10 n).map fun d => BitVec.ofNat 8 d.toNat

/-- What `%.*s` prints of a name. -/
def printed (name : List Byte) : List Byte := name.takeWhile (· != 0)

/-- `snprintf` into `cap` bytes. -/
def snprintf (cap : Nat) (bs : List Byte) : List Byte := bs.take (cap - 1)

structure ExpandError where
  msg : List Byte
  line : BitVec 32
  col : BitVec 32
deriving DecidableEq

/-- `ExpandFrame`: a call whose expansion the walk is in. -/
structure ExpandFrame where
  name : List Byte
  line : BitVec 32
  col : BitVec 32

/-- `EXPAND_FRAME_MAX`. -/
def expandFrameMax : Nat := 256

/-- `expand__push_frame`. -/
def pushFrame (frames : List ExpandFrame) (f : ExpandFrame) : List ExpandFrame :=
  if expandFrameMax ≤ frames.length then frames else frames ++ [f]

def ExpandFrame.shown (f : ExpandFrame) : List Byte :=
  text "\n  in expansion of macro \x60" ++ printed f.name ++ text "\x60 at line " ++
    decimal f.line.toNat ++ text ", col " ++ decimal f.col.toNat

/-- `expand__build_error_with_chain`: of more than eight frames, the first and the last four. -/
def buildErrorWithChain (frames : List ExpandFrame) (base : List Byte) : List Byte :=
  if frames.length ≤ 8 then
    base ++ frames.flatMap ExpandFrame.shown
  else
    base ++ (frames.take 4).flatMap ExpandFrame.shown ++
      (text "\n  ... " ++ decimal (frames.length - 8) ++ text " more expansion frames ...") ++
      (frames.drop (frames.length - 4)).flatMap ExpandFrame.shown

/-- `expand__set_error`. -/
def setError (frames : List ExpandFrame) (msg : List Byte) (pos : SourcePos) : ExpandError where
  msg := buildErrorWithChain frames
    (if pos.line = 0 then msg
    else snprintf 512 (decimal pos.line.toNat ++ text ":" ++ decimal pos.column.toNat ++
      text ": " ++ msg))
  line := pos.line
  col := pos.column

/-! ### The walk -/

/-- Where a node is: the children to go to from the program down, the last one first.  What a
macro made of a node is its child 0. -/
abbrev Path := List Nat

/-- A staged macro's error, and the place it names, if its line is not 0. -/
structure StageError where
  msg : List Byte
  errAt : SourcePos

/-- `jacl_macro_stage_hook`: what the macro makes of a call. -/
abbrev Stage := Path → MacroEntry → AstNode → Except StageError AstNode

variable (macros : MacroTable) (stage : Stage)

/-- The macro that a node calls (`expand__head_is_name` and `macro_table_lookup`). -/
def callee : AstNode → Option MacroEntry
  | .command _ _ (.litString _ name) _ => macros.lookup name
  | _ => none

/-- Whether a macro takes so many arguments. -/
def MacroEntry.takes (e : MacroEntry) (argc : Nat) : Bool :=
  if e.variadic then e.params.length - 1 ≤ argc else argc == e.params.length

def MacroEntry.expects (e : MacroEntry) (argc : Nat) : List Byte :=
  snprintf 256 (text "macro '" ++ printed e.name ++ text "' expects " ++
    if e.variadic then
      text "at least " ++ decimal (e.params.length - 1) ++ text " arguments but got " ++ decimal argc
    else decimal e.params.length ++ text " arguments but got " ++ decimal argc)

/-- A call of a macro; `again` goes on in what the macro makes of it. -/
def expandCall (again : Path → List ExpandFrame → AstNode → Except ExpandError AstNode)
    (p : Path) (frames : List ExpandFrame) (entry : MacroEntry) (node : AstNode) (argc : Nat) :
    Except ExpandError AstNode :=
  if entry.takes argc then
    match stage p entry node with
    | .error e =>
      .error (setError frames
        (snprintf 256 (text "macro '" ++ printed entry.name ++ text "': " ++ printed e.msg))
        (if e.errAt.line = 0 then node.start else e.errAt))
    | .ok .null => .error (setError frames (text "staged macro produced invalid syntax") node.start)
    | .ok expanded =>
      again (0 :: p) (pushFrame frames ⟨entry.name, node.start.line, node.start.column⟩) expanded
  else .error (setError frames (entry.expects argc) node.start)

mutual

/-- `expand__node`, at a level that is not too deep. -/
def walk (again : Path → List ExpandFrame → AstNode → Except ExpandError AstNode) (p : Path)
    (frames : List ExpandFrame) : AstNode → Except ExpandError AstNode
  | .null => .ok .null
  | .command i headId head args =>
    match callee macros (.command i headId head args) with
    | some entry => expandCall stage again p frames entry (.command i headId head args) args.length
    | none => do
      let head ← walk again (0 :: p) frames head
      let args ← walkEach again p 1 frames args
      pure (.command i headId head args)
  | .block i semi commands => do
    let commands ← walkEach again p 0 frames commands
    pure (.block i semi commands)
  -- Don't expand inside quote, nor inside syntax-quote.
  | .around i type child => .ok (.around i type child)
  | node => .ok node

def walkEach (again : Path → List ExpandFrame → AstNode → Except ExpandError AstNode) (p : Path)
    (k : Nat) (frames : List ExpandFrame) : List AstNode → Except ExpandError (List AstNode)
  | [] => .ok []
  | n :: ns => do
    let n ← walk again (k :: p) frames n
    let ns ← walkEach again p (k + 1) frames ns
    pure (n :: ns)

end

/-- The depth that is too deep is 257. -/
def expandLevels : Nat := 257

def depthMessage : List Byte := text "macro expansion depth limit exceeded"

/-- `expand__node`, with so many levels left (257 less the depth). -/
def expandNode : Nat → Path → List ExpandFrame → AstNode → Except ExpandError AstNode
  | 0, _, frames, node =>
    match node with
    | .null => .ok .null
    | node => .error (setError frames depthMessage node.start)
  | left + 1, p, frames, node => walk macros stage (expandNode left) p frames node

/-! ### A program -/

/-- `macro__is_special_form`. -/
def specialForms : List (List Byte) :=
  ["if", "to", "def", "mut", "set", "for", "try", "proc", "while", "break", "match", "quote",
    "spawn", "yield", "await", "return", "sleep", "defmacro", "continue", "parallel", "defstruct",
    "syntax-quote"].map text

/-- Phase 0: the prelude's macros, while there is room. -/
def registerPrelude : List MacroEntry → MacroTable → MacroTable
  | [], t => t
  | e :: es, t =>
    if h : t.entries.length < macroTableMax then registerPrelude es (t.add e h) else t

/-- Phase 1, at one macro. -/
def registerMacro (i : Info) (name : List Byte) (params : List (List Byte)) (variadic : Bool)
    (body : AstNode) (t : MacroTable) : Except ExpandError MacroTable :=
  if name ∈ specialForms then
    .error ⟨snprintf 128 (text "defmacro: '" ++ printed name ++ text "' shadows a special form"),
      i.start.line, i.start.column⟩
  else
    match t.lookup name with
    | some existing =>
      if existing.isBuiltin then
        .ok (t.replace name ⟨existing.name, params, variadic, false, body⟩)
      else
        .error ⟨snprintf 128 (text "defmacro: '" ++ printed name ++ text "' already defined"),
          i.start.line, i.start.column⟩
    | none =>
      if h : t.entries.length < macroTableMax then
        .ok (t.add ⟨name, params, variadic, false, body⟩ h)
      else .error ⟨text "too many macro definitions", i.start.line, i.start.column⟩

/-- Phase 1. -/
def registerAll : List AstNode → MacroTable → Except ExpandError MacroTable
  | [], t => .ok t
  | .defMacro i name params variadic body :: ns, t => do
    let t ← registerMacro i name params variadic body t
    registerAll ns t
  | _ :: ns, t => registerAll ns t

/-- Phase 3, at the `k`-th node. -/
def expandStatement (k : Nat) (n : AstNode) : Except ExpandError AstNode :=
  if n.isDefMacro then .ok n else expandNode macros stage expandLevels [k] [] n

/-- Phase 3; the nodes from the `k`-th on. -/
def expandEach (k : Nat) : List AstNode → Except ExpandError (List AstNode)
  | [] => .ok []
  | n :: ns => do
    let n ← expandStatement macros stage k n
    let ns ← expandEach (k + 1) ns
    pure (n :: ns)

/-- `ast_expand_macros`: the program, and the table with the macros it defines.  `prelude` is
empty if the prelude is skipped. -/
def astExpandMacros (prelude : List MacroEntry) (program : List AstNode) (macros : MacroTable) :
    Except ExpandError (List AstNode × MacroTable) := do
  let macros ← registerAll program (registerPrelude prelude macros)
  let program ← expandEach macros stage 0 program
  pure (program, macros)

end Jacl.Macros
