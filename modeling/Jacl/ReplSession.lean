import Jacl.Macros
import Jacl.Tables

/-!
# A REPL session (`codegen/selfhost/repl/repl_guest.c`)

The lines of a session share the names, structs and macros that earlier lines defined.  A line is
lexed and parsed, the bodies of its macros are compiled, its macros are put in the session's table
and expanded (`expand_macros_repl`), its code is generated under what the session knows
(`temen_codegen_repl`) and installed; then what it defines is noted (`repl_note`), and it runs.
What a name stands for is in the runtime's global map.

What the stages make of a line beyond that is the line's own (`Line`): whether it parses, whether
the bodies compile, what the macros make, whether there is code for it under the names and structs
in reach, whether its unit is installed, and how many of its forms it runs until one fails.
Failing allocations are left out.
-/

namespace Jacl.ReplSession
open Readers Macros Tables

abbrev Name := List Byte

instance : LawfulBEq Name := inferInstanceAs (LawfulBEq (List Byte))

/-- `HEAD_DEF`, `HEAD_MUT`, `HEAD_PROC`, `HEAD_YIELD`. -/
def headDef : Byte := 23

def headMut : Byte := 24

def headProc : Byte := 26

def headYield : Byte := 38

/-! ### What code generation makes of a form -/

/-- `cg_is_type_kw`. -/
def typeKeywords : List Name :=
  ["i8", "u8", "i16", "u16", "i32", "i64", "u32", "u64", "f32", "f64", "str", "vec", "map", "dyn",
    "bool", "stream"].map text

/-- `cg_is_type_prefix`. -/
def isTypePrefix (s : Name) : Bool :=
  s ∈ typeKeywords || match s with
    | c :: _ => 65 ≤ c.toNat && c.toNat ≤ 90
    | [] => false

/-- Whether a leading type annotation puts the name second. -/
def annotated : List AstNode → Bool
  | .command .. :: .litString .. :: _ :: _ => true
  | .litString _ s :: .litString .. :: _ :: _ => isTypePrefix s
  | _ => false

/-- `binding_ident`. -/
def bindingIdent : AstNode → Option Name
  | .litString _ s | .varRef _ s => some s
  | _ => none

def word : AstNode → Option Name
  | .litString _ s => some s
  | _ => none

/-- `rest_spread_name`. -/
def restSpreadName : AstNode → Option Name
  | .around _ .spread e => word e
  | _ => none

/-- The head and the arguments. -/
def tokens (head : AstNode) (args : List AstNode) : List AstNode :=
  match head with
  | .null => args
  | _ => head :: args

/-- `CG_MAX_PARAMS`. -/
def cgMaxParams : Nat := 64

/-- The names of a pattern `[a b ..c]`. -/
def vecNames : List AstNode → List Name
  | [] => []
  | .around _ .spread e :: _ => (bindingIdent e).toList
  | n :: ns => (word n).toList ++ vecNames ns

/-- The names of a pattern `{a, b, ..c}`. -/
def blockNames : List AstNode → List Name
  | [] => []
  | n :: ns =>
    match restSpreadName n with
    | some rest => [rest]
    | none =>
      if word n = some (text "..") ∧ ns ≠ [] then (ns.head?.bind word).toList
      else (word n).toList ++ blockNames ns

/-- The words in the commands of a block, if there are commands only. -/
def blockTokens : List AstNode → Option (List AstNode)
  | [] => some []
  | .command _ _ head args :: ns => (blockTokens ns).map (tokens head args ++ ·)
  | _ => none

/-- The names that a `def` of a pattern binds, if it is one. -/
def patternNames : List AstNode → Option (List Name)
  | [.destructureNamed _ names, _] => some names
  | [.destructureVec _ names, _] => some (names.filter (· ≠ text "_"))
  | [.command _ _ head args, _] => some (vecNames ((tokens head args).take cgMaxParams))
  | [.block .., .block ..] => none
  | [.block _ _ commands, _] =>
    match (blockTokens commands).map (List.take cgMaxParams) with
    | some (n :: ns) =>
      if (n :: ns).all fun n => (word n).isSome || (restSpreadName n).isSome then
        some (blockNames (n :: ns))
      else none
    | _ => none
  | _ => none

/-- The name of a binding form without a pattern. -/
def plainName (args : List AstNode) : Option Name :=
  if args.length < 2 then none
  else if annotated args then args[1]?.bind bindingIdent else args[0]?.bind bindingIdent

/-- The names that a top-level form binds. -/
def binds : AstNode → List Name
  | .command _ headId _ args =>
    if headId = headProc then (args.head?.bind word).toList
    else if headId = headDef then (patternNames args).getD (plainName args).toList
    else if headId = headMut then (plainName args).toList
    else []
  | _ => []

mutual

/-- `contains_yield`. -/
def containsYield : AstNode → Bool
  | .command _ headId head args =>
    if headId = headYield then true
    else if headId = headProc then false
    else
      match head with
      | .litString _ s => if s = text "\\" then false else anyYield args
      | _ => anyYield args
  | .block _ _ commands => anyYield commands
  | .leave _ .ret value => containsYield value
  | _ => false

def anyYield : List AstNode → Bool
  | [] => false
  | n :: ns => containsYield n || anyYield ns

end

/-- A proc whose body has a `yield`. -/
def isGenerator : AstNode → Bool
  | .command _ headId _ args => headId = headProc && (args.getLast?.map containsYield).getD false
  | _ => false

/-- The name that `scan_top_globals` finds in a form. -/
def scanned : AstNode → List Name
  | .command _ headId _ args =>
    if (headId = headDef ∨ headId = headMut) ∧ 2 ≤ args.length then
      ((if annotated args then args[1]? else args[0]?).bind word).toList
    else []
  | _ => []

/-- `CG_MAX_GLOBALS`. -/
def cgMaxGlobals : Nat := 1024

/-- `global_add`. -/
def globalAdd (globals : List Name) (n : Name) : List Name :=
  if n ∈ globals ∨ cgMaxGlobals ≤ globals.length then globals else globals ++ [n]

/-- What code generation knows of a struct: as many of its fields as it has room for. -/
structure SDef where
  name : Name
  fields : List (Name × Option Name)
deriving DecidableEq

def sdefOf (d : StructDecl) : SDef := ⟨d.name, d.fields.take cgMaxParams⟩

/-- `sdef_lookup`. -/
def sdefLookup (sdefs : List SDef) (name : Name) : Option SDef := sdefs.find? (·.name = name)

/-- `sdef_register`; none when there are too many. -/
def sdefRegister (sdefs : List SDef) (d : StructDecl) : Option (List SDef) :=
  if (sdefLookup sdefs d.name).isSome then some sdefs
  else if 32 ≤ sdefs.length then none else some (sdefs ++ [sdefOf d])

def structOf : AstNode → Option StructDecl
  | .defstruct _ d => some d
  | _ => none

/-- The structs that a program declares. -/
def structsOf (nodes : List AstNode) : List StructDecl := nodes.filterMap structOf

/-! ### A session -/

/-- `REPL_MAX_GLOBALS`, `REPL_MAX_STRUCTS`. -/
def replMaxGlobals : Nat := 1024

def replMaxStructs : Nat := 32

structure Session where
  /-- `repl_globals`. -/
  globals : List Name
  /-- `repl_structs`. -/
  structs : List StructDecl
  /-- The table of `expand_macros_repl`. -/
  macros : MacroTable
  /-- The runtime's global map: the line whose definition a name has. -/
  globalMap : Name → Option Nat

/-- What is known when the code of a line is generated. -/
structure Known where
  sdefs : List SDef
  globals : List Name

/-- A line, with what the stages make of it. -/
structure Line where
  /-- The forms, if it lexes and parses. -/
  parsed : Option (List AstNode)
  /-- The bodies of its macros compile. -/
  bodies : Bool
  stage : Stage
  generates : Known → List AstNode → Bool
  /-- The Jit compiles the unit, and installs it. -/
  installs : Bool
  /-- How many of the forms that are not procs run to their end. -/
  ran : Nat

/-- What `temen_codegen_repl` knows. -/
def known (s : Session) (nodes : List AstNode) : Option Known := do
  let sdefs ← s.structs.foldlM sdefRegister []
  let sdefs ← (structsOf nodes).foldlM sdefRegister sdefs
  pure ⟨sdefs, (nodes.flatMap scanned).foldl globalAdd (s.globals.foldl globalAdd [])⟩

/-- The names that `repl_note` finds in a form. -/
def notes : AstNode → List Name
  | .command _ headId _ args =>
    if headId = headProc ∧ (args.head?.bind word).isSome then (args.head?.bind word).toList
    else if (headId = headDef ∨ headId = headMut) ∧ 2 ≤ args.length then
      ((if 3 ≤ args.length ∧ (args[1]?.bind word).isSome then args[1]? else args[0]?).bind
        word).toList
    else []
  | _ => []

def isProc : AstNode → Bool
  | .command _ headId .. => headId = headProc
  | _ => false

/-- The forms that a line runs: first its procs are put in the global map. -/
def runs (nodes : List AstNode) (ran : Nat) : List AstNode :=
  nodes.filter isProc ++ (nodes.filter fun n => !isProc n).take ran

/-- Phase 1 of the expansion, which may leave the table with macros of the line when it fails. -/
def registerSome : List AstNode → MacroTable → MacroTable
  | [], t => t
  | .defMacro i name params variadic body :: ns, t =>
    match registerMacro i name params variadic body t with
    | .ok t => registerSome ns t
    | .error _ => t
  | _ :: ns, t => registerSome ns t

def noTable : MacroTable := ⟨[], Nat.zero_le _⟩

def start : Session := ⟨[], [], noTable, fun _ => none⟩

/-! ### What the lines defined -/

/-- The latest definitions: of a name, the line that made it. -/
structure Defined where
  names : Name → Option Nat
  structs : Name → Option StructDecl
  macros : Name → Option MacroEntry

/-- The macro that a form defines. -/
def macroOf : AstNode → Option MacroEntry
  | .defMacro _ name params variadic body => some ⟨name, params, variadic, false, body⟩
  | _ => none

/-- Line number `k` compiled: these are its forms, and what they are once expanded. -/
def Defined.line (d : Defined) (k : Nat) (program nodes : List AstNode) (ran : Nat) : Defined where
  names n := if n ∈ (runs nodes ran).flatMap binds then some k else d.names n
  structs n := (lastNamed StructDecl.name (structsOf nodes) n).or (d.structs n)
  macros n := (lastNamed MacroEntry.name (program.filterMap macroOf) n).or (d.macros n)

end Jacl.ReplSession
