import Jacl.ReplSession
import Jacl.MacrosExpansion

/-!
# What a line sees

A line that compiles sees what the earlier lines defined (`Sees`) as long as each line keeps to
what the session can hold (`Fits`): a line that fails puts no macro in the table, the names that
a line binds are those that are noted, and there is room for them and for its structs, which are
new.
-/

namespace Jacl.ReplSession
open Readers Macros Tables

variable {s s' : Session} {l : Line} {nodes : List AstNode} {n : Name} {k : Nat}

/-! ### Conditions on a line -/

/-- The line compiles; `nodes` are its forms once its macros are expanded. -/
structure Compiles (l : Line) (s : Session) (nodes : List AstNode) : Prop where
  parsed : ∃ program, l.parsed = some program ∧
    ∃ t, astExpandMacros l.stage [] program s.macros = .ok (nodes, t)
  bodies : l.bodies = true
  generates : ∃ kn, known s nodes = some kn ∧ l.generates kn nodes = true
  installs : l.installs = true

/-- What the form binds is noted, and is put in the global map. -/
structure Plain (form : AstNode) : Prop where
  noted : notes form = binds form
  scans : isProc form = false → scanned form = binds form
  proc : isProc form = true → isGenerator form = false

/-- What the session can hold of the line. -/
structure Fits (l : Line) (s : Session) : Prop where
  /-- A line that fails leaves no macro in the table. -/
  fails : (∀ nodes, ¬ Compiles l s nodes) → l.bodies = true → ∀ program,
    l.parsed = some program → registerSome program s.macros = s.macros
  plain : ∀ nodes, Compiles l s nodes → ∀ form ∈ nodes, Plain form
  names : ∀ nodes, Compiles l s nodes →
    (s.globals.toFinset ∪ (nodes.flatMap notes).toFinset).card ≤ replMaxGlobals
  structs : ∀ nodes, Compiles l s nodes →
    (s.structs ++ structsOf nodes).length ≤ replMaxStructs ∧
      ((s.structs ++ structsOf nodes).map StructDecl.name).Nodup

/-- What a line that compiles sees of the definitions `d`. -/
structure Sees (s : Session) (d : Defined) : Prop where
  /-- A name is global, and has the value that its latest definition gave it. -/
  names : ∀ n k, d.names n = some k →
    (∀ nodes kn, known s nodes = some kn → n ∈ kn.globals) ∧ s.globalMap n = some k
  structs : ∀ n decl, d.structs n = some decl → ∀ nodes kn, known s nodes = some kn →
    sdefLookup kn.sdefs n = some (sdefOf decl)
  macros : ∀ n entry, d.macros n = some entry → ∀ stage program nodes t,
    astExpandMacros stage [] program s.macros = .ok (nodes, t) → t.lookup n = some entry

/-! ### What a line compiles to -/

/-- The session has what the lines defined. -/
structure Inv (s : Session) (d : Defined) : Prop where
  nodup : s.globals.Nodup
  length : s.globals.length ≤ replMaxGlobals
  names : ∀ n k, d.names n = some k → n ∈ s.globals ∧ s.globalMap n = some k
  distinct : (s.structs.map StructDecl.name).Nodup
  structs : ∀ n, d.structs n = lastNamed StructDecl.name s.structs n
  user : ∀ e ∈ s.macros.entries, e.isBuiltin = false
  macros : ∀ n, d.macros n = s.macros.lookup n

def noInfo : SynWire.Info := ⟨0, 0, 0, false, false⟩

/-- A line that parses to the forms, and goes through. -/
def through (forms : List AstNode) : Line where
  parsed := some forms
  bodies := true
  stage _ _ _ := .ok (.litInt noInfo 1 none)
  generates _ _ := true
  installs := true
  ran := forms.length

end Jacl.ReplSession
