import Mathlib

/-!
# The REPL's units and their slots (`codegen/selfhost/repl/repl_guest.c`)

A line that is evaluated is compiled to a unit, which the Jit capability compiles and installs:
the unit gets a slot of the dispatch table for each of its functions, when it names one of them,
and one for its install.  A unit that names none is a leaf, and its slot goes back when its line
has returned.  Another unit has a record (`ReplUnit`), if one is free, and its entry hands the
record the slots of its functions.  When the table is full, `repl_reclaim` uninstalls the units
whose lines have returned and of which no closure or generator is kept.

One line compiles at a time; the steps of the compiler, of the lines that run, and of what they
make and drop, come in any order.  The units are numbered (`UnitId`) and have a phase, and a record
remembers the number of its unit: the code has neither.  What a line defines, the signatures
that go with the slots, and the compiler's own work are left out; a failure of that work is a
step.  A slot is an index of the table, and a count of slots is far below 2 ^ 31, so neither
`n` nor `cap` wraps.
-/

namespace Jacl.ReplUnits
open Function

abbrev Slot := Nat
abbrev UnitId := Nat

/-- `REPL_MAX_UNITS`. -/
def maxUnits : Nat := 4096

/-- How far a unit, and the line it is for, has come. -/
inductive Phase
  | unmade
  /-- The Jit has compiled it. -/
  | built
  /-- It has the slot of its install. -/
  | installed
  /-- The line is about to be called. -/
  | ready
  /-- The entry has handed over the slots of the first `k` functions. -/
  | entering (k : Nat)
  | running
  | returned
  /-- The line is past its call. -/
  | left
  /-- `repl_reclaim` is uninstalling it. -/
  | freeing
  | freed
  /-- It will not be called: its install was refused. -/
  | dropped
deriving DecidableEq

/-- A compiled unit: a line's (`ReplLine`) or a macro's. -/
structure CompiledUnit where
  isMacro : Bool
  leaf : Bool
  /-- The slots of its functions. -/
  fns : List Slot
  /-- The slot of its install. -/
  slot : Option Slot
  /-- Its record, counted from 1; 0 for a leaf or none. -/
  unit : Nat
  phase : Phase
deriving DecidableEq

/-- All the slots of a unit. -/
def CompiledUnit.slots (c : CompiledUnit) : List Slot := c.fns ++ c.slot.toList

def noUnit : CompiledUnit := ⟨false, false, [], none, 0, .unmade⟩

/-- `ReplUnit`, with the number of the unit it is for. -/
structure ReplUnit where
  /-- The slot of its install; 0 for a free record. -/
  install : Slot
  slots : List Slot
  cap : Nat
  running : Int
  /-- `partial`: a slot went unrecorded. -/
  isPartial : Bool
  candidate : Bool
  owner : UnitId

def freeRecord : ReplUnit := ⟨0, [], 0, 0, false, false, 0⟩

/-- What a reclaim makes room for. -/
inductive Goal
  | compile
  | install (u : UnitId)

/-- Where `repl_reclaim` is. -/
inductive Reclaim
  /-- The first loop, at record `i`. -/
  | scan (i n : Nat) (any : Bool)
  | collect (n : Nat)
  /-- The second loop, at record `i`. -/
  | sweep (i : Nat) (seen : Slot → Bool) (freed : Nat)
  /-- At slot `k` of record `i`, which is uninstalled. -/
  | free (i k : Nat) (seen : Slot → Bool) (freed : Nat)
  | done (freed : Nat)

/-- Where the compiler's fiber is (`repl_compile`). -/
inductive Compiler
  | idle
  /-- Before the unit is compiled; `again` after a reclaim. -/
  | front (again : Bool)
  /-- A macro's unit is staged. -/
  | staging (u : UnitId)
  /-- The unit is compiled; `again` after a reclaim. -/
  | linked (u : UnitId) (again : Bool)
  | recording (u : UnitId)
  | reclaim (goal : Goal) (r : Reclaim)

structure St where
  /-- The dispatch table: whose slot each is. -/
  table : Slot → Option UnitId
  /-- A closure or generator that a collection keeps holds the slot. -/
  held : Slot → Bool
  made : Nat
  units : UnitId → CompiledUnit
  /-- `repl_units`. -/
  records : Nat → ReplUnit
  compiler : Compiler

def init : St where
  table _ := none
  held _ := false
  made := 0
  units _ := noUnit
  records _ := freeRecord
  compiler := .idle

/-- The first free record, for `repl_unit_new`. -/
def unitNew (records : Nat → ReplUnit) : Option Nat :=
  (List.range maxUnits).find? fun i => (records i).install == 0

/-- `jacl_repl_unit_slot`; `grows` says whether the `realloc` it may need succeeds. -/
def unitSlot (r : ReplUnit) (slot : Slot) (grows : Bool) : ReplUnit :=
  if r.slots.length = r.cap then
    if grows then
      { r with cap := if r.cap = 0 then 8 else 2 * r.cap, slots := r.slots ++ [slot] }
    else { r with isPartial := true }
  else { r with slots := r.slots ++ [slot] }

/-- What the first loop of `repl_reclaim` makes of a record. -/
def ReplUnit.scanned (r : ReplUnit) : ReplUnit :=
  { r with candidate := r.install != 0 && !r.isPartial && r.running == 0 }

/-- `n` after the slots of a candidate. -/
def past (n : Nat) (slots : List Slot) : Nat :=
  slots.foldl (fun n x => if n ≤ x then x + 1 else n) n

/-- The Jit hands out slots that are not installed. -/
def Fresh (s : St) (xs : List Slot) : Prop := xs.Nodup ∧ ∀ x ∈ xs, s.table x = none

/-- The table after `u` has got the slots `xs`. -/
def St.take (s : St) (u : UnitId) (xs : List Slot) (x : Slot) : Option UnitId :=
  if x ∈ xs then some u else s.table x

def St.setPhase (s : St) (u : UnitId) (p : Phase) : St :=
  { s with units := update s.units u { s.units u with phase := p } }

/-- `__vm_jit_uninstall`. -/
def St.uninstall (s : St) (x : Slot) : St := { s with table := update s.table x none }

/-- The entry's call of `reg` for the slot `x`. -/
def St.register (s : St) (u : UnitId) (x : Slot) (grows : Bool) : St :=
  match (s.units u).unit with
  | 0 => s
  | i + 1 => { s with records := update s.records i (unitSlot (s.records i) x grows) }

/-- `__vm_atomic_add32(&repl_units[ln.unit - 1].running, -1)`, where there is a record. -/
def St.settle (s : St) (u : UnitId) : St :=
  match (s.units u).unit with
  | 0 => s
  | i + 1 =>
    { s with
      records := update s.records i { s.records i with running := (s.records i).running - 1 } }

/-- The unit that the Jit has compiled. -/
def St.build (s : St) (isMacro leaf : Bool) (fns : List Slot) : St where
  table := s.take s.made fns
  held := s.held
  made := s.made + 1
  units := update s.units s.made ⟨isMacro, leaf, fns, none, 0, .built⟩
  records := s.records
  compiler := if isMacro then .staging s.made else .linked s.made false

/-- The unit `u` has got the slot `x` for its install. -/
def St.install (s : St) (u : UnitId) (x : Slot) (p : Phase) : St :=
  { s with
    table := s.take u [x]
    units := update s.units u { s.units u with slot := some x, phase := p } }

/-- `repl_unit_new`, where record `i` is free; and the line is called unless its slot is 0. -/
def St.record (s : St) (u : UnitId) (x : Slot) (i : Nat) : St :=
  { s with
    records := update s.records i
      { s.records i with
        install := x, slots := [], running := 1, isPartial := false, owner := u }
    units := update s.units u
      { s.units u with unit := i + 1, phase := if x = 0 then .dropped else .ready }
    compiler := .idle }

/-- Code of the unit runs that needs no closure: its line's. -/
def Phase.Called : Phase → Prop
  | .entering _ | .running => True
  | _ => False

/-- What a step does that the slots and records are asked about. -/
inductive Event
  | uninstall (x : Slot)
  /-- `repl_unit_new` gives out record `i`. -/
  | record (i : Nat)
  | other

/-- One step of the compiler, of a line, or of what the lines made. -/
inductive Step : St → Event → St → Prop
  -- The compiler.
  | claim {s} (hc : s.compiler = .idle) : Step s .other { s with compiler := .front false }
  | fails {s} (hc : s.compiler = .front false) : Step s .other { s with compiler := .idle }
  | build {s again isMacro leaf fns} (hc : s.compiler = .front again)
      (hm : isMacro = true → again = false) (hl : leaf = true → fns = []) (hf : Fresh s fns) :
      Step s .other (s.build isMacro leaf fns)
  | refuseUnit {s} (hc : s.compiler = .front false) :
      Step s .other { s with compiler := .reclaim .compile (.scan 0 0 false) }
  | refuseAgain {s} (hc : s.compiler = .front true) : Step s .other { s with compiler := .idle }
  | install {s u again x} (hc : s.compiler = .linked u again) (hf : Fresh s [x]) :
      Step s .other { s.install u x .installed with compiler := .recording u }
  | refuseInstall {s u} (hc : s.compiler = .linked u false) :
      Step s .other { s with compiler := .reclaim (.install u) (.scan 0 0 false) }
  | refuseInstallAgain {s u} (hc : s.compiler = .linked u true) :
      Step s .other { s.setPhase u .dropped with compiler := .idle }
  /-- A leaf has no record. -/
  | noRecord {s u x} (hc : s.compiler = .recording u) (hx : (s.units u).slot = some x)
      (hn : (s.units u).leaf = true ∨ unitNew s.records = none) :
      Step s .other { s.setPhase u (if x = 0 then .dropped else .ready) with compiler := .idle }
  | record {s u x i} (hc : s.compiler = .recording u) (hx : (s.units u).slot = some x)
      (hl : (s.units u).leaf = false) (hi : unitNew s.records = some i) :
      Step s (.record i) (s.record u x i)
  -- A macro's unit, while a line compiles.
  | stage {s u x} (hc : s.compiler = .staging u) (hp : (s.units u).phase = .built)
      (hf : Fresh s [x]) : Step s .other (s.install u x .running)
  | refuseStage {s u} (hc : s.compiler = .staging u) (hp : (s.units u).phase = .built) :
      Step s .other { s.setPhase u .dropped with compiler := .idle }
  | staged {s u} (hc : s.compiler = .staging u)
      (hp : (s.units u).phase = .left ∨ (s.units u).phase = .freed) :
      Step s .other { s with compiler := .front false }
  /-- A macro's body that waits leaves the line unfinished. -/
  | waits {s u} (hc : s.compiler = .staging u) (hp : (s.units u).phase = .running) :
      Step s .other { s with compiler := .idle }
  -- `repl_reclaim`.
  | scan {s g i n any} (hc : s.compiler = .reclaim g (.scan i n any)) (hi : i < maxUnits) :
      Step s .other
        { s with
          records := update s.records i (s.records i).scanned
          compiler := .reclaim g (if (s.records i).scanned.candidate then
              .scan (i + 1) (past n (s.records i).slots) true
            else .scan (i + 1) n any) }
  | scanned {s g n any} (hc : s.compiler = .reclaim g (.scan maxUnits n any)) :
      Step s .other
        { s with compiler := .reclaim g (if any then .collect n else .done 0) }
  | noSeen {s g n} (hc : s.compiler = .reclaim g (.collect n)) :
      Step s .other { s with compiler := .reclaim g (.done 0) }
  /-- `jacl_gc_collect_noting` marks every slot below `n` that is held. -/
  | collect {s g n seen} (hc : s.compiler = .reclaim g (.collect n))
      (hseen : ∀ x < n, s.held x = true → seen x = true) :
      Step s .other { s with compiler := .reclaim g (.sweep 0 seen 0) }
  | skip {s g i seen freed} (hc : s.compiler = .reclaim g (.sweep i seen freed)) (hi : i < maxUnits)
      (hs : (s.records i).candidate = false ∨ ∃ x ∈ (s.records i).slots, seen x = true) :
      Step s .other { s with compiler := .reclaim g (.sweep (i + 1) seen freed) }
  | sweep {s g i seen freed} (hc : s.compiler = .reclaim g (.sweep i seen freed))
      (hi : i < maxUnits) (hs : (s.records i).candidate = true)
      (hn : ∀ x ∈ (s.records i).slots, seen x = false) :
      Step s .other
        { s.setPhase (s.records i).owner .freeing with
          compiler := .reclaim g (.free i 0 seen freed) }
  | freeSlot {s g i k seen freed x} (hc : s.compiler = .reclaim g (.free i k seen freed))
      (hx : (s.records i).slots[k]? = some x) :
      Step s (.uninstall x)
        { s.uninstall x with compiler := .reclaim g (.free i (k + 1) seen freed) }
  | freeInstall {s g i k seen freed} (hc : s.compiler = .reclaim g (.free i k seen freed))
      (hk : k = (s.records i).slots.length) :
      Step s (.uninstall (s.records i).install)
        { (s.uninstall (s.records i).install).setPhase (s.records i).owner .freed with
          records := update s.records i { s.records i with install := 0 }
          compiler := .reclaim g (.sweep (i + 1) seen (freed + 1)) }
  | swept {s g seen freed} (hc : s.compiler = .reclaim g (.sweep maxUnits seen freed)) :
      Step s .other { s with compiler := .reclaim g (.done freed) }
  | compileAgain {s freed} (hc : s.compiler = .reclaim .compile (.done freed)) :
      Step s .other { s with compiler := if freed = 0 then .idle else .front true }
  | installAgain {s u freed} (hc : s.compiler = .reclaim (.install u) (.done (freed + 1))) :
      Step s .other { s with compiler := .linked u true }
  | noneFreed {s u} (hc : s.compiler = .reclaim (.install u) (.done 0)) :
      Step s .other { s.setPhase u .dropped with compiler := .idle }
  -- A line.
  | call {s u} (hp : (s.units u).phase = .ready) : Step s .other (s.setPhase u (.entering 0))
  | reg {s u k x grows} (hp : (s.units u).phase = .entering k)
      (hx : (s.units u).fns[k]? = some x) :
      Step s .other ((s.register u x grows).setPhase u (.entering (k + 1)))
  | body {s u k} (hp : (s.units u).phase = .entering k) (hk : k = (s.units u).fns.length) :
      Step s .other (s.setPhase u .running)
  | ret {s u} (hp : (s.units u).phase = .running)
      (hm : (s.units u).isMacro = true → s.compiler = .staging u) :
      Step s .other (s.setPhase u .returned)
  | leaveLeaf {s u x} (hp : (s.units u).phase = .returned) (hl : (s.units u).leaf = true)
      (hx : (s.units u).slot = some x) :
      Step s (.uninstall x) ((s.uninstall x).setPhase u .freed)
  | leave {s u} (hp : (s.units u).phase = .returned) (hl : (s.units u).leaf = false) :
      Step s .other ((s.settle u).setPhase u .left)
  -- What is made and dropped.  Only code of a unit makes closures of it: its line's, or a
  -- function's, which is called through a closure of the unit that is kept while it runs.
  | hold {s u x} (hx : s.table x = some u) (hf : x ∈ (s.units u).fns)
      (hu : (s.units u).phase.Called ∨ ∃ t, s.table t = some u ∧ s.held t = true) :
      Step s .other { s with held := update s.held x true }
  | drop {s x} : Step s .other { s with held := update s.held x false }
  /-- The Jit may take back the slots of a unit it was told to forget before its install. -/
  | release {s u} (hp : (s.units u).phase = .dropped) (hs : (s.units u).slot = none) :
      Step s .other
        { s with table := fun x => if s.table x = some u then none else s.table x }

inductive Reachable : St → Prop
  | init : Reachable init
  | step {s e s'} (h : Reachable s) (hs : Step s e s') : Reachable s'

end Jacl.ReplUnits
