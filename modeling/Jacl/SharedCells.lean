import Jacl.HamtRefinement
import Jacl.Value

/-!
# Cells that tasks share (`runtime/builtins.c`)

The roots of the module globals and of the proc signatures are words that are read, rebuilt
and replaced by compare-and-swap; an atom or a box has a value, which `swap` replaces by
compare-and-swap and `reset` stores, and an atom has a list of watchers, which `watch` and
`unwatch` read, rebuild and store.  Each load, store and compare-and-swap is a step of its
own, by any task; a task inside the function of a `swap` can make further calls.

A map is persistent: a root is the address of a map and the trie that is there.  Atoms and
boxes are numbered, and a call on any other value, which changes nothing, is left out, as
are the callbacks of the watchers.  The keys of the roots are names and function numbers.
The record also keeps the calls made so far, in `begun`, and what the finished ones did, in
the order they did it, in `log`.
-/

namespace Jacl.Shared
open Function JaclVal

/-- The two roots. -/
inductive RootId where
  | globals
  | sigs
deriving DecidableEq

/-- A word of a root: `JACL_NIL`, a map, or an error. -/
inductive Root (K : Type) where
  | nil
  | map (addr : Nat) (trie : Hamt.Node K JaclVal)
  | err (v : JaclVal)

/-- A call.  The function of a `swap` may have any effects: it takes a value to any of its
results. -/
inductive Op (K : Type) where
  | globalSet (name : K) (v : JaclVal)
  | sigRegister (fnref : K) (sig : JaclVal)
  | sigForget (fnref : K)
  | swap (ref : Nat) (f : JaclVal → JaclVal → Prop)
  | reset (ref : Nat) (v : JaclVal)
  | watch (atom : Nat) (key cb : JaclVal)
  | unwatch (atom : Nat) (key : JaclVal)

/-- What a finished call did: a `swap` replaced `cur` by `nv`. -/
inductive Update (K : Type) where
  | globalSet (name : K) (v : JaclVal)
  | sigRegister (fnref : K) (sig : JaclVal)
  | sigForget (fnref : K)
  | swap (ref : Nat) (cur nv : JaclVal)
  | reset (ref : Nat) (v : JaclVal)
  | watch (atom : Nat) (key cb : JaclVal)
  | unwatch (atom : Nat) (key : JaclVal)

/-- The watchers of an atom: keys and callbacks, `none` for `JACL_NIL`. -/
abbrev Watchers := Option (List (JaclVal × JaclVal))

/-- Where a call is. -/
inductive Pc (K : Type) where
  | begun
  /-- The root was `seen`; `next` was built from it. -/
  | replacing (seen next : Root K)
  /-- The function is applied to `cur`. -/
  | applying (cur : JaclVal)
  | committing (cur nv : JaclVal)
  /-- The old value was read, for the watchers. -/
  | storing
  /-- The list was `seen`. -/
  | listed (seen : Watchers)

/-- A call that is not finished, with its number in `begun`. -/
structure Frame (K : Type) where
  id : Nat
  op : Op K
  pc : Pc K

structure State (K : Type) where
  root : RootId → Root K
  /-- The address of the next map. -/
  next : Nat
  value : Nat → JaclVal
  watchers : Nat → Watchers
  /-- The calls of each task, the innermost first. -/
  tasks : Nat → List (Frame K)
  begun : List (Op K)
  log : List (Nat × Update K)

/-! ### Maps behind a root -/

section Maps
variable {K : Type} (eq : K → K → Bool) (hash : K → BitVec 32)

/-- `jacl_root_map`. -/
def rootMap : Root K → Root K
  | .nil => .map 0 .null
  | m => m

/-- `jacl_map_set`; the new map's address is `addr`. -/
def Root.set (addr : Nat) (m : Root K) (key : K) (val : JaclVal) : Option (Root K) :=
  match m with
  | .nil => none
  | .err v => some (.err v)
  | .map _ t =>
    if val.error then some (.err val) else (Hamt.set eq hash t key val).map (.map addr)

/-- `jacl_map_remove`. -/
def Root.remove (addr : Nat) (m : Root K) (key : K) : Option (Root K) :=
  match m with
  | .nil => none
  | .err v => some (.err v)
  | .map _ t => (Hamt.unset eq hash t key).map (.map addr)

/-- `jacl_map_get`. -/
def Root.get (m : Root K) (key : K) : Option JaclVal :=
  match m with
  | .nil => none
  | .err v => some v
  | .map _ t => Hamt.get eq hash t key

/-- The root a call replaces. -/
def Op.root : Op K → Option RootId
  | .globalSet _ _ => some .globals
  | .sigRegister _ _ => some .sigs
  | .sigForget _ => some .sigs
  | _ => none

/-- What a loop's body finds: it returns, or there is a new root to replace the old one by. -/
inductive Attempt (K : Type) where
  | done
  | replace (next : Root K)

/-- The bodies of the loops of `jacl_global_set`, `jacl_proc_sig_register` and
`jacl_proc_sig_forget`, after the root was read. -/
def Op.attempt (addr : Nat) (seen : Root K) : Op K → Option (Attempt K)
  | .globalSet name v => ((rootMap seen).set eq hash addr name v).map .replace
  | .sigRegister fnref sig => do
    let old ← (rootMap seen).get eq hash fnref
    if old.type ≠ 0x00 then some .done
    else ((rootMap seen).set eq hash addr fnref sig).map .replace
  | .sigForget fnref => do
    let old ← (rootMap seen).get eq hash fnref
    if old.type = 0x00 then some .done
    else ((rootMap seen).remove eq hash addr fnref).map .replace
  | _ => none

/-- What a call on a root does. -/
def Op.rootUpdate : Op K → Option (Update K)
  | .globalSet name v => some (.globalSet name v)
  | .sigRegister fnref sig => some (.sigRegister fnref sig)
  | .sigForget fnref => some (.sigForget fnref)
  | _ => none

end Maps

/-! ### Watchers -/

section Lists
variable {K : Type} (valEq : JaclVal → JaclVal → Bool)

/-- The list of `jacl_watch`: the callback of an equal key is replaced in place. -/
def watchSet (key cb : JaclVal) : List (JaclVal × JaclVal) → List (JaclVal × JaclVal)
  | [] => [(key, cb)]
  | (k, c) :: w => if valEq k key then (k, cb) :: w else (k, c) :: watchSet key cb w

/-- The list of `jacl_unwatch`. -/
def watchDrop (key : JaclVal) (w : List (JaclVal × JaclVal)) : List (JaclVal × JaclVal) :=
  w.filter fun p => !valEq p.1 key

/-- The atom whose list a call replaces. -/
def Op.atom : Op K → Option Nat
  | .watch atom _ _ => some atom
  | .unwatch atom _ => some atom
  | _ => none

/-- The list a call stores, and what it does; `none` where it returns at once. -/
def Op.relist (seen : Watchers) : Op K → Option (List (JaclVal × JaclVal))
  | .watch _ key cb => some (watchSet valEq key cb (seen.getD []))
  | .unwatch _ key => seen.map (watchDrop valEq key)
  | _ => none

/-- What a call on a list of watchers does. -/
def Op.listUpdate : Op K → Option (Update K)
  | .watch atom key cb => some (.watch atom key cb)
  | .unwatch atom key => some (.unwatch atom key)
  | _ => none

end Lists

/-! ### Steps -/

variable {K : Type}

/-- Task `t` makes a call. -/
def State.call (s : State K) (t : Nat) (op : Op K) : State K :=
  { s with
    tasks := update s.tasks t (⟨s.begun.length, op, .begun⟩ :: s.tasks t)
    begun := s.begun ++ [op] }

/-- The innermost call of task `t` goes on. -/
def State.goTo (s : State K) (t : Nat) (fr : Frame K) (rest : List (Frame K)) (pc : Pc K) :
    State K :=
  { s with tasks := update s.tasks t ({ fr with pc := pc } :: rest) }

/-- The innermost call of task `t` is finished. -/
def State.finish (s : State K) (t : Nat) (fr : Frame K) (rest : List (Frame K)) (u : Update K) :
    State K :=
  { s with
    tasks := update s.tasks t rest
    log := s.log ++ [(fr.id, u)] }

section
variable (s : State K) (t : Nat) (op : Op K) (fr : Frame K) (rest : List (Frame K)) (pc : Pc K)
  (u : Update K)

theorem State.call_tasks :
    (s.call t op).tasks = update s.tasks t (⟨s.begun.length, op, .begun⟩ :: s.tasks t) := rfl

theorem State.call_begun : (s.call t op).begun = s.begun ++ [op] := rfl

theorem State.goTo_tasks :
    (s.goTo t fr rest pc).tasks = update s.tasks t ({ fr with pc := pc } :: rest) := rfl

theorem State.finish_tasks : (s.finish t fr rest u).tasks = update s.tasks t rest := rfl

theorem State.finish_log : (s.finish t fr rest u).log = s.log ++ [(fr.id, u)] := rfl

end

section Steps
variable (eq : K → K → Bool) (hash : K → BitVec 32) (valEq : JaclVal → JaclVal → Bool)

/-- **A step of task `t`.** -/
inductive StepBy (t : Nat) : State K → State K → Prop
  /-- A call, from outside the others or from the function of a `swap`. -/
  | call {s : State K} (op : Op K) :
      (s.tasks t = [] ∨ ∃ fr rest cur, s.tasks t = fr :: rest ∧ fr.pc = .applying cur) →
      StepBy t s (s.call t op)
  /-- The root is read, and there is nothing to replace. -/
  | skip {s : State K} {fr : Frame K} {rest : List (Frame K)} {r : RootId} {u : Update K} :
      s.tasks t = fr :: rest → fr.pc = .begun → fr.op.root = some r →
      fr.op.attempt eq hash s.next (s.root r) = some .done → fr.op.rootUpdate = some u →
      StepBy t s (s.finish t fr rest u)
  /-- The root is read, and the new one is built. -/
  | peek {s : State K} {fr : Frame K} {rest : List (Frame K)} {r : RootId} {m : Root K} :
      s.tasks t = fr :: rest → fr.pc = .begun → fr.op.root = some r →
      fr.op.attempt eq hash s.next (s.root r) = some (.replace m) →
      StepBy t s { s.goTo t fr rest (.replacing (s.root r) m) with next := s.next + 1 }
  /-- `jacl_root_replace` succeeds. -/
  | replaced {s : State K} {fr : Frame K} {rest : List (Frame K)} {r : RootId}
      {seen m : Root K} {u : Update K} :
      s.tasks t = fr :: rest → fr.pc = .replacing seen m → fr.op.root = some r →
      s.root r = seen → fr.op.rootUpdate = some u →
      StepBy t s { s.finish t fr rest u with root := update s.root r m }
  /-- `jacl_root_replace` fails, and the loop starts again. -/
  | lost {s : State K} {fr : Frame K} {rest : List (Frame K)} {r : RootId} {seen m : Root K} :
      s.tasks t = fr :: rest → fr.pc = .replacing seen m → fr.op.root = some r →
      s.root r ≠ seen → StepBy t s (s.goTo t fr rest .begun)
  /-- A `swap` reads the value, and applies its function. -/
  | read {s : State K} {fr : Frame K} {rest : List (Frame K)} {ref : Nat}
      {f : JaclVal → JaclVal → Prop} : s.tasks t = fr :: rest → fr.pc = .begun →
      fr.op = .swap ref f → StepBy t s (s.goTo t fr rest (.applying (s.value ref)))
  /-- The function returns. -/
  | applied {s : State K} {fr : Frame K} {rest : List (Frame K)} {ref : Nat}
      {f : JaclVal → JaclVal → Prop} {cur nv : JaclVal} : s.tasks t = fr :: rest →
      fr.pc = .applying cur → fr.op = .swap ref f → f cur nv →
      StepBy t s (s.goTo t fr rest (.committing cur nv))
  /-- `jacl_box_cas` succeeds. -/
  | committed {s : State K} {fr : Frame K} {rest : List (Frame K)} {ref : Nat}
      {f : JaclVal → JaclVal → Prop} {cur nv : JaclVal} : s.tasks t = fr :: rest →
      fr.pc = .committing cur nv → fr.op = .swap ref f → s.value ref = cur →
      StepBy t s { s.finish t fr rest (.swap ref cur nv) with value := update s.value ref nv }
  /-- `jacl_box_cas` fails. -/
  | retry {s : State K} {fr : Frame K} {rest : List (Frame K)} {ref : Nat}
      {f : JaclVal → JaclVal → Prop} {cur nv : JaclVal} : s.tasks t = fr :: rest →
      fr.pc = .committing cur nv → fr.op = .swap ref f → s.value ref ≠ cur →
      StepBy t s (s.goTo t fr rest .begun)
  /-- A `reset` reads the old value. -/
  | old {s : State K} {fr : Frame K} {rest : List (Frame K)} {ref : Nat} {v : JaclVal} :
      s.tasks t = fr :: rest → fr.pc = .begun → fr.op = .reset ref v →
      StepBy t s (s.goTo t fr rest .storing)
  /-- `jacl_box_set`. -/
  | store {s : State K} {fr : Frame K} {rest : List (Frame K)} {ref : Nat} {v : JaclVal} :
      s.tasks t = fr :: rest → fr.pc = .storing → fr.op = .reset ref v →
      StepBy t s { s.finish t fr rest (.reset ref v) with value := update s.value ref v }
  /-- The list of an atom is read, and there is nothing to store. -/
  | unlisted {s : State K} {fr : Frame K} {rest : List (Frame K)} {atom : Nat} {u : Update K} :
      s.tasks t = fr :: rest → fr.pc = .begun → fr.op.atom = some atom →
      fr.op.relist valEq (s.watchers atom) = none → fr.op.listUpdate = some u →
      StepBy t s (s.finish t fr rest u)
  /-- The list of an atom is read. -/
  | list {s : State K} {fr : Frame K} {rest : List (Frame K)} {atom : Nat}
      {w : List (JaclVal × JaclVal)} : s.tasks t = fr :: rest → fr.pc = .begun →
      fr.op.atom = some atom → fr.op.relist valEq (s.watchers atom) = some w →
      StepBy t s (s.goTo t fr rest (.listed (s.watchers atom)))
  /-- `jacl_atom_set_watchers`. -/
  | relist {s : State K} {fr : Frame K} {rest : List (Frame K)} {atom : Nat} {seen : Watchers}
      {w : List (JaclVal × JaclVal)} {u : Update K} : s.tasks t = fr :: rest →
      fr.pc = .listed seen → fr.op.atom = some atom → fr.op.relist valEq seen = some w →
      fr.op.listUpdate = some u →
      StepBy t s { s.finish t fr rest u with watchers := update s.watchers atom (some w) }

/-- Before the first call: the values and the watchers there are. -/
def init (value : Nat → JaclVal) (watchers : Nat → Watchers) : State K where
  root _ := .nil
  next := 1
  value := value
  watchers := watchers
  tasks _ := []
  begun := []
  log := []

/-- **The states of a run.** -/
inductive Reachable (value : Nat → JaclVal) (watchers : Nat → Watchers) : State K → Prop
  | init : Reachable value watchers (init value watchers)
  | step {s s' : State K} {t : Nat} : Reachable value watchers s → StepBy eq hash valEq t s s' →
      Reachable value watchers s'

end Steps

end Jacl.Shared
