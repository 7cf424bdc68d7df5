import Mathlib

/-!
# Stopping the world (`runtime/heap_gc.c`)

A collection needs every other worker out of its task and parked.  The worker that wins `lock` asks
for a stop by moving `epoch` ahead of `done`, waits until each worker has left the set or has
parked for this epoch, and publishes `done`.  A worker parks in its own scheduler loop only; a task
that meets a request suspends, so that its worker comes back there.  A task that has won the lock
hands the collection to its worker's loop and suspends too.

A step is one load, store or read-modify-write of a shared word, and workers take steps in any
order.  What a worker does between its calls is open: in its loop it may run a task, allocate,
collect, park, or leave; in a task it may allocate, collect, come to a safepoint, or suspend.
Which fiber a worker resumes is open too, so one that was suspended inside `jacl_alloc` goes on
there on any worker.  After `jacl_gc_worker_register`, and when a task has suspended for a
collection, a worker comes to its loop's safepoint first; a worker that left to join the others comes
back when all of them have left.

Epochs are unbounded, the futex waits are left out (they only delay a load), and `lock`, `stopped`
and the flags are Booleans.
-/

namespace Jacl.Quiesce
open Function

/-- `JACL_MAX_WORKERS`. -/
def maxWorkers : Nat := 64

/-- Where a call came from: what the worker does when it returns. -/
inductive Origin where
  /-- The scheduler loop, or a task, between two calls. -/
  | loop
  | task
  /-- `jacl_alloc` in the one, or in the other, which goes on with `jacl_alloc_off`. -/
  | loopAlloc
  | taskAlloc
deriving DecidableEq

/-- Where a worker is. -/
inductive Place where
  /-- Not in the set. -/
  | out
  /-- `jacl_gc_worker_register` has stored `in_task`; it has stored `active`. -/
  | registering
  | registered
  /-- Between two calls, or in `jacl_alloc_off`. -/
  | runs (o : Origin)
  /-- In `jacl_gc_safepoint`, and after the loads of `epoch`, `done` and `in_task`. -/
  | safe (o : Origin)
  | safeEpoch (o : Origin) (e : Nat)
  | safeAsked (o : Origin)
  | safeInTask (o : Origin)
  /-- The task has suspended for a collection, or otherwise, or it has returned; its worker is about to
  call `jacl_gc_task_end`. -/
  | suspended
  | ended
  /-- In `jacl_gc_worker_park_if_requested`: before the loads of `in_task`, `handoff`, `collector`,
  `epoch` and `done`, and the store of `parked`. -/
  | parkInTask
  | parkHandoff
  | parkCollector
  | parkEpoch
  | parkDone (e : Nat)
  | parkStore (e : Nat)
  /-- In its loop, waiting for `done`. -/
  | parked (e : Nat)
  /-- About to consume the handoff. -/
  | consume
  /-- In `jacl_gc_collect`, after the CAS of `lock`, the store of `collector`, the add to `epoch`, the
  load of `in_task`. -/
  | locked (o : Origin)
  | elected (o : Origin)
  | asked (o : Origin)
  | handing
  /-- In `jacl_gc_quiesce_and_sweep`, before the load of `epoch`; at worker `i`, before the loads of
  `active` and `parked`. -/
  | quiesce (o : Origin)
  | barrier (o : Origin) (e i : Nat)
  | barrierParked (o : Origin) (e i : Nat)
  /-- The world is stopped; it has been; `collector` and `done` have been stored. -/
  | sweeping (o : Origin) (e : Nat)
  | swept (o : Origin) (e : Nat)
  | resigned (o : Origin) (e : Nat)
  | published (o : Origin)
deriving DecidableEq

/-- The words of a worker. -/
structure Worker where
  active : Bool
  /-- The highest epoch it has parked for. -/
  parked : Nat
  inTask : Bool
  handoff : Bool
  place : Place

def Worker.goTo (x : Worker) (p : Place) : Worker := { x with place := p }

structure State where
  epoch : Nat
  done : Nat
  lock : Bool
  collector : Option Nat
  stopped : Bool
  workers : Nat → Worker

/-- `jacl_heap_init`: the main thread is worker 0. -/
def State.init : State where
  epoch := 0
  done := 0
  lock := false
  collector := none
  stopped := false
  workers := update (fun _ => ⟨false, 0, false, false, .out⟩) 0 ⟨true, 0, false, false, .runs .loop⟩

namespace State
variable (s : State) (w : Nat)

def set (x : Worker) : State := { s with workers := update s.workers w x }

/-- The next load or store of worker `w`, where it has no choice. -/
def step : Option State :=
  let x := s.workers w
  match x.place with
  | .registering => some (s.set w { x with active := true, place := .registered })
  | .registered => some (s.set w (x.goTo .parkInTask))
  -- `jacl_gc_safepoint`
  | .safe o => some (s.set w (x.goTo (.safeEpoch o s.epoch)))
  | .safeEpoch o e => some (s.set w (x.goTo (if e = s.done then .runs o else .safeAsked o)))
  | .safeAsked o => some (s.set w (x.goTo (if x.inTask then .safeInTask o else .runs o)))
  | .safeInTask o => some (s.set w (x.goTo (if s.collector = some w then .runs o else .suspended)))
  -- the loop over `__vm_fiber_resume`
  | .suspended => some (s.set w { x with inTask := false, place := .parkInTask })
  | .ended => some (s.set w { x with inTask := false, place := .runs .loop })
  -- `jacl_gc_worker_park_if_requested`
  | .parkInTask => some (s.set w (x.goTo (if x.inTask then .runs .task else .parkHandoff)))
  | .parkHandoff => some (s.set w (x.goTo (if x.handoff then .consume else .parkCollector)))
  | .parkCollector =>
    some (s.set w (x.goTo (if s.collector = some w then .runs .loop else .parkEpoch)))
  | .parkEpoch => some (s.set w (x.goTo (.parkDone s.epoch)))
  | .parkDone e => some (s.set w (x.goTo (if e = s.done then .runs .loop else .parkStore e)))
  | .parkStore e => some (s.set w { x with parked := e, place := .parked e })
  | .parked e => some (s.set w (x.goTo (if s.done = e then .runs .loop else .parked e)))
  | .consume => some (s.set w { x with handoff := false, place := .quiesce .loop })
  -- `jacl_gc_collect`
  | .locked o => some { s.set w (x.goTo (.elected o)) with collector := some w }
  | .elected o => some { s.set w (x.goTo (.asked o)) with epoch := s.epoch + 1 }
  | .asked o => some (s.set w (x.goTo (if x.inTask then .handing else .quiesce o)))
  | .handing => some (s.set w { x with handoff := true, place := .suspended })
  -- `jacl_gc_quiesce_and_sweep`
  | .quiesce o => some (s.set w (x.goTo (.barrier o s.epoch 0)))
  | .barrier o e i =>
    if i < maxWorkers then
      if i = w then some (s.set w (x.goTo (.barrier o e (i + 1))))
      else some (s.set w (x.goTo
        (if (s.workers i).active then .barrierParked o e i else .barrier o e (i + 1))))
    else some { s.set w (x.goTo (.sweeping o e)) with stopped := true }
  | .barrierParked o e i =>
    some (s.set w (x.goTo (if e ≤ (s.workers i).parked then .barrier o e (i + 1) else .barrier o e i)))
  | .sweeping o e => some { s.set w (x.goTo (.swept o e)) with stopped := false }
  | .swept o e => some { s.set w (x.goTo (.resigned o e)) with collector := none }
  | .resigned o e => some { s.set w (x.goTo (.published o)) with done := e }
  | .published o => some { s.set w (x.goTo (.runs o)) with lock := false }
  | _ => none

/-- What a worker may begin. -/
inductive Call where
  /-- `jacl_gc_worker_register`, of a new worker and of one that has joined the others. -/
  | register
  | rejoin
  | unregister
  /-- `jacl_gc_task_begin`, and a fiber that was between two calls or inside `jacl_alloc`. -/
  | runTask
  | runAlloc
  /-- A task suspends, or its fiber returns. -/
  | leaveTask
  | park
  | safepoint
  | alloc
  /-- `jacl_alloc_off` is done. -/
  | allocated
  | collect

def call (c : Call) : Option State :=
  let x := s.workers w
  match c, x.place with
  | .register, .out =>
    if w < maxWorkers then some (s.set w { x with inTask := false, place := .registering }) else none
  | .rejoin, .out =>
    if w < maxWorkers ∧ ∀ i < maxWorkers, (s.workers i).place = .out then
      some (s.set w { x with inTask := false, active := true, place := .runs .loop })
    else none
  | .unregister, .runs .loop => some (s.set w { x with active := false, place := .out })
  | .runTask, .runs .loop => some (s.set w { x with inTask := true, place := .runs .task })
  | .runAlloc, .runs .loop => some (s.set w { x with inTask := true, place := .runs .taskAlloc })
  | .leaveTask, .runs .task => some (s.set w (x.goTo .ended))
  | .park, .runs .loop => some (s.set w (x.goTo .parkInTask))
  | .park, .runs .task => some (s.set w (x.goTo .parkInTask))
  | .safepoint, .runs .loop => some (s.set w (x.goTo (.safe .loop)))
  | .safepoint, .runs .task => some (s.set w (x.goTo (.safe .task)))
  | .alloc, .runs .loop => some (s.set w (x.goTo (.safe .loopAlloc)))
  | .alloc, .runs .task => some (s.set w (x.goTo (.safe .taskAlloc)))
  | .allocated, .runs .loopAlloc => some (s.set w (x.goTo (.runs .loop)))
  | .allocated, .runs .taskAlloc => some (s.set w (x.goTo (.runs .task)))
  | .collect, .runs o =>
    if s.lock then some (s.set w (x.goTo (.safe o)))
    else some { s.set w (x.goTo (.locked o)) with lock := true }
  | _, _ => none

end State

inductive Event where
  | call (w : Nat) (c : State.Call)
  | step (w : Nat)

def State.next (s : State) : Event → Option State
  | .call w c => s.call w c
  | .step w => s.step w

def State.run (s : State) : List Event → Option State
  | [] => some s
  | e :: es => (s.next e).bind fun s' => s'.run es

inductive Reachable : State → Prop
  | init : Reachable .init
  | next {s s' : State} {e : Event} : Reachable s → s.next e = some s' → Reachable s'

end Jacl.Quiesce
