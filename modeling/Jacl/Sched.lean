import Jacl.LinkLists
import Jacl.Value

/-!
# The scheduler (`runtime/sched.c`)

A pool of workers runs jobs, each a fiber pinned to its owner worker.  A worker pops a job
from its ready queue and resumes the fiber; the fiber runs a slice and comes back with an
outcome, which the worker deals with in a critical section: the job is complete, queued
again, parked on the job it awaits, or put on a list until it can go on.  Jobs are
numbered in the order they are made.

The words of a job are maps from jobs: `next` is its link `p[12]`, which the waiter lists,
the blocked lists and the suspended list share.  A critical section under `slock` is one
step, and so is a step of a worker between two of them; what a fiber does in its slice, and
when it comes back, is left open.  The record also keeps what the source does not: what
was pushed and popped on each queue, which jobs a full queue refused, and in `own` the
context each task has set last, or taken over from its spawner.

Left out: the closure's function, the collector's parking, idle waits, and the legacy batch.
-/

namespace Jacl.Sched
open LinkLists Function JaclVal

abbrev JobId := Nat

/-- `JACL_RQ_CAP`. -/
def rqCap : Nat := 1024

/-- `JACL_TASK_STACKS`. -/
def taskStacks : Nat := 64

/-- What `resume_job` returns: the result, a suspended fiber's value (the prime, a
job-control point, or the job it awaits), that the job is claimed already, or a VM wait. -/
inductive Outcome where
  | returned (v : JaclVal)
  | prime
  | ctl
  | await (target : JobId)
  | skip
  | parked

/-- Who resumes a job: `worker_loop` after a pop, or the loop of `repoll_blocked` with its
`prev` and `next`, before and after it unlinked the job. -/
inductive Src where
  | queue
  | poll (prev next : Option JobId)
  | polled (prev next : Option JobId)
deriving DecidableEq

/-- Where a worker is with a job: before `resume_job`, past its claim, with the argument for
the fiber, while the fiber runs (with `saved_ctx`), and back with the outcome. -/
inductive Stage where
  | enter
  | claimed
  | ready (arg : JaclVal)
  | slice (saved : JaclVal)
  | back (out : Outcome)

/-- Where a worker is. -/
inductive Pc where
  | top
  | repoll (prev cur : Option JobId)
  | busy (job : JobId) (src : Src) (stage : Stage)
  | stopped

/-- What says where jobs are: the queues, the lists, and the words that go with them. -/
structure Links where
  /-- The jobs made so far. -/
  count : Nat
  done : JobId → Bool
  next : JobId → Option JobId
  waiters : JobId → Option JobId
  target : JobId → Option JobId
  inRq : JobId → Bool
  resuming : JobId → Bool
  held : JobId → Bool
  owner : JobId → Nat
  rq : Nat → List JobId
  blocked : Nat → Option JobId
  suspended : Option JobId
  pc : Nat → Pc
  pushed : Nat → List JobId
  popped : Nat → List JobId
  dropped : List JobId

/-- The scheduler. -/
structure State extends Links where
  isRoot : JobId → Bool
  prime : JobId → JaclVal
  /-- The fiber handle is not 0. -/
  fiber : JobId → Bool
  /-- The stack the fiber was made with, `none` for 0. -/
  stack : JobId → Option Nat
  result : JobId → JaclVal
  resumeArg : JobId → JaclVal
  ctx : JobId → JaclVal
  cancel : JobId → Bool
  suspend : JobId → Bool
  ends : JobId → Bool
  endsWith : JobId → JaclVal
  cancelledErr : JaclVal
  ctxCur : JaclVal
  running : Nat → Option JobId
  /-- The free stacks, the next one first; `none` before the first grab. -/
  freeStacks : Option (List Nat)
  poolWorkers : Nat
  poolStarted : Bool
  nthreads : Nat
  ownerRr : Nat
  shutdown : Bool
  own : JobId → JaclVal

/-! ### Critical sections -/

/-- `rq_push`. -/
def Links.push (s : Links) (j : JobId) : Links :=
  let o := s.owner j
  if s.inRq j then
    s
  else if (s.rq o).length < rqCap then
    { s with
      rq := update s.rq o (s.rq o ++ [j])
      inRq := update s.inRq j true
      pushed := update s.pushed o (s.pushed o ++ [j]) }
  else
    { s with dropped := s.dropped ++ [j] }

/-- `rq_pop`. -/
def Links.pop (s : Links) (self : Nat) : Option (JobId × Links) :=
  match s.rq self with
  | [] => none
  | j :: rest =>
    some (j, { s with
      rq := update s.rq self rest
      inRq := update s.inRq j false
      popped := update s.popped self (s.popped self ++ [j]) })

/-- `rq_push` on the scheduler. -/
def State.push (s : State) (j : JobId) : State := { s with toLinks := s.toLinks.push j }

/-- The free stacks; all of them before the first grab. -/
def State.free (s : State) : List Nat := s.freeStacks.getD (List.range taskStacks).reverse

/-- `grab_task_stack`: no stack is free when the list is empty. -/
def grabStack (s : State) : Option Nat × State :=
  (s.free.head?, { s with freeStacks := some s.free.tail })

/-- `release_task_stack`. -/
def releaseStack (s : State) (stk : Option Nat) : State :=
  { s with
    freeStacks := match stk with
      | none => s.freeStacks
      | some k => s.freeStacks.map (k :: ·) }

/-- The loop of `complete_job` over the waiters. -/
def wakeAll : Nat → State → Option JobId → JaclVal → Option State
  | 0, _, _, _ => none
  | _ + 1, s, none, _ => some s
  | n + 1, s, some w, v =>
    let next := s.next w
    let s := { s with
      next := update s.next w none
      target := update s.target w none
      resumeArg := update s.resumeArg w v }
    wakeAll n (s.push w) next v

/-- `complete_job`. -/
def complete (s : State) (j : JobId) (v : JaclVal) : Option State := do
  let w := s.waiters j
  let s ← wakeAll (s.count + 1) { s with
    result := update s.result j v
    done := update s.done j true
    waiters := update s.waiters j none } w v
  some (if s.isRoot j then { s with shutdown := true } else s)

/-- `list_unlink` on the suspended list. -/
def unlinkSuspended (s : State) (j : JobId) : Option State := do
  match ← findLink s.next j (s.count + 1) none s.suspended with
  | none => some s
  | some link =>
    let (head, next) := cut s.suspended s.next link (s.next j) j
    some { s with suspended := head, next := next }

/-- `list_unlink` on the waiters of `t`. -/
def unlinkWaiter (s : State) (t j : JobId) : Option State := do
  match ← findLink s.next j (s.count + 1) none (s.waiters t) with
  | none => some s
  | some link =>
    let (head, next) := cut (s.waiters t) s.next link (s.next j) j
    some { s with waiters := update s.waiters t head, next := next }

/-- `job_cancel_now`. -/
def jobCancelNow (s : State) (j : JobId) : Option State :=
  let s := releaseStack s (s.stack j)
  let s := { s with stack := update s.stack j none }
  complete s j (if s.ends j then s.endsWith j else s.cancelledErr)

/-- `job_ctl_take`: whether the job was taken. -/
def jobCtlTake (s : State) (j : JobId) : Option (Bool × State) :=
  if s.cancel j then
    (jobCancelNow s j).map fun s => (true, s)
  else if !s.suspend j then
    some (false, s)
  else
    some (true, { s with
      held := update s.held j true
      next := update s.next j s.suspended
      suspended := some j })

/-- The section at the top of `worker_loop`: the first popped job that is not taken. -/
def popReady : Nat → State → Nat → Option (Option JobId × State)
  | 0, _, _ => none
  | n + 1, s, self =>
    match s.toLinks.pop self with
    | none => some (none, s)
    | some (j, l) => do
      let (taken, s) ← jobCtlTake { s with toLinks := l } j
      if taken then popReady n s self else some (some j, s)

/-- The section of `finish_job_outcome`; a VM wait does not get here. -/
def finishJobOutcome (s : State) (job : JobId) : Outcome → Option State
  | .parked => none
  | .skip => some s
  | .returned v => complete (releaseStack s (s.stack job)) job v
  | .prime => some ({ s with resumeArg := update s.resumeArg job nil }.push job)
  | .ctl => do
    let (taken, s) ← jobCtlTake { s with resumeArg := update s.resumeArg job nil } job
    some (if taken then s else s.push job)
  | .await target =>
    if s.cancel job then
      jobCancelNow s job
    else if target = job ∨ s.done target then
      some ({ s with
        resumeArg := update s.resumeArg job (if target = job then nil else s.result target)
        }.push job)
    else
      some { s with
        next := update s.next job (s.waiters target)
        waiters := update s.waiters target (some job)
        target := update s.target job (some target) }

/-- The three requests of `job_request`. -/
inductive Request where
  | cancel
  | suspend
  | resume
deriving DecidableEq

/-- The section of `job_request` on a job that is not done. -/
def requestLive (s : State) (j : JobId) : Request → Option State
  | .suspend => some { s with suspend := update s.suspend j true }
  | .cancel => do
    let s := { s with cancel := update s.cancel j true }
    if s.held j then
      jobCancelNow (← unlinkSuspended s j) j
    else
      match s.target j with
      | some t =>
        let s ← unlinkWaiter s t j
        jobCancelNow { s with target := update s.target j none } j
      | none => some s
  | .resume =>
    let held := s.held j
    let s := { s with suspend := update s.suspend j false, held := update s.held j false }
    if held then (unlinkSuspended s j).map (·.push j) else some s

/-- `job_request` on a job; `err` is what `jacl_error_new` allocates for the first cancel. -/
def jobRequest (s : State) (j : JobId) (bit : Request) (err : JaclVal) : Option State :=
  let s := { s with
    cancelledErr := if bit = .cancel ∧ s.cancelledErr.type = 0x00 then err else s.cancelledErr }
  if s.done j || s.isRoot j then some s else requestLive s j bit

/-! ### Jobs are made -/

/-- `make_job`: the job is the next number. -/
def makeJob (s : State) (prime : JaclVal) (isRoot : Bool) (owner : Nat) : State :=
  let j := s.count
  { s with
    count := s.count + 1
    done := update s.done j false
    isRoot := update s.isRoot j isRoot
    prime := update s.prime j prime
    fiber := update s.fiber j false
    result := update s.result j nil
    resumeArg := update s.resumeArg j nil
    next := update s.next j none
    waiters := update s.waiters j none
    stack := update s.stack j none
    inRq := update s.inRq j false
    resuming := update s.resuming j false
    owner := update s.owner j owner
    ctx := update s.ctx j s.ctxCur
    cancel := update s.cancel j false
    suspend := update s.suspend j false
    held := update s.held j false
    ends := update s.ends j false
    target := update s.target j none
    endsWith := update s.endsWith j nil }

/-- `pool_ensure`. -/
def poolEnsure (s : State) : State :=
  { s with
    poolStarted := true
    nthreads := if s.poolStarted then s.nthreads else s.poolWorkers - 1 }

/-- `jacl_spawn` of a closure; the counter of `next_owner` is a 32-bit word. -/
def spawn (s : State) (closure : JaclVal) : State :=
  let s := poolEnsure s
  let owner := s.ownerRr % 2 ^ 32 % (s.nthreads + 1)
  let s := { s with ownerRr := s.ownerRr + 1 }
  (makeJob s closure false owner).push s.count

/-- `jacl_task_end` up to its suspend. -/
def taskEnd (s : State) (self : Nat) (v : JaclVal) : State :=
  match s.running self with
  | none => s
  | some j =>
    { s with
      endsWith := update s.endsWith j v
      cancel := update s.cancel j true
      ends := update s.ends j true }

/-- The scheduler before the first job, with a pool of `workers`. -/
def empty (workers : Nat) : State where
  count := 0
  done _ := false
  next _ := none
  waiters _ := none
  target _ := none
  inRq _ := false
  resuming _ := false
  held _ := false
  owner _ := 0
  rq _ := []
  blocked _ := none
  suspended := none
  pc _ := .top
  pushed _ := []
  popped _ := []
  dropped := []
  isRoot _ := false
  prime _ := nil
  fiber _ := false
  stack _ := none
  result _ := nil
  resumeArg _ := nil
  ctx _ := nil
  cancel _ := false
  suspend _ := false
  ends _ := false
  endsWith _ := nil
  cancelledErr := nil
  ctxCur := nil
  running _ := none
  freeStacks := none
  poolWorkers := workers
  poolStarted := false
  nthreads := 0
  ownerRr := 0
  shutdown := false
  own _ := nil

/-- `jacl_sched_run_main` up to `worker_loop`: the root job is queued on worker 0. -/
def init (workers : Nat) : State := (makeJob (empty workers) nil true 0).push 0

/-! ### Steps -/

/-- Worker `w` goes to `p`. -/
def goTo (s : State) (w : Nat) (p : Pc) : State := { s with pc := update s.pc w p }

/-- Where `worker_loop` goes on after its section: with the job, or with the parked fibers if
there are any. -/
def afterPop (s : State) (w : Nat) : Option JobId → State
  | some j => { goTo s w (.busy j .queue .enter) with running := update s.running w (some j) }
  | none =>
    if s.blocked w = none then { s with running := update s.running w none }
    else goTo s w (.repoll none (s.blocked w))

/-- Where `worker_loop` goes on after a job from the queue: a job-control point re-polls the
parked fibers first. -/
def afterJob (s : State) (w : Nat) (out : Outcome) : Pc :=
  match out with
  | .ctl => if s.blocked w = none then .top else .repoll none (s.blocked w)
  | _ => .top

/-- **A step of worker `w`**, or of the fiber it runs. -/
inductive StepBy (w : Nat) : State → State → Prop
  /-- The section at the top of the loop. -/
  | turn {s s' : State} {r : Option JobId} : s.pc w = .top → w ≤ s.nthreads →
      popReady (s.count + 1) s w = some (r, s') → StepBy w s (afterPop s' w r)
  /-- The loop is left after the root job's end only. -/
  | stop {s : State} : s.pc w = .top → s.shutdown = true → StepBy w s (goTo s w .stopped)
  /-- `repoll_blocked` takes the next job. -/
  | poll {s : State} {prev : Option JobId} {j : JobId} : s.pc w = .repoll prev (some j) →
      StepBy w s { goTo s w (.busy j (.poll prev (s.next j)) .enter) with
        running := update s.running w (some j) }
  /-- The sweep is over; an idle worker holds no root. -/
  | polled {s : State} {prev : Option JobId} (idle : Bool) : s.pc w = .repoll prev none →
      StepBy w s { goTo s w .top with
        running := if idle then update s.running w none else s.running }
  /-- The claim at the start of `resume_job`. -/
  | claim {s : State} {j : JobId} {src : Src} : s.pc w = .busy j src .enter →
      StepBy w s (if s.resuming j then goTo s w (.busy j src (.back .skip))
        else { goTo s w (.busy j src .claimed) with resuming := update s.resuming j true })
  /-- A fiber is made with the stack that was grabbed. -/
  | start {s : State} {j : JobId} {src : Src} : s.pc w = .busy j src .claimed →
      s.fiber j = false →
      StepBy w s { goTo (grabStack s).2 w (.busy j src (.ready (s.prime j))) with
        stack := update s.stack j (grabStack s).1
        fiber := update s.fiber j true }
  /-- A fiber that was started gets the argument kept for it. -/
  | again {s : State} {j : JobId} {src : Src} : s.pc w = .busy j src .claimed →
      s.fiber j = true → StepBy w s (goTo s w (.busy j src (.ready (s.resumeArg j))))
  /-- The job's context is installed and the fiber resumed. -/
  | install {s : State} {j : JobId} {src : Src} {arg : JaclVal} :
      s.pc w = .busy j src (.ready arg) →
      StepBy w s { goTo s w (.busy j src (.slice s.ctxCur)) with
        ctxCur := s.ctx j
        running := update s.running w (some j) }
  /-- The fiber spawns a job. -/
  | spawn {s : State} {j : JobId} {src : Src} {saved : JaclVal} (closure : JaclVal) :
      s.pc w = .busy j src (.slice saved) →
      StepBy w s { spawn s closure with own := update s.own s.count (s.own j) }
  /-- The fiber makes a request of a job. -/
  | request {s s' : State} {j : JobId} {src : Src} {saved : JaclVal} (i : JobId) (bit : Request)
      (err : JaclVal) : s.pc w = .busy j src (.slice saved) → i < s.count →
      jobRequest s i bit err = some s' → StepBy w s s'
  /-- The fiber asks for its task's end. -/
  | taskEnd {s : State} {j : JobId} {src : Src} {saved : JaclVal} (v : JaclVal) :
      s.pc w = .busy j src (.slice saved) → StepBy w s (taskEnd s w v)
  /-- The fiber sets the ambient context. -/
  | setCtx {s : State} {j : JobId} {src : Src} {saved : JaclVal} (c : JaclVal) :
      s.pc w = .busy j src (.slice saved) →
      StepBy w s { s with ctxCur := c, own := update s.own j c }
  /-- The fiber comes back; its context is kept and the worker's restored. -/
  | yield {s : State} {j : JobId} {src : Src} {saved : JaclVal} {out : Outcome} :
      s.pc w = .busy j src (.slice saved) → (∀ t, out = .await t → t < s.count) → out ≠ .skip →
      StepBy w s { goTo s w (.busy j src (.back out)) with
        ctx := update s.ctx j s.ctxCur
        ctxCur := saved
        resuming := update s.resuming j false }
  /-- A job in a VM wait is put on the blocked list. -/
  | block {s : State} {j : JobId} : s.pc w = .busy j .queue (.back .parked) →
      StepBy w s { goTo s w .top with
        next := update s.next j (s.blocked w)
        blocked := update s.blocked w (some j) }
  /-- A polled job is still in its VM wait. -/
  | stay {s : State} {j : JobId} {prev next : Option JobId} :
      s.pc w = .busy j (.poll prev next) (.back .parked) →
      StepBy w s (goTo s w (.repoll (some j) next))
  /-- A polled job went on: it is unlinked. -/
  | unlink {s : State} {j : JobId} {prev next : Option JobId} {out : Outcome} :
      s.pc w = .busy j (.poll prev next) (.back out) → out ≠ .parked →
      StepBy w s { goTo s w (.busy j (.polled prev next) (.back out)) with
        blocked := update s.blocked w (cut (s.blocked w) s.next prev next j).1
        next := (cut (s.blocked w) s.next prev next j).2 }
  /-- The outcome of a job from the queue. -/
  | finish {s s' : State} {j : JobId} {out : Outcome} : s.pc w = .busy j .queue (.back out) →
      finishJobOutcome (goTo s w (afterJob s w out)) j out = some s' → StepBy w s s'
  /-- The outcome of a polled job. -/
  | finishPolled {s s' : State} {j : JobId} {prev next : Option JobId} {out : Outcome} :
      s.pc w = .busy j (.polled prev next) (.back out) →
      finishJobOutcome (goTo s w (.repoll prev next)) j out = some s' → StepBy w s s'

/-- **A step of the scheduler.** -/
def Step (s s' : State) : Prop := ∃ w, StepBy w s s'

/-- **The states of a run** with a pool of `workers`. -/
inductive Reachable (workers : Nat) : State → Prop
  | init : Reachable workers (init workers)
  | step {s s' : State} : Reachable workers s → Step s s' → Reachable workers s'

end Jacl.Sched
