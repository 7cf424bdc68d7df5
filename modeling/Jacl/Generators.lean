import Mathlib

/-!
# Generators (`runtime/fiber.c`)

A generator is an object over a fiber.  `jacl_gen_new` takes the next of 32 data stacks for the
fiber, `jacl_gen_next` resumes it, with the prime argument at the first time, and `jacl_gen_done`
says what the last resume left in the object.

Tasks interleave at each access to what they share: the counter of the stacks, and the fields of
a generator.  A task is where it is in one of the two calls, and the generators whose functions it
is inside of, the innermost first; code of such a function makes and resumes generators itself.
The fibers are the machine's: a resume of a fiber that runs or has returned is a fault, after which
there is no step; otherwise its function runs until it suspends, returns, or waits for the machine
(`FIBER_PARKED`).

Making the object is one step with taking the stack, since nobody has the object before.
`passed` and `refused` are ghosts.
-/

namespace Jacl.Generators

abbrev JaclVal : Type := BitVec 64

abbrev GenId : Type := Nat

def genStacks : Nat := 32

/-- How a resume ends; `__vm_fiber_resume` stores the number in `*done`. -/
inductive Status where
  | suspended | returned | parked
deriving DecidableEq

def Status.code : Status → Nat
  | .suspended => 0
  | .returned => 1
  | .parked => 3

inductive Fiber where
  | fresh | running
  | left (st : Status)
deriving DecidableEq

/-- The payload of a generator, and its fiber. -/
structure Gen where
  fn : JaclVal
  stack : Nat
  prime : JaclVal
  started : Bool
  done : Nat
  fiber : Fiber
  /-- The arguments that the fiber was resumed with. -/
  passed : List JaclVal
deriving DecidableEq

/-- Where a task is. -/
inductive Phase where
  | idle
  /-- In `jacl_grab_fiber_stack`, after the test. -/
  | checked (fn arg : JaclVal)
  /-- In `jacl_gen_stack_next++`, after the read. -/
  | loaded (fn arg : JaclVal) (r : Nat)
  /-- In `jacl_gen_next`, after the read of the fields. -/
  | reading (g : GenId) (arg : JaclVal)
  | marked (g : GenId) (arg : JaclVal)
  /-- After the resume. -/
  | ended (g : GenId) (st : Status)
deriving DecidableEq

structure Task where
  phase : Phase
  frames : List GenId

structure State where
  /-- `jacl_gen_stack_next`. -/
  next : Nat
  gens : List Gen
  tasks : Nat → Task
  /-- How many generators were unfinished at each `jacl_gen_new` that failed. -/
  refused : List Nat

def State.init : State := ⟨0, [], fun _ => ⟨.idle, []⟩, []⟩

def setTask (tasks : Nat → Task) (t : Nat) (x : Task) : Nat → Task :=
  fun u => if u = t then x else tasks u

def State.setPhase (s : State) (t : Nat) (p : Phase) : State :=
  { s with tasks := setTask s.tasks t { s.tasks t with phase := p } }

def State.setGen (s : State) (g : GenId) (x : Gen) : State := { s with gens := s.gens.set g x }

def Gen.Unfinished (x : Gen) : Prop := x.fiber ≠ .left .returned

instance (x : Gen) : Decidable x.Unfinished := inferInstanceAs (Decidable (_ ≠ _))

def State.unfinished (s : State) : Nat := s.gens.countP fun x => x.Unfinished

inductive Event where
  | enterNew (t : Nat) (fn arg : JaclVal)
  | read (t : Nat)
  | take (t : Nat)
  | enterNext (t : Nat) (g : GenId)
  | mark (t : Nat)
  | resume (t : Nat)
  /-- The innermost function that the task is inside of suspends, returns or waits. -/
  | leave (t : Nat) (st : Status)
  | store (t : Nat)

/-- `jacl_gen_new`, and `jacl_grab_fiber_stack` in it. -/
def genNew (s : State) (t : Nat) (fn arg : JaclVal) : Option State :=
  match (s.tasks t).phase with
  | .idle =>
    if genStacks ≤ s.next then some { s with refused := s.unfinished :: s.refused }
    else some (s.setPhase t (.checked fn arg))
  | _ => none

def genRead (s : State) (t : Nat) : Option State :=
  match (s.tasks t).phase with
  | .checked fn arg => some (s.setPhase t (.loaded fn arg s.next))
  | _ => none

def genTake (s : State) (t : Nat) : Option State :=
  match (s.tasks t).phase with
  | .loaded fn arg r =>
    some { s.setPhase t .idle with
      next := r + 1
      gens := s.gens ++ [⟨fn, r, arg, false, 0, .fresh, []⟩] }
  | _ => none

/-- `jacl_gen_next`: what to resume with. -/
def genNext (s : State) (t : Nat) (g : GenId) : Option State :=
  match (s.tasks t).phase, s.gens[g]? with
  | .idle, some x => some (s.setPhase t (.reading g (if x.started then 0 else x.prime)))
  | _, _ => none

/-- `p[5] = 1`. -/
def genMark (s : State) (t : Nat) : Option State :=
  match (s.tasks t).phase with
  | .reading g arg =>
    s.gens[g]?.map fun x => (s.setPhase t (.marked g arg)).setGen g { x with started := true }
  | _ => none

/-- A fiber that can be resumed. -/
def Fiber.Ready (f : Fiber) : Prop := f ≠ .running ∧ f ≠ .left .returned

instance (f : Fiber) : Decidable f.Ready := inferInstanceAs (Decidable (_ ∧ _))

/-- `__vm_fiber_resume`, up to the function. -/
def genResume (s : State) (t : Nat) : Option State :=
  match (s.tasks t).phase with
  | .marked g arg =>
    match s.gens[g]? with
    | some x =>
      if x.fiber.Ready then
        some ({ s with tasks := setTask s.tasks t ⟨.idle, g :: (s.tasks t).frames⟩ }.setGen g
          { x with fiber := .running, passed := x.passed ++ [arg] })
      else none
    | none => none
  | _ => none

/-- The end of a resume. -/
def genLeave (s : State) (t : Nat) (st : Status) : Option State :=
  match s.tasks t with
  | ⟨.idle, g :: gs⟩ =>
    s.gens[g]?.map fun x =>
      { s with tasks := setTask s.tasks t ⟨.ended g st, gs⟩ }.setGen g { x with fiber := .left st }
  | _ => none

/-- `p[4] = done`. -/
def genStore (s : State) (t : Nat) : Option State :=
  match (s.tasks t).phase with
  | .ended g st =>
    s.gens[g]?.map fun x => (s.setPhase t .idle).setGen g { x with done := st.code }
  | _ => none

def step (s : State) : Event → Option State
  | .enterNew t fn arg => genNew s t fn arg
  | .read t => genRead s t
  | .take t => genTake s t
  | .enterNext t g => genNext s t g
  | .mark t => genMark s t
  | .resume t => genResume s t
  | .leave t st => genLeave s t st
  | .store t => genStore s t

def run (s : State) (es : List Event) : Option State := es.foldlM step s

/-- `jacl_gen_new` failed only while 32 generators were unfinished. -/
def State.RefusedFull (s : State) : Prop := ∀ n ∈ s.refused, genStacks ≤ n

/-- Between the end of a resume of the generator and the store of its status. -/
def State.Ending (s : State) (g : GenId) : Prop := ∃ t st, (s.tasks t).phase = .ended g st

/-- Inside `jacl_gen_new`. -/
def Phase.InNew : Phase → Prop
  | .checked _ _ => True
  | .loaded _ _ _ => True
  | _ => False

/-- Inside `jacl_gen_next` of a generator, before the resume. -/
def Phase.Before (g : GenId) : Phase → Prop
  | .reading g' _ => g' = g
  | .marked g' _ => g' = g
  | _ => False

/-- The conditions on a step: stacks are left, or 32 generators are unfinished; no two calls of
`jacl_gen_new`, and no two of `jacl_gen_next` of one generator, are in each other's way; and no
function waits for the machine. -/
def Allowed (s : State) : Event → Prop
  | .enterNew _ _ _ => (∀ u, ¬ (s.tasks u).phase.InNew) ∧
      (s.gens.length < genStacks ∨ genStacks ≤ s.unfinished)
  | .enterNext _ g => (∀ u, ¬ (s.tasks u).phase.Before g) ∧ ¬ s.Ending g
  | .resume t => ∀ g arg, (s.tasks t).phase = .marked g arg → ¬ s.Ending g
  | .leave _ st => st ≠ .parked
  | _ => True

/-- The states of the runs whose steps all meet the condition. -/
inductive Steady : State → Prop
  | init : Steady .init
  | step {s s' : State} {e : Event} : Steady s → Allowed s e → step s e = some s' → Steady s'

end Jacl.Generators
