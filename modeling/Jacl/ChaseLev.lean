import Mathlib
import Jacl.Deques

/-!
# The work-stealing deque (`lib/chase_lev/chase_lev.h`)

One owner pushes and takes at the bottom of the deque; any number of thieves steal at its top.
The elements stand in a circular buffer, which the owner replaces by one of twice the capacity
when it is full.  A thief may still be reading the old buffer, so it is retired under the current
epoch, and freed by a later `reclaim` when no thief announces an epoch that is as old.

A step is one load, store or CAS of what the owner and the thieves share, with the accesses to
their own variables that follow it; the steps come in any order.  What the owner alone uses (the
retired list, the memory of a buffer that no one has seen) goes with the step before it, and the
loop that frees is one step.

The 64-bit counters are unbounded integers, and `bottom` is -1 while the owner looks into an empty
deque at 0.  A buffer has a number; a number without a buffer is memory that is not allocated or
has been freed, and an access to it is no step.  `handed`, `refusals`, `crowded` and `log` are ghosts:
how many slots have been given to thieves, which thieves found no slot and have yet to take their
count back, whether there was one ever, and the pushes, takes and steals in the order in which they
took effect.
-/

namespace Jacl.ChaseLev
open Function Deques

/-- `CL_DEQUE_MAX_THIEVES`. -/
def maxThieves : Nat := 64

/-! ### Buffers -/

structure Buffer (α : Type) where
  logCapacity : Nat
  data : Nat → α

namespace Buffer
variable {α : Type}

def capacity (B : Buffer α) : Int := 2 ^ B.logCapacity

/-- `i & mask`. -/
def slot (B : Buffer α) (i : Int) : Nat := (i % B.capacity).toNat

def get (B : Buffer α) (i : Int) : α := B.data (B.slot i)

def put (B : Buffer α) (i : Int) (x : α) : Buffer α := { B with data := update B.data (B.slot i) x }

variable {B : Buffer α} {x : α} {i j : Int}

theorem capacity_pos : 0 < B.capacity := by
  unfold capacity
  positivity

@[simp] theorem capacity_put : (B.put i x).capacity = B.capacity := rfl
@[simp] theorem logCapacity_put : (B.put i x).logCapacity = B.logCapacity := rfl

@[simp] theorem get_put_self : (B.put i x).get i = x := update_self _ _ _

/-- Indices less than a capacity apart have slots of their own. -/
theorem slot_ne (hlt : i < j) (hcap : j - i < B.capacity) : B.slot i ≠ B.slot j := by
  intro heq
  have hpos : B.capacity ≠ 0 := ne_of_gt B.capacity_pos
  have hi := Int.emod_nonneg i hpos
  have hj := Int.emod_nonneg j hpos
  have hmod : i % B.capacity = j % B.capacity := by
    unfold slot at heq
    omega
  have hdvd : B.capacity ∣ j - i := Int.ModEq.dvd hmod
  have := Int.le_of_dvd (by omega) hdvd
  omega

theorem get_put_of_lt (hlt : i < j) (hcap : j - i < B.capacity) : (B.put j x).get i = B.get i :=
  update_of_ne (B.slot_ne hlt hcap) _ _

end Buffer

/-- A node of the retired list. -/
structure Retired where
  buffer : Nat
  retireEpoch : Nat
deriving DecidableEq

/-- What follows a `reclaim`: the end of the call, or the rest of a `push`. -/
inductive After (α : Type) where
  | done
  | write (x : α) (b : Int) (k : Nat)

/-- Where the owner is. -/
inductive Owner (α : Type) where
  | idle
  /-- In `push`, after the load of `bottom`, and of `top`. -/
  | pushBottom (x : α) (b : Int)
  | pushTop (x : α) (b t : Int)
  /-- Copying from buffer `k` to `k'`, at index `i`. -/
  | grow (x : α) (b t : Int) (k k' : Nat) (i : Int)
  /-- About to store `buffer`, and `epoch`. -/
  | swap (x : α) (b : Int) (k' e : Nat)
  | advance (x : α) (b : Int) (k' e : Nat)
  /-- In `reclaim`; with no `min`, it is `UINT64_MAX`. -/
  | reclaim (c : After α)
  | scan (c : After α) (n i : Nat) (min : Option Nat)
  /-- `reclaim` has read past the array of slots. -/
  | overrun
  /-- About to store the element, and `bottom`. -/
  | write (x : α) (b : Int) (k : Nat)
  | publish (x : α) (b : Int)
  /-- In `take`, after the load of `bottom`, of `buffer`, the store of `bottom`, the load of `top`. -/
  | takeBottom (b : Int)
  | takeBuffer (b : Int) (k : Nat)
  | takeStored (b : Int) (k : Nat)
  | takeRead (b : Int) (k : Nat) (t : Int)
  /-- About to race for the last element. -/
  | takeRace (t : Int) (x : α)
  /-- About to store `bottom` and return. -/
  | restore (v : Int)

def After.owner {α : Type} : After α → Owner α
  | .done => .idle
  | .write x b k => .write x b k

/-- Where a thief is. -/
inductive Phase (α : Type) where
  | idle
  /-- In `register_thief`, with a slot, and without. -/
  | claimed
  | refused
  /-- In `steal`, after the load of `epoch`, the announcement, the loads of `top`, `bottom`, `buffer`
  and the element. -/
  | entered (e : Nat)
  | announced
  | gotTop (t : Int)
  | gotBottom (t : Int)
  | gotBuffer (t : Int) (k : Nat)
  | gotElem (t : Int) (x : α)
  | leaving

/-- A thief and its slot. -/
structure Thief (α : Type) where
  id : Option Nat
  phase : Phase α

structure State (α : Type) where
  top : Int
  bottom : Int
  buffer : Nat
  retired : List Retired
  epoch : Nat
  thiefCount : Nat
  /-- `thieves[i].epoch`; `none` is `CL_EPOCH_INACTIVE`. -/
  slots : Nat → Option Nat
  heap : Nat → Option (Buffer α)
  next : Nat
  owner : Owner α
  thieves : Nat → Thief α
  handed : Nat
  refusals : Finset Nat
  crowded : Bool
  log : List (Event α)

section
variable {α : Type} {s : State α} {i j : Nat} {th : Thief α}

/-- Where the elements end: while a `take` is undecided, its element is still there. -/
def State.hi (s : State α) : Int :=
  match s.owner with
  | .takeStored b _ => b + 1
  | .takeRead b _ _ => b + 1
  | .takeRace t _ => t + 1
  | .restore v => v
  | _ => s.bottom

def State.setThief (s : State α) (i : Nat) (th : Thief α) : State α :=
  { s with thieves := update s.thieves i th }

@[simp] theorem setThief_top : (s.setThief i th).top = s.top := rfl
@[simp] theorem setThief_bottom : (s.setThief i th).bottom = s.bottom := rfl
@[simp] theorem setThief_buffer : (s.setThief i th).buffer = s.buffer := rfl
@[simp] theorem setThief_retired : (s.setThief i th).retired = s.retired := rfl
@[simp] theorem setThief_epoch : (s.setThief i th).epoch = s.epoch := rfl
@[simp] theorem setThief_thiefCount : (s.setThief i th).thiefCount = s.thiefCount := rfl
@[simp] theorem setThief_slots : (s.setThief i th).slots = s.slots := rfl
@[simp] theorem setThief_heap : (s.setThief i th).heap = s.heap := rfl
@[simp] theorem setThief_next : (s.setThief i th).next = s.next := rfl
@[simp] theorem setThief_owner : (s.setThief i th).owner = s.owner := rfl
@[simp] theorem setThief_handed : (s.setThief i th).handed = s.handed := rfl
@[simp] theorem setThief_refusals : (s.setThief i th).refusals = s.refusals := rfl
@[simp] theorem setThief_crowded : (s.setThief i th).crowded = s.crowded := rfl
@[simp] theorem setThief_log : (s.setThief i th).log = s.log := rfl
@[simp] theorem setThief_hi : (s.setThief i th).hi = s.hi := rfl

@[simp] theorem setThief_self : (s.setThief i th).thieves i = th := update_self _ _ _

theorem setThief_of_ne (hne : j ≠ i) : (s.setThief i th).thieves j = s.thieves j :=
  update_of_ne hne _ _

end

variable {α : Type} [Inhabited α]

/-- `CL_BUFFER_NEW`: the memory is cleared. -/
def Buffer.new (logCapacity : Nat) : Buffer α := ⟨logCapacity, fun _ => default⟩

/-- `CL_DEQUE_NEW`. -/
def State.init (initialLogCapacity : Nat) : State α where
  top := 0
  bottom := 0
  buffer := 0
  retired := []
  epoch := 0
  thiefCount := 0
  slots := fun _ => none
  heap := update (fun _ => none) 0 (some (Buffer.new initialLogCapacity))
  next := 1
  owner := .idle
  thieves := fun _ => ⟨none, .idle⟩
  handed := 0
  refusals := ∅
  crowded := false
  log := []

/-! ### The owner -/

/-- The minimum of the epochs seen so far and one more. -/
def lower (min : Option Nat) (e : Option Nat) : Option Nat :=
  match e, min with
  | none, m => m
  | some e, none => some e
  | some e, some m => if e < m then some e else some m

/-- `retire_epoch < min_epoch`. -/
def Retired.freeable (min : Option Nat) (n : Retired) : Bool := min.all (n.retireEpoch < ·)

/-- The loop of `reclaim` over the retired list. -/
def State.freeRetired (s : State α) (min : Option Nat) : State α :=
  { s with
    heap := fun k => if s.retired.any fun n => n.buffer = k && n.freeable min then none else s.heap k
    retired := s.retired.filter fun n => !n.freeable min }

/-- The owner goes on. -/
def State.ownerStep (s : State α) : Option (State α) :=
  match s.owner with
  | .idle => none
  | .pushBottom x b => some { s with owner := .pushTop x b s.top }
  | .pushTop x b t =>
    (s.heap s.buffer).map fun B =>
      if B.capacity ≤ b - t then
        { s with
          heap := update s.heap s.next (some (Buffer.new (B.logCapacity + 1)))
          next := s.next + 1
          owner := .grow x b t s.buffer s.next t }
      else { s with owner := .write x b s.buffer }
  | .grow x b t k k' i =>
    if i < b then
      match s.heap k, s.heap k' with
      | some B, some B' =>
        some { s with
          heap := update s.heap k' (some (B'.put i (B.get i)))
          owner := .grow x b t k k' (i + 1) }
      | _, _ => none
    else
      some { s with retired := ⟨k, s.epoch⟩ :: s.retired, owner := .swap x b k' s.epoch }
  | .swap x b k' e => some { s with buffer := k', owner := .advance x b k' e }
  | .advance x b k' e => some { s with epoch := e + 1, owner := .reclaim (.write x b k') }
  | .reclaim c =>
    if s.retired = [] then some { s with owner := c.owner }
    else some { s with owner := .scan c s.thiefCount 0 none }
  | .scan c n i min =>
    if i < n then
      if i < maxThieves then some { s with owner := .scan c n (i + 1) (lower min (s.slots i)) }
      else some { s with owner := .overrun }
    else some { s.freeRetired min with owner := c.owner }
  | .overrun => none
  | .write x b k =>
    (s.heap k).map fun B =>
      { s with heap := update s.heap k (some (B.put b x)), owner := .publish x b }
  | .publish x b => some { s with bottom := b + 1, owner := .idle, log := s.log ++ [.push x] }
  | .takeBottom b => some { s with owner := .takeBuffer b s.buffer }
  | .takeBuffer b k => some { s with bottom := b, owner := .takeStored b k }
  | .takeStored b k =>
    if b - s.top < 0 then some { s with owner := .restore s.top }
    else some { s with owner := .takeRead b k s.top }
  | .takeRead b k t =>
    (s.heap k).map fun B =>
      if 0 < b - t then { s with owner := .idle, log := s.log ++ [.take (B.get b)] }
      else { s with owner := .takeRace t (B.get b) }
  | .takeRace t x =>
    if s.top = t then some { s with top := t + 1, owner := .restore (t + 1), log := s.log ++ [.take x] }
    else some { s with owner := .restore (t + 1) }
  | .restore v => some { s with bottom := v, owner := .idle }

/-! ### The thieves -/

/-- A thief goes on. -/
def State.thiefStep (s : State α) (i : Nat) : Option (State α) :=
  let th := s.thieves i
  match th.phase, th.id with
  | .claimed, some σ => some ({ s with slots := update s.slots σ none }.setThief i ⟨some σ, .idle⟩)
  | .refused, id =>
    some ({ s with thiefCount := s.thiefCount - 1, refusals := s.refusals.erase i }.setThief i ⟨id, .idle⟩)
  | .entered e, some σ =>
    some ({ s with slots := update s.slots σ (some e) }.setThief i ⟨some σ, .announced⟩)
  | .announced, id => some (s.setThief i ⟨id, .gotTop s.top⟩)
  | .gotTop t, id =>
    some (s.setThief i ⟨id, if s.bottom - t ≤ 0 then .leaving else .gotBottom t⟩)
  | .gotBottom t, id => some (s.setThief i ⟨id, .gotBuffer t s.buffer⟩)
  | .gotBuffer t k, id => (s.heap k).map fun B => s.setThief i ⟨id, .gotElem t (B.get t)⟩
  | .gotElem t x, id =>
    if s.top = t then
      some ({ s with top := t + 1, log := s.log ++ [Event.steal x] }.setThief i ⟨id, .leaving⟩)
    else some (s.setThief i ⟨id, .leaving⟩)
  | .leaving, some σ => some ({ s with slots := update s.slots σ none }.setThief i ⟨some σ, .idle⟩)
  | _, _ => none

/-! ### Runs -/

inductive Action (α : Type) where
  | push (x : α)
  | take
  | reclaim
  /-- The owner goes on. -/
  | own
  | register (i : Nat)
  | unregister (i : Nat)
  | steal (i : Nat)
  /-- A thief goes on. -/
  | go (i : Nat)

/-- `register_thief`, up to its `ATOMIC_INC`. -/
def State.register (s : State α) (i : Nat) : Option (State α) :=
  match s.thieves i with
  | ⟨none, .idle⟩ =>
    if s.thiefCount < maxThieves then
      some ({ s with thiefCount := s.thiefCount + 1, handed := s.handed + 1 }.setThief i
        ⟨some s.thiefCount, .claimed⟩)
    else
      some ({ s with
        thiefCount := s.thiefCount + 1
        refusals := insert i s.refusals
        crowded := true }.setThief i ⟨none, .refused⟩)
  | _ => none

def State.step (s : State α) : Action α → Option (State α)
  | .push x =>
    match s.owner with
    | .idle => some { s with owner := .pushBottom x s.bottom }
    | _ => none
  | .take =>
    match s.owner with
    | .idle => some { s with owner := .takeBottom (s.bottom - 1) }
    | _ => none
  | .reclaim =>
    match s.owner with
    | .idle => some { s with owner := .reclaim .done }
    | _ => none
  | .own => s.ownerStep
  | .register i => s.register i
  | .unregister i =>
    match s.thieves i with
    | ⟨some σ, .idle⟩ => some ({ s with slots := update s.slots σ none }.setThief i ⟨none, .idle⟩)
    | _ => none
  | .steal i =>
    match s.thieves i with
    | ⟨some σ, .idle⟩ => some (s.setThief i ⟨some σ, .entered s.epoch⟩)
    | _ => none
  | .go i => s.thiefStep i

def State.run (s : State α) (as : List (Action α)) : Option (State α) := as.foldlM State.step s

/-- The states of the runs of a new deque. -/
inductive Reachable (initialLogCapacity : Nat) : State α → Prop
  | init : Reachable initialLogCapacity (.init initialLogCapacity)
  | step {s s' : State α} {a : Action α} : Reachable initialLogCapacity s → s.step a = some s' →
      Reachable initialLogCapacity s'

/-! ### The elements of a deque -/

/-- The current buffer. -/
def State.current (s : State α) : Buffer α := (s.heap s.buffer).getD (.new 0)

/-- The elements in the deque. -/
def State.contents (s : State α) : List α := window s.current.get s.top s.hi

/-! ### What an update leaves as it was -/

section
variable {s : State α} {i : Nat} {th : Thief α}

@[simp] theorem setThief_current : (s.setThief i th).current = s.current := rfl
@[simp] theorem setThief_contents : (s.setThief i th).contents = s.contents := rfl

end

end Jacl.ChaseLev
