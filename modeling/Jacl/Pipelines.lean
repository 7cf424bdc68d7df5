import Jacl.Channels
import Jacl.Value

/-!
# Pipelines (`runtime/pipe_unir.c`)

A pipeline of `n` stages is started by making the edges, spawning a child for each stage,
opening the read end of its stderr, and opening the read end of the last stdout.  What is
sent on a stage's stderr is kept while the output is read: the end of its text, and its value.
At the end of the output, at a close and at a cancel the stages' stderr is read to its end,
the children are joined, and the ends freed.

A step is one external call, with its outcome, or something that a stage does to its edges.
What the shell holds is told by a ledger: a child or an end is acquired once, used while it is
held, and released once, and anything else is recorded as a misuse (`bad`).  Kept beside that:
the frames each stage has sent on its stderr, those that were read, and whether a read of the
output failed.

A value's bytes are decoded with `decode`.  Left out: the bytes of the output, what the
payloads and grants are, and the edges' regions, which are never freed.
-/

namespace Jacl.Pipeline
open Function Chan

/-! ### Ledgers -/

/-- Whether a resource was acquired, and released. -/
inductive Life where
  | none
  | live
  | dead
deriving DecidableEq

/-- The lives of resources, and whether one was misused. -/
structure Ledger (κ : Type) where
  life : κ → Life
  bad : Bool

variable {κ : Type} [DecidableEq κ]

def Ledger.acquire (l : Ledger κ) (r : κ) : Ledger κ :=
  ⟨update l.life r .live, l.bad || l.life r != .none⟩

def Ledger.use (l : Ledger κ) (r : κ) : Ledger κ := ⟨l.life, l.bad || l.life r != .live⟩

def Ledger.release (l : Ledger κ) (r : κ) : Ledger κ :=
  ⟨update l.life r .dead, l.bad || l.life r != .live⟩

def Ledger.useAll (l : Ledger κ) (rs : List κ) : Ledger κ := rs.foldl Ledger.use l

/-! ### The state -/

/-- What the shell holds: the children, the read ends of their stderr and of the last stdout,
and the end that is opened only to cancel it. -/
inductive Res where
  | child (i : Nat)
  | err (i : Nat)
  | out
  | drain
deriving DecidableEq

/-- A frame on stderr: its substream and its bytes. -/
abbrev Frame := Nat × Bytes

/-- `JACL_STDERR_VALUE`. -/
def stderrValue : Nat := 2

/-- `JACL_STAGE_ERR_TAIL`. -/
def stageErrTail : Nat := 512

/-- `JACL_STAGE_VALUE`. -/
def stageValue : Nat := 16 * 2 ^ 10

/-- `JACL_STAGES_MAX`. -/
def stagesMax : Nat := 16

/-- What a call comes back with: a value, an error that names a stage, or a sever. -/
inductive Answer where
  | nil
  | value (v : JaclVal)
  | error (what : String) (name : Option Bytes) (detail : Option Bytes)
  | severed (cause : Nat)

def Answer.isError : Answer → Bool
  | .nil => false
  | .value v => v.error
  | .error .. => true
  | .severed _ => true

/-- Why the stages are reaped. -/
inductive After where
  | start
  | atEnd
  | close
  | cancel
deriving DecidableEq

/-- What `chan_unir_next` gave: the output's end has the cause it was severed with, if any. -/
inductive Got where
  | frame
  | stalled
  | ended (cause : Option Nat)
  | failed

/-- Where the pipeline is. -/
inductive Pc where
  /-- Before the edges are made. -/
  | start
  | regions (i : Nat)
  | spawn (i : Nat)
  | openErr (i : Nat)
  | openOut
  /-- There is no read end of the output. -/
  | noOut
  /-- Started, and not in a call. -/
  | idle
  /-- At the top of the loop of `pipe_read`. -/
  | poll
  | held
  | next
  /-- `pipe_pump` without waiting, at stage `i`. -/
  | pump (i : Nat) (got : Got)
  /-- `pipe_finish`: `pipe_pump` to the end, the joins, and the output's end. -/
  | sweep (i : Nat) (k : After)
  | join (i : Nat) (k : After)
  | freeOut (k : After)
  /-- Nothing was started. -/
  | refused (ans : Answer)
  /-- The start failed. -/
  | failed (ans : Answer)
  /-- The stages were reaped: `done`. -/
  | finished (k : After)
  /-- The reading task was ended before that. -/
  | gone

/-- `JaclPipe`, the edges, and what is kept beside them; a cause is nothing for -1. -/
structure State where
  pc : Pc
  spawned : Nat
  cause : Option Nat
  outc : Bool
  tail : Nat → Bytes
  val : Nat → Bytes
  valOver : Nat → Bool
  status : Nat → Int
  errQ : Nat → List Frame
  errEnd : Nat → Bool
  outQ : List Bytes
  outEnd : Option (Option Nat)
  ledger : Ledger Res
  taken : Nat → List Frame
  sent : Nat → List Frame
  broke : Bool

def init : State where
  pc := .start
  spawned := 0
  cause := none
  outc := false
  tail _ := []
  val _ := []
  valOver _ := false
  status _ := 0
  errQ _ := []
  errEnd _ := false
  outQ := []
  outEnd := none
  ledger := ⟨fun _ => .none, false⟩
  taken _ := []
  sent _ := []
  broke := false

/-! ### What is kept of a stage -/

/-- `pipe_value_part`: the value so far, and whether it is too large. -/
def pipeValuePart (v : Bytes × Bool) (b : Bytes) : Bytes × Bool :=
  if v.2 ∨ stageValue < v.1.length + b.length then (v.1, true) else (v.1 ++ b, false)

/-- `pipe_tail`. -/
def pipeTail (tail b : Bytes) : Bytes :=
  if stageErrTail ≤ b.length then b.drop (b.length - stageErrTail)
  else
    let drop :=
      if stageErrTail < tail.length + b.length then tail.length + b.length - stageErrTail else 0
    tail.drop drop ++ b

/-- The next frame of stage `i`'s stderr is read and kept. -/
def State.keep (s : State) (i : Nat) (f : Frame) (rest : List Frame) : State :=
  let s := { s with
    ledger := s.ledger.use (.err i)
    errQ := update s.errQ i rest
    taken := update s.taken i (s.taken i ++ [f]) }
  if f.1 = stderrValue then
    let v := pipeValuePart (s.val i, s.valOver i) f.2
    { s with val := update s.val i v.1, valOver := update s.valOver i v.2 }
  else { s with tail := update s.tail i (pipeTail (s.tail i) f.2) }

/-! ### Answers -/

/-- A program's name, as C reads it. -/
def cName (name : Bytes) : Bytes := name.takeWhile (· != 0#8)

variable (n : Nat) (names : Nat → Bytes) (decode : Bytes → JaclVal)

/-- `pipe_value`. -/
def pipeValue (s : State) (i : Nat) : Answer :=
  if s.valOver i then .error "a value larger than 16 KiB from " (some (cName (names i))) none
  else if s.val i = [] then .nil
  else .value (decode (s.val i))

/-- A round of the loop of `pipe_failure`. -/
def stageFailure (s : State) (i : Nat) : Option Answer :=
  if s.spawned ≤ i then some (.error "could not spawn " (some (cName (names i))) none)
  else if s.status i = 0 then none
  else if (pipeValue names decode s i).isError then some (pipeValue names decode s i)
  else some (.error "stage failed: " (some (cName (names i)))
    (if s.tail i = [] then none else some (strNew (s.tail i))))

/-- `pipe_failure`. -/
def pipeFailure (s : State) : Option Answer :=
  ((List.range n).findSome? (stageFailure names decode s)).or (s.cause.map .severed)

/-- What `jacl_pipeline` comes back with when the stages were reaped. -/
def pipeline (s : State) : Answer :=
  (pipeFailure n names decode s).getD (pipeValue names decode s (n - 1))

/-! ### Steps -/

def State.at (s : State) (pc : Pc) : State := { s with pc := pc }

/-- **A step** of a pipeline of `n` stages. -/
inductive Step : State → State → Prop
  /-- The stages are looked up and their payloads made; nothing is held. -/
  | refuse {s : State} (ans : Answer) : s.pc = .start → Step s (s.at (.refused ans))
  | begin {s : State} : s.pc = .start → 1 ≤ n → n ≤ stagesMax → Step s (s.at (.regions 0))
  /-- `unir_region_create` for a stage's two edges. -/
  | region {s : State} {i : Nat} : s.pc = .regions i → i < n → Step s (s.at (.regions (i + 1)))
  | noRegion {s : State} {i : Nat} : s.pc = .regions i → i < n →
      Step s (s.at (.refused (.error "out of edge memory" none none)))
  | regions {s : State} : s.pc = .regions n → Step s (s.at (.spawn 0))
  /-- `unir_spawn`. -/
  | spawn {s : State} {i : Nat} : s.pc = .spawn i → i < n →
      Step s { s with pc := .openErr i, ledger := s.ledger.acquire (.child i) }
  | noSpawn {s : State} {i : Nat} : s.pc = .spawn i → i < n → Step s (s.at .noOut)
  /-- `unir_consumer_open` of a stage's stderr. -/
  | openErr {s : State} {i : Nat} : s.pc = .openErr i →
      Step s { s with
        pc := .spawn (i + 1), ledger := s.ledger.acquire (.err i), spawned := s.spawned + 1 }
  | noErr {s : State} {i : Nat} : s.pc = .openErr i → Step s (s.at .noOut)
  | spawned {s : State} : s.pc = .spawn n → Step s (s.at .openOut)
  /-- `unir_consumer_open` of the last stdout. -/
  | openOut {s : State} : s.pc = .openOut →
      Step s { s with pc := .idle, ledger := s.ledger.acquire .out, outc := true }
  | noOut {s : State} : s.pc = .openOut → Step s (s.at .noOut)
  /-- The last stage that started gets a reader, which cancels. -/
  | drain {s : State} : s.pc = .noOut → 0 < s.spawned →
      Step s { s with
        pc := .sweep 0 .start
        ledger := ((s.ledger.acquire .drain).use .drain).release .drain }
  | noDrain {s : State} : s.pc = .noOut → Step s (s.at (.sweep 0 .start))
  /-- A read, and a close. -/
  | read {s : State} : s.pc = .idle → Step s (s.at .poll)
  | close {s : State} : s.pc = .idle →
      Step s { s with
        pc := .sweep 0 .close
        ledger := if s.outc then s.ledger.use .out else s.ledger }
  /-- The reading task is cancelled: `pipe_cancel`. -/
  | cancel {s : State} : s.pc = .poll →
      Step s { s with
        pc := .sweep 0 .cancel
        cause := some 7
        ledger := (s.ledger.use .out).useAll
          ((List.range s.spawned).map .err ++ (List.range s.spawned).map .child) }
  /-- It is suspended, and goes on. -/
  | hold {s : State} : s.pc = .poll → Step s { s with pc := .held, ledger := s.ledger.use .out }
  | resume {s : State} : s.pc = .held → Step s { s with pc := .poll, ledger := s.ledger.use .out }
  /-- It is cancelled while it is suspended. -/
  | drop {s : State} : s.pc = .held → Step s (s.at .gone)
  | go {s : State} : s.pc = .poll → Step s (s.at .next)
  /-- `chan_unir_next`. -/
  | frame {s : State} {f : Bytes} {rest : List Bytes} : s.pc = .next → s.outQ = f :: rest →
      Step s { s with pc := .pump 0 .frame, ledger := s.ledger.use .out, outQ := rest }
  | stall {s : State} : s.pc = .next → s.outQ = [] →
      Step s { s with pc := .pump 0 .stalled, ledger := s.ledger.use .out }
  | ended {s : State} {c : Option Nat} : s.pc = .next → s.outEnd = some c → s.outQ = [] →
      Step s { s with pc := .pump 0 (.ended c), ledger := s.ledger.use .out }
  | broken {s : State} : s.pc = .next →
      Step s { s with pc := .pump 0 .failed, ledger := s.ledger.use .out, broke := true }
  /-- `pipe_pump` without waiting. -/
  | pump {s : State} {i : Nat} {got : Got} {f : Frame} {rest : List Frame} :
      s.pc = .pump i got → i < s.spawned → s.errQ i = f :: rest → Step s (s.keep i f rest)
  /-- The read fails, with nothing there, at the end or for another reason. -/
  | pumpNext {s : State} {i : Nat} {got : Got} : s.pc = .pump i got → i < s.spawned →
      Step s { s with pc := .pump (i + 1) got, ledger := s.ledger.use (.err i) }
  | pumped {s : State} : s.pc = .pump s.spawned .frame → Step s (s.at .idle)
  | again {s : State} : s.pc = .pump s.spawned .stalled → Step s (s.at .poll)
  | finish {s : State} {c : Option Nat} : s.pc = .pump s.spawned (.ended c) →
      Step s { s with
        pc := .sweep 0 .atEnd
        cause := c.or s.cause
        ledger := s.ledger.use .out }
  | finishBroken {s : State} : s.pc = .pump s.spawned .failed →
      Step s { s with pc := .sweep 0 .atEnd, cause := some 9 }
  /-- `pipe_pump` to the end. -/
  | sweep {s : State} {i : Nat} {k : After} {f : Frame} {rest : List Frame} :
      s.pc = .sweep i k → i < s.spawned → s.errQ i = f :: rest → Step s (s.keep i f rest)
  | sweepNext {s : State} {i : Nat} {k : After} : s.pc = .sweep i k → i < s.spawned →
      Step s { s with pc := .sweep (i + 1) k, ledger := s.ledger.use (.err i) }
  | swept {s : State} {k : After} : s.pc = .sweep s.spawned k → Step s (s.at (.join 0 k))
  /-- `unir_join`, and the stage's stderr is freed. -/
  | join {s : State} {i : Nat} {k : After} (status : Int) : s.pc = .join i k → i < s.spawned →
      Step s { s with
        pc := .join (i + 1) k
        status := update s.status i status
        ledger := (s.ledger.release (.child i)).release (.err i) }
  | joined {s : State} {k : After} : s.pc = .join s.spawned k → Step s (s.at (.freeOut k))
  /-- The output's end is freed if there is one, and the call comes back. -/
  | reaped {s : State} {k : After} : s.pc = .freeOut k →
      Step s { s with
        pc := match k with
          | .start => .failed ((pipeFailure n names decode s).getD
              (.error "could not open the output" none none))
          | k => .finished k
        outc := false
        ledger := if s.outc then s.ledger.release .out else s.ledger }
  /-- A read, and a close, of what is done: nothing is reaped again. -/
  | readDone {s : State} {k : After} : s.pc = .finished k → Step s s
  | closeDone {s : State} {k : After} : s.pc = .finished k →
      Step s { s with ledger := if s.outc then s.ledger.use .out else s.ledger }
  /-- A stage sends a frame on its stderr, or ends it; the last one on its stdout. -/
  | sendErr {s : State} (i : Nat) (f : Frame) : s.errEnd i = false →
      Step s { s with
        errQ := update s.errQ i (s.errQ i ++ [f])
        sent := update s.sent i (s.sent i ++ [f]) }
  | endErr {s : State} (i : Nat) : Step s { s with errEnd := update s.errEnd i true }
  | sendOut {s : State} (f : Bytes) : s.outEnd = none → Step s { s with outQ := s.outQ ++ [f] }
  | endOut {s : State} (c : Option Nat) : s.outEnd = none → Step s { s with outEnd := some c }

/-- **The states of a run.** -/
inductive Reachable : State → Prop
  | init : Reachable init
  | step {s s' : State} : Reachable s → Step n names decode s s' → Reachable s'

end Jacl.Pipeline
