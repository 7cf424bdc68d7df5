import Mathlib

/-!
# Transcripts (`runtime/transcript_unir.c`)

A transcript is a document of blocks in the store; the runtime keeps what it has to know of it: how
much output waits, each block's schema, and the names of the references written.  A job has a place
in a transcript, its open block among it.  A call takes its turn at the transcript, with its busy
flag, and then goes on operation by operation (`Prog`): a call of the store's, an encoding, or a
change of what the runtime keeps.  Between any two of them other tasks' calls go on.

The store's operations are atomic, and one that fails has no effect; what an operation comes to
otherwise is told by an answer (`Ans`).  How a value is encoded, and made a message of a schema, is
a parameter (`Codec`).  The arguments of a call are those that passed their checks; a block that is
no integer is -1.  A job's kind, agreement and entry are one `Kind`, and a place is made for a job
in one step.  A transcript is closed at exit, which is left out, as are the schemas, which are made
elsewhere, and the waits for the vat.

Kept beside that: the turns taken at a transcript, in their order, with what each call wrote to
each block; the frames pushed; what a call found when it took its turn, and left; which buffer it
has filled; and how many operations it took.
-/

namespace Jacl.Transcripts
open Function

abbrev Bytes := List (BitVec 8)

/-- `JACL_TRANSCRIPTS`. -/
def transcripts : Nat := 2

/-- `JACL_JOBS`. -/
def jobSlots : Nat := 64

/-- `JACL_TRANSCRIPT_VALUE`. -/
def transcriptValue : Nat := 16384

/-- `JACL_TRANSCRIPT_PENDING`. -/
def transcriptPending : Nat := 32768

/-- The generations of a job's slot. -/
def generations : Nat := 0x7fffffff / jobSlots

/-! ### What is kept -/

/-- A block's schema: this runtime's own values, a slot's, or the grid. -/
inductive Schema where
  | own
  | slot (k : Nat)
  | grid
deriving DecidableEq

/-- What a block holds. -/
inductive Kind where
  | text
  | values (schema : Schema)
  | adopted (agreement entry : Nat)
deriving DecidableEq

/-- A block of the document; `ended` says whether it is complete. -/
structure Block where
  cmd : Bytes
  job : Nat
  kind : Kind
  text : Bytes
  values : List Bytes
  ended : Option Bool

/-- `JaclRef`. -/
structure Ref where
  block : Nat
  name : Bytes

/-- `JaclTranscript`, and its document and typed line; a block's schema is nothing for -1, and
there are as many as the runtime counts blocks. -/
structure Transcript where
  isOpen : Bool
  busy : Bool
  pending : Nat
  schema : List (Option Nat)
  cap : Nat
  refs : List Ref
  doc : List Block
  line : Bytes

/-- `JaclJob`; the open block is nothing for -1. -/
structure Job where
  used : Bool
  gen : Nat
  t : Nat
  job : Nat
  block : Option Nat
  kind : Kind
  blocks : Nat
  cmd : Bytes

def Transcript.closed : Transcript := ⟨false, false, 0, [], 0, [], [], []⟩

def Job.vacant : Job := ⟨false, 0, 0, 0, none, .text, 0, []⟩

/-! ### Answers -/

/-- The store's error codes. -/
inductive Code where
  | mismatch
  | invalid
  | ended
  | failed
deriving DecidableEq

/-- Why an operation fails. -/
inductive Fault where
  | text (s : String)
  | code (c : Code)

/-- What a call comes back with; a job's output has nothing to report. -/
inductive Out where
  | nil
  | int (n : Nat)
  | name (b : Bytes)
  | err (text : String)
  | code (c : Code)
  | silent

def Out.isError : Out → Bool
  | .err _ | .code _ => true
  | _ => false

/-- `transcript_err`. -/
def transcriptErr (what : String) : Fault → Out
  | .text s => .err s
  | .code .mismatch => .err (what ++ ": the value does not fit the block's schema")
  | .code .invalid => .err (what ++ ": refused")
  | .code .ended => .err (what ++ ": the store is gone")
  | .code .failed => .err (what ++ ": the store failed")

/-- How values are encoded: `jv_encode_into`, `unir_value_message` for a slot's schema, the name
of a reference, and the slot of the link document. -/
structure Codec (V : Type) where
  encode : V → Except String Bytes
  message : Nat → Bytes → Except Code Bytes
  refName : V → Option Bytes
  isLink : Nat → Bool

/-! ### Calls -/

/-- Whose buffers an encoding is made in: `jacl_transcript_push`'s, or `job_emit`'s. -/
inductive Maker where
  | push
  | emit
deriving DecidableEq

/-- A call of a task's: a transcript's, or a job's, by its handle. -/
inductive Request (V : Type) where
  | line (t : Nat) (text : Bytes)
  | block (t : Nat) (cmd : Bytes) (job : Nat) (schema : Option Nat)
  | output (t : Nat) (cmd : Bytes) (job : Nat)
  | pick (t : Nat) (block value : Int)
  | push (t : Nat) (block : Int) (v : V)
  | write (t : Nat) (block : Int) (text : Bytes)
  | ends (t : Nat) (block : Int)
  | flush (t : Nat)
  | jobWrite (s : Nat) (text : Bytes)
  | jobForward (s agreement entry : Nat) (frame : Bytes)
  | jobEmit (s : Nat) (v : V) (schema : Option Nat)
  | jobPipelineDone (s : Nat)
  | jobEnd (s : Nat) (complete : Bool)
  | jobScreen (s : Nat) (frame : Bytes)
  | jobRegionNamed (s : Nat)

/-- An operation of a call in its turn. -/
inductive Op (V : Type) where
  /-- `unir_transcript_begin`, `unir_transcript_begin_output`. -/
  | begin (cmd : Bytes) (job : Nat) (kind : Kind)
  /-- `transcript_note`. -/
  | note (b : Nat) (schema : Option Nat)
  /-- `jv_encode_into`. -/
  | encode (m : Maker) (v : V)
  /-- `unir_value_message`. -/
  | message (m : Maker) (k n : Nat)
  /-- `unir_transcript_push` of the first `n` bytes of a buffer. -/
  | push (b : Nat) (m : Maker) (msg : Bool) (n : Nat)
  /-- `unir_transcript_push` of a frame of the caller's. -/
  | forward (b : Nat) (frame : Bytes)
  /-- `unir_transcript_write`, and the pending count. -/
  | write (b : Nat) (part : Bytes)
  /-- `unir_transcript_end`. -/
  | ends (b : Nat) (complete : Bool)
  /-- `transcript_commit`. -/
  | flush
  /-- `unir_transcript_line`. -/
  | line (text : Bytes)
  /-- `transcript_ref`. -/
  | ref (b : Nat) (v : V)
  /-- The job has no open block any more. -/
  | shut
  /-- The job's open block. -/
  | opened (b : Nat) (kind : Kind)
  /-- The job's slot is freed. -/
  | free

/-- What an operation comes to. -/
abbrev Result := Except Fault Nat

/-- What is left of a call in its turn. -/
inductive Prog (V : Type) where
  /-- `transcript_done`. -/
  | ret (out : Out)
  | look (k : Transcript → Job → Prog V)
  | call (o : Op V) (k : Result → Prog V)
  /-- The loop of `jacl_transcript_write` and `job_write`, with `rest` to write. -/
  | writes (b : Nat) (rest : Bytes) (k : Result → Prog V)

variable {V : Type}

/-- A round of that loop, when `pending` bytes wait. -/
def Prog.round (pending b : Nat) (rest : Bytes) (k : Result → Prog V) : Prog V :=
  if rest = [] then k (.ok b)
  else
    let part := rest.take (transcriptPending - pending)
    .call (.write b part) fun
      | .error e => k (.error e)
      | .ok _ => .look fun x _ =>
        if transcriptPending ≤ x.pending then
          .call .flush fun
            | .error e => k (.error e)
            | .ok _ => .writes b (rest.drop part.length) k
        else .writes b (rest.drop part.length) k

/-- `transcript_block_of`. -/
def blockOf (x : Transcript) (b : Int) : Option Nat :=
  if 0 ≤ b ∧ b < x.schema.length then some b.toNat else none

/-- An operation that is the whole call. -/
def Prog.single (what : String) (o : Op V) : Prog V :=
  .call o fun
    | .error e => .ret (transcriptErr what e)
    | .ok _ => .ret .nil

/-- A block is opened and noted. -/
def Prog.opening (what : String) (cmd : Bytes) (job : Nat) (kind : Kind) (k : Option Nat) : Prog V :=
  .call (.begin cmd job kind) fun
    | .error e => .ret (transcriptErr what e)
    | .ok b => .call (.note b k) fun
      | .error _ => .ret (.err (what ++ ": out of memory"))
      | .ok _ => .ret (.int b)

/-- An operation on a block that the call names. -/
def Prog.onBlock (what : String) (b : Int) (go : Transcript → Nat → Prog V) : Prog V :=
  .look fun x _ =>
    match blockOf x b with
    | none => .ret (.err (what ++ ": not a block"))
    | some b => go x b

/-- The frame for a value, of slot `k`'s schema if there is one: from the second buffer if it is
a message, and its length. -/
def Prog.framed (what : String) (m : Maker) (v : V) (k : Option Nat) (go : Bool → Nat → Prog V) :
    Prog V :=
  .call (.encode m v) fun
    | .error e => .ret (transcriptErr what e)
    | .ok n =>
      match k with
      | none => go false n
      | some k => .call (.message m k n) fun
        | .error e => .ret (transcriptErr what e)
        | .ok l =>
          if transcriptValue < l then .ret (.err (what ++ ": the value is too large"))
          else go true l

/-- The frame is pushed, and a reference's name kept. -/
def Prog.pushing (cd : Codec V) (what : String) (m : Maker) (v : V) (k : Option Nat) (b : Nat)
    (msg : Bool) (n : Nat) : Prog V :=
  .call (.push b m msg n) fun
    | .error e => .ret (transcriptErr what e)
    | .ok _ => if k.any cd.isLink then .call (.ref b v) fun _ => .ret .nil else .ret .nil

/-- The next block of a job: `job_block` after the open one is ended. -/
def Prog.jobNext (j : Job) (kind : Kind) (go : Result → Prog V) : Prog V :=
  .call .shut fun _ => .call (.begin j.cmd j.job kind) fun
    | .error e => go (.error e)
    | .ok b => .call (.note b none) fun
      | .error _ => go (.error (.code .invalid))
      | .ok _ => .call (.opened b kind) fun _ => go (.ok b)

/-- `job_block`. -/
def Prog.jobBlock (kind : Kind) (go : Result → Prog V) : Prog V :=
  .look fun _ j =>
    match j.block with
    | some b =>
      if j.kind = kind then go (.ok b)
      else .call (.ends b true) fun _ => .jobNext j kind go
    | none => .jobNext j kind go

/-- The code that a job's call answers with. -/
def codeOf : Fault → Out
  | .code c => .code c
  | .text _ => .code .failed

/-- `jacl_transcript_pick`: the value's place among the block's references. -/
def pickName (x : Transcript) (b v : Int) : Out :=
  match if v < 0 then none else (x.refs.filter fun r => (r.block : Int) = b)[v.toNat]? with
  | some r => .name r.name
  | none => .nil

/-- **What a call does in its turn.** -/
def Request.prog (cd : Codec V) : Request V → Prog V
  | .line _ text => .single "transcript-line" (.line text)
  | .block _ cmd job k =>
    .opening "transcript-block" cmd job (.values (k.elim .own .slot)) k
  | .output _ cmd job => .opening "transcript-output" cmd job .text none
  | .pick _ b v => .look fun x _ => .ret (pickName x b v)
  | .push _ b v => .onBlock "transcript-push" b fun x b =>
    let k := (x.schema[b]?).join
    .framed "transcript-push" .push v k (.pushing cd "transcript-push" .push v k b)
  | .write _ b text => .onBlock "transcript-write" b fun _ b => .writes b text fun
    | .error e => .ret (transcriptErr "transcript-write" e)
    | .ok _ => .ret .nil
  | .ends _ b => .onBlock "transcript-end" b fun _ b => .single "transcript-end" (.ends b true)
  | .flush _ => .single "transcript-flush" .flush
  | .jobWrite _ text => .jobBlock .text fun
    | .error _ => .ret .silent
    | .ok b => .writes b text fun _ => .ret .silent
  | .jobForward _ agreement entry frame => .jobBlock (.adopted agreement entry) fun
    | .error _ => .ret .silent
    | .ok b => .call (.forward b frame) fun _ => .ret .silent
  | .jobEmit _ v k => .framed "emit" .emit v k fun msg n =>
    .jobBlock (.values (k.elim .own .slot)) fun
      | .error e => .ret (transcriptErr "emit" e)
      | .ok b => .pushing cd "emit" .emit v k b msg n
  | .jobPipelineDone _ => .look fun _ j =>
    match j.block, j.kind with
    | some b, .adopted .. => .call (.ends b true) fun _ => .call .shut fun _ => .ret .silent
    | _, _ => .ret .silent
  | .jobEnd _ complete => .look fun _ j =>
    match j.block with
    | none => .call .free fun _ => .ret (.int j.blocks)
    | some b => .call (.ends b complete) fun res => .call .free fun _ =>
      match res with
      | .error e => .ret (transcriptErr "transcript-job-end" e)
      | .ok _ => .ret (.int j.blocks)
  | .jobScreen _ frame => .jobBlock (.values .grid) fun
    | .error e => .ret (codeOf e)
    | .ok b => .call (.forward b frame) fun
      | .error e => .ret (codeOf e)
      | .ok _ => .call .flush fun
        | .error e => .ret (codeOf e)
        | .ok _ => .ret .nil
  | .jobRegionNamed _ => .jobBlock (.values .grid) fun
    | .error e => .ret (codeOf e)
    | .ok _ => .call (.line []) fun
      | .error e => .ret (codeOf e)
      | .ok _ => .call .flush fun
        | .error e => .ret (codeOf e)
        | .ok _ => .ret .nil

/-- The job that a call names. -/
def Request.job : Request V → Option Nat
  | .jobWrite s _ | .jobForward s .. | .jobEmit s .. | .jobPipelineDone s | .jobEnd s _
  | .jobScreen s _ | .jobRegionNamed s => some s
  | _ => none

/-- The transcript that a call names. -/
def Request.transcript : Request V → Option Nat
  | .line t _ | .block t .. | .output t .. | .pick t .. | .push t .. | .write t .. | .ends t _
  | .flush t => some t
  | _ => none

/-- What a call comes back with when what it names is not there. -/
def Request.refusal : Request V → Out
  | .line .. => .err "transcript-line: not an open transcript"
  | .block .. => .err "transcript-block: not an open transcript"
  | .output .. => .err "transcript-output: not an open transcript"
  | .pick .. => .err "transcript-pick: not an open transcript"
  | .push .. => .err "transcript-push: not an open transcript"
  | .write .. => .err "transcript-write: not an open transcript"
  | .ends .. => .err "transcript-end: not an open transcript"
  | .flush .. => .err "transcript-flush: not an open transcript"
  | .jobEmit .. => .err "emit: the job has ended"
  | .jobEnd .. => .err "transcript-job-end: not a job"
  | .jobScreen .. | .jobRegionNamed .. => .code .ended
  | .jobWrite .. | .jobForward .. | .jobPipelineDone .. => .silent

/-! ### What an operation does -/

/-- What an operation comes to, where that is not told by the state: why it fails, if it does, and
what a failed encoding leaves in its buffer. -/
structure Ans where
  fault : Option Code
  junk : Bytes

/-- What the operations of a call in its turn work on. -/
structure Env where
  t : Transcript
  job : Job
  bufs : Maker → Bool → Bytes

/-- An operation of the store's that comes to `n` and leaves `e'`, unless it fails. -/
def Env.stored (e : Env) (a : Ans) (n : Nat) (e' : Env) : Result × Env :=
  match a.fault with
  | some c => (.error (.code c), e)
  | none => (.ok n, e')

def Env.setDoc (e : Env) (doc : List Block) : Env := { e with t := { e.t with doc := doc } }

/-- One on block `b`, which the store refuses if there is none. -/
def Env.storedAt (e : Env) (a : Ans) (b : Nat) (f : Block → Block) : Result × Env :=
  if b < e.t.doc.length then e.stored a b (e.setDoc (e.t.doc.modify b f))
  else (.error (.code .invalid), e)

def Env.fill (e : Env) (m : Maker) (msg : Bool) (b : Bytes) : Env :=
  { e with bufs := update e.bufs m (update (e.bufs m) msg b) }

/-- `transcript_note`. -/
def transcriptNote (b : Nat) (k : Option Nat) (a : Ans) (e : Env) : Result × Env :=
  if b ≠ e.t.schema.length then (.error (.code .invalid), e)
  else if e.t.schema.length < e.t.cap then
    (.ok b, { e with t := { e.t with schema := e.t.schema ++ [k] } })
  else if a.fault.isSome then (.error (.code .invalid), e)
  else
    (.ok b, { e with t := { e.t with
      schema := e.t.schema ++ [k]
      cap := if e.t.cap = 0 then 64 else e.t.cap * 2 } })

/-- `transcript_ref`. -/
def transcriptRef (cd : Codec V) (b : Nat) (v : V) (a : Ans) (e : Env) : Result × Env :=
  match cd.refName v, a.fault with
  | some name, none => (.ok b, { e with t := { e.t with refs := e.t.refs ++ [⟨b, name⟩] } })
  | _, _ => (.ok b, e)

/-- **What an operation does.** -/
def Op.exec (cd : Codec V) (a : Ans) (e : Env) : Op V → Result × Env
  | .begin cmd job kind =>
    e.stored a e.t.doc.length (e.setDoc (e.t.doc ++ [⟨cmd, job, kind, [], [], none⟩]))
  | .note b k => transcriptNote b k a e
  | .encode m v =>
    match cd.encode v with
    | .error s => (.error (.text s), e.fill m false a.junk)
    | .ok b => (.ok b.length, e.fill m false (b ++ a.junk))
  | .message m k n =>
    match cd.message k ((e.bufs m false).take n) with
    | .error c => (.error (.code c), e.fill m true a.junk)
    | .ok b =>
      (.ok b.length, e.fill m true (if transcriptValue < b.length then a.junk else b ++ a.junk))
  | .push b m msg n =>
    let frame := (e.bufs m msg).take n
    e.storedAt a b fun x => { x with values := x.values ++ [frame] }
  | .forward b frame => e.storedAt a b fun x => { x with values := x.values ++ [frame] }
  | .write b part =>
    if b < e.t.doc.length then
      e.stored a b { e with t := { e.t with
        doc := e.t.doc.modify b fun x => { x with text := x.text ++ part }
        pending := e.t.pending + part.length } }
    else (.error (.code .invalid), e)
  | .ends b complete => e.storedAt a b fun x => { x with ended := some complete }
  | .flush => e.stored a 0 { e with t := { e.t with pending := 0 } }
  | .line text => e.stored a 0 { e with t := { e.t with line := text } }
  | .ref b v => transcriptRef cd b v a e
  | .shut => (.ok 0, { e with job := { e.job with block := none } })
  | .opened b kind =>
    (.ok b, { e with job := { e.job with
      block := some b, kind := kind, blocks := e.job.blocks + 1 } })
  | .free =>
    (.ok 0, { e with job := { e.job with
      block := none, gen := (e.job.gen + 1) % generations, used := false } })

/-! ### Tasks -/

/-- A call in its turn: the transcript and the job's slot it has, what is left of it, what it
found, the buffers it has filled, and how many operations it took. -/
structure Call (V : Type) where
  req : Request V
  x : Nat
  slot : Option Nat
  prog : Prog V
  before : Transcript × Job
  filled : Option Maker
  took : Nat

/-- Where a call is. -/
inductive Phase (V : Type) where
  | idle
  | waiting (r : Request V) (x : Nat)
  /-- It has the turn, and is to look whether its job is still there. -/
  | entered (r : Request V) (x : Nat)
  | inside (call : Call V)
  | returned (r : Request V) (x : Nat) (out : Out) (before after : Transcript × Job)
  /-- It came back without a turn. -/
  | refused (r : Request V) (out : Out)
  /-- Cancelled while it waited. -/
  | gone

/-- A turn at a transcript, and what was written in it to each block. -/
structure Turn where
  call : Nat
  wrote : Nat → Bytes

/-- A frame that was pushed: the call's request, and the schema noted for the block. -/
structure Pushed (V : Type) where
  req : Request V
  noted : Option Nat
  frame : Bytes

structure State (V : Type) where
  xs : Nat → Transcript
  jobs : Nat → Job
  bufs : Maker → Bool → Bytes
  phase : Nat → Phase V
  turns : Nat → List Turn
  pushed : List (Pushed V)

def init : State V where
  xs _ := .closed
  jobs _ := .vacant
  bufs _ _ := []
  phase _ := .idle
  turns _ := []
  pushed := []

namespace State

variable (s : State V)

/-- `job_of_handle`: the slot. -/
def jobOfHandle (h : Nat) : Option Nat :=
  if (s.jobs (h % jobSlots)).used ∧ (s.jobs (h % jobSlots)).gen = h / jobSlots then
    some (h % jobSlots)
  else none

/-- `transcript_of`. -/
def transcriptOf (t : Nat) : Option Nat :=
  if t < transcripts ∧ (s.xs t).isOpen then some t else none

/-- The transcript that a call is to take its turn at. -/
def target (r : Request V) : Option Nat :=
  match r.job with
  | some h => (s.jobOfHandle h).bind fun i => s.transcriptOf (s.jobs i).t
  | none => r.transcript.bind s.transcriptOf

def jobAt : Option Nat → Job
  | some i => s.jobs i
  | none => .vacant

def setJob : Option Nat → Job → Nat → Job
  | some i, j => update s.jobs i j
  | none, _ => s.jobs

def env (call : Call V) : Env := ⟨s.xs call.x, s.jobAt call.slot, s.bufs⟩

def setPhase (c : Nat) (p : Phase V) : State V := { s with phase := update s.phase c p }

/-- The transcript's busy flag. -/
def setBusy (x : Nat) (b : Bool) : State V :=
  { s with xs := update s.xs x { s.xs x with busy := b } }

end State

/-- The buffers filled after an operation. -/
def Op.fills (o : Op V) (res : Result) (filled : Option Maker) : Option Maker :=
  match o, res with
  | .encode m _, .ok _ => some m
  | .push .., _ => none
  | _, _ => filled

/-- What an operation writes in call `c`'s turn. -/
def Op.turns (o : Op V) (res : Result) (c : Nat) (ts : List Turn) : List Turn :=
  match o, res with
  | .write b part, .ok _ =>
    ts.map fun t => if t.call = c then { t with wrote := update t.wrote b (t.wrote b ++ part) } else t
  | _, _ => ts

/-- What an operation pushes. -/
def Op.pushes (o : Op V) (res : Result) (r : Request V) (e : Env) : List (Pushed V) :=
  match o, res with
  | .push b m msg n, .ok _ => [⟨r, (e.t.schema[b]?).join, (e.bufs m msg).take n⟩]
  | _, _ => []

/-- **Call `c` does operation `o`.** -/
def State.does (cd : Codec V) (s : State V) (c : Nat) (call : Call V) (o : Op V)
    (k : Result → Prog V) (a : Ans) : State V :=
  let r := o.exec cd a (s.env call)
  { xs := update s.xs call.x r.2.t
    jobs := s.setJob call.slot r.2.job
    bufs := r.2.bufs
    phase := update s.phase c (.inside { call with
      prog := k r.1, filled := o.fills r.1 call.filled, took := call.took + 1 })
    turns := update s.turns call.x (o.turns r.1 c (s.turns call.x))
    pushed := s.pushed ++ o.pushes r.1 call.req (s.env call) }

/-- Call `c` goes on with `p`. -/
def State.goes (s : State V) (c : Nat) (call : Call V) (p : Prog V) : State V :=
  s.setPhase c (.inside { call with prog := p, took := call.took + 1 })

/-- What happens in a step: call `c` comes to its operation with an answer, or anything else. -/
inductive Label where
  | does (c : Nat) (a : Ans)
  | other

/-- **A step.** -/
inductive Step (cd : Codec V) : State V → Label → State V → Prop
  /-- `jacl_transcript`. -/
  | opens {s : State V} (x : Nat) : x < transcripts → (s.xs x).isOpen = false →
      Step cd s .other { s with xs := update s.xs x { Transcript.closed with isOpen := true } }
  /-- `jacl_transcript_job`. -/
  | job {s : State V} (i t job : Nat) (cmd : Bytes) : i < jobSlots → (s.jobs i).used = false →
      s.transcriptOf t = some t →
      Step cd s .other { s with
        jobs := update s.jobs i ⟨true, (s.jobs i).gen, t, job, none, .text, 0, cmd⟩ }
  | asks {s : State V} {c x : Nat} (r : Request V) : s.phase c = .idle → s.target r = some x →
      Step cd s .other (s.setPhase c (.waiting r x))
  | refuses {s : State V} {c : Nat} (r : Request V) : s.phase c = .idle → s.target r = none →
      Step cd s .other (s.setPhase c (.refused r r.refusal))
  /-- `jacl_ctl_point` in `transcript_wait`. -/
  | cancels {s : State V} {c x : Nat} {r : Request V} : s.phase c = .waiting r x →
      Step cd s .other (s.setPhase c .gone)
  | takes {s : State V} {c x : Nat} {r : Request V} : s.phase c = .waiting r x →
      (s.xs x).busy = false → Step cd s .other ((s.setBusy x true).setPhase c (.entered r x))
  /-- A job's call looks again, in `job_take`. -/
  | stale {s : State V} {c x h : Nat} {r : Request V} : s.phase c = .entered r x →
      r.job = some h → s.jobOfHandle h = none →
      Step cd s .other ((s.setBusy x false).setPhase c (.refused r r.refusal))
  | enters {s : State V} {c x : Nat} {r : Request V} (slot : Option Nat) :
      s.phase c = .entered r x → r.job.map s.jobOfHandle = slot.map some →
      Step cd s .other { s with
        phase := update s.phase c (.inside ⟨r, x, slot, r.prog cd, (s.xs x, s.jobAt slot), none, 0⟩)
        turns := update s.turns x (s.turns x ++ [⟨c, fun _ => []⟩]) }
  | looks {s : State V} {c : Nat} {call : Call V} {k : Transcript → Job → Prog V} :
      s.phase c = .inside call → call.prog = .look k →
      Step cd s .other (s.goes c call (k (s.xs call.x) (s.jobAt call.slot)))
  | rounds {s : State V} {c b : Nat} {call : Call V} {rest : Bytes} {k : Result → Prog V} :
      s.phase c = .inside call → call.prog = .writes b rest k →
      Step cd s .other (s.goes c call (.round (s.xs call.x).pending b rest k))
  | does {s : State V} {c : Nat} {call : Call V} {o : Op V} {k : Result → Prog V} (a : Ans) :
      s.phase c = .inside call → call.prog = .call o k →
      Step cd s (.does c a) (s.does cd c call o k a)
  | leaves {s : State V} {c : Nat} {call : Call V} {out : Out} :
      s.phase c = .inside call → call.prog = .ret out →
      Step cd s .other ((s.setBusy call.x false).setPhase c
        (.returned call.req call.x out call.before (s.xs call.x, s.jobAt call.slot)))

end Jacl.Transcripts
