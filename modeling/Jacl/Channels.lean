import Mathlib.Data.List.Basic
import Mathlib.Logic.Function.Basic

/-!
# Channels (`runtime/chan.c`, `pipe_read` of `runtime/pipe_unir.c`)

A channel is two ends over one edge.  An operation claims its end with the flag `busy`, works
on the edge, where its task may be parked, and gives the claim back.  A write goes in frames
of at most `max` bytes; a read end keeps the unread tail of the last frame for the next
operation.

Tasks make calls, numbered as they like, and a step of the system is a step of one call
between two points where another task can come in, or something that happens to the edge.  The
edge delivers frames whole and in order; what ends it (`Halt`) may come at any time, and then
nothing more is sent, and nothing more is read once the reader has seen it.  The read end of a
pipeline (`pipe`) is read in a loop with a job-control point, at which the reading task may be
held, or ended.

Kept beside the source's words: who holds each claim, the writes that had one, what a collect
in flight has gathered, and what reads and collects have returned.  Left out: ends that carry
values, a full ring, and where bytes lie in memory.
-/

namespace Jacl.Chan
open Function

abbrev Byte := BitVec 8

abbrev Bytes := List (BitVec 8)

abbrev CallId := Nat

/-- `CHAN_W` and `CHAN_R`. -/
inductive End where
  | w
  | r
deriving DecidableEq

/-- Why an edge moves nothing more: its reader cancelled it, a sever with its cause, or a
failure. -/
inductive Halt where
  | cancelled
  | severed (cause : Nat)
  | failed (why : String)
deriving DecidableEq

/-- The operations of the language on an end of their kind. -/
inductive Op where
  | write (bytes : Bytes)
  | read (n : Int)
  | collect
  | close (e : End)
deriving DecidableEq

/-- The end an operation claims. -/
def Op.claims : Op → End
  | .write _ => .w
  | .read _ => .r
  | .collect => .r
  | .close e => e

/-- What a call returns: a buffer of bytes from `read`, a string from `collect`. -/
inductive Result where
  | nil
  | buf (bytes : Bytes)
  | str (bytes : Bytes)
  | err (what : String)
deriving DecidableEq

/-- A call that fills the tail: `jacl_chan_read` of up to `n` bytes, or `jacl_collect` with what
it has gathered. -/
inductive Fill where
  | read (n : Nat)
  | collect (kept : Bytes)
deriving DecidableEq

/-- Where a call is: before its claim, past it, in the loop of `chan_write_all`, in `chan_fill`,
held at the job-control point inside a pipeline's read, back, and ended there with its task. -/
inductive Pc where
  | enter (op : Op)
  | claimed (op : Op)
  | writing (bytes : Bytes) (off : Nat)
  | filling (how : Fill)
  | held (how : Fill)
  | returned (res : Result)
  | gone
deriving DecidableEq

/-- The end a call holds the claim of. -/
def Pc.holds : Pc → Option End
  | .claimed op => some op.claims
  | .writing _ _ => some .w
  | .filling _ => some .r
  | .held _ => some .r
  | _ => none

/-- `busy` and `closed`. -/
structure EndWords where
  busy : Bool
  closed : Bool

structure Edge where
  /-- The frames on their way. -/
  queue : List Bytes
  completed : Bool
  halt : Option Halt

/-- A write that had the claim: its bytes, and how many of them are on the edge. -/
structure Write where
  call : CallId
  bytes : Bytes
  passed : Nat
deriving DecidableEq

structure State where
  ends : End → EndWords
  /-- The unread bytes of the current frame. -/
  tail : Bytes
  edge : Edge
  calls : CallId → Option Pc
  holder : End → Option CallId
  past : List Write
  cur : Option Write
  kept : Bytes
  out : Bytes

/-- The writes in the order they claimed the end. -/
def State.log (s : State) : List Write := s.past ++ s.cur.toList

def init : State where
  ends _ := ⟨false, false⟩
  tail := []
  edge := ⟨[], false, none⟩
  calls _ := none
  holder _ := none
  past := []
  cur := none
  kept := []
  out := []

/-! ### Strings -/

/-- The bytes of `jacl_str_new`: an inline string ends at its first NUL. -/
def strNew (b : Bytes) : Bytes := if b.length ≤ 7 then b.takeWhile (· != 0#8) else b

/-- The bytes of `jacl_str_concat`. -/
def strConcat (a b : Bytes) : Bytes := strNew (a ++ b)

/-! ### Results -/

/-- `chan_cause_err`. -/
def causeErr (cause : Nat) : String :=
  ["channel severed: peer-reset", "channel severed: transport-timeout",
    "channel severed: io-error", "channel severed: malformed-frame",
    "channel severed: mark-regression", "channel severed: credit-overrun",
    "channel severed: revoked", "channel severed: cancelled",
    "channel severed: budget-exhausted"].getD cause "channel severed: unknown"

/-- What `chan_write_all` returns on an edge that has ended. -/
def Halt.writeErr : Halt → Result
  | .cancelled => .err "write: the reader closed the channel"
  | .severed cause => .err (causeErr cause)
  | .failed _ => .err "write: channel failed"

/-- What is returned at the end of the stream. -/
def Fill.atEnd : Fill → Result
  | .read _ => .nil
  | .collect kept => .str kept

/-- What is returned at a halt; a pipeline's failure brings its own error. -/
def Halt.readRes (pipe : Bool) (how : Fill) : Halt → Result
  | .cancelled => how.atEnd
  | .severed cause => .err (causeErr cause)
  | .failed why => .err (if pipe then why else "read: channel failed")

/-- The bytes a result has. -/
def Result.bytes : Result → Bytes
  | .buf b => b
  | .str b => b
  | _ => []

/-- What an operation on a closed end returns. -/
def Op.closedErr : Op → Result
  | .write _ => .err "write: channel closed"
  | .read _ => .err "read: channel closed"
  | .collect => .err "collect: channel closed"
  | .close _ => .nil

/-! ### Steps -/

/-- The call goes on. -/
def State.go (s : State) (id : CallId) (p : Pc) : State :=
  { s with calls := update s.calls id (some p) }

/-- The compare-and-swap of `chan_claim`. -/
def State.claim (s : State) (e : End) (id : CallId) : State :=
  { s with
    ends := update s.ends e { s.ends e with busy := true }
    holder := update s.holder e (some id) }

/-- `chan_release`. -/
def State.release (s : State) (e : End) : State :=
  { s with
    ends := update s.ends e { s.ends e with busy := false }
    holder := update s.holder e none }

/-- A write comes back, and so does its claim. -/
def State.wrote (s : State) (id : CallId) (res : Result) : State :=
  { (s.release .w).go id (.returned res) with
    past := s.past ++ s.cur.toList
    cur := none }

/-- A read or a collect comes back with the bytes of `res`. -/
def State.filled (s : State) (id : CallId) (res : Result) : State :=
  { (s.release .r).go id (.returned res) with
    kept := []
    out := s.out ++ res.bytes }

/-- What `jacl_chan_close` does to an end. -/
def State.shut (s : State) (e : End) : State :=
  if (s.ends e).closed then s
  else
    { s with
      ends := update s.ends e { s.ends e with closed := true }
      edge := match e with
        | .w => { s.edge with completed := true }
        | .r => { s.edge with halt := s.edge.halt.or (some .cancelled) } }

/-- **A step** of a channel whose frames have at most `max` bytes. -/
inductive Step (pipe : Bool) (max : Nat) : State → State → Prop
  /-- A task makes a call. -/
  | call {s : State} {i : CallId} (op : Op) : s.calls i = none →
      Step pipe max s (s.go i (.enter op))
  /-- `read` looks at N before it claims the end. -/
  | badRead {s : State} {i : CallId} {n : Int} : s.calls i = some (.enter (.read n)) → n < 1 →
      Step pipe max s (s.go i (.returned (.err "read: N must be a positive i32")))
  /-- Another operation is in flight. -/
  | busy {s : State} {i : CallId} {op : Op} : s.calls i = some (.enter op) →
      (s.ends op.claims).busy = true → Step pipe max s (s.go i (.returned (.err "channel busy")))
  | claim {s : State} {i : CallId} {op : Op} : s.calls i = some (.enter op) →
      (∀ n, op = .read n → 1 ≤ n) → (s.ends op.claims).busy = false →
      Step pipe max s ((s.claim op.claims i).go i (.claimed op))
  /-- The end was closed. -/
  | closed {s : State} {i : CallId} {op : Op} : s.calls i = some (.claimed op) →
      (∀ e, op ≠ .close e) → (s.ends op.claims).closed = true →
      Step pipe max s ((s.release op.claims).go i (.returned op.closedErr))
  | close {s : State} {i : CallId} {e : End} : s.calls i = some (.claimed (.close e)) →
      Step pipe max s (((s.shut e).release e).go i (.returned .nil))
  /-- `chan_write_all` begins. -/
  | write {s : State} {i : CallId} {bytes : Bytes} : s.calls i = some (.claimed (.write bytes)) →
      (s.ends .w).closed = false →
      Step pipe max s { s.go i (.writing bytes 0) with cur := some ⟨i, bytes, 0⟩ }
  /-- A frame is written. -/
  | frame {s : State} {i : CallId} {bytes : Bytes} {off : Nat} :
      s.calls i = some (.writing bytes off) → off < bytes.length → s.edge.halt = none →
      Step pipe max s
        { s.go i (.writing bytes (off + min (bytes.length - off) max)) with
          edge := { s.edge with queue := s.edge.queue ++ [(bytes.drop off).take max] }
          cur := some ⟨i, bytes, off + min (bytes.length - off) max⟩ }
  /-- The edge has ended. -/
  | stopped {s : State} {i : CallId} {bytes : Bytes} {off : Nat} {h : Halt} :
      s.calls i = some (.writing bytes off) → off < bytes.length → s.edge.halt = some h →
      Step pipe max s (s.wrote i h.writeErr)
  /-- Every byte was written. -/
  | wrote {s : State} {i : CallId} {bytes : Bytes} {off : Nat} :
      s.calls i = some (.writing bytes off) → bytes.length ≤ off →
      Step pipe max s (s.wrote i .nil)
  /-- `chan_fill` begins. -/
  | read {s : State} {i : CallId} {n : Nat} : s.calls i = some (.claimed (.read n)) →
      (s.ends .r).closed = false → Step pipe max s (s.go i (.filling (.read n)))
  | collect {s : State} {i : CallId} : s.calls i = some (.claimed .collect) →
      (s.ends .r).closed = false → Step pipe max s (s.go i (.filling (.collect [])))
  /-- The next frame is read, which may be empty. -/
  | next {s : State} {i : CallId} {how : Fill} {f : Bytes} {rest : List Bytes} :
      s.calls i = some (.filling how) → s.tail = [] → s.edge.queue = f :: rest →
      Step pipe max s { s with tail := f, edge := { s.edge with queue := rest } }
  /-- The stream is over. -/
  | ended {s : State} {i : CallId} {how : Fill} : s.calls i = some (.filling how) → s.tail = [] →
      s.edge.queue = [] → s.edge.completed = true → s.edge.halt = none →
      Step pipe max s (s.filled i how.atEnd)
  /-- The reader sees that the edge has ended. -/
  | halted {s : State} {i : CallId} {how : Fill} {h : Halt} : s.calls i = some (.filling how) →
      s.tail = [] → s.edge.halt = some h →
      Step pipe max s
        ({ s with edge := { s.edge with queue := [] } }.filled i (h.readRes pipe how))
  /-- `read` takes up to `n` bytes of the tail. -/
  | take {s : State} {i : CallId} {n : Nat} : s.calls i = some (.filling (.read n)) →
      s.tail ≠ [] →
      Step pipe max s ({ s with tail := s.tail.drop n }.filled i (.buf (s.tail.take n)))
  /-- `collect` takes the tail. -/
  | gather {s : State} {i : CallId} {kept : Bytes} : s.calls i = some (.filling (.collect kept)) →
      s.tail ≠ [] →
      Step pipe max s
        { s.go i (.filling (.collect (strConcat kept (strNew s.tail)))) with
          tail := []
          kept := strConcat kept (strNew s.tail) }
  /-- The edge ends. -/
  | halt {s : State} (h : Halt) : s.edge.halt = none →
      Step pipe max s { s with edge := { s.edge with halt := some h } }
  /-- The task that reads a pipeline is suspended at its job-control point, and goes on. -/
  | hold {s : State} {i : CallId} {how : Fill} : pipe = true → s.calls i = some (.filling how) →
      s.tail = [] → Step pipe max s (s.go i (.held how))
  | resume {s : State} {i : CallId} {how : Fill} : s.calls i = some (.held how) →
      Step pipe max s (s.go i (.filling how))
  /-- It is cancelled there: the pipeline is, and the task does not come back. -/
  | cancel {s : State} {i : CallId} {how : Fill} : pipe = true →
      s.calls i = some (.filling how) → s.tail = [] →
      Step pipe max s
        { s.go i .gone with edge := { s.edge with halt := s.edge.halt.or (some (.severed 7)) } }
  /-- It is cancelled while it is suspended. -/
  | drop {s : State} {i : CallId} {how : Fill} : s.calls i = some (.held how) →
      Step pipe max s (s.go i .gone)

/-- **The states of a run** of a channel. -/
inductive Reachable (pipe : Bool) (max : Nat) : State → Prop
  | init : Reachable pipe max init
  | step {s s' : State} : Reachable pipe max s → Step pipe max s s' → Reachable pipe max s'

end Jacl.Chan
