import Jacl.RegexMatches

/-!
# Regular expressions (`lib/regex/nfa.h`): the simulation

All threads go over the text at once, one byte at a time.  The text comes in chunks, and a chunk
of no bytes is the end.  A cursor is where the search has come to: what is left of the current
chunk, and the chunks that the input still has.

The seen bits are a list of instructions.  The recursion of `_nfa_addstate` is bounded by the
program's length, that of the search by the bytes that are left.
-/

namespace Jacl.Regex

/-! ### Threads -/

/-- `SIZE_MAX` is no position. -/
abbrev Captures : Type := List (Option Nat)

structure Thread where
  pc : Nat
  start : Nat
  captures : Option Captures

structure ThreadList where
  threads : List Thread
  seen : List Nat

structure Context where
  bol : Bool
  eol : Bool
  wb : Bool

/-- The context between two bytes, either of which may be missing. -/
def contextAt (prev cur : Option Byte) : Context where
  bol := prev.isNone || prev == some 10
  eol := cur.isNone || cur == some 10
  wb := prev.any isWordChar != cur.any isWordChar

def Context.passes (ctx : Context) : Anchor → Bool
  | .bol => ctx.bol
  | .eol => ctx.eol
  | .word => ctx.wb
  | .nonWord => !ctx.wb

/-- A group's border: in captures of its own. -/
def saveCapture (nCaptures slot sp : Nat) (captures : Option Captures) : Option Captures :=
  if 0 < nCaptures then
    some ((captures.getD (List.replicate nCaptures none)).set slot (some sp))
  else captures

/-- `_nfa_addstate`. -/
def addState (code : Code) (ctx : Context) (nCaptures sp : Nat) :
    Nat → Thread → ThreadList → ThreadList
  | 0, _, l => l
  | fuel + 1, t, l =>
    if t.pc ∈ l.seen then l
    else
      let l : ThreadList := { l with seen := t.pc :: l.seen }
      let add := addState code ctx nCaptures sp fuel
      match code[t.pc]? with
      | none => l
      | some ins =>
        match ins.op with
        | .split => add { t with pc := ins.out1 } (add { t with pc := ins.out } l)
        | .jmp => add { t with pc := ins.out } l
        | .save slot =>
          add ⟨ins.out, t.start, saveCapture nCaptures slot sp t.captures⟩ l
        | .anchor kind => if ctx.passes kind then add { t with pc := ins.out } l else l
        | _ => { l with threads := l.threads ++ [t] }

/-! ### The cursor -/

structure Cursor where
  chunk : List Byte
  later : List (List Byte)
  sp : Nat
  prev : Option Byte

/-- `next_chunk`, which gives nothing at the end. -/
def nextChunk : List (List Byte) → List Byte × List (List Byte)
  | [] => ([], [])
  | chunk :: later => (chunk, later)

/-- Past a chunk that is used up; and whether that is the end. -/
def Cursor.refill (cur : Cursor) : Cursor × Bool :=
  if cur.chunk = [] then
    let (chunk, later) := nextChunk cur.later
    ({ cur with chunk, later }, chunk == [])
  else (cur, false)

def Cursor.advance (cur : Cursor) (b : Byte) : Cursor :=
  { cur with chunk := cur.chunk.tail, sp := cur.sp + 1, prev := some b }

/-- All the bytes that there may be. -/
def Cursor.size (cur : Cursor) : Nat := cur.chunk.length + cur.later.flatten.length

/-- Past the bytes that no match begins with; there is a byte, and whether it comes to the end. -/
def skip (firstByteSet : Byte → Bool) : Nat → Cursor → Cursor × Bool
  | 0, cur => (cur, true)
  | fuel + 1, cur =>
    match cur.chunk with
    | [] => (cur, true)
    | b :: _ =>
      if firstByteSet b then (cur, false)
      else
        let (cur, atEnd) := (cur.advance b).refill
        if atEnd then (cur, true) else skip firstByteSet fuel cur

structure Found where
  start : Nat
  stop : Nat
  captures : Option Captures

/-- What a thread that has matched at `sp` changes. -/
def better (greedy : Bool) (sp : Nat) (best : Option Found) (t : Thread) : Option Found :=
  match best with
  | none => some ⟨t.start, sp, t.captures⟩
  | some m =>
    if t.start < m.start ∨ t.start = m.start ∧ m.stop < sp ∧ greedy then
      some ⟨t.start, sp, t.captures⟩
    else some m

def isMatch (code : Code) (pc : Nat) : Bool := (code[pc]?.map (·.op == .matched)).getD false

def scan (p : Program) (sp : Nat) (threads : List Thread) (best : Option Found) : Option Found :=
  (threads.filter (isMatch p.code ·.pc)).foldl (better p.greedyMatch sp) best

/-- The threads that a byte takes on. -/
def consume (code : Code) (b : Byte) (threads : List Thread) : List Thread :=
  threads.filterMap fun t => do
    let ins ← code[t.pc]?
    if ins.op.admits b then some { t with pc := ins.out } else none

/-- The threads at `cur`, a new one among them unless there is a match already. -/
def expand (p : Program) (ctx : Context) (sp : Nat) (pending : List Thread) (best : Option Found) :
    List Thread :=
  let add := fun l t => addState p.code ctx p.nCaptures sp (p.code.length + 1) t l
  let l := pending.foldl add ⟨[], []⟩
  (if best.isNone then add l ⟨p.start, sp, none⟩ else l).threads

/-- To the next byte that is looked at. -/
def settle (p : Program) (cur : Cursor) (pending : List Thread) (best : Option Found) :
    Cursor × Bool :=
  let (cur, atEnd) := cur.refill
  if !atEnd && pending.isEmpty && best.isNone && !p.canMatchEmpty then
    skip p.firstByteSet cur.size cur
  else (cur, atEnd)

def search (p : Program) : Nat → Cursor → List Thread → Option Found → Option Found × Cursor
  | 0, cur, _, best => (best, cur)
  | fuel + 1, cur, pending, best =>
    let (cur, atEnd) := settle p cur pending best
    let next := if atEnd then none else cur.chunk.head?
    let threads := expand p (contextAt cur.prev next) cur.sp pending best
    let best := scan p cur.sp threads best
    match next with
    | none => (best, cur)
    | some b =>
      let pending := consume p.code b threads
      if best.isSome && pending.isEmpty then (best, cur)
      else search p fuel (cur.advance b) pending best

structure Match where
  start : Nat
  stop : Nat
  captures : Captures
deriving DecidableEq, Repr

/-- The captures of a match, or as many that were never set. -/
def Found.result (nCaptures : Nat) (m : Found) : Match :=
  ⟨m.start, m.stop, if 0 < nCaptures then m.captures.getD (List.replicate nCaptures none) else []⟩

/-- `_nfa_exec_core`. -/
def execCore (p : Program) (cur : Cursor) : Option Match × Cursor :=
  let (best, cur) := search p (cur.size + 1) cur [] none
  (best.map (Found.result p.nCaptures), cur)

end Jacl.Regex
