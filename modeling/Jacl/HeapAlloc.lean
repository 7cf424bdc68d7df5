import Mathlib

/-!
# The heap allocator (`runtime/heap_gc.c`)

The heap is an array of `JACL_HEAP_BYTES`, cut into regions of 64 KiB.  A worker allocates in its
current region without a lock, from its free lists or from its bump pointer; the shared pool hands
out regions, those a sweep gave back by a CAS on each one's flag, else fresh ones from a cursor.
Calls of `jacl_alloc` on different workers come in any order, one access to the pool at a time; a
collection runs while no call is inside `jacl_alloc_off`, and `marked` is what its marking reached.

Offsets and sizes are `uint32_t`, the cursor is a `long`, and their sums wrap as the code's do.
`cells` is the object-start bitmap with the headers of the cells; a free list, which is threaded
through the free cells, is the list of their offsets.  `asked` is a ghost field of a cell: the
payload that its caller asked for.  Left out: what is in a cell, the clearing of its payload, and
the waits of the quiesce protocol.
-/

namespace Jacl.HeapAlloc
open Function

/-- `JACL_HEAP_BYTES`. -/
def heapBytes : Nat := 16 <<< 20
/-- `JACL_GRANULE`. -/
def granule : Nat := 16
/-- `JACL_NCLASS`. -/
def nclass : Nat := 1024 / granule
/-- `JACL_REGION_BYTES`. -/
def regionBytes : Nat := 1 <<< 16
/-- `JACL_MAX_WORKERS`. -/
def maxWorkers : Nat := 64
/-- `sizeof(JaclObj)`. -/
def sizeofObj : Nat := 8

/-- The bound on the collections of one call. -/
def maxTries : Nat := 64

@[simp] theorem heapBytes_eq : heapBytes = 16777216 := rfl
@[simp] theorem granule_eq : granule = 16 := rfl
@[simp] theorem nclass_eq : nclass = 64 := rfl
@[simp] theorem regionBytes_eq : regionBytes = 65536 := rfl
@[simp] theorem sizeofObj_eq : sizeofObj = 8 := rfl

/-- A `uint32_t`. -/
def u32 (n : Nat) : Nat := n % 2 ^ 32

/-- `(n + (JACL_GRANULE - 1)) & ~(JACL_GRANULE - 1)`. -/
def roundGranule (n : Nat) : Nat := u32 (n + (granule - 1)) / granule * granule

/-- `(n + (JACL_REGION_BYTES - 1)) & ~(JACL_REGION_BYTES - 1)`. -/
def roundRegion (n : Nat) : Nat := u32 (n + (regionBytes - 1)) / regionBytes * regionBytes

/-- The size of the cell for a payload. -/
def cellFor (payload : Nat) : Nat := roundGranule (u32 (sizeofObj + payload))

/-- A cell with a start bit: its `JaclObj`. -/
structure Cell where
  size : Nat
  /-- `JOBJ_FREE`. -/
  free : Bool
  asked : Nat
deriving DecidableEq

/-- `JaclWorker`. -/
structure Worker where
  bump : Nat
  limit : Nat
  freelist : Nat → List Nat

namespace Worker

def setBump (wh : Worker) (bump : Nat) : Worker := { wh with bump := bump }
def setRegion (wh : Worker) (bump limit : Nat) : Worker := { wh with bump := bump, limit := limit }
def setList (wh : Worker) (cls : Nat) (offs : List Nat) : Worker :=
  { wh with freelist := update wh.freelist cls offs }

end Worker

structure Heap where
  cells : Nat → Option Cell
  regionBump : Nat
  regionOwner : Nat → Nat
  regionFree : Nat → Bool
  workers : Nat → Worker

/-- A call of `jacl_alloc`: what it asked for, the collections it has left, and whether its last one
reclaimed nothing. -/
structure Call where
  payload : Nat
  cell : Nat
  left : Nat
  barren : Bool
deriving DecidableEq

/-- Where the call on a worker is. -/
inductive Phase
  | idle
  /-- About to run `jacl_alloc_off`. -/
  | entry (c : Call)
  /-- `jacl_grab_regions` is about to look at region `r`, for a run of `k` below `top`. -/
  | scan (c : Call) (k top r : Nat)
  /-- It has taken the regions from `r` to `r + got`. -/
  | take (c : Call) (k top r got : Nat)
  /-- It gives them back, and has come to `r + i`. -/
  | giveBack (c : Call) (k top r got i : Nat)
  /-- It is about to move the cursor. -/
  | fresh (c : Call) (need : Nat)
  /-- `jacl_alloc_off` has returned 0. -/
  | starved (c : Call)
  | trapped
deriving DecidableEq

/-- `jacl_alloc_off` has returned 0: `jacl_alloc` collects, or traps. -/
def Call.failed (c : Call) : Phase := if c.barren || c.left == 0 then .trapped else .starved c

structure State where
  heap : Heap
  phase : Nat → Phase

namespace Heap
variable (h : Heap)

/-- `jacl_region_hwm`. -/
def hwm : Nat :=
  if 2 ^ 63 ≤ h.regionBump then u32 h.regionBump
  else if heapBytes < h.regionBump then heapBytes else h.regionBump

def setWorker (w : Nat) (wh : Worker) : Heap := { h with workers := update h.workers w wh }

/-- The loop over `jacl_region_owner`. -/
def own (w r k : Nat) : Heap :=
  { h with regionOwner := fun x => if r ≤ x ∧ x < r + k then w else h.regionOwner x }

def setFree (r : Nat) (b : Bool) : Heap := { h with regionFree := update h.regionFree r b }

/-- Give a cell its start bit and its header. -/
def setCell (off : Nat) (c : Cell) : Heap := { h with cells := update h.cells off (some c) }

/-- `jacl_alloc_off` returns: an offset is given a header. -/
def finish (c : Call) (off : Nat) : Heap × Phase :=
  if off = 0 then (h, c.failed)
  else (h.setCell off ⟨c.cell, false, c.payload⟩, .idle)

/-- Take a cell at the bump pointer. -/
def bumpCell (w : Nat) (c : Call) : Heap × Phase :=
  let wh := h.workers w
  (h.setWorker w (wh.setBump (u32 (wh.bump + c.cell)))).finish c wh.bump

/-- Make the region at `base` the current one; offset 0 is the null sentinel. -/
def adopt (w base : Nat) : Heap :=
  h.setWorker w
    ((h.workers w).setRegion (if base = 0 then granule else base) (u32 (base + regionBytes)))

/-- The rest of `jacl_alloc_off` when the regions at `base` have been claimed. -/
def grabbed (w : Nat) (c : Call) (base : Nat) : Heap × Phase :=
  if regionBytes < c.cell then h.finish c base else (h.adopt w base).bumpCell w c

/-- `jacl_alloc_off`, up to the shared pool. -/
def allocOff (w : Nat) (c : Call) : Heap × Phase :=
  let wh := h.workers w
  let cls := c.cell / granule
  match if cls ≤ nclass then wh.freelist cls else [] with
  | off :: rest =>
      (h.setWorker w (wh.setList cls rest)).finish c off
  | [] =>
      if u32 (wh.bump + c.cell) ≤ wh.limit then h.bumpCell w c
      else
        let need := roundRegion (roundGranule (if regionBytes < c.cell then c.cell else regionBytes))
        (h, .scan c (need / regionBytes) (h.hwm / regionBytes) 1)

/-- One access of `jacl_grab_regions` to the shared pool, and what follows it. -/
def grab (w : Nat) : Phase → Heap × Phase
  | .scan c k top r =>
      if u32 (r + k) ≤ top then
        (h, if h.regionFree r then .take c k top r 0 else .scan c k top (r + 1))
      else (h, .fresh c (k * regionBytes))
  | .take c k top r got =>
      if got < k then
        if h.regionFree (r + got) then (h.setFree (r + got) false, .take c k top r (got + 1))
        else (h, .giveBack c k top r got 0)
      else (h.own w r k).grabbed w c (r * regionBytes)
  | .giveBack c k top r got i =>
      if i < got then (h.setFree (r + i) true, .giveBack c k top r got (i + 1))
      else (h, .scan c k top (r + got + 1))
  | .fresh c need =>
      let base := h.regionBump
      let h' := { h with regionBump := (base + need) % 2 ^ 64 }
      if 2 ^ 63 ≤ base ∨ heapBytes < base + need then h'.finish c 0
      else (h'.own w (base / regionBytes) (need / regionBytes)).grabbed w c base
  | p => (h, p)

/-! ### The sweep -/

/-- The start bits of a region. -/
def starts (r : Nat) : List Nat :=
  ((List.range (regionBytes / granule)).map fun g => r * regionBytes + g * granule).filter
    fun off => (h.cells off).isSome

/-- The cells of a region that no mark reached become free. -/
def freeDead (marked : Nat → Bool) (r : Nat) : Heap :=
  { h with cells := fun off =>
      if off / regionBytes = r ∧ marked off = false then
        (h.cells off).map fun c => { c with free := true }
      else h.cells off }

/-- Push a free cell onto the list of its size, of the worker that owns the region. -/
def pushFree (off : Nat) : Heap :=
  match h.cells off with
  | some c =>
      if c.free ∧ c.size / granule ≤ nclass then
        let w := h.regionOwner (off / regionBytes)
        let wh := h.workers w
        let cls := c.size / granule
        h.setWorker w (wh.setList cls (off :: wh.freelist cls))
      else h
  | none => h

/-- `jacl_release_regions`. -/
def release (r k : Nat) : Heap :=
  { h with
    cells := fun off =>
      if r ≤ off / regionBytes ∧ off / regionBytes < r + k then none else h.cells off
    workers := fun w =>
      let wh := h.workers w
      if r * regionBytes < wh.limit ∧ wh.limit ≤ (r + k) * regionBytes then
        wh.setRegion 0 0
      else wh
    regionFree := fun x => if r ≤ x ∧ x < r + k then true else h.regionFree x }

def isLive (off : Nat) : Bool := (h.cells off).any fun c => !c.free

/-- The cell that starts a region, if it has a run of regions of its own. -/
def largeHead (r : Nat) : Option Cell :=
  (h.cells (r * regionBytes)).filter fun c => regionBytes < c.size

/-- One region, or run of regions, of the sweep: what it leaves, what it counts, and the next. -/
def sweepRegion (marked : Nat → Bool) (r : Nat) : Heap × Nat × Nat :=
  if h.regionFree r then (h, 0, r + 1)
  else
    match h.largeHead r with
    | some head =>
        let span := u32 (head.size + (regionBytes - 1)) / regionBytes
        if marked (r * regionBytes) then (h, 0, r + span)
        else (h.release r span, 1 + span, r + span)
    | none =>
        let swept := (h.starts r).countP fun off => h.isLive off && !marked off
        let h' := h.freeDead marked r
        if r ≠ 0 ∧ (h'.starts r).countP h'.isLive = 0 then (h'.release r 1, swept + 1, r + 1)
        else ((h'.starts r).foldl pushFree h', swept, r + 1)

/-- The loop over the regions, from `r`. -/
def sweepFrom (marked : Nat → Bool) (top : Nat) : Nat → Nat → Heap × Nat → Heap × Nat
  | 0, _, done => done
  | fuel + 1, r, (h, n) =>
      if r < top then
        let (h', m, r') := h.sweepRegion marked r
        sweepFrom marked top fuel r' (h', n + m)
      else (h, n)

def clearLists : Heap :=
  { h with workers := fun w => { h.workers w with freelist := fun _ => [] } }

/-- `jacl_gc_collect_stw`: the heap it leaves, and what it counts. -/
def collect (marked : Nat → Bool) : Heap × Nat :=
  sweepFrom marked (h.hwm / regionBytes) (h.hwm / regionBytes) 0 (h.clearLists, 0)

end Heap

/-! ### Steps -/

/-- The phases in which a worker can answer a stop. -/
def Phase.stops : Phase → Bool
  | .scan .. => false
  | .take .. => false
  | .giveBack .. => false
  | .fresh .. => false
  | _ => true

inductive Action
  /-- `jacl_alloc` is called. -/
  | call (w payload : Nat)
  /-- A call goes on. -/
  | own (w : Nat)
  /-- A starved call found another worker collecting, and tries again. -/
  | retry (w : Nat)
  /-- A starved call collects. -/
  | collect (w : Nat) (marked : Nat → Bool)
  /-- `jacl_gc_collect` is called from elsewhere. -/
  | gc (marked : Nat → Bool)

namespace State
variable (s : State)

def put (w : Nat) (hp : Heap × Phase) : State := ⟨hp.1, update s.phase w hp.2⟩

@[simp] theorem put_heap (w : Nat) (hp : Heap × Phase) : (s.put w hp).heap = hp.1 := rfl

@[simp] theorem put_self (w : Nat) (hp : Heap × Phase) : (s.put w hp).phase w = hp.2 :=
  update_self _ _ _

theorem put_of_ne {w x : Nat} {hp : Heap × Phase} (hne : x ≠ w) :
    (s.put w hp).phase x = s.phase x :=
  update_of_ne hne _ _

/-- No call is inside `jacl_alloc_off`. -/
def Stopped : Prop := ∀ w < maxWorkers, (s.phase w).stops

instance : Decidable s.Stopped := inferInstanceAs (Decidable (∀ w < maxWorkers, _))

def step : Action → Option State
  | .call w payload =>
      if w < maxWorkers ∧ payload < 2 ^ 32 ∧ s.phase w = .idle then
        some (s.put w (s.heap, .entry ⟨payload, cellFor payload, maxTries, false⟩))
      else none
  | .own w =>
      match s.phase w with
      | .entry c => some (s.put w (s.heap.allocOff w c))
      | .scan c k top r => some (s.put w (s.heap.grab w (.scan c k top r)))
      | .take c k top r got => some (s.put w (s.heap.grab w (.take c k top r got)))
      | .giveBack c k top r got i => some (s.put w (s.heap.grab w (.giveBack c k top r got i)))
      | .fresh c need => some (s.put w (s.heap.grab w (.fresh c need)))
      | _ => none
  | .retry w =>
      match s.phase w with
      | .starved c => some (s.put w (s.heap, .entry { c with left := c.left - 1, barren := false }))
      | _ => none
  | .collect w marked =>
      match s.phase w with
      | .starved c =>
          if s.Stopped then
            let (h, n) := s.heap.collect marked
            some (s.put w (h, .entry { c with left := c.left - 1, barren := n == 0 }))
          else none
      | _ => none
  | .gc marked => if s.Stopped then some { s with heap := (s.heap.collect marked).1 } else none

end State

/-! ### What an update leaves as it was -/

namespace Worker
variable {wh : Worker} {b l cls k : Nat} {offs : List Nat}

@[simp] theorem setBump_bump : (wh.setBump b).bump = b := rfl
@[simp] theorem setBump_limit : (wh.setBump b).limit = wh.limit := rfl
@[simp] theorem setBump_freelist : (wh.setBump b).freelist = wh.freelist := rfl
@[simp] theorem setRegion_bump : (wh.setRegion b l).bump = b := rfl
@[simp] theorem setRegion_limit : (wh.setRegion b l).limit = l := rfl
@[simp] theorem setRegion_freelist : (wh.setRegion b l).freelist = wh.freelist := rfl
@[simp] theorem setList_bump : (wh.setList cls offs).bump = wh.bump := rfl
@[simp] theorem setList_limit : (wh.setList cls offs).limit = wh.limit := rfl
@[simp] theorem setList_self : (wh.setList cls offs).freelist cls = offs := update_self _ _ _

theorem setList_of_ne (hne : k ≠ cls) : (wh.setList cls offs).freelist k = wh.freelist k :=
  update_of_ne hne _ _

end Worker

namespace Heap
variable {h : Heap} {w w' off off' r k : Nat} {wh : Worker} {c : Cell} {b : Bool}

@[simp] theorem setCell_self : (h.setCell off c).cells off = some c := update_self _ _ _

theorem setCell_of_ne (hne : off' ≠ off) : (h.setCell off c).cells off' = h.cells off' :=
  update_of_ne hne _ _

@[simp] theorem setCell_workers : (h.setCell off c).workers = h.workers := rfl
@[simp] theorem setCell_hwm : (h.setCell off c).hwm = h.hwm := rfl
@[simp] theorem setCell_regionFree : (h.setCell off c).regionFree = h.regionFree := rfl

@[simp] theorem setWorker_self : (h.setWorker w wh).workers w = wh := update_self _ _ _

theorem setWorker_of_ne (hne : w' ≠ w) : (h.setWorker w wh).workers w' = h.workers w' :=
  update_of_ne hne _ _

@[simp] theorem setWorker_cells : (h.setWorker w wh).cells = h.cells := rfl
@[simp] theorem setWorker_hwm : (h.setWorker w wh).hwm = h.hwm := rfl
@[simp] theorem setWorker_regionFree : (h.setWorker w wh).regionFree = h.regionFree := rfl

@[simp] theorem own_cells : (h.own w r k).cells = h.cells := rfl
@[simp] theorem own_workers : (h.own w r k).workers = h.workers := rfl
@[simp] theorem own_hwm : (h.own w r k).hwm = h.hwm := rfl
@[simp] theorem own_regionFree : (h.own w r k).regionFree = h.regionFree := rfl

@[simp] theorem setFree_self : (h.setFree r b).regionFree r = b := update_self _ _ _

theorem setFree_of_ne (hne : off ≠ r) : (h.setFree r b).regionFree off = h.regionFree off :=
  update_of_ne hne _ _

@[simp] theorem setFree_cells : (h.setFree r b).cells = h.cells := rfl
@[simp] theorem setFree_workers : (h.setFree r b).workers = h.workers := rfl
@[simp] theorem setFree_hwm : (h.setFree r b).hwm = h.hwm := rfl

end Heap

/-- `jacl_heap_init`. -/
def init : State where
  heap := ⟨fun _ => none, 0, fun _ => 0, fun _ => false, fun _ => ⟨0, 0, fun _ => []⟩⟩
  phase := fun _ => .idle

end Jacl.HeapAlloc
