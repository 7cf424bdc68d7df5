import Jacl.Tombstones

/-!
# The intern table of the front end (`src/src/string.c`, `src/src/gc_collect.c`)

Heap strings in a table of open addresses, with tombstones where the collector evicted one.
`jaclIntern` holds the lock from the search to the store, so it is one step here; the cell it
was given by `gc_alloc` before that is an argument.  `none` is a search that never ends or
reads outside the table.
-/

namespace Jacl.InternTable
open Tombstones

abbrev Byte : Type := BitVec 8

/-- `string__fnv1a`. -/
def fnv1a (data : List Byte) : BitVec 32 :=
  data.foldl (fun hash b => (hash ^^^ b.setWidth 32) * 16777619#32) 2166136261#32

/-- Where `gc_alloc` puts a thing: one of `GC_MAX_HEAP_BLOCKS` blocks of 64KB, at 8 bytes. -/
structure Cell where
  block : Fin 4096
  granule : Fin 8192
  deriving DecidableEq

/-- `JaclHeapString`. -/
structure HeapString where
  cell : Cell
  hash : BitVec 32
  data : List Byte
  hash_eq : hash = fnv1a data

/-- A `uint32_t`. -/
def u32 (n : Nat) : Nat := n % 2 ^ 32

/-- `JaclInternTable`. -/
structure Table where
  entries : List (Slot HeapString)
  count : Nat
  tombstoneCount : Nat
  cap : Nat

/-- `intern_table_init`. -/
def Table.init : Table := ⟨List.replicate 16 .empty, 0, 0, 16⟩

/-- The loop of `intern__find_slot`, for at most the slots there are. -/
def findSlotFrom (entries : List (Slot HeapString)) (cap : Nat) (data : List Byte) (hash : BitVec 32) :
    Nat → Nat → Option Nat → Option Nat
  | 0, _, _ => none
  | n + 1, idx, first =>
    match entries[idx]? with
    | none => none
    | some .empty => some (first.getD idx)
    | some .tombstone =>
      findSlotFrom entries cap data hash n ((idx + 1) &&& (cap - 1)) (first.or (some idx))
    | some (.live entry) =>
      if entry.hash = hash ∧ entry.data.length = data.length ∧ entry.data = data then some idx
      else findSlotFrom entries cap data hash n ((idx + 1) &&& (cap - 1)) first

/-- `intern__find_slot`. -/
def findSlot (entries : List (Slot HeapString)) (cap : Nat) (data : List Byte) (hash : BitVec 32) :
    Option Nat :=
  findSlotFrom entries cap data hash cap (hash.toNat &&& (cap - 1)) none

/-- One turn of the loop of `intern__rehash`. -/
def rehashEntry (newCap : Nat) (newEntries : List (Slot HeapString)) :
    Slot HeapString → Option (List (Slot HeapString))
  | .live entry =>
    (findSlot newEntries newCap entry.data entry.hash).map fun slot => newEntries.set slot (.live entry)
  | _ => some newEntries

/-- `intern__rehash`. -/
def rehash (t : Table) (newCap : Nat) : Option Table :=
  (t.entries.foldlM (rehashEntry newCap) (List.replicate newCap .empty)).map fun entries =>
    { t with entries := entries, cap := newCap, tombstoneCount := 0 }

/-- A rehash, and the slot for the new string in what it made. -/
def refind (t : Table) (newCap : Nat) (str : HeapString) : Option (Table × Nat) :=
  match rehash t newCap with
  | none => none
  | some t' => (findSlot t'.entries t'.cap str.data str.hash).map fun slot => (t', slot)

/-- Compact if more than a quarter of the slots are tombstones. -/
def compact (t : Table) (str : HeapString) (slot : Nat) : Option (Table × Nat) :=
  if t.cap < u32 (t.tombstoneCount * 4) then refind t t.cap str else some (t, slot)

/-- Resize if the load, tombstones included, is over three quarters. -/
def resize (t : Table) (str : HeapString) (slot : Nat) : Option (Table × Nat) :=
  if u32 (t.cap * 3) < u32 ((t.count + t.tombstoneCount + 1) * 4) then refind t (u32 (t.cap * 2)) str
  else some (t, slot)

/-- The store into the slot. -/
def Table.store (t : Table) (str : HeapString) (slot : Nat) : Table where
  entries := t.entries.set slot (.live str)
  count := u32 (t.count + 1)
  tombstoneCount := if (t.entries[slot]?.map Slot.isTombstone).getD false
    then u32 (t.tombstoneCount + (2 ^ 32 - 1)) else t.tombstoneCount
  cap := t.cap

/-- The table after a new string, and that string. -/
def insert (t : Table) (str : HeapString) (slot : Nat) : Option (Table × HeapString) :=
  match compact t str slot with
  | none => none
  | some (t', slot') => (resize t' str slot').map fun ts => (ts.1.store str ts.2, str)

/-- `jacl_intern`, with the cell that `gc_alloc` gave. -/
def jaclIntern (t : Table) (cell : Cell) (data : List Byte) : Option (Table × HeapString) :=
  match findSlot t.entries t.cap data (fnv1a data) with
  | none => none
  | some slot =>
    match t.entries[slot]? with
    | some (.live entry) => some (t, entry)
    | _ => insert t ⟨cell, fnv1a data, data, rfl⟩ slot

/-- One turn of the loop of `gc_sweep_intern_table`: `dead` is what the mark, the epoch and the
heap of an entry say. -/
def sweepEntry (dead : HeapString → Bool) (t : Table) (i : Nat) : Table :=
  match t.entries[i]? with
  | some (.live entry) =>
    if dead entry then
      { t with
        entries := t.entries.set i .tombstone
        count := u32 (t.count + (2 ^ 32 - 1))
        tombstoneCount := u32 (t.tombstoneCount + 1) }
    else t
  | _ => t

/-- `gc_sweep_intern_table`. -/
def sweep (t : Table) (dead : HeapString → Bool) : Table :=
  (List.range t.cap).foldl (sweepEntry dead) t

/-- The string is in the table. -/
def Table.Live (t : Table) (s : HeapString) : Prop := .live s ∈ t.entries

/-- **A step**: a string is interned, in a cell that no string of the table has, or the collector
evicts. -/
inductive Step : Table → Table → Prop
  | intern {t t' : Table} {cell : Cell} {data : List Byte} {s : HeapString}
      (fresh : ∀ s, t.Live s → s.cell ≠ cell) (h : jaclIntern t cell data = some (t', s)) : Step t t'
  | evict {t : Table} (dead : HeapString → Bool) : Step t (sweep t dead)

inductive Reachable : Table → Prop
  | init : Reachable .init
  | step {t t' : Table} (h : Reachable t) (hs : Step t t') : Reachable t'

/-- Steps that do not evict `s`. -/
inductive Keeps (s : HeapString) : Table → Table → Prop
  | refl {t : Table} : Keeps s t t
  | intern {t₁ t₂ t₃ : Table} {cell : Cell} {data : List Byte} {x : HeapString} (h : Keeps s t₁ t₂)
      (fresh : ∀ s, t₂.Live s → s.cell ≠ cell) (hi : jaclIntern t₂ cell data = some (t₃, x)) : Keeps s t₁ t₃
  | evict {t₁ t₂ : Table} {dead : HeapString → Bool} (h : Keeps s t₁ t₂) (hs : dead s = false) :
      Keeps s t₁ (sweep t₂ dead)

end Jacl.InternTable
