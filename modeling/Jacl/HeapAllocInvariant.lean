import Jacl.HeapAlloc

/-!
# What holds of the heap

A cell has an extent: its size, or its whole run of regions when it is larger than one.  The extents
of two cells never meet, nor does one meet the room that a worker has left in its current region, or
a region that is free or taken by a claim that is under way.
-/

namespace Jacl.HeapAlloc
open Function

/-- The bytes that are a cell's alone. -/
def Cell.extent (c : Cell) : Nat :=
  if 65536 < c.size then (c.size + 65535) / 65536 * 65536 else c.size

theorem Cell.size_le_extent (c : Cell) : c.size ≤ c.extent := by
  unfold Cell.extent
  split <;> omega

/-- A cell at an offset, below the top of the claimed regions. -/
structure Cell.Fits (c : Cell) (off top : Nat) : Prop where
  pos : 0 < off
  aligned : off % 16 = 0
  sized : c.size % 16 = 0
  asked : 8 + c.asked ≤ c.size
  below : off + c.extent ≤ top
  /-- A large cell starts its run. -/
  large : 65536 < c.size → off % 65536 = 0
  /-- Another is in one region. -/
  small : c.size ≤ 65536 → off % 65536 + c.size ≤ 65536

theorem Cell.Fits.extent_pos {c : Cell} {off top : Nat} (h : c.Fits off top) : 0 < c.extent := by
  have := h.asked
  have := c.size_le_extent
  omega

theorem Cell.Fits.mono {c : Cell} {off top top' : Nat} (h : c.Fits off top) (hle : top ≤ top') :
    c.Fits off top' :=
  { h with below := Nat.le_trans h.below hle }

/-- A worker has no region, or what is left of one. -/
structure Worker.Fits (wh : Worker) (top : Nat) : Prop where
  limit : wh.limit % 65536 = 0
  below : wh.limit ≤ top
  bump_le : wh.bump ≤ wh.limit
  le_bump : wh.limit ≤ wh.bump + 65536
  aligned : wh.bump % 16 = 0
  pos : 0 < wh.limit → 0 < wh.bump

/-- No extent meets the bytes from `a` to `b`. -/
def Heap.Clear (h : Heap) (a b : Nat) : Prop :=
  ∀ off c, h.cells off = some c → off + c.extent ≤ a ∨ b ≤ off

/-- A claimed region that holds nothing and is no one's. -/
structure Heap.Vacant (h : Heap) (r : Nat) : Prop where
  below : 65536 * (r + 1) ≤ h.hwm
  clear : h.Clear (65536 * r) (65536 * (r + 1))
  unused : ∀ w, (h.workers w).limit ≠ 65536 * (r + 1)

/-- What a region's being vacant depends on. -/
theorem Heap.Vacant.congr {h h' : Heap} {r : Nat} (hv : h.Vacant r) (hcells : h'.cells = h.cells)
    (htop : h.hwm ≤ h'.hwm) (hlimit : ∀ w, (h'.workers w).limit = (h.workers w).limit) : h'.Vacant r where
  below := Nat.le_trans hv.below htop
  clear := by
    intro o d hd
    rw [hcells] at hd
    exact hv.clear o d hd
  unused := fun w => by rw [hlimit]; exact hv.unused w

/-- A free cell, of the size of a list and in a region of its worker's. -/
def Heap.Listed (h : Heap) (w cls off : Nat) : Prop :=
  ∃ c, h.cells off = some c ∧ c.free = true ∧ c.size = 16 * cls ∧ h.regionOwner (off / 65536) = w

/-- **The heap is in order.** -/
structure Heap.Ordered (h : Heap) : Prop where
  cursor : h.regionBump % 65536 = 0
  bounded : h.regionBump < 2 ^ 63
  cells : ∀ off c, h.cells off = some c → c.Fits off h.hwm
  apart : ∀ off off' c c', h.cells off = some c → h.cells off' = some c' → off < off' →
    off + c.extent ≤ off'
  workers : ∀ w, (h.workers w).Fits h.hwm
  room : ∀ w, h.Clear (h.workers w).bump (h.workers w).limit
  alone : ∀ w w', w ≠ w' → (h.workers w).limit = (h.workers w').limit → (h.workers w).limit = 0
  listed : ∀ w cls, ∀ off ∈ (h.workers w).freelist cls, h.Listed w cls off
  nodup : ∀ w cls, ((h.workers w).freelist cls).Nodup
  free : ∀ r, h.regionFree r = true → 0 < r ∧ h.Vacant r

variable {h : Heap} {w r off : Nat} {c : Cell}

theorem Heap.hwm_eq (hb : h.regionBump < 2 ^ 63) : h.hwm = min h.regionBump 16777216 := by
  rw [Heap.hwm, if_neg (by omega), heapBytes_eq]
  split <;> omega

theorem Heap.Ordered.hwm_le (hh : h.Ordered) : h.hwm ≤ 16777216 := by
  rw [Heap.hwm_eq hh.bounded]
  exact Nat.min_le_right _ _

/-- No cell starts in a vacant region. -/
theorem Heap.Vacant.empty (hv : h.Vacant r) (hh : h.Ordered) (hoff : off / 65536 = r) :
    h.cells off = none := by
  by_contra hne
  obtain ⟨c, hc⟩ := Option.ne_none_iff_exists'.mp hne
  have hpos := (hh.cells off c hc).extent_pos
  have := hv.clear off c hc
  omega

/-- A cell in the clear is new. -/
theorem Heap.Clear.empty {n : Nat} (hcl : h.Clear off (off + n)) (hh : h.Ordered) (hn : 0 < n) :
    h.cells off = none := by
  by_contra hne
  obtain ⟨c, hc⟩ := Option.ne_none_iff_exists'.mp hne
  have hpos := (hh.cells off c hc).extent_pos
  have := hcl off c hc
  omega

theorem Heap.setCell_cases {o : Nat} {d : Cell} (hd : (h.setCell off c).cells o = some d) :
    o = off ∧ d = c ∨ o ≠ off ∧ h.cells o = some d := by
  by_cases ho : o = off
  · subst ho
    rw [setCell_self] at hd
    exact .inl ⟨rfl, (Option.some.inj hd).symm⟩
  · rw [setCell_of_ne ho] at hd
    exact .inr ⟨ho, hd⟩

theorem Heap.Clear.setCell {a b : Nat} (hcl : h.Clear a b) (haway : off + c.extent ≤ a ∨ b ≤ off) :
    (h.setCell off c).Clear a b := by
  intro o d hd
  rcases setCell_cases hd with ⟨rfl, rfl⟩ | ⟨-, hd⟩
  · exact haway
  · exact hcl o d hd

/-- A vacant region stays so while cells are placed elsewhere. -/
theorem Heap.Vacant.setCell (hv : h.Vacant r)
    (haway : off + c.extent ≤ 65536 * r ∨ 65536 * (r + 1) ≤ off) : (h.setCell off c).Vacant r :=
  ⟨hv.below, hv.clear.setCell haway, hv.unused⟩

/-- **A new cell, in the clear.** -/
theorem Heap.Ordered.place (hh : h.Ordered) (hfit : c.Fits off h.hwm)
    (hclear : h.Clear off (off + c.extent))
    (hrooms : ∀ w, (h.workers w).limit ≤ off ∨ off + c.extent ≤ (h.workers w).bump)
    (hfree : ∀ r, h.regionFree r = true → off + c.extent ≤ 65536 * r ∨ 65536 * (r + 1) ≤ off) :
    (h.setCell off c).Ordered where
  cursor := hh.cursor
  bounded := hh.bounded
  cells := by
    intro o d hd
    rcases setCell_cases hd with ⟨rfl, rfl⟩ | ⟨-, hd⟩
    · exact hfit
    · exact hh.cells o d hd
  apart := by
    intro o o' d d' hd hd' hlt
    rcases setCell_cases hd with ⟨rfl, rfl⟩ | ⟨-, hold⟩ <;>
      rcases setCell_cases hd' with ⟨rfl, rfl⟩ | ⟨-, hold'⟩
    · exact absurd hlt (Nat.lt_irrefl _)
    · have := hclear o' d' hold'
      have := (hh.cells o' d' hold').extent_pos
      omega
    · have := hclear o d hold
      have := hfit.extent_pos
      omega
    · exact hh.apart o o' d d' hold hold' hlt
  workers := hh.workers
  room := fun w => (hh.room w).setCell (hrooms w).symm
  alone := hh.alone
  listed := by
    intro w cls o ho
    obtain ⟨d, hd, hrest⟩ := hh.listed w cls o ho
    have hne : o ≠ off := by
      intro heq
      rw [heq, hclear.empty hh hfit.extent_pos] at hd
      cases hd
    exact ⟨d, by rw [setCell_of_ne hne]; exact hd, hrest⟩
  nodup := hh.nodup
  free := fun r hr => ⟨(hh.free r hr).1, (hh.free r hr).2.setCell (hfree r hr)⟩

/-- **A worker moves in its own region, or its free lists change.** -/
theorem Heap.Ordered.setWorker (hh : h.Ordered) {wh : Worker} (hfit : wh.Fits h.hwm)
    (hlim : wh.limit = (h.workers w).limit) (hbump : (h.workers w).bump ≤ wh.bump)
    (hlists : ∀ cls, (wh.freelist cls).Nodup ∧ ∀ off ∈ wh.freelist cls, h.Listed w cls off) :
    (h.setWorker w wh).Ordered := by
  have hlimit : ∀ x, ((h.setWorker w wh).workers x).limit = (h.workers x).limit := by
    intro x
    by_cases hx : x = w
    · rw [hx, setWorker_self]
      exact hlim
    · rw [setWorker_of_ne hx]
  exact
    { cursor := hh.cursor
      bounded := hh.bounded
      cells := hh.cells
      apart := hh.apart
      workers := by
        intro x
        by_cases hx : x = w
        · rw [hx, setWorker_self]
          exact hfit
        · rw [setWorker_of_ne hx]
          exact hh.workers x
      room := by
        intro x o d hd
        have hroom := hh.room x o d hd
        rw [hlimit]
        by_cases hx : x = w
        · subst hx
          rw [setWorker_self]
          exact hroom.imp_left fun h1 => Nat.le_trans h1 hbump
        · rw [setWorker_of_ne hx]
          exact hroom
      alone := by
        intro x y hne heq
        rw [hlimit] at heq ⊢
        exact hh.alone x y hne (heq.trans (hlimit y))
      listed := by
        intro x cls o ho
        by_cases hx : x = w
        · subst hx
          rw [setWorker_self] at ho
          exact (hlists cls).2 o ho
        · rw [setWorker_of_ne hx] at ho
          exact hh.listed x cls o ho
      nodup := by
        intro x cls
        by_cases hx : x = w
        · subst hx
          rw [setWorker_self]
          exact (hlists cls).1
        · rw [setWorker_of_ne hx]
          exact hh.nodup x cls
      free := fun r hr => ⟨(hh.free r hr).1, (hh.free r hr).2.congr rfl (Nat.le_refl _) hlimit⟩ }

/-- Two workers' regions, in order. -/
theorem Heap.Ordered.regions (hh : h.Ordered) {x : Nat} (hne : x ≠ w)
    (hpos : 0 < (h.workers w).limit) :
    (h.workers x).limit + 65536 ≤ (h.workers w).limit ∨
      (h.workers w).limit + 65536 ≤ (h.workers x).limit ∨ (h.workers x).limit = 0 := by
  have h1 := (hh.workers w).limit
  have h2 := (hh.workers x).limit
  have h3 : (h.workers x).limit = (h.workers w).limit → (h.workers x).limit = 0 := hh.alone x w hne
  omega

/-- **A cell at the bump pointer.** -/
theorem Heap.Ordered.bump (hh : h.Ordered) {size asked : Nat} (hsize : size % 16 = 0)
    (hasked : 8 + asked ≤ size) (hfits : (h.workers w).bump + size ≤ (h.workers w).limit) :
    ((h.setWorker w ((h.workers w).setBump ((h.workers w).bump + size))).setCell
      (h.workers w).bump ⟨size, false, asked⟩).Ordered := by
  have hw := hh.workers w
  have hpos := hw.pos (by omega)
  have h1 := hw.limit
  have h2 := hw.below
  have h3 := hw.le_bump
  have h4 := hw.aligned
  have hext : Cell.extent ⟨size, false, asked⟩ = size :=
    if_neg (Nat.not_lt.mpr (show size ≤ 65536 by omega))
  have hmoved : (h.setWorker w ((h.workers w).setBump ((h.workers w).bump + size))).Ordered := by
    refine hh.setWorker ⟨h1, h2, hfits, ?_, ?_, ?_⟩ rfl (Nat.le_add_right _ _)
      fun cls => ⟨hh.nodup w cls, hh.listed w cls⟩
    · exact Nat.le_trans h3 (Nat.add_le_add_right (Nat.le_add_right _ _) _)
    · show ((h.workers w).bump + size) % 16 = 0
      omega
    · intro _
      exact Nat.add_pos_left hpos _
  refine hmoved.place ⟨hpos, h4, hsize, hasked, ?_, fun hlt => ?_, fun _ => ?_⟩ ?_ ?_ ?_
  · rw [hext]
    exact Nat.le_trans hfits h2
  · have : 65536 < size := hlt
    omega
  · dsimp only
    omega
  · rw [hext]
    exact fun o d hd => (hh.room w o d hd).imp_right fun hr => Nat.le_trans hfits hr
  · intro x
    rw [hext]
    by_cases hx : x = w
    · rw [hx, setWorker_self]
      exact .inr (Nat.le_refl _)
    · rw [setWorker_of_ne hx]
      have := hh.regions hx (by omega)
      have := (hh.workers x).le_bump
      omega
  · intro r hr
    rw [hext]
    have hv := (hh.free r hr).2.unused w
    omega

/-- A cell, on no free list, gets another header of its size. -/
theorem Heap.Ordered.rehead (hh : h.Ordered) {d : Cell} (hc : h.cells off = some c)
    (hsize : d.size = c.size) (hasked : 8 + d.asked ≤ d.size)
    (hoff : ∀ w cls, off ∉ (h.workers w).freelist cls) : (h.setCell off d).Ordered := by
  have hext : d.extent = c.extent := by rw [Cell.extent, Cell.extent, hsize]
  have hfit := hh.cells off c hc
  have hclears : ∀ a b, h.Clear a b → (h.setCell off d).Clear a b := by
    intro a b hcl
    refine hcl.setCell ?_
    rw [hext]
    exact hcl off c hc
  exact
    { cursor := hh.cursor
      bounded := hh.bounded
      cells := by
        intro o e he
        rcases setCell_cases he with ⟨rfl, rfl⟩ | ⟨-, he⟩
        · exact ⟨hfit.pos, hfit.aligned, hsize ▸ hfit.sized, hasked, hext ▸ hfit.below,
            hsize ▸ hfit.large, hsize ▸ hfit.small⟩
        · exact hh.cells o e he
      apart := by
        intro o o' e e' he he' hlt
        rcases setCell_cases he with ⟨rfl, rfl⟩ | ⟨-, hold⟩ <;>
          rcases setCell_cases he' with ⟨rfl, rfl⟩ | ⟨-, hold'⟩
        · exact absurd hlt (Nat.lt_irrefl _)
        · rw [hext]
          exact hh.apart o o' c e' hc hold' hlt
        · exact hh.apart o o' e c hold hc hlt
        · exact hh.apart o o' e e' hold hold' hlt
      workers := hh.workers
      room := fun w => hclears _ _ (hh.room w)
      alone := hh.alone
      listed := by
        intro w cls o ho
        obtain ⟨e, he, hrest⟩ := hh.listed w cls o ho
        have hne : o ≠ off := fun heq => hoff w cls (heq ▸ ho)
        exact ⟨e, by rw [setCell_of_ne hne]; exact he, hrest⟩
      nodup := hh.nodup
      free := fun r hr => ⟨(hh.free r hr).1, (hh.free r hr).2.below,
        hclears _ _ (hh.free r hr).2.clear, (hh.free r hr).2.unused⟩ }

/-- **A cell from a free list.** -/
theorem Heap.Ordered.reuse (hh : h.Ordered) {cls asked : Nat} {rest : List Nat}
    (hlist : (h.workers w).freelist cls = off :: rest) (hasked : 8 + asked ≤ 16 * cls) :
    ((h.setWorker w ((h.workers w).setList cls rest)).setCell
      off ⟨16 * cls, false, asked⟩).Ordered := by
  obtain ⟨c, hc, -, hsize, howner⟩ := hh.listed w cls off (hlist ▸ List.mem_cons_self)
  have hnodup : (off :: rest).Nodup := hlist ▸ hh.nodup w cls
  have hw := hh.workers w
  have hpop : (h.setWorker w
      ((h.workers w).setList cls rest)).Ordered := by
    refine hh.setWorker ⟨hw.limit, hw.below, hw.bump_le, hw.le_bump, hw.aligned, hw.pos⟩
      rfl (Nat.le_refl _) fun k => ?_
    by_cases hk : k = cls
    · subst hk
      rw [Worker.setList_self]
      refine ⟨(List.nodup_cons.mp hnodup).2, fun o ho => hh.listed w k o ?_⟩
      rw [hlist]
      exact List.mem_cons_of_mem _ ho
    · rw [Worker.setList_of_ne hk]
      exact ⟨hh.nodup w k, hh.listed w k⟩
  refine hpop.rehead (c := c) hc hsize.symm hasked fun x k hin => ?_
  -- It was on one list only: its size says which, and its region's owner whose.
  obtain ⟨d, hd, -, hsized, hownerx⟩ := hpop.listed x k off hin
  obtain rfl : c = d := Option.some.inj (hc.symm.trans hd)
  obtain rfl : x = w := hownerx.symm.trans howner
  obtain rfl : k = cls := by omega
  rw [setWorker_self, Worker.setList_self] at hin
  exact (List.nodup_cons.mp hnodup).1 hin

/-- **A vacant region becomes a worker's.** -/
theorem Heap.Ordered.adopt (hh : h.Ordered) (hv : h.Vacant r) (hr : h.regionFree r = false) :
    (h.adopt w (65536 * r)).Ordered := by
  have hbelow := hv.below
  have htop := hh.hwm_le
  have hlimit : ((h.adopt w (65536 * r)).workers w).limit = 65536 * (r + 1) := by
    rw [Heap.adopt, setWorker_self, Worker.setRegion_limit, regionBytes_eq, u32]
    omega
  have hbump : ((h.adopt w (65536 * r)).workers w).bump = if 65536 * r = 0 then 16 else 65536 * r := by
    rw [Heap.adopt, setWorker_self, Worker.setRegion_bump, granule_eq]
  have hlists : ∀ x, ((h.adopt w (65536 * r)).workers x).freelist = (h.workers x).freelist := by
    intro x
    by_cases hx : x = w
    · rw [hx, Heap.adopt, setWorker_self, Worker.setRegion_freelist]
    · rw [Heap.adopt, setWorker_of_ne hx]
  have hother : ∀ x, x ≠ w → (h.adopt w (65536 * r)).workers x = h.workers x :=
    fun x hx => setWorker_of_ne hx
  exact
    { cursor := hh.cursor
      bounded := hh.bounded
      cells := hh.cells
      apart := hh.apart
      workers := by
        intro x
        by_cases hx : x = w
        · subst hx
          have htop' : (h.adopt x (65536 * r)).hwm = h.hwm := rfl
          split at hbump <;> constructor <;> omega
        · rw [hother x hx]
          exact hh.workers x
      room := by
        intro x
        by_cases hx : x = w
        · subst hx
          rw [hbump, hlimit]
          intro o d hd
          have := hv.clear o d hd
          split <;> omega
        · rw [hother x hx]
          exact hh.room x
      alone := by
        intro x y hne heq
        by_cases hx : x = w
        · rw [hx, hlimit, hother y fun hy => hne (hx.trans hy.symm)] at heq
          exact absurd heq.symm (hv.unused y)
        · rw [hother x hx] at heq ⊢
          by_cases hy : y = w
          · rw [hy, hlimit] at heq
            exact absurd heq (hv.unused x)
          · rw [hother y hy] at heq
            exact hh.alone x y hne heq
      listed := by
        intro x cls o ho
        rw [hlists] at ho
        exact hh.listed x cls o ho
      nodup := by
        intro x cls
        rw [hlists]
        exact hh.nodup x cls
      free := by
        intro q hq
        refine ⟨(hh.free q hq).1, (hh.free q hq).2.below, (hh.free q hq).2.clear, fun x => ?_⟩
        by_cases hx : x = w
        · rw [hx, hlimit]
          intro heq
          obtain rfl : r = q := by omega
          exact Bool.false_ne_true (hr.symm.trans hq)
        · rw [hother x hx]
          exact (hh.free q hq).2.unused x }

/-- **Vacant regions get an owner.** -/
theorem Heap.Ordered.own {k : Nat} (hh : h.Ordered) (hv : ∀ x, r ≤ x → x < r + k → h.Vacant x) :
    (h.own w r k).Ordered :=
  { cursor := hh.cursor
    bounded := hh.bounded
    cells := hh.cells
    apart := hh.apart
    workers := hh.workers
    room := hh.room
    alone := hh.alone
    listed := by
      intro x cls o ho
      obtain ⟨c, hc, hfree, hsize, howner⟩ := hh.listed x cls o ho
      refine ⟨c, hc, hfree, hsize, ?_⟩
      rw [← howner]
      refine if_neg fun hin => ?_
      rw [(hv _ hin.1 hin.2).empty hh rfl] at hc
      cases hc
    nodup := hh.nodup
    free := fun q hq => ⟨(hh.free q hq).1, (hh.free q hq).2.congr rfl (Nat.le_refl _) fun _ => rfl⟩ }

/-- **A region is taken, or given back.** -/
theorem Heap.Ordered.setFree (hh : h.Ordered) {b : Bool} (hv : b = true → 0 < r ∧ h.Vacant r) :
    (h.setFree r b).Ordered :=
  { cursor := hh.cursor
    bounded := hh.bounded
    cells := hh.cells
    apart := hh.apart
    workers := hh.workers
    room := hh.room
    alone := hh.alone
    listed := hh.listed
    nodup := hh.nodup
    free := by
      intro q hq
      by_cases hqr : q = r
      · subst hqr
        rw [setFree_self] at hq
        exact (hv hq).imp_right fun hv => hv.congr rfl (Nat.le_refl _) fun _ => rfl
      · rw [setFree_of_ne hqr] at hq
        exact (hh.free q hq).imp_right fun hv => hv.congr rfl (Nat.le_refl _) fun _ => rfl }

end Jacl.HeapAlloc
