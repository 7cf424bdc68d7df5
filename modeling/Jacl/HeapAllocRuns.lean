import Jacl.HeapAllocSweep

/-!
# Runs of the allocator

A call is safe while the sums that it makes stay below `2 ^ 32` and it is not given region 0 for a
cell of a whole region: what the heap is then is in order in every state of a run, and a call that
ends has either trapped or left its worker a new cell.
-/

namespace Jacl.HeapAlloc
open Function

/-! ### What a call has claimed -/

/-- The regions that a claim has taken. -/
def Phase.Holds : Phase → Nat → Prop
  | .take _ _ _ r got, x => r ≤ x ∧ x < r + got
  | .giveBack _ _ _ r got i, x => r + i ≤ x ∧ x < r + got
  | _, _ => False

/-- The regions that a call claims. -/
def Call.regions (c : Call) : Nat := if 65536 < c.cell then (c.cell + 65535) / 65536 else 1

/-- No sum that the call makes wraps. -/
structure Call.Fits (c : Call) (bump : Nat) : Prop where
  sized : c.cell % 16 = 0
  asked : 8 + c.payload ≤ c.cell
  rounds : c.cell + 65536 ≤ 2 ^ 32
  bumps : bump + c.cell < 2 ^ 32

/-- Where a call can be, below the top of the claimed regions. -/
def Phase.Ready (top bump : Nat) : Phase → Prop
  | .idle => True
  | .trapped => True
  | .entry c => c.Fits bump
  | .starved c => c.Fits bump ∧ 0 < c.left
  | .scan c k t r => c.Fits bump ∧ k = c.regions ∧ 65536 * t ≤ top ∧ 0 < r ∧ r ≤ t + 1
  | .take c k t r got => c.Fits bump ∧ k = c.regions ∧ 65536 * t ≤ top ∧ 0 < r ∧ r + k ≤ t ∧ got ≤ k
  | .giveBack c k t r got i =>
      c.Fits bump ∧ k = c.regions ∧ 65536 * t ≤ top ∧ 0 < r ∧ r + k ≤ t ∧ got ≤ k ∧ i ≤ got
  | .fresh c need => c.Fits bump ∧ need = c.regions * 65536

/-- **The invariant.** -/
structure State.Inv (s : State) : Prop where
  heap : s.heap.Ordered
  held : ∀ w r, (s.phase w).Holds r → s.heap.regionFree r = false ∧ s.heap.Vacant r
  sole : ∀ w w' r, w ≠ w' → (s.phase w).Holds r → ¬(s.phase w').Holds r
  ready : ∀ w, (s.phase w).Ready s.heap.hwm (s.heap.workers w).bump

variable {h : Heap} {w r k off bump bump' top top' : Nat} {c : Call} {p : Phase}

theorem Call.Fits.mono (hc : c.Fits bump) (hle : bump' ≤ bump) : c.Fits bump' :=
  { hc with bumps := Nat.lt_of_le_of_lt (Nat.add_le_add_right hle _) hc.bumps }

theorem Phase.Ready.mono (hp : p.Ready top bump) (htop : top ≤ top') (hbump : bump' ≤ bump) :
    p.Ready top' bump' := by
  cases p with
  | idle => trivial
  | trapped => trivial
  | entry c => exact Call.Fits.mono hp hbump
  | starved c => exact ⟨hp.1.mono hbump, hp.2⟩
  | scan c k t r => exact ⟨hp.1.mono hbump, hp.2.1, hp.2.2.1.trans htop, hp.2.2.2⟩
  | take c k t r got => exact ⟨hp.1.mono hbump, hp.2.1, hp.2.2.1.trans htop, hp.2.2.2⟩
  | giveBack c k t r got i => exact ⟨hp.1.mono hbump, hp.2.1, hp.2.2.1.trans htop, hp.2.2.2⟩
  | fresh c need => exact ⟨hp.1.mono hbump, hp.2⟩

/-- What a step of one worker must leave for the invariant to hold. -/
theorem State.Inv.put {s : State} (hi : s.Inv) {hp : Heap × Phase} (hord : hp.1.Ordered)
    (htop : s.heap.hwm ≤ hp.1.hwm)
    (hothers : ∀ x, x ≠ w → (hp.1.workers x).bump = (s.heap.workers x).bump)
    (hheld : ∀ x r, x ≠ w → (s.phase x).Holds r → hp.1.regionFree r = false ∧ hp.1.Vacant r)
    (hmine : ∀ r, hp.2.Holds r → hp.1.regionFree r = false ∧ hp.1.Vacant r)
    (hsole : ∀ x r, x ≠ w → hp.2.Holds r → ¬(s.phase x).Holds r)
    (hready : hp.2.Ready hp.1.hwm (hp.1.workers w).bump) : (s.put w hp).Inv where
  heap := hord
  held := by
    intro x r hr
    by_cases hx : x = w
    · rw [hx, State.put_self] at hr
      exact hmine r hr
    · rw [State.put_of_ne s hx] at hr
      exact hheld x r hx hr
  sole := by
    intro x y r hne hr hr'
    by_cases hx : x = w
    · subst hx
      rw [State.put_self] at hr
      rw [State.put_of_ne s hne.symm] at hr'
      exact hsole y r hne.symm hr hr'
    · rw [State.put_of_ne s hx] at hr
      by_cases hy : y = w
      · rw [hy, State.put_self] at hr'
        exact hsole x r hx hr' hr
      · rw [State.put_of_ne s hy] at hr'
        exact hi.sole x y r hne hr hr'
  ready := by
    intro x
    by_cases hx : x = w
    · rw [hx, State.put_self]
      exact hready
    · rw [State.put_of_ne s hx]
      exact (hi.ready x).mono htop (Nat.le_of_eq (hothers x hx))

/-! ### How far a call has come -/

/-- What the call on a worker asks for. -/
def Phase.asks : Phase → Option Nat
  | .entry c => some c.payload
  | .scan c .. => some c.payload
  | .take c .. => some c.payload
  | .giveBack c .. => some c.payload
  | .fresh c _ => some c.payload
  | .starved c => some c.payload
  | .idle => none
  | .trapped => none

/-- A bound on the steps that a call has left.  There are 256 regions. -/
def Phase.rank : Phase → Nat
  | .entry c => c.left * 2 ^ 20 + 1000000
  | .scan c _ _ r => c.left * 2 ^ 20 + ((257 - r) * 1000 + 1001)
  | .take c _ _ r got => c.left * 2 ^ 20 + ((257 - r) * 1000 + (1000 - got))
  | .giveBack c _ _ r _ i => c.left * 2 ^ 20 + ((257 - r) * 1000 + (600 - i))
  | .fresh c _ => c.left * 2 ^ 20 + 1
  | .starved c => c.left * 2 ^ 20
  | .idle => 0
  | .trapped => 0

/-- **A call goes on, or it traps, or it returns a new cell.** -/
structure Heap.Goes (h : Heap) (p : Phase) (hp : Heap × Phase) : Prop where
  rank : hp.2.rank < p.rank
  served : hp.2.asks = p.asks ∨ hp.2 = .trapped ∨
    hp.2 = .idle ∧ ∃ off c, h.isLive off = false ∧ hp.1.cells off = some c ∧ c.free = false ∧
      p.asks = some c.asked

/-! ### The end of `jacl_alloc_off` -/

/-- What a worker has when `jacl_alloc_off` returns: a new cell, or none and the heap as it was but for
the owners of the regions in `used`. -/
structure Heap.Lands (h : Heap) (w : Nat) (c : Call) (used : Nat → Prop) (hp : Heap × Phase) :
    Prop where
  ordered : hp.1.Ordered
  cursor : hp.1.regionBump = h.regionBump
  others : ∀ x, x ≠ w → hp.1.workers x = h.workers x
  flags : hp.1.regionFree = h.regionFree
  vacant : ∀ r, ¬used r → h.Vacant r → hp.1.Vacant r
  ends : hp.2 = .idle ∧ (∃ off, h.isLive off = false ∧
      hp.1.cells off = some ⟨c.cell, false, c.payload⟩) ∨
    hp.2 = c.failed ∧ hp.1.workers = h.workers

theorem Heap.Lands.goes {used : Nat → Prop} {hp : Heap × Phase} (hl : h.Lands w c used hp)
    (hasks : p.asks = some c.payload) (hrank : c.left * 2 ^ 20 < p.rank) : h.Goes p hp := by
  rcases hl.ends with ⟨hidle, off, hold, hnew⟩ | ⟨hfail, -⟩
  · refine ⟨?_, .inr (.inr ⟨hidle, off, _, hold, hnew, rfl, hasks⟩)⟩
    rw [hidle]
    exact Nat.zero_lt_of_lt hrank
  · rw [Call.failed] at hfail
    split at hfail
    · refine ⟨?_, .inr (.inl hfail)⟩
      rw [hfail]
      exact Nat.zero_lt_of_lt hrank
    · refine ⟨?_, .inl ?_⟩
      · rw [hfail]
        exact hrank
      · rw [hfail, hasks]
        rfl

theorem Heap.finish_of_pos (hoff : 0 < off) :
    h.finish c off = (h.setCell off ⟨c.cell, false, c.payload⟩, .idle) :=
  if_neg (Nat.ne_of_gt hoff)

theorem Heap.isLive_of_none (hc : h.cells off = none) : h.isLive off = false := by
  rw [Heap.isLive, hc]
  rfl

theorem Call.failed_ne_idle (c : Call) : c.failed ≠ .idle := by
  rw [Call.failed]
  split <;> rintro ⟨⟩

theorem Heap.bumpCell_idle (hpos : 0 < (h.workers w).bump) : (h.bumpCell w c).2 = .idle := by
  rw [Heap.bumpCell, finish_of_pos hpos]

theorem Heap.lands_bumpCell (hh : h.Ordered) (hc : c.Fits bump)
    (hfits : (h.workers w).bump + c.cell ≤ (h.workers w).limit) :
    h.Lands w c (fun _ => False) (h.bumpCell w c) := by
  have hw := hh.workers w
  have hpos : 0 < (h.workers w).bump := hw.pos (by have := hc.asked; omega)
  have hbelow := hw.below
  have htop := hh.hwm_le
  have hnowrap : u32 ((h.workers w).bump + c.cell) = (h.workers w).bump + c.cell :=
    Nat.mod_eq_of_lt (by omega)
  have hclear : h.cells (h.workers w).bump = none := by
    refine Heap.Clear.empty (n := c.cell) (fun o d hd => ?_) hh (by have := hc.asked; omega)
    have := hh.room w o d hd
    omega
  rw [Heap.bumpCell, hnowrap, finish_of_pos hpos]
  exact
    { ordered := hh.bump hc.sized hc.asked hfits
      cursor := rfl
      others := fun x hx => setWorker_of_ne hx
      flags := rfl
      vacant := by
        intro r _ hv
        have hmoved : (h.setWorker w ((h.workers w).setBump ((h.workers w).bump + c.cell))).Vacant r := by
          refine hv.congr rfl (Nat.le_refl _) fun x => ?_
          by_cases hx : x = w
          · rw [hx, setWorker_self, Worker.setBump_limit]
          · rw [setWorker_of_ne hx]
        refine hmoved.setCell ?_
        have := hv.unused w
        have := hw.le_bump
        have := hw.limit
        have hext : Cell.extent ⟨c.cell, false, c.payload⟩ = c.cell :=
          if_neg (Nat.not_lt.mpr (show c.cell ≤ 65536 by omega))
        rw [hext]
        omega
      ends := .inl ⟨rfl, _, isLive_of_none hclear, setCell_self⟩ }

theorem Heap.lands_reuse (hh : h.Ordered) (hc : c.Fits bump) {rest : List Nat}
    (hlist : (h.workers w).freelist (c.cell / granule) = off :: rest) :
    h.Lands w c (fun _ => False)
      ((h.setWorker w ((h.workers w).setList (c.cell / granule) rest)).finish c off) := by
  obtain ⟨d, hd, hfree, hsize, -⟩ := hh.listed w _ off (hlist ▸ List.mem_cons_self)
  have hsized := hc.sized
  have hcell : 16 * (c.cell / granule) = c.cell := by
    rw [granule_eq]
    omega
  have hasked := hc.asked
  have hord := hh.reuse hlist (by rw [hcell]; exact hasked)
  rw [hcell] at hord
  rw [finish_of_pos (hh.cells off d hd).pos]
  exact
    { ordered := hord
      cursor := rfl
      others := fun x hx => setWorker_of_ne hx
      flags := rfl
      vacant := by
        intro r _ hv
        have hmoved : (h.setWorker w ((h.workers w).setList (c.cell / granule) rest)).Vacant r := by
          refine hv.congr rfl (Nat.le_refl _) fun x => ?_
          by_cases hx : x = w
          · rw [hx, setWorker_self, Worker.setList_limit]
          · rw [setWorker_of_ne hx]
        refine hmoved.setCell ?_
        have hext : Cell.extent ⟨c.cell, false, c.payload⟩ = d.extent :=
          Cell.extent_congr (hcell.symm.trans hsize.symm)
        rw [hext]
        exact hv.clear off d hd
      ends := .inl ⟨rfl, off, by rw [Heap.isLive, hd, Option.any_some, hfree]; rfl, setCell_self⟩ }

/-- A run of vacant regions is in the clear. -/
theorem Heap.Ordered.clear_run (hh : h.Ordered) (hk : 0 < k) (hv : ∀ x, r ≤ x → x < r + k → h.Vacant x) :
    h.Clear (65536 * r) (65536 * (r + k)) := by
  intro o d hd
  have hpos := (hh.cells o d hd).extent_pos
  by_contra hmeets
  -- The first of the regions that it meets is its own, or `r`.
  rcases Nat.lt_or_ge (o / 65536) r with hlt | hge
  · have := (hv r (Nat.le_refl r) (by omega)).clear o d hd
    omega
  · have := (hv (o / 65536) hge (by omega)).clear o d hd
    omega

/-- **The regions at `r` have been claimed.** -/
theorem Heap.lands_grabbed (hh : h.Ordered) (hc : c.Fits bump)
    (hv : ∀ x, r ≤ x → x < r + c.regions → h.regionFree x = false ∧ h.Vacant x)
    (hzero : r = 0 → c.cell ≠ 65536) :
    h.Lands w c (fun x => r ≤ x ∧ x < r + c.regions)
      ((h.own w r c.regions).grabbed w c (r * 65536)) := by
  have hown : (h.own w r c.regions).Ordered := hh.own fun x h1 h2 => (hv x h1 h2).2
  have hvacant : ∀ x, h.Vacant x → (h.own w r c.regions).Vacant x :=
    fun x hx => hx.congr rfl (Nat.le_refl _) fun _ => rfl
  have hk : 0 < c.regions := by
    rw [Call.regions]
    split <;> omega
  have hclear := hown.clear_run hk fun x h1 h2 => hvacant x (hv x h1 h2).2
  have hsized := hc.sized
  have hasked := hc.asked
  rw [Heap.grabbed, regionBytes_eq]
  split
  · rename_i hlarge
    have hregions : c.regions = (c.cell + 65535) / 65536 := if_pos hlarge
    have hext : Cell.extent ⟨c.cell, false, c.payload⟩ = 65536 * c.regions := by
      rw [hregions, Nat.mul_comm]
      exact if_pos hlarge
    rcases Nat.eq_zero_or_pos r with rfl | hpos
    · -- Offset 0 is taken for a failure.
      rw [Nat.zero_mul, Heap.finish, if_pos rfl]
      exact ⟨hown, rfl, fun _ _ => rfl, rfl, fun x _ hx => hvacant x hx, .inr ⟨rfl, rfl⟩⟩
    · have hbase : 0 < r * 65536 := Nat.mul_pos hpos (by decide)
      have hspan : r * 65536 + 65536 * c.regions = 65536 * (r + c.regions) := by omega
      have hclear' : (h.own w r c.regions).Clear (r * 65536) (r * 65536 + 65536 * c.regions) := by
        rw [hspan, Nat.mul_comm r]
        exact hclear
      have hlast := hv (r + c.regions - 1) (by omega) (by omega)
      have hbelow := hlast.2.below
      have hout : ∀ x, ¬(r ≤ x ∧ x < r + c.regions) →
          r * 65536 + 65536 * c.regions ≤ 65536 * x ∨ 65536 * (x + 1) ≤ r * 65536 := by
        intro x hx
        omega
      rw [finish_of_pos hbase]
      refine ⟨hown.place ⟨hbase, by omega, hsized, hasked, ?_, fun _ => by omega, ?_⟩ ?_ ?_ ?_,
        rfl, fun _ _ => rfl, rfl, fun x hx hvx => (hvacant x hvx).setCell ?_,
        .inl ⟨rfl, _, isLive_of_none (hclear'.empty hown (by omega)), setCell_self⟩⟩
      · rw [hext]
        show r * 65536 + 65536 * c.regions ≤ h.hwm
        omega
      · intro hsmall
        exact absurd hlarge (Nat.not_lt.mpr hsmall)
      · rw [hext]
        exact hclear'
      · intro x
        rw [hext]
        have hx := hh.workers x
        have hlim := hx.limit
        have hnear := hx.le_bump
        have hunused : ∀ y, r ≤ y → y < r + c.regions → (h.workers x).limit ≠ 65536 * (y + 1) :=
          fun y h1 h2 => (hv y h1 h2).2.unused x
        have := hunused ((h.workers x).limit / 65536 - 1)
        show (h.workers x).limit ≤ r * 65536 ∨ r * 65536 + 65536 * c.regions ≤ (h.workers x).bump
        omega
      · intro x hx
        rw [hext]
        refine hout x fun hin => ?_
        rw [own_regionFree, (hv x hin.1 hin.2).1] at hx
        cases hx
      · rw [hext]
        exact hout x hx
  · rename_i hsmall
    have hregions : c.regions = 1 := if_neg hsmall
    have hr := hv r (Nat.le_refl r) (by omega)
    have hr' : (h.own w r c.regions).Vacant r := hvacant r hr.2
    have hadopt := hown.adopt (w := w) hr' hr.1
    have hbelow := hr.2.below
    have htop := hh.hwm_le
    have hlimit : (((h.own w r c.regions).adopt w (65536 * r)).workers w).limit = 65536 * (r + 1) := by
      rw [Heap.adopt, setWorker_self, Worker.setRegion_limit, regionBytes_eq, u32]
      omega
    have hbump : (((h.own w r c.regions).adopt w (65536 * r)).workers w).bump =
        if 65536 * r = 0 then 16 else 65536 * r := by
      rw [Heap.adopt, setWorker_self, Worker.setRegion_bump, granule_eq]
    rw [Nat.mul_comm r]
    have hland := lands_bumpCell (w := w) hadopt hc (by
      rw [hlimit, hbump]
      split
      · have := hzero (by omega)
        omega
      · omega)
    refine ⟨hland.ordered, hland.cursor, fun x hx => (hland.others x hx).trans (setWorker_of_ne hx),
      hland.flags, fun x hx hvx => hland.vacant x id ?_, ?_⟩
    · refine ⟨hvx.below, hvx.clear, fun y => ?_⟩
      by_cases hy : y = w
      · rw [hy, hlimit]
        omega
      · rw [Heap.adopt, setWorker_of_ne hy]
        exact hvx.unused y
    · rcases hland.ends with hidle | ⟨hfail, -⟩
      · exact .inl hidle
      · rw [bumpCell_idle (by rw [hbump]; split <;> omega)] at hfail
        exact absurd hfail.symm c.failed_ne_idle

/-! ### Steps -/

/-- The step's call is one that the allocator can serve. -/
def State.Fits (s : State) : Action → Prop
  | .call w payload =>
      sizeofObj + payload + regionBytes ≤ 2 ^ 32 ∧
        (s.heap.workers w).bump + cellFor payload < 2 ^ 32
  | .own w =>
      match s.phase w with
      | .fresh c need =>
          (c.cell = regionBytes → s.heap.regionBump ≠ 0) ∧ s.heap.regionBump + need < 2 ^ 63
      | _ => True
  | _ => True

theorem cellFor_eq {payload : Nat} (hp : sizeofObj + payload + regionBytes ≤ 2 ^ 32) :
    cellFor payload = (8 + payload + 15) / 16 * 16 := by
  rw [sizeofObj_eq, regionBytes_eq] at hp
  have h1 : u32 (sizeofObj + payload) = 8 + payload := by
    rw [sizeofObj_eq]
    exact Nat.mod_eq_of_lt (by omega)
  have h2 : u32 (8 + payload + (granule - 1)) = 8 + payload + 15 := by
    rw [granule_eq]
    exact Nat.mod_eq_of_lt (by omega)
  rw [cellFor, h1, roundGranule, h2, granule_eq]

/-- **A call begins.** -/
theorem State.Inv.call {s : State} (hi : s.Inv) {payload left : Nat} {barren : Bool}
    (hp : sizeofObj + payload + regionBytes ≤ 2 ^ 32)
    (hb : (s.heap.workers w).bump + cellFor payload < 2 ^ 32) :
    (s.put w (s.heap, .entry ⟨payload, cellFor payload, left, barren⟩)).Inv := by
  have hcell := cellFor_eq hp
  rw [sizeofObj_eq, regionBytes_eq] at hp
  refine hi.put hi.heap (Nat.le_refl _) (fun _ _ => rfl) (fun x r _ hr => hi.held x r hr)
    (fun r hr => hr.elim) (fun x r _ hr => hr.elim) ⟨?_, ?_, ?_, hb⟩ <;> dsimp only <;> omega

/-- A worker's call comes to where `jacl_alloc_off` returns. -/
theorem State.Inv.lands {s : State} (hi : s.Inv) {used : Nat → Prop} {hp : Heap × Phase}
    (hc : c.Fits (s.heap.workers w).bump) (hland : s.heap.Lands w c used hp)
    (hused : ∀ x r, x ≠ w → (s.phase x).Holds r → ¬used r) : (s.put w hp).Inv := by
  have hnone : ∀ r, ¬hp.2.Holds r := by
    intro r
    rcases hland.ends with ⟨hidle, -⟩ | ⟨hfail, -⟩
    · rw [hidle]
      exact id
    · rw [hfail, Call.failed]
      split <;> exact id
  have htop : hp.1.hwm = s.heap.hwm := by rw [Heap.hwm, Heap.hwm, hland.cursor]
  refine hi.put hland.ordered (Nat.le_of_eq htop.symm) (fun x hx => by rw [hland.others x hx])
    (fun x r hx hr => ?_) (fun r hr => absurd hr (hnone r)) (fun x r _ hr => absurd hr (hnone r)) ?_
  · obtain ⟨hfree, hv⟩ := hi.held x r hr
    exact ⟨by rw [hland.flags]; exact hfree, hland.vacant r (hused x r hx hr) hv⟩
  · rcases hland.ends with ⟨hidle, -⟩ | ⟨hfail, hworkers⟩
    · rw [hidle]
      trivial
    · rw [hfail, hworkers, Call.failed]
      split
      · trivial
      · rename_i hleft
        rw [Bool.or_eq_true, beq_iff_eq] at hleft
        exact ⟨hc, Nat.pos_of_ne_zero fun h0 => hleft (.inr h0)⟩

theorem Call.regions_pos (c : Call) : 0 < c.regions := by
  rw [Call.regions]
  split <;> omega

theorem Call.Fits.regions_le (hc : c.Fits bump) : c.regions ≤ 65535 := by
  have := hc.rounds
  rw [Call.regions]
  split <;> omega

/-- What `jacl_grab_regions` rounds its argument to. -/
theorem Call.Fits.need (hc : c.Fits bump) :
    roundRegion (roundGranule (if regionBytes < c.cell then c.cell else regionBytes)) / regionBytes =
      c.regions := by
  have hsized := hc.sized
  have hrounds := hc.rounds
  obtain ⟨n, hn⟩ : ∃ n, (if regionBytes < c.cell then c.cell else regionBytes) = n := ⟨_, rfl⟩
  have hsmall : n % 16 = 0 ∧ n + 65536 ≤ 2 ^ 32 ∧ (n + 65535) / 65536 = c.regions := by
    rw [← hn, Call.regions, regionBytes_eq]
    split
    · exact ⟨hsized, hrounds, rfl⟩
    · decide
  have hgranule : roundGranule n = n := by
    have : u32 (n + (granule - 1)) = n + 15 := Nat.mod_eq_of_lt (by rw [granule_eq]; omega)
    rw [roundGranule, this, granule_eq]
    omega
  have hregion : u32 (n + (regionBytes - 1)) = n + 65535 :=
    Nat.mod_eq_of_lt (by rw [regionBytes_eq]; omega)
  rw [hn, hgranule, roundRegion, hregion, regionBytes_eq, hsmall.2.2, Nat.mul_div_cancel _ (by decide)]

/-- **`jacl_alloc_off`, up to the shared pool.** -/
theorem State.Inv.allocOff {s : State} (hi : s.Inv) (hphase : s.phase w = .entry c) :
    (s.put w (s.heap.allocOff w c)).Inv ∧ s.heap.Goes (.entry c) (s.heap.allocOff w c) := by
  have hc : c.Fits (s.heap.workers w).bump := by
    have := hi.ready w
    rw [hphase] at this
    exact this
  have hrank : c.left * 2 ^ 20 < (Phase.entry c).rank := Nat.lt_add_of_pos_right (by decide)
  rw [Heap.allocOff]
  split
  · rename_i off rest hlist
    have hin : (s.heap.workers w).freelist (c.cell / granule) = off :: rest := by
      split at hlist
      · exact hlist
      · cases hlist
    have hland := Heap.lands_reuse hi.heap hc hin
    exact ⟨hi.lands hc hland fun _ _ _ _ => id, hland.goes rfl hrank⟩
  · have hnowrap : u32 ((s.heap.workers w).bump + c.cell) = (s.heap.workers w).bump + c.cell :=
      Nat.mod_eq_of_lt hc.bumps
    rw [hnowrap]
    split
    · rename_i hfits
      have hland := Heap.lands_bumpCell hi.heap hc hfits
      exact ⟨hi.lands hc hland fun _ _ _ _ => id, hland.goes rfl hrank⟩
    · refine ⟨hi.put hi.heap (Nat.le_refl _) (fun _ _ => rfl) (fun x r _ hr => hi.held x r hr)
        (fun r hr => hr.elim) (fun x r _ hr => hr.elim) ⟨hc, hc.need, ?_, Nat.one_pos, ?_⟩, ?_, .inl rfl⟩
      · rw [regionBytes_eq]
        exact Nat.mul_div_le _ _
      · exact Nat.le_add_left 1 _
      · exact Nat.add_lt_add_left (by decide) _

theorem State.Inv.scan {s : State} (hi : s.Inv) {t : Nat} (hphase : s.phase w = .scan c k t r) :
    (s.put w (s.heap.grab w (.scan c k t r))).Inv ∧
      s.heap.Goes (.scan c k t r) (s.heap.grab w (.scan c k t r)) := by
  obtain ⟨hc, rfl, htop, hpos, hr⟩ : c.Fits _ ∧ k = c.regions ∧ 65536 * t ≤ _ ∧ 0 < r ∧ r ≤ t + 1 := by
    have := hi.ready w
    rw [hphase] at this
    exact this
  have hk := hc.regions_le
  have hhwm := hi.heap.hwm_le
  have hnowrap : u32 (r + c.regions) = r + c.regions := Nat.mod_eq_of_lt (by omega)
  rw [Heap.grab, hnowrap]
  have hkeep : ∀ p : Phase, (∀ x, ¬p.Holds x) → p.Ready s.heap.hwm (s.heap.workers w).bump →
      (s.put w (s.heap, p)).Inv := fun p hnone hready =>
    hi.put hi.heap (Nat.le_refl _) (fun _ _ => rfl) (fun x r _ hr => hi.held x r hr)
      (fun r hr => absurd hr (hnone r)) (fun x r _ hr => absurd hr (hnone r)) hready
  have hsome := c.regions_pos
  split
  · rename_i hlt
    split
    · refine ⟨hkeep _ ?_ ⟨hc, rfl, htop, hpos, hlt, Nat.zero_le _⟩, ?_, .inl rfl⟩
      · rintro x ⟨h1, h2⟩
        omega
      · simp only [Phase.rank]
        omega
    · refine ⟨hkeep _ (fun x => id) ⟨hc, rfl, htop, Nat.succ_pos r, by omega⟩, ?_, .inl rfl⟩
      simp only [Phase.rank]
      omega
  · refine ⟨hkeep _ (fun x => id) ⟨hc, by rw [regionBytes_eq]⟩, ?_, .inl rfl⟩
    simp only [Phase.rank]
    omega

theorem State.Inv.take {s : State} (hi : s.Inv) {t got : Nat} (hphase : s.phase w = .take c k t r got) :
    (s.put w (s.heap.grab w (.take c k t r got))).Inv ∧
      s.heap.Goes (.take c k t r got) (s.heap.grab w (.take c k t r got)) := by
  obtain ⟨hc, rfl, htop, hpos, hr, hgot⟩ : c.Fits _ ∧ k = c.regions ∧ 65536 * t ≤ _ ∧ 0 < r ∧
      r + k ≤ t ∧ got ≤ k := by
    have := hi.ready w
    rw [hphase] at this
    exact this
  have hmine : ∀ x, r ≤ x → x < r + got → (s.phase w).Holds x := by
    intro x h1 h2
    rw [hphase]
    exact ⟨h1, h2⟩
  have hothers : ∀ x y, x ≠ w → (s.phase x).Holds y → ¬(r ≤ y ∧ y < r + got) :=
    fun x y hx hy hin => hi.sole x w y hx hy (hmine y hin.1 hin.2)
  have hhwm := hi.heap.hwm_le
  rw [Heap.grab]
  split
  · rename_i hlt
    split
    · -- One more region is taken.
      rename_i hfree
      obtain ⟨-, hv⟩ := hi.heap.free _ hfree
      have hvacant : ∀ y, s.heap.Vacant y → (s.heap.setFree (r + got) false).Vacant y :=
        fun y hy => hy.congr rfl (Nat.le_refl _) fun _ => rfl
      have hheld : ∀ x y, (s.phase x).Holds y →
          (s.heap.setFree (r + got) false).regionFree y = false ∧
          (s.heap.setFree (r + got) false).Vacant y := by
        intro x y hy
        obtain ⟨hnot, hvy⟩ := hi.held x y hy
        have hne : y ≠ r + got := by
          rintro rfl
          exact Bool.false_ne_true (hnot.symm.trans hfree)
        exact ⟨by rw [Heap.setFree_of_ne hne]; exact hnot, hvacant y hvy⟩
      refine ⟨hi.put (hi.heap.setFree fun hb => by cases hb) (Nat.le_refl _) (fun _ _ => rfl)
        (fun x y _ hy => hheld x y hy) ?_ ?_ ⟨hc, rfl, htop, hpos, hr, hlt⟩, ?_, .inl rfl⟩
      · rintro y ⟨h1, h2⟩
        rcases Nat.lt_or_ge y (r + got) with hy | hy
        · exact hheld w y (hmine y h1 hy)
        · obtain rfl : y = r + got := by omega
          exact ⟨Heap.setFree_self, hvacant _ hv⟩
      · rintro x y hx ⟨h1, h2⟩ hy
        rcases Nat.lt_or_ge y (r + got) with hlt' | hge
        · exact hothers x y hx hy ⟨h1, hlt'⟩
        · obtain rfl : y = r + got := by omega
          exact Bool.false_ne_true ((hi.held x _ hy).1.symm.trans hfree)
      · simp only [Phase.rank]
        omega
    · refine ⟨hi.put hi.heap (Nat.le_refl _) (fun _ _ => rfl) (fun x y _ hy => hi.held x y hy) ?_ ?_
        ⟨hc, rfl, htop, hpos, hr, hgot, Nat.zero_le _⟩, ?_, .inl rfl⟩
      · rintro y ⟨h1, h2⟩
        exact hi.held w y (hmine y h1 h2)
      · rintro x y hx ⟨h1, h2⟩ hy
        exact hothers x y hx hy ⟨h1, h2⟩
      · simp only [Phase.rank]
        omega
  · -- The whole run has been taken.
    obtain rfl : got = c.regions := by omega
    have hland := Heap.lands_grabbed (w := w) hi.heap hc
      (fun x h1 h2 => hi.held w x (hmine x h1 h2)) fun h0 => by omega
    refine ⟨hi.lands hc hland hothers, hland.goes rfl ?_⟩
    simp only [Phase.rank]
    omega

theorem State.Inv.giveBack {s : State} (hi : s.Inv) {t got i : Nat}
    (hphase : s.phase w = .giveBack c k t r got i) :
    (s.put w (s.heap.grab w (.giveBack c k t r got i))).Inv ∧
      s.heap.Goes (.giveBack c k t r got i) (s.heap.grab w (.giveBack c k t r got i)) := by
  obtain ⟨hc, rfl, htop, hpos, hr, hgot, hile⟩ : c.Fits _ ∧ k = c.regions ∧ 65536 * t ≤ _ ∧ 0 < r ∧
      r + k ≤ t ∧ got ≤ k ∧ i ≤ got := by
    have := hi.ready w
    rw [hphase] at this
    exact this
  have hmine : ∀ x, r + i ≤ x → x < r + got → (s.phase w).Holds x := by
    intro x h1 h2
    rw [hphase]
    exact ⟨h1, h2⟩
  have hhwm := hi.heap.hwm_le
  rw [Heap.grab]
  split
  · rename_i hlt
    have hfirst := hmine (r + i) (Nat.le_refl _) (by omega)
    have hv := (hi.held w (r + i) hfirst).2
    have hheld : ∀ x y, y ≠ r + i → (s.phase x).Holds y →
        (s.heap.setFree (r + i) true).regionFree y = false ∧
        (s.heap.setFree (r + i) true).Vacant y := by
      intro x y hne hy
      obtain ⟨hnot, hvy⟩ := hi.held x y hy
      exact ⟨by rw [Heap.setFree_of_ne hne]; exact hnot, hvy.congr rfl (Nat.le_refl _) fun _ => rfl⟩
    refine ⟨hi.put (hi.heap.setFree fun _ => ⟨by omega, hv⟩) (Nat.le_refl _) (fun _ _ => rfl)
      (fun x y hx hy => hheld x y ?_ hy) ?_ ?_ ⟨hc, rfl, htop, hpos, hr, hgot, hlt⟩, ?_, .inl rfl⟩
    · rintro rfl
      exact hi.sole x w _ hx hy hfirst
    · rintro y ⟨h1, h2⟩
      exact hheld w y (by omega) (hmine y (by omega) h2)
    · rintro x y hx ⟨h1, h2⟩ hy
      exact hi.sole x w y hx hy (hmine y (by omega) h2)
    · simp only [Phase.rank]
      omega
  · refine ⟨hi.put hi.heap (Nat.le_refl _) (fun _ _ => rfl) (fun x y _ hy => hi.held x y hy)
      (fun y hy => hy.elim) (fun x y _ hy => hy.elim)
      ⟨hc, rfl, htop, Nat.succ_pos _, Nat.succ_le_succ (by omega)⟩, ?_, .inl rfl⟩
    have := c.regions_pos
    simp only [Phase.rank]
    omega

/-- **The cursor moves on.** -/
theorem Heap.Ordered.advance (hh : h.Ordered) {b : Nat} (hle : h.regionBump ≤ b)
    (hmod : b % 65536 = 0) (hb : b < 2 ^ 63) : Heap.Ordered { h with regionBump := b } := by
  have htop : h.hwm ≤ Heap.hwm { h with regionBump := b } := by
    rw [Heap.hwm_eq hh.bounded, Heap.hwm_eq hb]
    exact min_le_min_right _ hle
  exact
    { cursor := hmod
      bounded := hb
      cells := fun o c hc => (hh.cells o c hc).mono htop
      apart := hh.apart
      workers := fun w => { hh.workers w with below := (hh.workers w).below.trans htop }
      room := hh.room
      alone := hh.alone
      listed := hh.listed
      nodup := hh.nodup
      free := fun q hq => (hh.free q hq).imp_right fun hv => hv.congr rfl htop fun _ => rfl }

/-- A region above the old cursor and below the new one is vacant. -/
theorem Heap.Ordered.vacant_above (hh : h.Ordered) {b x : Nat} (hx : h.hwm ≤ 65536 * x)
    (hb : 65536 * (x + 1) ≤ Heap.hwm { h with regionBump := b }) :
    h.regionFree x = false ∧ Heap.Vacant { h with regionBump := b } x := by
  refine ⟨?_, hb, ?_, ?_⟩
  · refine Bool.eq_false_iff.mpr fun hfree => ?_
    have := (hh.free x hfree).2.below
    omega
  · intro o d hd
    have := (hh.cells o d hd).below
    omega
  · intro y
    have : (h.workers y).limit ≤ h.hwm := (hh.workers y).below
    show (h.workers y).limit ≠ 65536 * (x + 1)
    omega

/-- **A fresh run of regions.** -/
theorem State.Inv.grab_fresh {s : State} (hi : s.Inv) {need : Nat} (hphase : s.phase w = .fresh c need)
    (hzero : c.cell = regionBytes → s.heap.regionBump ≠ 0)
    (hbound : s.heap.regionBump + need < 2 ^ 63) :
    (s.put w (s.heap.grab w (.fresh c need))).Inv ∧
      s.heap.Goes (.fresh c need) (s.heap.grab w (.fresh c need)) := by
  obtain ⟨hc, rfl⟩ : c.Fits _ ∧ need = c.regions * 65536 := by
    have := hi.ready w
    rw [hphase] at this
    exact this
  have hcursor := hi.heap.cursor
  have hmod : (s.heap.regionBump + c.regions * 65536) % 65536 = 0 := by omega
  obtain ⟨b, hb⟩ : ∃ b, s.heap.regionBump = b * 65536 := ⟨s.heap.regionBump / 65536, by omega⟩
  have hle := Nat.le_add_right s.heap.regionBump (c.regions * 65536)
  have hrank : c.left * 2 ^ 20 < (Phase.fresh c (c.regions * 65536)).rank := by
    rw [Phase.rank]
    exact Nat.lt_succ_self _
  generalize hnext : s.heap.regionBump + c.regions * 65536 = next at hbound hmod hle
  have hadv := hi.heap.advance hle hmod hbound
  have htop : s.heap.hwm ≤ Heap.hwm { s.heap with regionBump := next } := by
    rw [Heap.hwm_eq hi.heap.bounded, Heap.hwm_eq hbound]
    exact min_le_min_right _ hle
  -- The state in between, where only the cursor has moved.
  have hmid : State.Inv ⟨{ s.heap with regionBump := next }, s.phase⟩ :=
    { heap := hadv
      held := fun x r hr => (hi.held x r hr).imp_right fun hv => hv.congr rfl htop fun _ => rfl
      sole := hi.sole
      ready := fun x => (hi.ready x).mono htop (Nat.le_refl _) }
  rw [Heap.grab, hnext, Nat.mod_eq_of_lt (hbound.trans (by decide))]
  split
  · rw [Heap.finish, if_pos rfl]
    have hland : Heap.Lands _ w c (fun _ => False) (_, c.failed) :=
      ⟨hadv, rfl, fun _ _ => rfl, rfl, fun _ _ hv => hv, .inr ⟨rfl, rfl⟩⟩
    have hgoes := hland.goes (p := .fresh c (c.regions * 65536)) rfl hrank
    exact ⟨hmid.lands hc hland fun _ _ _ _ => id, hgoes.rank, hgoes.served⟩
  · rename_i hroom
    have hhwm : s.heap.hwm ≤ 65536 * b := by
      rw [Heap.hwm_eq hi.heap.bounded, hb, Nat.mul_comm]
      exact min_le_left _ _
    have hhwm' : Heap.hwm { s.heap with regionBump := next } = 65536 * (b + c.regions) := by
      rw [heapBytes_eq] at hroom
      rw [Heap.hwm_eq hbound, Nat.min_eq_left (Nat.le_of_not_lt (not_or.mp hroom).2), ← hnext, hb]
      omega
    rw [regionBytes_eq, Nat.mul_div_cancel _ (by decide)]
    have hdiv : s.heap.regionBump / 65536 = b := by rw [hb, Nat.mul_div_cancel _ (by decide)]
    rw [hdiv]
    -- Everything that was there is below the old cursor.
    have hvacant : ∀ x, b ≤ x → x < b + c.regions →
        s.heap.regionFree x = false ∧ Heap.Vacant { s.heap with regionBump := next } x :=
      fun x h1 h2 => hi.heap.vacant_above (hhwm.trans (Nat.mul_le_mul_left _ h1))
        ((Nat.mul_le_mul_left _ h2).trans_eq hhwm'.symm)
    have hland := Heap.lands_grabbed (w := w) hadv hc hvacant fun h0 hcell => hzero hcell (by omega)
    rw [← hb] at hland
    have hgoes := hland.goes (p := .fresh c (c.regions * 65536)) rfl hrank
    refine ⟨hmid.lands hc hland fun x y _ hy hin => ?_, hgoes.rank, hgoes.served⟩
    have hbelow := (hi.held x y hy).2.below.trans hhwm
    exact absurd (Nat.le_of_mul_le_mul_left hbelow (by decide))
      (Nat.not_le.mpr (Nat.lt_succ_of_le hin.1))

theorem Phase.Ready.retry (hp : (Phase.starved c).Ready top bump) (b : Bool) :
    (Phase.entry { c with left := c.left - 1, barren := b }).Ready top bump :=
  ⟨hp.1.sized, hp.1.asked, hp.1.rounds, hp.1.bumps⟩

/-- No claim is under way while the world is stopped. -/
theorem Phase.not_holds_of_stops (hp : p.stops = true) : ¬p.Holds r := by
  cases p with
  | take => cases hp
  | giveBack => cases hp
  | _ => exact id

/-- The workers that there are. -/
def State.Few (s : State) : Prop := ∀ w, maxWorkers ≤ w → s.phase w = .idle

theorem State.Stopped.not_holds {s : State} (hs : s.Stopped) (hfew : s.Few) :
    ¬(s.phase w).Holds r := by
  rcases Nat.lt_or_ge w maxWorkers with hlt | hge
  · exact Phase.not_holds_of_stops (hs w hlt)
  · rw [hfew w hge]
    exact id

/-- **A collection, while the world is stopped.** -/
theorem State.Inv.collect {s : State} (hi : s.Inv) (hs : s.Stopped) (hfew : s.Few)
    (marked : Nat → Bool) : State.Inv ⟨(s.heap.collect marked).1, s.phase⟩ := by
  obtain ⟨hord, hsweeps⟩ := hi.heap.collect marked
  exact
    { heap := hord
      held := fun w r hr => absurd hr (hs.not_holds hfew)
      sole := hi.sole
      ready := fun w => (hi.ready w).mono (Nat.le_of_eq hsweeps.hwm.symm) (hsweeps.bump w) }

/-- **A starved call tries again.** -/
theorem State.Inv.retry {s : State} (hi : s.Inv) (hphase : s.phase w = .starved c) (b : Bool) :
    (s.put w (s.heap, .entry { c with left := c.left - 1, barren := b })).Inv := by
  have hready := hi.ready w
  rw [hphase] at hready
  exact hi.put hi.heap (Nat.le_refl _) (fun _ _ => rfl) (fun x r _ hr => hi.held x r hr)
    (fun r hr => hr.elim) (fun x r _ hr => hr.elim) (hready.retry b)

theorem State.Few.put {s : State} (hfew : s.Few) (hw : w < maxWorkers) (hp : Heap × Phase) :
    (s.put w hp).Few := by
  intro x hx
  have hne : x ≠ w := by
    rintro rfl
    exact Nat.not_lt.mpr hx hw
  rw [State.put_of_ne s hne]
  exact hfew x hx

theorem State.Few.lt {s : State} (hfew : s.Few) (hw : s.phase w ≠ .idle) : w < maxWorkers := by
  by_contra hge
  exact hw (hfew w (Nat.not_lt.mp hge))

/-- **What a step can be.** -/
theorem State.step_cases {s s' : State} {a : Action} (h : s.step a = some s') :
    (∃ w payload, a = .call w payload ∧ w < maxWorkers ∧ payload < 2 ^ 32 ∧ s.phase w = .idle ∧
      s' = s.put w (s.heap, .entry ⟨payload, cellFor payload, maxTries, false⟩)) ∨
    (∃ w c, a = .own w ∧ s.phase w = .entry c ∧ s' = s.put w (s.heap.allocOff w c)) ∨
    (∃ w, a = .own w ∧ (s.phase w).stops = false ∧ s' = s.put w (s.heap.grab w (s.phase w))) ∨
    (∃ w c, a = .retry w ∧ s.phase w = .starved c ∧
      s' = s.put w (s.heap, .entry { c with left := c.left - 1, barren := false })) ∨
    (∃ w c marked, a = .collect w marked ∧ s.phase w = .starved c ∧ s.Stopped ∧
      s' = s.put w ((s.heap.collect marked).1,
        .entry { c with left := c.left - 1, barren := (s.heap.collect marked).2 == 0 })) ∨
    (∃ marked, a = .gc marked ∧ s.Stopped ∧ s' = ⟨(s.heap.collect marked).1, s.phase⟩) := by
  cases a with
  | call w payload =>
    simp only [State.step] at h
    split at h
    · rename_i hcond
      exact .inl ⟨w, payload, rfl, hcond.1, hcond.2.1, hcond.2.2, (Option.some.inj h).symm⟩
    · cases h
  | own w =>
    simp only [State.step] at h
    split at h
    case h_1 c hc => exact .inr (.inl ⟨w, c, rfl, hc, (Option.some.inj h).symm⟩)
    case h_6 => cases h
    all_goals
      rename_i hp
      refine .inr (.inr (.inl ⟨w, rfl, ?_, ?_⟩))
      · rw [hp]
        rfl
      · rw [hp]
        exact (Option.some.inj h).symm
  | retry w =>
    simp only [State.step] at h
    split at h
    · rename_i c hc
      exact .inr (.inr (.inr (.inl ⟨w, c, rfl, hc, (Option.some.inj h).symm⟩)))
    · cases h
  | collect w marked =>
    simp only [State.step] at h
    split at h
    · rename_i c hc
      split at h
      · rename_i hs
        exact .inr (.inr (.inr (.inr (.inl ⟨w, c, marked, rfl, hc, hs, (Option.some.inj h).symm⟩))))
      · cases h
    · cases h
  | gc marked =>
    simp only [State.step] at h
    split at h
    · rename_i hs
      exact .inr (.inr (.inr (.inr (.inr ⟨marked, rfl, hs, (Option.some.inj h).symm⟩))))
    · cases h

/-- **An access to the shared pool.** -/
theorem State.Inv.grab {s : State} (hi : s.Inv) (hp : (s.phase w).stops = false)
    (hfit : s.Fits (.own w)) :
    (s.put w (s.heap.grab w (s.phase w))).Inv ∧
      s.heap.Goes (s.phase w) (s.heap.grab w (s.phase w)) := by
  cases hphase : s.phase w with
  | scan c k t r => exact hi.scan hphase
  | take c k t r got => exact hi.take hphase
  | giveBack c k t r got i => exact hi.giveBack hphase
  | fresh c need =>
    simp only [State.Fits, hphase] at hfit
    exact hi.grab_fresh hphase hfit.1 hfit.2
  | _ =>
    rw [hphase] at hp
    cases hp

/-- **Every safe step keeps the invariant.** -/
theorem State.Inv.step {s s' : State} {a : Action} (hi : s.Inv) (hfew : s.Few) (hfit : s.Fits a)
    (hstep : s.step a = some s') : s'.Inv ∧ s'.Few := by
  have hbusy : ∀ {w p}, s.phase w = p → p ≠ .idle → w < maxWorkers :=
    fun hp hne => hfew.lt (hp ▸ hne)
  rcases State.step_cases hstep with ⟨w, payload, rfl, hw, -, -, rfl⟩ | ⟨w, c, rfl, hp, rfl⟩ |
    ⟨w, rfl, hp, rfl⟩ | ⟨w, c, rfl, hp, rfl⟩ | ⟨w, c, marked, rfl, hp, hs, rfl⟩ | ⟨marked, rfl, hs, rfl⟩
  · exact ⟨hi.call hfit.1 hfit.2, hfew.put hw _⟩
  · exact ⟨(hi.allocOff hp).1, hfew.put (hbusy hp (by rintro ⟨⟩)) _⟩
  · have hw : w < maxWorkers := hfew.lt fun hidle => by rw [hidle] at hp; cases hp
    exact ⟨(hi.grab hp hfit).1, hfew.put hw _⟩
  · exact ⟨hi.retry hp false, hfew.put (hbusy hp (by rintro ⟨⟩)) _⟩
  · have hc := hi.collect hs hfew marked
    exact ⟨hc.retry (s := ⟨(s.heap.collect marked).1, s.phase⟩) hp _,
      hfew.put (hbusy hp (by rintro ⟨⟩)) _⟩
  · exact ⟨hi.collect hs hfew marked, hfew⟩

/-- The worker whose call a step is about. -/
def Action.worker : Action → Option Nat
  | .call w _ => some w
  | .own w => some w
  | .retry w => some w
  | .collect w _ => some w
  | .gc _ => none

theorem Phase.rank_retry (hp : (Phase.starved c).Ready top bump) (b : Bool) :
    (Phase.entry { c with left := c.left - 1, barren := b }).rank < (Phase.starved c).rank := by
  have := hp.2
  simp only [Phase.rank]
  omega

/-- **What a step does to a call that is under way.** -/
theorem State.Inv.serves {s s' : State} {a : Action} (hi : s.Inv) (hfit : s.Fits a)
    (hstep : s.step a = some s') (hw : (s.phase w).asks ≠ none) :
    if a.worker = some w then s.heap.Goes (s.phase w) (s'.heap, s'.phase w)
    else s'.phase w = s.phase w := by
  have hput : ∀ {x : Nat} {hp : Heap × Phase}, (x = w → s.heap.Goes (s.phase w) hp) →
      if some x = some w then s.heap.Goes (s.phase w) (hp.1, (s.put x hp).phase w)
      else (s.put x hp).phase w = s.phase w := by
    intro x hp hgoes
    by_cases hx : x = w
    · subst hx
      rw [if_pos rfl, State.put_self]
      exact hgoes rfl
    · rw [if_neg fun h => hx (Option.some.inj h), State.put_of_ne s (Ne.symm hx)]
  rcases State.step_cases hstep with ⟨x, payload, rfl, -, -, hp, rfl⟩ | ⟨x, c, rfl, hp, rfl⟩ |
    ⟨x, rfl, hp, rfl⟩ | ⟨x, c, rfl, hp, rfl⟩ | ⟨x, c, marked, rfl, hp, hs, rfl⟩ | ⟨marked, rfl, hs, rfl⟩
  · refine hput fun hx => ?_
    rw [← hx, hp] at hw
    exact absurd rfl hw
  · refine hput fun hx => ?_
    rw [← hx, hp]
    exact (hi.allocOff hp).2
  · refine hput fun hx => ?_
    rw [← hx]
    exact (hi.grab hp hfit).2
  · refine hput fun hx => ?_
    have hready := hi.ready x
    rw [hp] at hready
    rw [← hx, hp]
    exact ⟨Phase.rank_retry hready false, .inl rfl⟩
  · refine hput fun hx => ?_
    have hready := hi.ready x
    rw [hp] at hready
    rw [← hx, hp]
    exact ⟨Phase.rank_retry hready _, .inl rfl⟩
  · exact (if_neg (by rintro ⟨⟩)).mpr rfl

/-- **A call that is under way can always go on.** -/
theorem State.exists_step {s : State} (hw : (s.phase w).asks ≠ none) :
    ∃ a s', a.worker = some w ∧ s.step a = some s' := by
  cases hp : s.phase w with
  | idle =>
    rw [hp] at hw
    exact absurd rfl hw
  | trapped =>
    rw [hp] at hw
    exact absurd rfl hw
  | starved c => exact ⟨.retry w, _, rfl, by simp only [State.step, hp]; rfl⟩
  | _ => exact ⟨.own w, _, rfl, by simp only [State.step, hp]; rfl⟩

/-- **The states of a run whose steps are all safe.** -/
inductive Reached : State → Prop
  | init : Reached init
  | next {s s' : State} {a : Action} (h : Reached s) (hfit : s.Fits a) (hstep : s.step a = some s') :
      Reached s'

theorem inv_init : init.Inv where
  heap :=
    { cursor := rfl
      bounded := by decide
      cells := by
        intro off c hc
        cases hc
      apart := by
        intro off off' c c' hc
        cases hc
      workers := fun w => ⟨rfl, Nat.zero_le _, Nat.le_refl _, Nat.zero_le _, rfl, fun h => h⟩
      room := by
        intro w off c hc
        cases hc
      alone := fun w w' _ _ => rfl
      listed := by
        intro w cls off ho
        cases ho
      nodup := fun w cls => .nil
      free := by
        intro r hr
        cases hr }
  held := fun w r hr => hr.elim
  sole := fun w w' r _ hr => hr.elim
  ready := fun w => trivial

theorem Reached.inv {s : State} (h : Reached s) : s.Inv ∧ s.Few := by
  induction h with
  | init => exact ⟨inv_init, fun _ _ => rfl⟩
  | next h hfit hstep ih => exact ih.1.step ih.2 hfit hstep

/-! ### The result -/

/-- **The live cells are as they were asked for**: in the heap, large enough, and apart. -/
def Heap.Sound (h : Heap) : Prop :=
  ∀ off c, h.cells off = some c → c.free = false →
    0 < off ∧ off + c.size ≤ heapBytes ∧ sizeofObj + c.asked ≤ c.size ∧
    ∀ off' c', h.cells off' = some c' → c'.free = false → off' ≠ off →
      off + c.size ≤ off' ∨ off' + c'.size ≤ off

theorem Heap.Ordered.sound (hh : h.Ordered) : h.Sound := by
  intro off c hc _
  have hfit := hh.cells off c hc
  have hle := c.size_le_extent
  refine ⟨hfit.pos, ?_, hfit.asked, fun off' c' hc' _ hne => ?_⟩
  · exact (Nat.add_le_add_left hle off).trans (hfit.below.trans hh.hwm_le)
  · rcases Nat.lt_or_gt_of_ne hne with hlt | hgt
    · exact .inr ((Nat.add_le_add_left c'.size_le_extent off').trans (hh.apart off' off c' c hc' hc hlt))
    · exact .inl ((Nat.add_le_add_left hle off).trans (hh.apart off off' c c' hc hc' hgt))

/-- **Safe calls of `jacl_alloc`**: the live cells are sound in every state, and a call under way has
a step that it can take; each of its steps brings it nearer to its end, which is a trap or a new
cell, and no other step changes where it is. -/
theorem alloc_sound {s : State} (h : Reached s) :
    s.heap.Sound ∧
    ∀ w, (s.phase w).asks ≠ none →
      (∃ a s', a.worker = some w ∧ s.step a = some s') ∧
      ∀ a s', s.Fits a → s.step a = some s' →
        if a.worker = some w then s.heap.Goes (s.phase w) (s'.heap, s'.phase w)
        else s'.phase w = s.phase w :=
  ⟨h.inv.1.heap.sound, fun _ hw =>
    ⟨State.exists_step hw, fun _ _ hfit hstep => h.inv.1.serves hfit hstep hw⟩⟩

/-- A call for 100 bytes has moved the cursor and returned. -/
theorem alloc_sound_first : ∃ s, Reached s ∧ s.heap.cells 16 = some ⟨112, false, 100⟩ ∧ s.heap.Sound := by
  have h1 : Reached _ := .next (a := .call 0 100) .init ⟨by decide, by decide⟩ rfl
  have h2 : Reached _ := .next (a := .own 0) h1 trivial rfl
  have h3 : Reached _ := .next (a := .own 0) h2 trivial rfl
  have h4 : Reached _ := .next (a := .own 0) h3 ⟨by decide, by decide⟩ rfl
  exact ⟨_, h4, rfl, (alloc_sound h4).1⟩

/-- A first call for a whole region has its end in the second, and a payload of `2 ^ 32 - 1` bytes gets
a cell of 16. -/
theorem not_alloc_sound :
    (∃ s, [Action.call 0 65528, .own 0, .own 0, .own 0, .call 0 8, .own 0, .own 0, .own 0].foldlM
      State.step init = some s ∧ ¬s.heap.Sound) ∧
    ∃ s, [Action.call 0 (2 ^ 32 - 1), .own 0, .own 0, .own 0].foldlM State.step init = some s ∧
      ¬s.heap.Sound := by
  constructor
  · refine ⟨_, rfl, fun hs => ?_⟩
    rcases (hs 16 ⟨65536, false, 65528⟩ rfl rfl).2.2.2 65536 ⟨16, false, 8⟩ rfl rfl (by decide) with h | h
    · exact absurd h (by decide)
    · exact absurd h (by decide)
  · refine ⟨_, rfl, fun hs => ?_⟩
    exact absurd (hs 16 ⟨16, false, 2 ^ 32 - 1⟩ rfl rfl).2.2.1 (by decide)

end Jacl.HeapAlloc
