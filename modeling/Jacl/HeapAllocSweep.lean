import Jacl.HeapAllocInvariant

/-!
# The sweep leaves the heap in order

The sweep goes from region to region, over a large cell's run at once, so that no extent crosses
the place it has come to; the free lists it rebuilds hold cells from below that place.
-/

namespace Jacl.HeapAlloc
open Function

variable {h h' : Heap} {w r k off : Nat} {c : Cell} {marked : Nat → Bool}

/-- Free lists emptied. -/
theorem Heap.Ordered.clearLists (hh : h.Ordered) : h.clearLists.Ordered where
  cursor := hh.cursor
  bounded := hh.bounded
  cells := hh.cells
  apart := hh.apart
  workers w := ⟨(hh.workers w).limit, (hh.workers w).below, (hh.workers w).bump_le,
    (hh.workers w).le_bump, (hh.workers w).aligned, (hh.workers w).pos⟩
  room := hh.room
  alone := hh.alone
  listed := by
    intro w cls o ho
    cases ho
  nodup _ _ := .nil
  free q hq := (hh.free q hq).imp_right fun hv => hv.congr rfl (Nat.le_refl _) fun _ => rfl

theorem Heap.freeDead_cells {o : Nat} {d : Cell} (hd : (h.freeDead marked r).cells o = some d) :
    ∃ c, h.cells o = some c ∧ d.size = c.size ∧ d.asked = c.asked ∧ (c.free = true → d.free = true) := by
  rw [Heap.freeDead] at hd
  dsimp only at hd
  split at hd
  · obtain ⟨c, hc, rfl⟩ := Option.map_eq_some_iff.mp hd
    exact ⟨c, hc, rfl, rfl, fun _ => rfl⟩
  · exact ⟨d, hd, rfl, rfl, id⟩

theorem Heap.freeDead_of_some {o : Nat} (hc : h.cells o = some c) :
    ∃ d, (h.freeDead marked r).cells o = some d ∧ d.size = c.size ∧ (c.free = true → d.free = true) := by
  rw [Heap.freeDead]
  dsimp only
  split
  · exact ⟨{ c with free := true }, by rw [hc]; rfl, rfl, fun _ => rfl⟩
  · exact ⟨c, hc, rfl, id⟩

theorem Cell.extent_congr {d : Cell} (hsize : d.size = c.size) : d.extent = c.extent := by
  rw [Cell.extent, Cell.extent, hsize]

theorem Heap.Clear.freeDead {a b : Nat} (hcl : h.Clear a b) : (h.freeDead marked r).Clear a b := by
  intro o d hd
  obtain ⟨c, hc, hsize, -, -⟩ := freeDead_cells hd
  rw [Cell.extent_congr hsize]
  exact hcl o c hc

/-- Cells that no mark reached become free. -/
theorem Heap.Ordered.freeDead (hh : h.Ordered) : (h.freeDead marked r).Ordered where
  cursor := hh.cursor
  bounded := hh.bounded
  cells := by
    intro o d hd
    obtain ⟨c, hc, hsize, hasked, -⟩ := freeDead_cells hd
    have hfit := hh.cells o c hc
    exact ⟨hfit.pos, hfit.aligned, hsize ▸ hfit.sized, hsize ▸ hasked ▸ hfit.asked,
      Cell.extent_congr hsize ▸ hfit.below, hsize ▸ hfit.large, hsize ▸ hfit.small⟩
  apart := by
    intro o o' d d' hd hd' hlt
    obtain ⟨c, hc, hsize, -, -⟩ := freeDead_cells hd
    obtain ⟨c', hc', -, -, -⟩ := freeDead_cells hd'
    rw [Cell.extent_congr hsize]
    exact hh.apart o o' c c' hc hc' hlt
  workers := hh.workers
  room w := (hh.room w).freeDead
  alone := hh.alone
  listed := by
    intro w cls o ho
    obtain ⟨c, hc, hfree, hsize, howner⟩ := hh.listed w cls o ho
    obtain ⟨d, hd, hsized, hfreed⟩ := @freeDead_of_some h r c marked o hc
    exact ⟨d, hd, hfreed hfree, hsized.trans hsize, howner⟩
  nodup := hh.nodup
  free q hq := (hh.free q hq).imp_right fun hv => ⟨hv.below, hv.clear.freeDead, hv.unused⟩

/-- A free cell that is on no list goes onto one. -/
theorem Heap.Ordered.pushFree (hh : h.Ordered)
    (hoff : ∀ w cls, off ∉ (h.workers w).freelist cls) : (h.pushFree off).Ordered := by
  rw [Heap.pushFree]
  split
  · rename_i c hc
    split
    · rename_i hfree
      obtain ⟨w, hw⟩ : ∃ w, h.regionOwner (off / regionBytes) = w := ⟨_, rfl⟩
      have hfit := hh.workers w
      have hsized := (hh.cells off c hc).sized
      rw [hw, granule_eq]
      refine hh.setWorker ⟨hfit.limit, hfit.below, hfit.bump_le, hfit.le_bump, hfit.aligned, hfit.pos⟩
        rfl (Nat.le_refl _) fun cls => ?_
      by_cases hcls : cls = c.size / 16
      · subst hcls
        rw [Worker.setList_self]
        refine ⟨List.nodup_cons.mpr ⟨hoff w _, hh.nodup w _⟩, fun o ho => ?_⟩
        rcases List.mem_cons.mp ho with rfl | ho
        · exact ⟨c, hc, hfree.1, by omega, hw⟩
        · exact hh.listed w _ o ho
      · rw [Worker.setList_of_ne hcls]
        exact ⟨hh.nodup w cls, hh.listed w cls⟩
    · exact hh
  · exact hh

theorem Heap.release_cells {o : Nat} {d : Cell} (hd : (h.release r k).cells o = some d) :
    h.cells o = some d ∧ (o < 65536 * r ∨ 65536 * (r + k) ≤ o) := by
  rw [Heap.release] at hd
  dsimp only at hd
  split at hd
  · cases hd
  · rename_i hout
    rw [regionBytes_eq] at hout
    exact ⟨hd, by omega⟩

theorem Heap.release_worker (h : Heap) (r k w : Nat) :
    ((h.release r k).workers w).freelist = (h.workers w).freelist ∧
    (((h.release r k).workers w).limit = 0 ∧ ((h.release r k).workers w).bump = 0 ∨
      (h.release r k).workers w = h.workers w ∧
        ((h.workers w).limit ≤ 65536 * r ∨ 65536 * (r + k) < (h.workers w).limit)) := by
  rw [Heap.release]
  dsimp only
  split
  · exact ⟨rfl, .inl ⟨rfl, rfl⟩⟩
  · rename_i hout
    rw [regionBytes_eq] at hout
    exact ⟨rfl, .inr ⟨rfl, by omega⟩⟩

theorem Heap.release_regionFree {q : Nat} (hq : (h.release r k).regionFree q = true) :
    r ≤ q ∧ q < r + k ∨ h.regionFree q = true := by
  rw [Heap.release] at hq
  dsimp only at hq
  split at hq
  · exact .inl ‹_›
  · exact .inr hq

/-- **Regions that no extent crosses into or out of are given back.** -/
theorem Heap.Ordered.release (hh : h.Ordered) (hr : 0 < r) (hk : 65536 * (r + k) ≤ h.hwm)
    (hin : ∀ o c, h.cells o = some c → o < 65536 * r → o + c.extent ≤ 65536 * r)
    (hlists : ∀ w cls, ∀ o ∈ (h.workers w).freelist cls, o < 65536 * r) :
    (h.release r k).Ordered where
  cursor := hh.cursor
  bounded := hh.bounded
  cells o d hd := hh.cells o d (release_cells hd).1
  apart o o' d d' hd hd' := hh.apart o o' d d' (release_cells hd).1 (release_cells hd').1
  workers := by
    intro w
    rcases (release_worker h r k w).2 with ⟨hl, hb⟩ | ⟨heq, -⟩
    · constructor <;> omega
    · rw [heq]
      exact hh.workers w
  room := by
    intro w o d hd
    rcases (release_worker h r k w).2 with ⟨hl, hb⟩ | ⟨heq, -⟩
    · rw [hl]
      exact .inr (Nat.zero_le _)
    · rw [heq]
      exact hh.room w o d (release_cells hd).1
  alone := by
    intro w w' hne heq
    rcases (release_worker h r k w).2 with ⟨hl, -⟩ | ⟨hw, -⟩
    · exact hl
    · rw [hw] at heq ⊢
      rcases (release_worker h r k w').2 with ⟨hl, -⟩ | ⟨hw', -⟩
      · exact heq.trans hl
      · rw [hw'] at heq
        exact hh.alone w w' hne heq
  listed := by
    intro w cls o ho
    rw [(release_worker h r k w).1] at ho
    obtain ⟨c, hc, hrest⟩ := hh.listed w cls o ho
    refine ⟨c, ?_, hrest⟩
    have := hlists w cls o ho
    rw [Heap.release]
    exact (if_neg (by rw [regionBytes_eq]; omega)).trans hc
  nodup w cls := by
    rw [(release_worker h r k w).1]
    exact hh.nodup w cls
  free := by
    intro q hq
    rcases release_regionFree hq with ⟨h1, h2⟩ | hq
    · have hbelow : 65536 * (q + 1) ≤ 65536 * (r + k) := by omega
      refine ⟨by omega, hbelow.trans hk, ?_, ?_⟩
      · intro o d hd
        have hd' := release_cells hd
        have := hin o d hd'.1
        omega
      · intro w
        rcases (release_worker h r k w).2 with ⟨hl, -⟩ | ⟨heq, hout⟩
        · rw [hl]
          omega
        · rw [heq]
          omega
    · obtain ⟨hpos, hv⟩ := hh.free q hq
      refine ⟨hpos, hv.below, fun o d hd => hv.clear o d (release_cells hd).1, fun w => ?_⟩
      rcases (release_worker h r k w).2 with ⟨hl, -⟩ | ⟨heq, -⟩
      · rw [hl]
        omega
      · rw [heq]
        exact hv.unused w

/-! ### From region to region -/

/-- **The sweep has come to region `r`.** -/
structure Heap.Swept (h : Heap) (r : Nat) : Prop where
  ordered : h.Ordered
  /-- No extent crosses the place. -/
  seam : ∀ o c, h.cells o = some c → o < 65536 * r → o + c.extent ≤ 65536 * r
  listed : ∀ w cls, ∀ o ∈ (h.workers w).freelist cls, o < 65536 * r

/-- What stays of a heap in a sweep. -/
structure Heap.Sweeps (h h' : Heap) : Prop where
  cursor : h'.regionBump = h.regionBump
  bump : ∀ w, (h'.workers w).bump ≤ (h.workers w).bump

theorem Heap.Sweeps.refl (h : Heap) : h.Sweeps h := ⟨rfl, fun _ => Nat.le_refl _⟩

theorem Heap.Sweeps.trans {h'' : Heap} (h1 : h.Sweeps h') (h2 : h'.Sweeps h'') : h.Sweeps h'' :=
  ⟨h2.cursor.trans h1.cursor, fun w => Nat.le_trans (h2.bump w) (h1.bump w)⟩

theorem Heap.Sweeps.hwm (h1 : h.Sweeps h') : h'.hwm = h.hwm := by
  rw [Heap.hwm, Heap.hwm, h1.cursor]

theorem Heap.sweeps_release (h : Heap) (r k : Nat) : h.Sweeps (h.release r k) where
  cursor := rfl
  bump w := by
    rcases (release_worker h r k w).2 with ⟨-, hb⟩ | ⟨heq, -⟩
    · rw [hb]
      exact Nat.zero_le _
    · rw [heq]

theorem Heap.sweeps_freeDead (h : Heap) (marked : Nat → Bool) (r : Nat) :
    h.Sweeps (h.freeDead marked r) :=
  ⟨rfl, fun _ => Nat.le_refl _⟩

theorem Heap.sweeps_pushFree (h : Heap) (off : Nat) : h.Sweeps (h.pushFree off) := by
  rw [Heap.pushFree]
  split
  · split
    · refine ⟨rfl, fun w => ?_⟩
      by_cases hw : w = h.regionOwner (off / regionBytes)
      · rw [hw, setWorker_self, Worker.setList_bump]
      · rw [setWorker_of_ne hw]
    · exact .refl h
  · exact .refl h

theorem Heap.pushFree_cells (h : Heap) (off : Nat) : (h.pushFree off).cells = h.cells := by
  rw [Heap.pushFree]
  split
  · split <;> rfl
  · rfl

theorem Heap.mem_pushFree {cls o : Nat} (ho : o ∈ ((h.pushFree off).workers w).freelist cls) :
    o = off ∨ o ∈ (h.workers w).freelist cls := by
  rw [Heap.pushFree] at ho
  split at ho
  · rename_i c hc
    split at ho
    · by_cases hw : w = h.regionOwner (off / regionBytes)
      · subst hw
        rw [setWorker_self] at ho
        by_cases hcls : cls = c.size / granule
        · subst hcls
          rw [Worker.setList_self] at ho
          exact List.mem_cons.mp ho
        · rw [Worker.setList_of_ne hcls] at ho
          exact .inr ho
      · rw [setWorker_of_ne hw] at ho
        exact .inr ho
    · exact .inr ho
  · exact .inr ho

/-- The second pass over a region. -/
theorem Heap.Ordered.pushes {offs : List Nat} (hs : h.Ordered)
    (hseam : ∀ o c, h.cells o = some c → o < 65536 * (r + 1) → o + c.extent ≤ 65536 * (r + 1))
    (hoffs : offs.Nodup) (hregion : ∀ o ∈ offs, o < 65536 * (r + 1))
    (hlists : ∀ w cls, ∀ o ∈ (h.workers w).freelist cls, o < 65536 * (r + 1) ∧ o ∉ offs) :
    (offs.foldl Heap.pushFree h).Swept (r + 1) ∧ h.Sweeps (offs.foldl Heap.pushFree h) := by
  induction offs generalizing h with
  | nil => exact ⟨⟨hs, hseam, fun w cls o ho => (hlists w cls o ho).1⟩, .refl h⟩
  | cons off offs ih =>
    obtain ⟨hnotin, hnodup⟩ := List.nodup_cons.mp hoffs
    have hoff : ∀ w cls, off ∉ (h.workers w).freelist cls :=
      fun w cls hin => (hlists w cls off hin).2 List.mem_cons_self
    obtain ⟨hswept, hsweeps⟩ := ih (hs.pushFree hoff) (by rw [pushFree_cells]; exact hseam) hnodup
      (fun o ho => hregion o (List.mem_cons_of_mem _ ho)) (by
        intro w cls o ho
        rcases mem_pushFree ho with rfl | ho
        · exact ⟨hregion o List.mem_cons_self, hnotin⟩
        · exact ⟨(hlists w cls o ho).1, fun hin => (hlists w cls o ho).2 (List.mem_cons_of_mem _ hin)⟩)
    exact ⟨hswept, (sweeps_pushFree h off).trans hsweeps⟩

theorem Heap.nodup_starts (h : Heap) (r : Nat) : (h.starts r).Nodup := by
  refine List.Nodup.filter _ (List.Nodup.map (fun a b hab => ?_) List.nodup_range)
  rw [granule_eq] at hab
  omega

theorem Heap.mem_starts {o : Nat} (ho : o ∈ h.starts r) :
    65536 * r ≤ o ∧ o < 65536 * (r + 1) := by
  obtain ⟨hin, -⟩ := List.mem_filter.mp ho
  obtain ⟨g, hg, rfl⟩ := List.mem_map.mp hin
  have := List.mem_range.mp hg
  rw [regionBytes_eq, granule_eq] at *
  omega

/-- A region whose head is not a large cell ends at a seam. -/
theorem Heap.Swept.next (hs : h.Swept r) (hhead : h.largeHead r = none) {o : Nat}
    (hc : h.cells o = some c) (ho : o < 65536 * (r + 1)) : o + c.extent ≤ 65536 * (r + 1) := by
  by_cases hlt : o < 65536 * r
  · have := hs.seam o c hc hlt
    omega
  · have hfit := hs.ordered.cells o c hc
    by_cases hlarge : 65536 < c.size
    · have hbase := hfit.large hlarge
      obtain rfl : o = r * 65536 := by omega
      rw [Heap.largeHead, regionBytes_eq, hc, Option.filter_some, if_pos (decide_eq_true hlarge)] at hhead
      cases hhead
    · have := hfit.small (Nat.not_lt.mp hlarge)
      rw [Cell.extent, if_neg hlarge]
      omega

/-- A large cell's run, from its head. -/
theorem Heap.Ordered.large (hh : h.Ordered) (hhead : h.largeHead r = some c) :
    ∃ k, u32 (c.size + (regionBytes - 1)) / regionBytes = k ∧ 0 < r ∧ 0 < k ∧
      h.cells (65536 * r) = some c ∧ c.extent = 65536 * k ∧ 65536 * (r + k) ≤ h.hwm := by
  obtain ⟨hc, hlarge⟩ := Option.filter_eq_some_iff.mp hhead
  rw [regionBytes_eq, Nat.mul_comm] at hc
  rw [regionBytes_eq, decide_eq_true_eq] at hlarge
  have hfit := hh.cells _ c hc
  have hpos := hfit.pos
  have hbelow := hfit.below
  have htop := hh.hwm_le
  have hext : c.extent = 65536 * ((c.size + 65535) / 65536) := by
    rw [Cell.extent, if_pos hlarge, Nat.mul_comm]
  have hnowrap : u32 (c.size + (regionBytes - 1)) = c.size + 65535 := by
    have := c.size_le_extent
    refine Nat.mod_eq_of_lt ?_
    rw [regionBytes_eq]
    omega
  refine ⟨_, rfl, by omega, ?_, hc, ?_, ?_⟩ <;> rw [hnowrap, regionBytes_eq]
  · omega
  · exact hext
  · omega

/-- **One step of the sweep.** -/
theorem Heap.Swept.region (hs : h.Swept r) (hr : r < h.hwm / 65536) (marked : Nat → Bool) :
    (h.sweepRegion marked r).1.Swept (h.sweepRegion marked r).2.2 ∧
      h.Sweeps (h.sweepRegion marked r).1 ∧ r < (h.sweepRegion marked r).2.2 := by
  rw [Heap.sweepRegion]
  split
  · -- A free region holds nothing.
    rename_i hfree
    have hv := (hs.ordered.free r hfree).2
    refine ⟨⟨hs.ordered, fun o c hc (ho : o < 65536 * (r + 1)) => ?_, fun w cls o ho => ?_⟩,
      .refl h, Nat.lt_succ_self r⟩
    · show o + c.extent ≤ 65536 * (r + 1)
      have := hv.clear o c hc
      have := hs.seam o c hc
      omega
    · show o < 65536 * (r + 1)
      have := hs.listed w cls o ho
      omega
  split
  · -- A large cell's own run.
    rename_i head hhead
    obtain ⟨k, hspan, hpos, hk, hc, hext, hbelow⟩ := hs.ordered.large hhead
    have hseam : ∀ o c, h.cells o = some c → o < 65536 * (r + k) → o + c.extent ≤ 65536 * (r + k) := by
      intro o c hco ho
      rcases Nat.lt_trichotomy o (65536 * r) with hlt | rfl | hgt
      · have := hs.seam o c hco hlt
        omega
      · obtain rfl : head = c := Option.some.inj (hc.symm.trans hco)
        omega
      · have := hs.ordered.apart _ o head c hc hco hgt
        omega
    have hlists : ∀ w cls, ∀ o ∈ (h.workers w).freelist cls, o < 65536 * (r + k) := by
      intro w cls o ho
      have := hs.listed w cls o ho
      omega
    rw [hspan]
    split
    · exact ⟨⟨hs.ordered, hseam, hlists⟩, .refl h, Nat.lt_add_of_pos_right hk⟩
    · refine ⟨⟨hs.ordered.release hpos hbelow hs.seam hs.listed, ?_, ?_⟩, sweeps_release h r k,
        Nat.lt_add_of_pos_right hk⟩
      · exact fun o c hco ho => hseam o c (release_cells hco).1 ho
      · intro w cls o ho
        rw [(release_worker h r k w).1] at ho
        exact hlists w cls o ho
  · rename_i hhead
    have hseam : ∀ o d, (h.freeDead marked r).cells o = some d → o < 65536 * (r + 1) →
        o + d.extent ≤ 65536 * (r + 1) := by
      intro o d hd ho
      obtain ⟨c, hc, hsize, -, -⟩ := freeDead_cells hd
      rw [Cell.extent_congr hsize]
      exact hs.next hhead hc ho
    have hlists : ∀ w cls, ∀ o ∈ ((h.freeDead marked r).workers w).freelist cls, o < 65536 * r :=
      hs.listed
    dsimp only
    split
    · -- No live cell is left.
      rename_i hcond
      refine ⟨⟨hs.ordered.freeDead.release (Nat.pos_of_ne_zero hcond.1) ?_ ?_ hlists, ?_, ?_⟩,
        ?_, Nat.lt_succ_self r⟩
      · show 65536 * (r + 1) ≤ h.hwm
        omega
      · intro o d hd ho
        obtain ⟨c, hc, hsize, -, -⟩ := freeDead_cells hd
        rw [Cell.extent_congr hsize]
        exact hs.seam o c hc ho
      · exact fun o d hd ho => hseam o d (release_cells hd).1 ho
      · intro w cls o ho
        rw [(release_worker _ r 1 w).1] at ho
        have := hlists w cls o ho
        show o < 65536 * (r + 1)
        omega
      · exact (sweeps_freeDead h marked r).trans (sweeps_release _ r 1)
    · obtain ⟨hswept, hsweeps⟩ := hs.ordered.freeDead.pushes hseam
        (nodup_starts (h.freeDead marked r) r) (fun o ho => (mem_starts ho).2) (by
          intro w cls o ho
          have := hlists w cls o ho
          refine ⟨by omega, fun hin => ?_⟩
          have := mem_starts hin
          omega)
      dsimp only
      exact ⟨hswept, (sweeps_freeDead h marked r).trans hsweeps, Nat.lt_succ_self r⟩

theorem Heap.Swept.sweepFrom (hs : h.Swept r) (marked : Nat → Bool) {top : Nat}
    (htop : top ≤ h.hwm / 65536) (fuel n : Nat) :
    (Heap.sweepFrom marked top fuel r (h, n)).1.Ordered ∧
      h.Sweeps (Heap.sweepFrom marked top fuel r (h, n)).1 := by
  induction fuel generalizing h r n with
  | zero => exact ⟨hs.ordered, .refl h⟩
  | succ fuel ih =>
    rw [Heap.sweepFrom]
    split
    · rename_i hr
      obtain ⟨hnext, hsweeps, -⟩ := hs.region (Nat.lt_of_lt_of_le hr htop) marked
      obtain ⟨hord, hrest⟩ := ih hnext (hsweeps.hwm ▸ htop) (n + (h.sweepRegion marked r).2.1)
      exact ⟨hord, hsweeps.trans hrest⟩
    · exact ⟨hs.ordered, .refl h⟩

/-- **A collection leaves the heap in order.** -/
theorem Heap.Ordered.collect (hh : h.Ordered) (marked : Nat → Bool) :
    (h.collect marked).1.Ordered ∧ h.Sweeps (h.collect marked).1 := by
  have hstart : h.clearLists.Swept 0 :=
    ⟨hh.clearLists, fun o c _ ho => absurd ho (Nat.not_lt_zero o), fun w cls o ho => by cases ho⟩
  have hclear : h.Sweeps h.clearLists := ⟨rfl, fun _ => Nat.le_refl _⟩
  obtain ⟨hord, hsweeps⟩ := hstart.sweepFrom marked (Nat.le_refl _) (h.hwm / regionBytes) 0
  exact ⟨hord, hclear.trans hsweeps⟩

end Jacl.HeapAlloc
