import Jacl.Snapshots

/-!
# When a snapshot is independent (`runtime/builtins.c`, `runtime/collections.c`)

What is copied is new, and what is shared is reached from both: a box is independent of the value it
was made from if and only if the copy shares nothing that can be changed (`Copied`).  A mutation
changes one cell (`Rewrites`), and a program that cannot reach it reads the same.
-/

namespace Jacl.Snapshots
open Function JaclVal Relation

variable {h h' h₀ h₁ h₂ : Heap} {v w x y a : JaclVal} {c : Cell} {q n : Nat} {op : Write}
  {es ws : List JaclVal}

/-! ### Words and cells -/

theorem types_subset {t : Nat} (ht : t ∈ c.types) : t ∈ heapTypes := by
  cases c with
  | data => cases ht
  | arr | struct | view | box | vec | map =>
    simp only [Cell.types, List.mem_cons, List.not_mem_nil, or_false] at ht
    simp only [heapTypes, List.mem_cons, List.not_mem_nil, or_false]
    omega

theorem cellOf_eq_some (hc : h.cellOf v = some c) : h.cells v.payload = some c ∧ v.type ∈ c.types := by
  rw [Heap.cellOf] at hc
  split at hc
  · rename_i c' hcell
    split at hc
    · rename_i ht
      cases hc
      exact ⟨hcell, ht⟩
    · cases hc
  · cases hc

theorem cellOf_of (hcell : h.cells v.payload = some c) (ht : v.type ∈ c.types) : h.cellOf v = some c := by
  rw [Heap.cellOf, hcell]
  exact if_pos ht

/-- A word that is no pointer has no cell. -/
theorem cellOf_word (ht : v.type ∉ heapTypes) : h.cellOf v = none := by
  refine Option.eq_none_iff_forall_ne_some.mpr fun c hc => ?_
  exact ht (types_subset (cellOf_eq_some hc).2)

theorem cellOf_congr (hcell : h'.cells v.payload = h.cells v.payload) : h'.cellOf v = h.cellOf v := by
  rw [Heap.cellOf, Heap.cellOf, hcell]

theorem ne_data (hc : h.cellOf v = some c) {nums : List (BitVec 64)} : c ≠ .data nums := by
  rintro rfl
  exact absurd (cellOf_eq_some hc).2 List.not_mem_nil

namespace Heap.Ok

theorem lt_next (hok : h.Ok) (hc : h.cells q = some c) : q < h.next := by
  by_contra hge
  rw [hok.fresh q (Nat.le_of_not_lt hge)] at hc
  cases hc

/-- The parts of a value point to cells that are there. -/
theorem refs_part (hok : h.Ok) (hp : Part h v y) : h.Refs y := by
  obtain ⟨c, hc, hy⟩ := hp
  have hfits := hok.fits _ c (cellOf_eq_some hc).1
  cases c with
  | view => cases hy
  | arr | struct | data | box | vec | map => exact hfits y hy

theorem refs_found (hok : h.Ok) (hv : h.Refs v) (hx : Finds h v x) : h.Refs x := by
  induction hx with
  | refl => exact hv
  | tail _ hp _ => exact hok.refs_part hp

/-- The cell that a mutation of a container changes is there. -/
theorem cells_target (hok : h.Ok) (hc : h.cellOf v = some c) : ∃ c', h.cells (targetOf c v) = some c' := by
  obtain ⟨hcell, -⟩ := cellOf_eq_some hc
  cases c with
  | view blob start len =>
    obtain ⟨nums, hblob, -⟩ := hok.fits _ _ hcell
    exact ⟨_, hblob⟩
  | arr | struct | data | box | vec | map => exact ⟨_, hcell⟩

end Heap.Ok

/-! ### A heap that grows -/

/-- The old cells are as they were. -/
structure Ext (h h' : Heap) : Prop where
  next_le : h.next ≤ h'.next
  old : ∀ q, q < h.next → h'.cells q = h.cells q

namespace Ext

theorem refl (h : Heap) : Ext h h := ⟨Nat.le_refl _, fun _ _ => rfl⟩

theorem trans (h₁e : Ext h h₁) (h₂e : Ext h₁ h₂) : Ext h h₂ :=
  ⟨Nat.le_trans h₁e.next_le h₂e.next_le, fun q hq => by
    rw [h₂e.old q (Nat.lt_of_lt_of_le hq h₁e.next_le), h₁e.old q hq]⟩

theorem refs (he : Ext h h') (hv : h.Refs v) : h'.Refs v := fun ht => Nat.lt_of_lt_of_le (hv ht) he.next_le

theorem cellOf (he : Ext h h') (hv : h.Refs v) : h'.cellOf v = h.cellOf v := by
  by_cases ht : v.type ∈ heapTypes
  · exact cellOf_congr (he.old _ (hv ht))
  · rw [cellOf_word ht, cellOf_word ht]

theorem finds (he : Ext h h') (hok : h.Ok) (hv : h.Refs v) : Finds h' v x ↔ Finds h v x := by
  constructor
  · intro hf
    induction hf with
    | refl => exact .refl
    | tail _ hp ih =>
      obtain ⟨c, hc, hy⟩ := hp
      rw [he.cellOf (hok.refs_found hv ih)] at hc
      exact ih.tail ⟨c, hc, hy⟩
  · intro hf
    induction hf with
    | refl => exact .refl
    | tail hf hp ih =>
      obtain ⟨c, hc, hy⟩ := hp
      exact ih.tail ⟨c, by rw [he.cellOf (hok.refs_found hv hf), hc], hy⟩

theorem reach (he : Ext h h') (hok : h.Ok) (hv : h.Refs v) : Reach h' v q ↔ Reach h v q := by
  constructor
  · rintro ⟨x, c, hf, hc, hq⟩
    have hf' := (he.finds hok hv).mp hf
    exact ⟨x, c, hf', by rw [← he.cellOf (hok.refs_found hv hf'), hc], hq⟩
  · rintro ⟨x, c, hf, hc, hq⟩
    exact ⟨x, c, (he.finds hok hv).mpr hf, by rw [he.cellOf (hok.refs_found hv hf), hc], hq⟩

theorem changeable (he : Ext h h') (hok : h.Ok) (hx : h.Refs x) : Changeable h' x ↔ Changeable h x := by
  rw [Changeable, Changeable, he.cellOf hx]
  refine exists_congr fun c => and_congr_right fun hc => ?_
  obtain ⟨c', hc'⟩ := hok.cells_target hc
  rw [he.old _ (hok.lt_next hc')]

theorem alloc (h : Heap) (c : Cell) : Ext h (h.alloc c).1 :=
  ⟨Nat.le_add_right _ _, fun _ hq => update_of_ne (Nat.ne_of_lt hq) ..⟩

end Ext

/-- What is reached is there. -/
theorem Heap.Ok.reach_lt (hok : h.Ok) (hr : Reach h v q) : q < h.next := by
  obtain ⟨x, c, -, hc, rfl | rfl⟩ := hr
  · exact hok.lt_next (cellOf_eq_some hc).1
  · obtain ⟨c', hc'⟩ := hok.cells_target hc
    exact hok.lt_next hc'

/-- A new cell. -/
theorem Heap.Ok.alloc (hok : h.Ok) (hc : h.Fits c) : (h.alloc c).1.Ok := by
  have hext := Ext.alloc h c
  have hfits : ∀ d, h.Fits d → (h.alloc c).1.Fits d := by
    intro d hd
    cases d with
    | view blob start len =>
      obtain ⟨nums, hblob, hlen⟩ := hd
      exact ⟨nums, by rw [hext.old _ (hok.lt_next hblob), hblob], hlen⟩
    | arr | struct | data | box | vec | map => exact fun y hy => hext.refs (hd y hy)
  refine ⟨fun p hp => ?_, fun p d hd => ?_⟩
  · have hp' : h.next + 16 ≤ p := hp
    exact (update_of_ne (by omega) ..).trans (hok.fresh p (by omega))
  · have hd' : update h.cells h.next (some c) p = some d := hd
    by_cases hpn : p = h.next
    · rw [hpn, update_self] at hd'
      cases hd'
      exact hfits c hc
    · rw [update_of_ne hpn] at hd'
      exact hfits d (hok.fits p d hd')

/-! ### The copy -/

/-- Every mutable cell that is reached from `w` was made since. -/
def New (h₀ h : Heap) (w : JaclVal) : Prop :=
  ∀ q c, Reach h w q → h.cells q = some c → c.Mutable → h₀.next ≤ q

/-- A word of `v` that can be changed, and is found from `w`. -/
def Shared (h₀ h : Heap) (v w : JaclVal) : Prop := ∃ x, Finds h₀ v x ∧ Changeable h₀ x ∧ Finds h w x

theorem New.ext (hn : New h₀ h w) (hok : h.Ok) (hw : h.Refs w) (he : Ext h h') : New h₀ h' w := by
  intro q c hr hc hm
  have hr' := (he.reach hok hw).mp hr
  rw [he.old q (hok.reach_lt hr')] at hc
  exact hn q c hr' hc hm

/-- A mutable cell is changed through a word that points to it, or through a window of it. -/
theorem changeable_of_reach (hr : Reach h v q) (hc : h.cells q = some c) (hm : c.Mutable) :
    ∃ x, Finds h v x ∧ Changeable h x := by
  obtain ⟨x, d, hf, hd, rfl | rfl⟩ := hr
  · obtain ⟨hcell, -⟩ := cellOf_eq_some hd
    rw [hc] at hcell
    cases hcell
    refine ⟨x, hf, c, hd, c, ?_, hm⟩
    cases c with
    | view => exact hm.elim
    | arr | struct | data | box | vec | map => exact hc
  · exact ⟨x, hf, d, hd, c, hc, hm⟩

/-- What reaches nothing that can be changed is shared. -/
theorem new_of_shared (hok : h₀.Ok) (he : Ext h₀ h) (hv : h₀.Refs v)
    (hno : ∀ x, Finds h₀ v x → ¬ Changeable h₀ x) : New h₀ h v := by
  intro q c hr hc hm
  have hr' := (he.reach hok hv).mp hr
  rw [he.old q (hok.reach_lt hr')] at hc
  obtain ⟨x, hf, hx⟩ := changeable_of_reach hr' hc hm
  exact absurd hx (hno x hf)

/-- What a copy of one word leaves. -/
def Sane (h₀ : Heap) (copy : Heap → JaclVal → Option (Heap × JaclVal)) : Prop :=
  ∀ ⦃h v h' w⦄, h.Ok → Ext h₀ h → h₀.Refs v → copy h v = some (h', w) → h'.Ok ∧ Ext h h' ∧ h'.Refs w

variable {copy : Heap → JaclVal → Option (Heap × JaclVal)}

/-- The copy of one word of a row, in the heap that the words before it left. -/
def OneCopied (h₀ h' : Heap) (copy : Heap → JaclVal → Option (Heap × JaclVal)) (e w : JaclVal) : Prop :=
  ∃ h₁ h₂, h₁.Ok ∧ Ext h₀ h₁ ∧ h₂.Ok ∧ h₂.Refs w ∧ copy h₁ e = some (h₂, w) ∧ Ext h₂ h'

/-- **The copies of a row** are made one after the other. -/
theorem copyEach_spec (hs : Sane h₀ copy) (hok : h.Ok) (he : Ext h₀ h) (hes : ∀ e ∈ es, h₀.Refs e)
    (hc : copyEach copy es h = some (h', ws)) :
    h'.Ok ∧ Ext h h' ∧ List.Forall₂ (OneCopied h₀ h' copy) es ws := by
  induction es generalizing h ws with
  | nil =>
    cases hc
    exact ⟨hok, .refl _, .nil⟩
  | cons e es ih =>
    rw [copyEach] at hc
    obtain ⟨⟨h₁, w⟩, hone, hrest⟩ := Option.bind_eq_some_iff.mp hc
    obtain ⟨⟨h₂, ws'⟩, heach, heq⟩ := Option.map_eq_some_iff.mp hrest
    cases heq
    obtain ⟨hok₁, he₁, hw⟩ := hs hok he (hes e List.mem_cons_self) hone
    obtain ⟨hok₂, he₂, hall⟩ := ih hok₁ (he.trans he₁) (fun e' he' => hes e' (List.mem_cons_of_mem _ he')) heach
    exact ⟨hok₂, he₁.trans he₂, .cons ⟨h, h₁, hok, he, hok₁, hw, hone, he₂⟩ hall⟩

/-- A row is copied if every word of it is. -/
theorem copyEach_isSome (hs : Sane h₀ copy) (hok : h.Ok) (he : Ext h₀ h) (hes : ∀ e ∈ es, h₀.Refs e)
    (hc : ∀ e ∈ es, ∀ h, h.Ok → Ext h₀ h → ∃ r, copy h e = some r) : ∃ r, copyEach copy es h = some r := by
  induction es generalizing h with
  | nil => exact ⟨_, rfl⟩
  | cons e es ih =>
    obtain ⟨⟨h₁, w⟩, hone⟩ := hc e List.mem_cons_self h hok he
    obtain ⟨hok₁, he₁, -⟩ := hs hok he (hes e List.mem_cons_self) hone
    obtain ⟨⟨h₂, ws⟩, heach⟩ := ih hok₁ (he.trans he₁) (fun e' he' => hes e' (List.mem_cons_of_mem _ he'))
      fun e' he' => hc e' (List.mem_cons_of_mem _ he')
    exact ⟨_, by rw [copyEach, hone, Option.bind_some, heach, Option.map_some]⟩

/-- The copies are words of the heap they leave. -/
theorem refs_of_copied (hall : List.Forall₂ (OneCopied h₀ h' copy) es ws) : ∀ w ∈ ws, h'.Refs w := by
  induction hall with
  | nil => exact fun _ hw => absurd hw List.not_mem_nil
  | cons hone _ ih =>
    obtain ⟨h₁, h₂, -, -, -, hw, -, he⟩ := hone
    rintro w (_ | ⟨_, hmem⟩)
    · exact he.refs hw
    · exact ih w hmem

/-- A copy that is placed: its parts are those of its cell. -/
theorem placed (hok : h.Ok) (hfits : h.Fits c) {t : Nat} (ht : t ∈ c.types) :
    (h.alloc c).1.Ok ∧ Ext h (h.alloc c).1 ∧ (h.alloc c).1.Refs (plain t (h.alloc c).2) ∧
      (h.alloc c).1.cellOf (plain t (h.alloc c).2) = some c :=
  ⟨hok.alloc hfits, .alloc h c, fun _ => Nat.lt_add_of_pos_right (by decide),
    cellOf_of (update_self ..) ht⟩

/-- The copy of a word, of an element of an array or of another one. -/
def copyIn (inArr : Bool) (fuel : Nat) (h : Heap) (v : JaclVal) : Option (Heap × JaclVal) :=
  if inArr then (if v.type = 0x1A then arrCopy fuel h v else some (h, v)) else deepCopy fuel h v

/-- The cell is copied there. -/
def Cell.copied (inArr : Bool) : Cell → Bool
  | .arr _ => true
  | .struct .. => !inArr
  | _ => false

def Cell.isArr : Cell → Bool
  | .arr _ => true
  | _ => false

/-- The cell with other values. -/
def Cell.rebuild (ws : List JaclVal) : Cell → Cell
  | .arr _ => .arr ws
  | .struct typename fields => .struct typename ((fields.map Prod.fst).zip ws)
  | c => c

variable {inArr : Bool}

theorem rebuild_types : (c.rebuild ws).types = c.types := by cases c <;> rfl

theorem rebuild_words (hc : c.copied inArr = true) (hlen : ws.length = c.words.length) :
    (c.rebuild ws).words = ws := by
  cases c with
  | arr => rfl
  | struct typename fields =>
    show ((fields.map Prod.fst).zip ws).map Prod.snd = ws
    have hlen' : ws.length = (fields.map Prod.snd).length := hlen
    rw [List.length_map] at hlen'
    exact List.map_snd_zip (by rw [List.length_map]; omega)
  | view | data | box | vec | map => cases hc

theorem fits_rebuild (hc : c.copied inArr = true) (hlen : ws.length = c.words.length)
    (hws : ∀ w ∈ ws, h.Refs w) : h.Fits (c.rebuild ws) := by
  have hwords := rebuild_words hc hlen
  cases c with
  | arr | struct =>
    intro y hy
    rw [hwords] at hy
    exact hws y hy
  | view | data | box | vec | map => cases hc

/-- **The copy of an array, or of a struct that is not in an array.** -/
theorem copyIn_copied (hv : h.cellOf v = some c) (hc : c.copied inArr = true) :
    copyIn inArr (n + 1) h v = (copyEach (copyIn c.isArr n) c.words h).map fun r =>
      ((r.1.alloc (c.rebuild r.2)).1, plain v.type (r.1.alloc (c.rebuild r.2)).2) := by
  obtain ⟨-, ht⟩ := cellOf_eq_some hv
  cases c with
  | arr elems =>
    have ht' : v.type = 0x1A := List.mem_singleton.mp ht
    have harr : arrCopy (n + 1) h v = (copyEach (copyIn true n) elems h).map fun r =>
        ((r.1.alloc (.arr r.2)).1, plain 0x1A (r.1.alloc (.arr r.2)).2) := by
      rw [arrCopy, hv]
      rfl
    rw [copyIn]
    split
    · rw [harr, ht']
      rfl
    · rw [deepCopy, if_pos ht', harr, ht']
      rfl
  | struct typename fields =>
    have ht' : v.type = 0x12 := List.mem_singleton.mp ht
    cases inArr with
    | true => cases hc
    | false =>
      rw [copyIn, if_neg Bool.false_ne_true, deepCopy, if_neg (by rw [ht']; decide), hv, ht']
      rfl
  | view | data | box | vec | map => cases hc

/-- Every other word is shared. -/
theorem copyIn_shared (hv : ∀ c, h.cellOf v = some c → c.copied inArr = false) :
    copyIn inArr (n + 1) h v = some (h, v) := by
  have harr : arrCopy (n + 1) h v = some (h, v) := by
    rw [arrCopy]
    split
    · rename_i elems hc
      have hfalse : true = false := hv _ hc
      cases hfalse
    · rfl
  rw [copyIn]
  split
  · split
    · exact harr
    · rfl
  · rename_i hin
    rw [deepCopy]
    split
    · exact harr
    · split
      · rename_i typename fields hc
        have hfalse : (!inArr) = false := hv _ hc
        rw [Bool.not_eq_true] at hin
        rw [hin] at hfalse
        cases hfalse
      · rfl

theorem copyIn_zero (hc : copyIn inArr 0 h v = some (h', w)) : h' = h ∧ w = v := by
  rw [copyIn] at hc
  split at hc
  · split at hc
    · rw [arrCopy] at hc
      cases hc
    · cases hc
      exact ⟨rfl, rfl⟩
  · rw [deepCopy] at hc
    cases hc

/-- **A copy** makes cells only, and gives a word of the heap it leaves. -/
theorem copyIn_sane (h₀ok : h₀.Ok) (fuel : Nat) (inArr : Bool) : Sane h₀ (copyIn inArr fuel) := by
  induction fuel generalizing inArr with
  | zero =>
    intro h v h' w hok he hv hc
    obtain ⟨rfl, rfl⟩ := copyIn_zero hc
    exact ⟨hok, .refl _, he.refs hv⟩
  | succ fuel ih =>
    intro h v h' w hok he hv hc
    by_cases hcopied : ∃ c, h.cellOf v = some c ∧ c.copied inArr = true
    · obtain ⟨c, hcell, hcop⟩ := hcopied
      rw [copyIn_copied hcell hcop] at hc
      obtain ⟨⟨h₁, ws⟩, heach, heq⟩ := Option.map_eq_some_iff.mp hc
      cases heq
      have hcell' : h₀.cellOf v = some c := by rw [← he.cellOf hv, hcell]
      obtain ⟨hok₁, he₁, hall⟩ := copyEach_spec (ih c.isArr) hok he
        (fun e hmem => h₀ok.refs_part ⟨c, hcell', hmem⟩) heach
      obtain ⟨hok₂, he₂, hw, -⟩ := placed hok₁ (fits_rebuild hcop hall.length_eq.symm (refs_of_copied hall))
        (rebuild_types ▸ (cellOf_eq_some hcell).2)
      exact ⟨hok₂, he₁.trans he₂, hw⟩
    · rw [copyIn_shared fun c hcell => Bool.not_eq_true _ ▸ fun hcop => hcopied ⟨c, hcell, hcop⟩] at hc
      cases hc
      exact ⟨hok, .refl _, he.refs hv⟩

theorem exists_of_mem_right {r : JaclVal → JaclVal → Prop} (hall : List.Forall₂ r es ws) (hw : w ∈ ws) :
    ∃ e ∈ es, r e w := by
  induction hall with
  | nil => cases hw
  | cons hone _ ih =>
    obtain _ | ⟨_, hmem⟩ := hw
    · exact ⟨_, List.mem_cons_self, hone⟩
    · obtain ⟨e, he, hr⟩ := ih hmem
      exact ⟨e, List.mem_cons_of_mem _ he, hr⟩

theorem exists_of_mem_left {r : JaclVal → JaclVal → Prop} (hall : List.Forall₂ r es ws) (hv : v ∈ es) :
    ∃ w ∈ ws, r v w := by
  induction hall with
  | nil => cases hv
  | cons hone _ ih =>
    obtain _ | ⟨_, hmem⟩ := hv
    · exact ⟨_, List.mem_cons_self, hone⟩
    · obtain ⟨w, hw, hr⟩ := ih hmem
      exact ⟨w, List.mem_cons_of_mem _ hw, hr⟩

theorem targetOf_copied (hc : c.copied inArr = true) : targetOf c v = v.payload := by
  cases c with
  | arr | struct => rfl
  | view | data | box | vec | map => cases hc

theorem targetOf_rebuild (hc : c.copied inArr = true) : targetOf (c.rebuild ws) v = v.payload := by
  cases c with
  | arr | struct => rfl
  | view | data | box | vec | map => cases hc

/-- **A container is copied** if its parts are, and what the copy reaches is new. -/
theorem new_of_parts (h₀ok : h₀.Ok) (hok : h.Ok) (he : Ext h₀ h) (hv : h₀.Refs v)
    (hcell : h₀.cellOf v = some c) (hcop : c.copied inArr = true)
    (hparts : ∀ y ∈ c.words, ∀ h, h.Ok → Ext h₀ h →
      ∃ h' w, copyIn c.isArr n h y = some (h', w) ∧ New h₀ h' w) :
    ∃ h' w, copyIn inArr (n + 1) h v = some (h', w) ∧ New h₀ h' w := by
  have hsane := copyIn_sane h₀ok n c.isArr
  have hrefs : ∀ e ∈ c.words, h₀.Refs e := fun e hmem => h₀ok.refs_part ⟨c, hcell, hmem⟩
  obtain ⟨⟨h₁, ws⟩, heach⟩ := copyEach_isSome hsane hok he hrefs fun e hmem g hgok hge => by
    obtain ⟨g', w, hg, -⟩ := hparts e hmem g hgok hge
    exact ⟨_, hg⟩
  obtain ⟨hok₁, he₁, hall⟩ := copyEach_spec hsane hok he hrefs heach
  have hws := refs_of_copied hall
  have hlen := hall.length_eq.symm
  obtain ⟨hok₂, he₂, hw, hcell₂⟩ := placed hok₁ (fits_rebuild hcop hlen hws)
    (by rw [rebuild_types]; exact (cellOf_eq_some hcell).2 : v.type ∈ (c.rebuild ws).types)
  refine ⟨_, _, by rw [copyIn_copied (by rw [he.cellOf hv, hcell]) hcop, heach, Option.map_some], ?_⟩
  rintro q d ⟨x, cx, hf, hx, hq⟩ hd hm
  rcases hf.cases_head with rfl | ⟨y, ⟨cy, hcy, hy⟩, hf⟩
  · -- the cell of the copy itself
    cases hcell₂.symm.trans hx
    rw [targetOf_rebuild hcop, or_self] at hq
    exact hq ▸ Nat.le_trans he.next_le he₁.next_le
  · cases hcell₂.symm.trans hcy
    rw [rebuild_words hcop hlen] at hy
    obtain ⟨e, hmem, g, g₂, hgok, hge, hg₂ok, hyref, hone, hg₂e⟩ := exists_of_mem_right hall hy
    obtain ⟨g', w, hg, hnew⟩ := hparts e hmem g hgok hge
    cases hone.symm.trans hg
    exact ((hnew.ext hg₂ok hyref hg₂e).ext hok₁ (hws y hy) he₂) q d ⟨x, cx, hf, hx, hq⟩ hd hm

/-- **What is copied is new.** -/
theorem new_of_copied (h₀ok : h₀.Ok) (hc : Copied h₀ n inArr v) (hv : h₀.Refs v) (hok : h.Ok)
    (he : Ext h₀ h) : ∃ h' w, copyIn inArr (n + 1) h v = some (h', w) ∧ New h₀ h' w := by
  induction hc generalizing h with
  | @shared n inArr v hno =>
    by_cases hcopied : ∃ c, h₀.cellOf v = some c ∧ c.copied inArr = true
    · obtain ⟨c, hcell, hcop⟩ := hcopied
      refine new_of_parts h₀ok hok he hv hcell hcop fun y hy => ?_
      -- it would have to be an empty struct
      have hmut : ¬ c.Mutable := fun hm => hno v .refl
        ⟨c, hcell, c, by rw [targetOf_copied hcop, (cellOf_eq_some hcell).1], hm⟩
      cases c with
      | arr => exact absurd trivial hmut
      | struct typename fields =>
        rw [not_not.mp hmut] at hy
        cases hy
      | view | data | box | vec | map => cases hcop
    · refine ⟨h, v, copyIn_shared fun c hcell => ?_, new_of_shared h₀ok he hv hno⟩
      rw [he.cellOf hv] at hcell
      exact Bool.not_eq_true _ ▸ fun hcop => hcopied ⟨c, hcell, hcop⟩
  | arr hcell _ ih =>
    exact new_of_parts h₀ok hok he hv hcell rfl fun y hy g hgok hge =>
      ih y hy (h₀ok.refs_part ⟨_, hcell, hy⟩) hgok hge
  | struct hcell _ ih =>
    refine new_of_parts h₀ok hok he hv hcell rfl fun y hy g hgok hge => ?_
    obtain ⟨f, hf, rfl⟩ := List.mem_map.mp hy
    exact ih f hf (h₀ok.refs_part ⟨_, hcell, hy⟩) hgok hge

/-- A word that is shared, with all that can be changed through it. -/
theorem copied_or_shared_self (h₀ok : h₀.Ok) (he : Ext h₀ h) (hv : h₀.Refs v) :
    Copied h₀ n inArr v ∨ Shared h₀ h v v := by
  by_cases hno : ∀ x, Finds h₀ v x → ¬ Changeable h₀ x
  · exact .inl (.shared hno)
  · push Not at hno
    obtain ⟨x, hf, hx⟩ := hno
    exact .inr ⟨x, hf, hx, (he.finds h₀ok hv).mpr hf⟩

/-- **What a copy returns** is new, or shares something that can be changed. -/
theorem copied_or_shared (h₀ok : h₀.Ok) (hv : h₀.Refs v) (hok : h.Ok) (he : Ext h₀ h)
    (hc : copyIn inArr n h v = some (h', w)) : Copied h₀ n inArr v ∨ Shared h₀ h' v w := by
  induction n generalizing inArr h v h' w with
  | zero =>
    obtain ⟨rfl, rfl⟩ := copyIn_zero hc
    exact copied_or_shared_self h₀ok he hv
  | succ n ih =>
    by_cases hcopied : ∃ c, h₀.cellOf v = some c ∧ c.copied inArr = true
    · obtain ⟨c, hcell, hcop⟩ := hcopied
      have hrefs : ∀ e ∈ c.words, h₀.Refs e := fun e hmem => h₀ok.refs_part ⟨c, hcell, hmem⟩
      rw [copyIn_copied (by rw [he.cellOf hv, hcell]) hcop] at hc
      obtain ⟨⟨h₁, ws⟩, heach, heq⟩ := Option.map_eq_some_iff.mp hc
      cases heq
      obtain ⟨hok₁, he₁, hall⟩ := copyEach_spec (copyIn_sane h₀ok n c.isArr) hok he hrefs heach
      by_cases hparts : ∀ y ∈ c.words, Copied h₀ n c.isArr y
      · left
        cases c with
        | arr elems => exact .arr hcell hparts
        | struct typename fields =>
          cases inArr with
          | true => cases hcop
          | false => exact .struct hcell fun f hf => hparts f.2 (List.mem_map_of_mem hf)
        | view | data | box | vec | map => cases hcop
      · push Not at hparts
        obtain ⟨y, hy, hnot⟩ := hparts
        obtain ⟨u, hu, g, g₂, hgok, hge, hg₂ok, huref, hone, hg₂e⟩ := exists_of_mem_left hall hy
        obtain ⟨x, hf, hx, hfu⟩ := (ih (hrefs y hy) hgok hge hone).resolve_left hnot
        have hws := refs_of_copied hall
        have hlen := hall.length_eq.symm
        obtain ⟨-, he₂, -, hcell₂⟩ := placed hok₁ (fits_rebuild hcop hlen hws)
          (by rw [rebuild_types]; exact (cellOf_eq_some hcell).2 : v.type ∈ (c.rebuild ws).types)
        have hu' : u ∈ (c.rebuild ws).words := by
          rw [rebuild_words hcop hlen]
          exact hu
        have hfu' := (he₂.finds hok₁ (hws u hu)).mpr ((hg₂e.finds hg₂ok huref).mpr hfu)
        exact .inr ⟨x, .head ⟨c, hcell, hy⟩ hf, hx, .head ⟨_, hcell₂, hu'⟩ hfu'⟩
    · rw [copyIn_shared fun c hcell => by
        rw [he.cellOf hv] at hcell
        exact Bool.not_eq_true _ ▸ fun hcop => hcopied ⟨c, hcell, hcop⟩] at hc
      cases hc
      exact copied_or_shared_self h₀ok he hv

/-! ### Mutations -/

/-- **What a mutation does**: it replaces the cell at `q`, one that can change, by a cell of its
kind, with the words of the old one, `nil` and the word that is stored. -/
structure Rewrites (h h' : Heap) (q : Nat) (op : Write) : Prop where
  ex : ∃ c c', h.cells q = some c ∧ c.Mutable ∧ c'.Mutable ∧ c'.types = c.types ∧
    (∀ nums, c = .data nums → ∃ nums', c' = .data nums' ∧ nums'.length = nums.length) ∧
    (∀ y ∈ c'.words, y ∈ c.words ∨ y = nil ∨ op.stored = some y) ∧ h' = h.put q c'

theorem mem_listSet {elems : List JaclVal} {i : Int}
    (hy : y ∈ (Arrays.listSet nil elems i x).1) : y ∈ elems ∨ y = nil ∨ y = x := by
  rw [Arrays.listSet] at hy
  split at hy
  · exact .inl hy
  · obtain hmem | rfl := List.mem_or_eq_of_mem_set hy
    · obtain hold | hpad := List.mem_append.mp hmem
      · exact .inl hold
      · exact .inr (.inl (List.eq_of_mem_replicate hpad))
    · exact .inr (.inr rfl)

/-- The words of a cell after a mutation. -/
theorem mem_write (hy : y ∈ (c.write op).words) : y ∈ c.words ∨ y = nil ∨ op.stored = some y := by
  cases c with
  | arr elems =>
    cases op with
    | push x =>
      obtain hold | hnew := List.mem_append.mp hy
      · exact .inl hold
      · exact .inr (.inr (congrArg some (List.mem_singleton.mp hnew).symm))
    | pop => exact .inl (List.mem_of_mem_dropLast hy)
    | set i x =>
      obtain hold | hnil | rfl := mem_listSet hy
      · exact .inl hold
      · exact .inr (.inl hnil)
      · exact .inr (.inr rfl)
    | field | num => exact .inl hy
  | struct typename fields =>
    cases op with
    | field k x =>
      obtain ⟨f, hf, rfl⟩ := List.mem_map.mp hy
      obtain ⟨j, hj, hget⟩ := List.mem_iff_getElem.mp hf
      rw [List.getElem_modify] at hget
      split at hget
      · rw [← hget]
        exact .inr (.inr rfl)
      · rw [← hget]
        exact .inl (List.mem_map_of_mem (List.getElem_mem _))
    | push | pop | set | num => exact .inl hy
  | view | data | box | vec | map => exact .inl hy

theorem write_types : (c.write op).types = c.types := by
  cases c <;> cases op <;> rfl

theorem write_mutable (hm : c.Mutable) : (c.write op).Mutable := by
  cases c with
  | arr => cases op <;> trivial
  | struct typename fields =>
    cases op with
    | field k x =>
      intro hnil
      have hlen := congrArg List.length hnil
      rw [List.length_modify] at hlen
      exact hm (List.length_eq_zero_iff.mp hlen)
    | push | pop | set | num => exact hm
  | view | data | box | vec | map => cases op <;> exact hm

/-- A mutation of what cannot change. -/
theorem write_of_not_mutable (hm : ¬ c.Mutable) : c.write op = c := by
  cases c with
  | arr => exact absurd trivial hm
  | struct typename fields =>
    rw [not_not.mp hm]
    cases op with
    | field k x =>
      rw [Cell.write, List.modify_nil]
    | push | pop | set | num => rfl
  | view | data | box | vec | map => cases op <;> rfl

theorem write_put (hcell : h.cells q = some c) (hw : h' = h.put q (c.write op))
    (hdata : ∀ nums, c ≠ .data nums) : h' = h ∨ Rewrites h h' q op := by
  by_cases hm : c.Mutable
  · exact .inr ⟨c, c.write op, hcell, hm, write_mutable hm, write_types,
      fun nums hnums => absurd hnums (hdata nums), fun y hy => mem_write hy, hw⟩
  · left
    rw [hw, write_of_not_mutable hm, Heap.put, ← hcell, update_eq_self]

/-- **A mutation changes nothing, or the one cell of its container.** -/
theorem write_cases (hok : h.Ok) (hc : h.cellOf a = some c) :
    write h a op = h ∨ Rewrites h (write h a op) (targetOf c a) op := by
  obtain ⟨hcell, -⟩ := cellOf_eq_some hc
  cases c with
  | view blob start len =>
    obtain ⟨nums, hblob, hlen, -⟩ := hok.fits _ _ hcell
    have hwrite : write h a op = h.put blob ((Cell.data nums).writeNum start len op) := by
      rw [write, hc]
      dsimp only
      rw [hblob]
    cases op with
    | num i bits =>
      by_cases hi : i < len
      · refine .inr ⟨.data nums, .data (nums.set (start + i) bits), hblob, ?_, ?_, rfl, ?_, ?_, ?_⟩
        · rintro rfl
          rw [List.length_nil] at hlen
          omega
        · intro hnil
          have hzero := congrArg List.length hnil
          rw [List.length_set, List.length_nil] at hzero
          omega
        · intro nums' hnums
          cases hnums
          exact ⟨_, rfl, List.length_set ..⟩
        · exact fun y hy => absurd hy List.not_mem_nil
        · rw [hwrite, Cell.writeNum, if_pos hi]
          rfl
      · left
        rw [hwrite, Cell.writeNum, if_neg hi, Heap.put, ← hblob, update_eq_self]
    | push | pop | set | field =>
      left
      rw [hwrite]
      show h.put blob (.data nums) = h
      rw [Heap.put, ← hblob, update_eq_self]
  | data => exact absurd rfl (ne_data hc)
  | arr | struct | box | vec | map =>
    exact write_put hcell (by rw [write, hc]; rfl) (fun nums => Cell.noConfusion)

theorem not_view (hm : c.Mutable) : targetOf c v = v.payload ∧ ∀ b s l, c ≠ .view b s l := by
  cases c with
  | view => exact hm.elim
  | arr | struct | data | box | vec | map => exact ⟨rfl, fun _ _ _ => Cell.noConfusion⟩

namespace Rewrites

/-- The cell of a word after a mutation. -/
theorem cellOf (hr : Rewrites h h' q op) (x : JaclVal) :
    h'.cellOf x = h.cellOf x ∨ x.payload = q ∧ ∃ c c', h.cellOf x = some c ∧ h'.cellOf x = some c' ∧
      c.Mutable ∧ c'.Mutable ∧ ∀ y ∈ c'.words, y ∈ c.words ∨ y = nil ∨ op.stored = some y := by
  obtain ⟨c, c', hcell, hm, hm', htypes, -, hwords, rfl⟩ := hr.ex
  by_cases hx : x.payload = q
  · have hcell' : (h.put q c').cells x.payload = some c' := by
      rw [hx]
      exact update_self ..
    by_cases ht : x.type ∈ c.types
    · exact .inr ⟨hx, c, c', cellOf_of (hx ▸ hcell) ht, cellOf_of hcell' (htypes ▸ ht), hm, hm', hwords⟩
    · left
      rw [Heap.cellOf, Heap.cellOf, hcell', hx, hcell]
      exact (if_neg (htypes ▸ ht)).trans (if_neg ht).symm
  · exact .inl (cellOf_congr (update_of_ne hx ..))

theorem cells_of_ne (hr : Rewrites h h' q op) {p : Nat} (hp : p ≠ q) : h'.cells p = h.cells p := by
  obtain ⟨c, c', -, -, -, -, -, -, rfl⟩ := hr.ex
  exact update_of_ne hp ..

/-- **What does not reach the cell** is as it was. -/
theorem cellOf_frame (hr : Rewrites h h' q op) (hno : ¬ Reach h w q) (hx : Finds h w x) :
    h'.cellOf x = h.cellOf x := by
  obtain heq | ⟨hq, c, -, hc, -⟩ := hr.cellOf x
  · exact heq
  · exact absurd ⟨x, c, hx, hc, .inl hq.symm⟩ hno

theorem finds_frame (hr : Rewrites h h' q op) (hno : ¬ Reach h w q) (hf : Finds h' w x) : Finds h w x := by
  induction hf with
  | refl => exact .refl
  | tail _ hp ih =>
    obtain ⟨c, hc, hy⟩ := hp
    rw [hr.cellOf_frame hno ih] at hc
    exact ih.tail ⟨c, hc, hy⟩

theorem reach_frame (hr : Rewrites h h' q op) (hno : ¬ Reach h w q) {p : Nat} (hp : Reach h' w p) :
    Reach h w p := by
  obtain ⟨x, c, hf, hc, heq⟩ := hp
  have hf' := hr.finds_frame hno hf
  exact ⟨x, c, hf', by rw [← hr.cellOf_frame hno hf', hc], heq⟩

theorem reach_part (hp : Part h w y) {p : Nat} (hr : Reach h y p) : Reach h w p := by
  obtain ⟨x, c, hf, hc, heq⟩ := hr
  exact ⟨x, c, .head hp hf, hc, heq⟩

/-- **And reads as it did.** -/
theorem read_frame (hr : Rewrites h h' q op) (hno : ¬ Reach h w q) : read n h' w = read n h w := by
  induction n generalizing w with
  | zero => rfl
  | succ n ih =>
    rw [read, read, hr.cellOf_frame hno .refl]
    cases hc : h.cellOf w with
    | none => rfl
    | some c =>
      have hparts : c.words.map (read n h') = c.words.map (read n h) :=
        List.map_congr_left fun y hy => ih fun hy' => hno (reach_part ⟨c, hc, hy⟩ hy')
      have hwindow : h'.window c = h.window c := by
        cases c with
        | view blob start len =>
          have hne : blob ≠ q := fun heq => hno ⟨w, _, .refl, hc, .inr heq.symm⟩
          rw [Heap.window, Heap.window, hr.cells_of_ne hne]
        | arr | struct | data | box | vec | map => rfl
      dsimp only
      rw [hparts, hwindow]

/-- No cell is reached from a word that is no pointer. -/
theorem not_reach_word (ht : v.type ∉ heapTypes) {p : Nat} : ¬ Reach h v p := by
  have hnone : h.cellOf v = none := cellOf_word ht
  rintro ⟨x, c, hf, hc, -⟩
  rcases hf.cases_head with rfl | ⟨y, ⟨d, hd, -⟩, -⟩
  · rw [hnone] at hc
    cases hc
  · rw [hnone] at hd
    cases hd

/-- **What is reached after a mutation** was reached before, or from the word that was stored. -/
theorem reach_grows (hr : Rewrites h h' q op) {p : Nat} (hp : Reach h' y p) :
    Reach h y p ∨ ∃ x, op.stored = some x ∧ Reach h x p := by
  obtain ⟨z, d, hf, hd, heq⟩ := hp
  induction hf using ReflTransGen.head_induction_on with
  | refl =>
    left
    obtain hsame | ⟨-, c, c', hc, hc', -, hm', -⟩ := hr.cellOf z
    · exact ⟨z, d, .refl, by rw [← hsame, hd], heq⟩
    · cases hd.symm.trans hc'
      rw [(not_view hm').1, or_self] at heq
      exact ⟨z, c, .refl, hc, .inl heq⟩
  | @head y y₁ hpart _ ih =>
    obtain ⟨e, he, hy₁⟩ := hpart
    obtain hreach | hstored := ih
    · obtain hsame | ⟨-, c, c', hc, hc', -, -, hwords⟩ := hr.cellOf y
      · exact .inl (reach_part ⟨e, by rw [← hsame, he], hy₁⟩ hreach)
      · cases he.symm.trans hc'
        obtain hold | rfl | hnew := hwords y₁ hy₁
        · exact .inl (reach_part ⟨c, hc, hold⟩ hreach)
        · exact absurd hreach (not_reach_word (by decide))
        · exact .inr ⟨y₁, hnew, hreach⟩
    · exact .inr hstored

/-- The heap after a mutation. -/
theorem ok (hr : Rewrites h h' q op) (hok : h.Ok) (hst : ∀ x, op.stored = some x → h.Refs x) : h'.Ok := by
  obtain ⟨c, c', hcell, hm, hm', -, hdata, hwords, rfl⟩ := hr.ex
  have hfits : ∀ d, h.Fits d → (h.put q c').Fits d := by
    intro d hd
    cases d with
    | view blob start len =>
      obtain ⟨nums, hblob, hlen, hzero⟩ := hd
      by_cases hq : blob = q
      · rw [hq, hcell] at hblob
        obtain ⟨nums', rfl, hlen'⟩ := hdata nums (Option.some.inj hblob)
        refine ⟨nums', by rw [hq]; exact update_self .., by omega, fun h0 => ?_⟩
        rw [hzero h0, List.length_nil] at hlen'
        exact List.length_eq_zero_iff.mp hlen'
      · exact ⟨nums, (update_of_ne hq ..).trans hblob, hlen, hzero⟩
    | arr | struct | data | box | vec | map => exact hd
  have hlt := hok.lt_next hcell
  refine ⟨fun p hp => ?_, fun p d hd => ?_⟩
  · have hp' : h.next ≤ p := hp
    exact (update_of_ne (by omega) ..).trans (hok.fresh p hp')
  · have hd' : update h.cells q (some c') p = some d := hd
    by_cases hpq : p = q
    · rw [hpq, update_self] at hd'
      cases hd'
      have hall : ∀ y ∈ c'.words, h.Refs y := by
        intro y hy
        obtain hold | rfl | hnew := hwords y hy
        · have hc := hok.fits q c hcell
          cases c with
          | view => exact hm.elim
          | arr | struct | data | box | vec | map => exact hc y hold
        · exact fun ht => absurd ht (by decide)
        · exact hst y hnew
      cases c' with
      | view => exact hm'.elim
      | arr | struct | data | box | vec | map => exact hall
    · rw [update_of_ne hpq] at hd'
      exact hfits d (hok.fits p d hd')

end Rewrites

/-! ### Independence -/

theorem Apart.symm (ha : Apart h v w) : Apart h w v := fun q c hw hv => ha q c hv hw

/-- The two share nothing that can change. -/
structure Inv (h : Heap) (v w : JaclVal) : Prop where
  ok : h.Ok
  left : h.Refs v
  right : h.Refs w
  apart : Apart h v w

namespace Inv

theorem symm (hi : Inv h v w) : Inv h w v := ⟨hi.ok, hi.right, hi.left, hi.apart.symm⟩

/-- A mutation through the one, as the other sees it. -/
theorem write_cases (hi : Inv h v w) (ha : Finds h v a) (op : Write) :
    write h a op = h ∨ ∃ q, Rewrites h (write h a op) q op ∧ ¬ Reach h w q := by
  cases hc : h.cellOf a with
  | none => exact .inl (by rw [write, hc])
  | some c =>
    obtain heq | hr := Snapshots.write_cases hi.ok hc
    · exact .inl heq
    · refine .inr ⟨_, hr, fun hw => ?_⟩
      obtain ⟨d, -, hd, hm, -⟩ := hr.ex
      exact hi.apart _ d ⟨a, c, ha, hc, .inr rfl⟩ hw hd hm

/-- **A mutation through the one** keeps them apart, and the other reads the same. -/
theorem write (hi : Inv h v w) (ha : Finds h v a) (hcl : op.Clear h w) :
    Inv (write h a op) v w ∧ ∀ n, read n (Snapshots.write h a op) w = read n h w := by
  obtain heq | ⟨q, hr, hno⟩ := hi.write_cases ha op
  · rw [heq]
    exact ⟨hi, fun _ => rfl⟩
  have hnext : (Snapshots.write h a op).next = h.next := by
    obtain ⟨c, c', -, -, -, -, -, -, heq⟩ := hr.ex
    rw [heq]
    rfl
  refine ⟨⟨hr.ok hi.ok fun x hx => (hcl x hx).1, ?_, ?_, ?_⟩, fun n => hr.read_frame hno⟩
  · exact fun ht => hnext ▸ hi.left ht
  · exact fun ht => hnext ▸ hi.right ht
  · intro p d hv hw hd hm
    have hw' := hr.reach_frame hno hw
    rw [hr.cells_of_ne fun heq => hno (heq ▸ hw')] at hd
    obtain hv' | ⟨x, hx, hx'⟩ := hr.reach_grows hv
    · exact hi.apart p d hv' hw' hd hm
    · exact (hcl x hx).2 p d hx' hw' hd hm

theorem alloc (hi : Inv h v w) (hc : h.Fits c) : Inv (h.alloc c).1 v w := by
  have he := Ext.alloc h c
  refine ⟨hi.ok.alloc hc, he.refs hi.left, he.refs hi.right, fun p d hv hw hd => ?_⟩
  have hv' := (he.reach hi.ok hi.left).mp hv
  rw [he.old p (hi.ok.reach_lt hv')] at hd
  exact hi.apart p d hv' ((he.reach hi.ok hi.right).mp hw) hd

end Inv

/-- **What is apart stays apart.** -/
theorem Steps.inv (hs : Steps v w h h₁) (hi : Inv h v w) : Inv h₁ v w := by
  induction hs with
  | refl => exact hi
  | alloc _ hc ih => exact ih.alloc hc
  | left _ ha hcl ih => exact (ih.write ha hcl).1
  | right _ ha hcl ih => exact (ih.symm.write ha hcl).1.symm

theorem independent_of_inv (hi : Inv h v w) : Independent h v w := by
  intro h₁ hs a op
  have hi₁ := hs.inv hi
  exact ⟨fun ha hcl => (hi₁.write ha hcl).2, fun ha hcl => (hi₁.symm.write ha hcl).2⟩

/-! ### What is shared is seen -/

/-- A mutation that is seen through a word is seen through whatever finds it. -/
theorem seen (hsame : ∀ u, h'.cellOf u = h.cellOf u ∨ ∃ n, read n h' u ≠ read n h u)
    (hx : ∃ n, read n h' x ≠ read n h x) (hf : Finds h w x) : ∃ n, read n h' w ≠ read n h w := by
  induction hf using ReflTransGen.head_induction_on with
  | refl => exact hx
  | @head w y hpart _ ih =>
    obtain ⟨c, hc, hy⟩ := hpart
    obtain ⟨n, hn⟩ := ih
    obtain hcell | hseen := hsame w
    · refine ⟨n + 1, fun heq => hn ?_⟩
      rw [read, read, hcell, hc] at heq
      injection heq with _ _ _ hparts
      exact List.map_inj_left.mp hparts y hy
    · exact hseen

/-- A cell replaced by one that reads differently. -/
theorem seen_put {c' : Cell} (hc : h.cellOf x = some c) (htypes : c'.types = c.types)
    (hread : ∀ u, h.cellOf u = some c → (h.put x.payload c').cellOf u = some c' →
      ∃ n, read n (h.put x.payload c') u ≠ read n h u) (hf : Finds h w x) :
    ∃ n, read n (h.put x.payload c') w ≠ read n h w := by
  obtain ⟨hcell, ht⟩ := cellOf_eq_some hc
  have hnew : (h.put x.payload c').cells x.payload = some c' := update_self ..
  refine seen (fun u => ?_) (hread x hc (cellOf_of hnew (htypes ▸ ht))) hf
  by_cases hu : u.payload = x.payload
  · by_cases htu : u.type ∈ c.types
    · exact .inr (hread u (cellOf_of (hu ▸ hcell) htu) (cellOf_of (hu ▸ hnew) (htypes ▸ htu)))
    · left
      rw [Heap.cellOf, Heap.cellOf, hu, hnew, hcell]
      exact (if_neg (htypes ▸ htu)).trans (if_neg htu).symm
  · exact .inl (cellOf_congr (update_of_ne hu ..))

/-- **What can be changed can be seen to change**, by a mutation that stores no pointer. -/
theorem exists_seen (hok : h.Ok) (hx : Changeable h x) :
    ∃ op : Write, (∀ y, op.stored = some y → y.type ∉ heapTypes) ∧
      ∀ w, Finds h w x → ∃ n, read n (write h x op) w ≠ read n h w := by
  obtain ⟨c, hc, d, hd, hm⟩ := hx
  obtain ⟨hcell, -⟩ := cellOf_eq_some hc
  cases c with
  | arr elems =>
    refine ⟨.push nil, (fun y hy => by cases hy; decide), fun w hf => ?_⟩
    have hwrite : write h x (.push nil) = h.put x.payload (.arr (elems ++ [nil])) := by
      rw [write, hc]
      rfl
    rw [hwrite]
    refine seen_put hc rfl (fun u hu hu' => ⟨1, fun heq => ?_⟩) hf
    -- there is one element more
    rw [read, read, hu, hu'] at heq
    injection heq with _ _ _ hparts
    have hlen := congrArg List.length hparts
    rw [List.length_map, List.length_map] at hlen
    exact absurd hlen (by rw [Cell.words, Cell.words, List.length_append, List.length_singleton]; omega)
  | struct typename fields =>
    cases hcell.symm.trans hd
    obtain ⟨f, rest, rfl⟩ := List.exists_cons_of_ne_nil hm
    -- a word that is not the value of the first field
    obtain ⟨z, hz, hne⟩ : ∃ z : JaclVal, z.type ∉ heapTypes ∧ z ≠ f.2 := by
      by_cases hnil : f.2 = nil
      · exact ⟨i32 1, by decide, fun heq => absurd (heq.trans hnil) (by decide)⟩
      · exact ⟨nil, by decide, fun heq => hnil heq.symm⟩
    refine ⟨.field 0 z, (fun y hy => by cases hy; exact hz), fun w hf => ?_⟩
    have hwrite : write h x (.field 0 z) = h.put x.payload (.struct typename ((f.1, z) :: rest)) := by
      rw [write, hc]
      rfl
    rw [hwrite]
    refine seen_put hc rfl (fun u hu hu' => ⟨2, fun heq => ?_⟩) hf
    rw [read, read, hu, hu'] at heq
    injection heq with _ _ _ hparts
    injection hparts with hhead
    rw [read, cellOf_word hz, read] at hhead
    cases hcf : h.cellOf f.2 with
    | none =>
      rw [hcf] at hhead
      injection hhead with hzf
      exact hne hzf
    | some cf =>
      rw [hcf] at hhead
      cases hhead
  | view blob start len =>
    obtain ⟨nums, hblob, hlen, hzero⟩ := hok.fits _ _ hcell
    cases hblob.symm.trans hd
    have hpos : 0 < len := Nat.pos_of_ne_zero fun h0 => hm (hzero h0)
    have hstart : start < nums.length := by omega
    refine ⟨.num 0 (nums[start] + 1), (fun y hy => by cases hy), fun w hf => ?_⟩
    have hwrite : write h x (.num 0 (nums[start] + 1)) =
        h.put blob (.data (nums.set start (nums[start] + 1))) := by
      rw [write, hc]
      dsimp only
      rw [hblob]
      show h.put blob (.data (if 0 < len then _ else _)) = _
      rw [if_pos hpos]
      rfl
    rw [hwrite]
    -- no word points to the blob
    have hsame : ∀ u, (h.put blob (.data (nums.set start (nums[start] + 1)))).cellOf u = h.cellOf u := by
      intro u
      by_cases hu : u.payload = blob
      · have hnew : (h.put blob (.data (nums.set start (nums[start] + 1)))).cells blob = some _ :=
          update_self ..
        rw [Heap.cellOf, Heap.cellOf, hu, hnew, hblob]
        rfl
      · exact cellOf_congr (update_of_ne hu ..)
    refine seen (fun u => .inl (hsame u)) ⟨1, fun heq => ?_⟩ hf
    rw [read, read, hsame, hc] at heq
    injection heq with _ _ hnums
    have hnew : (h.put blob (.data (nums.set start (nums[start] + 1)))).cells blob = some _ :=
      update_self ..
    rw [Heap.window, Heap.window, hnew, hblob] at hnums
    have hhead := congrArg (fun xs : List (BitVec 64) => xs[0]?) hnums
    dsimp only at hhead
    rw [List.getElem?_take_of_lt hpos, List.getElem?_take_of_lt hpos, List.getElem?_drop, List.getElem?_drop,
      Nat.add_zero, List.getElem?_set_self hstart, List.getElem?_eq_getElem hstart] at hhead
    have hone := Option.some.inj hhead
    rw [add_eq_left] at hone
    exact absurd hone (by decide)
  | data => exact absurd rfl (ne_data hc)
  | box | vec | map =>
    cases hcell.symm.trans hd
    exact hm.elim

/-! ### Boxes -/

/-- A box keeps what it holds. -/
theorem Steps.box {b u : JaclVal} (hs : Steps v w h h₁) (hi : Inv h v w) (hb : h.cellOf b = some (.box u)) :
    h₁.cellOf b = some (.box u) := by
  have hwrite : ∀ {g : Heap} {a : JaclVal} {op : Write} {v w : JaclVal}, Inv g v w → Finds g v a →
      g.cellOf b = some (.box u) → (write g a op).cellOf b = some (.box u) := by
    intro g a op v w hg ha hb
    obtain heq | ⟨q, hr, -⟩ := hg.write_cases ha op
    · rw [heq, hb]
    · obtain hsame | ⟨-, c, c', hc, -, hm, -⟩ := hr.cellOf b
      · rw [hsame, hb]
      · cases hb.symm.trans hc
        exact hm.elim
  induction hs with
  | refl => exact hb
  | @alloc g c hs _ ih =>
    have hlt := (hs.inv hi).ok.lt_next (cellOf_eq_some ih).1
    rw [cellOf_congr ((Ext.alloc g c).old _ hlt), ih]
  | left hs ha _ ih => exact hwrite (hs.inv hi) ha ih
  | right hs ha _ ih => exact hwrite (hs.inv hi).symm ha ih

theorem boxGet_eq {b u : JaclVal} (hb : h.cellOf b = some (.box u)) (he : b.error = false) :
    boxGet h b = u := by
  rw [boxGet, if_neg (by rw [he]; exact Bool.false_ne_true), hb]

/-- What `jacl_box_new` stores, whether or not it asks for a copy. -/
theorem boxNew_succ : boxNew (n + 1) h v = (copyIn false (n + 1) h v).map fun r =>
    ((r.1.alloc (.box r.2)).1, plain 0x0B (r.1.alloc (.box r.2)).2) := by
  rw [boxNew]
  split
  · rfl
  · rename_i ht
    rw [copyIn_shared fun c hc => ?_]
    obtain ⟨-, htc⟩ := cellOf_eq_some hc
    cases c with
    | arr => exact absurd (.inl (List.mem_singleton.mp htc)) ht
    | struct => exact absurd (.inr (List.mem_singleton.mp htc)) ht
    | view | data | box | vec | map => rfl

theorem boxNew_zero {r : Heap × JaclVal} (hr : boxNew 0 h v = some r) : boxNew 1 h v = some r := by
  rw [boxNew] at hr ⊢
  split at hr
  · rw [deepCopy] at hr
    cases hr
  · rename_i ht
    rw [if_neg ht]
    exact hr

/-- What is shared and can be changed is found out. -/
theorem copied_of_snapshot (hok : h.Ok) (hv : h.Refs v) (hs : Snapshot h v) : ∃ n, Copied h n false v := by
  obtain ⟨fuel, h', b, w, hnew, hget, hind⟩ := hs
  obtain ⟨n, hnew⟩ : ∃ n, boxNew (n + 1) h v = some (h', b) := by
    cases fuel with
    | zero => exact ⟨0, boxNew_zero hnew⟩
    | succ n => exact ⟨n, hnew⟩
  rw [boxNew_succ] at hnew
  obtain ⟨⟨h₁, u⟩, hcopy, heq⟩ := Option.map_eq_some_iff.mp hnew
  cases heq
  obtain ⟨hok₁, he₁, hu⟩ := copyIn_sane hok (n + 1) false hok (.refl h) hv hcopy
  have hfits : h₁.Fits (.box u) := fun y hy => List.mem_singleton.mp hy ▸ hu
  obtain ⟨hok₂, he₂, -, hbox⟩ := placed hok₁ hfits (List.mem_cons_of_mem _ List.mem_cons_self : 0x0B ∈ (Cell.box u).types)
  have hw : u = w := (boxGet_eq hbox rfl).symm.trans (hget _ .refl)
  obtain hcopied | ⟨x, hf, hx, hfu⟩ := copied_or_shared hok hv hok (.refl h) hcopy
  · exact ⟨_, hcopied⟩
  · -- a mutation of what is shared, which stores no pointer
    have he := he₁.trans he₂
    have hx' := (he.changeable hok (hok.refs_found hv hf)).mpr hx
    obtain ⟨op, hst, hseen⟩ := exists_seen hok₂ hx'
    have hclear : op.Clear (h₁.alloc (.box u)).1 w := fun y hy =>
      ⟨fun ht => absurd ht (hst y hy), fun q c hr => absurd hr (Rewrites.not_reach_word (hst y hy))⟩
    obtain ⟨m, hm⟩ := hseen w (hw ▸ (he₂.finds hok₁ hu).mpr hfu)
    exact absurd ((hind _ .refl x op).1 ((he.finds hok hv).mpr hf) hclear m) hm

/-- **When a snapshot is independent.**  The box of a value is made, and stays independent of it in
every run, if and only if what is not copied reaches nothing that can be changed. -/
theorem snapshot_iff (hok : h.Ok) (hv : h.Refs v) : Snapshot h v ↔ ∃ n, Copied h n false v := by
  constructor
  · exact copied_of_snapshot hok hv
  · rintro ⟨n, hcopied⟩
    obtain ⟨h₁, w, hcopy, hnew⟩ := new_of_copied hok hcopied hv hok (.refl h)
    obtain ⟨hok₁, he₁, hw⟩ := copyIn_sane hok (n + 1) false hok (.refl h) hv hcopy
    have hfits : h₁.Fits (.box w) := fun y hy => List.mem_singleton.mp hy ▸ hw
    obtain ⟨hok₂, he₂, -, hbox⟩ := placed hok₁ hfits (List.mem_cons_of_mem _ List.mem_cons_self : 0x0B ∈ (Cell.box w).types)
    have he := he₁.trans he₂
    have hi : Inv (h₁.alloc (.box w)).1 v w := by
      refine ⟨hok₂, he.refs hv, he₂.refs hw, fun q c hqv hqw hc hm => ?_⟩
      have hlt := hok.reach_lt ((he.reach hok hv).mp hqv)
      exact absurd (hnew.ext hok₁ hw he₂ q c hqw hc hm) (Nat.not_le_of_lt hlt)
    refine ⟨n + 1, _, _, w, by rw [boxNew_succ, hcopy, Option.map_some], ?_, independent_of_inv hi⟩
    exact fun h₂ hs => boxGet_eq (hs.box hi hbox) rfl

/-- An array of an array of a number, and a flat buffer of one element. -/
def nest : Heap :=
  ⟨fun p =>
    if p = 16 then some (.arr [plain 0x1A 32]) else if p = 32 then some (.arr [i32 7])
    else if p = 48 then some (.view 64 0 1) else if p = 64 then some (.data [7]) else none, 80⟩

theorem nest_ok : nest.Ok := by
  refine ⟨fun p hp => ?_, fun p c hc => ?_⟩
  · have hp' : 80 ≤ p := hp
    simp only [nest]
    rw [if_neg (by omega), if_neg (by omega), if_neg (by omega), if_neg (by omega)]
  · simp only [nest] at hc
    split at hc
    · cases hc
      intro y hy
      rw [List.mem_singleton.mp hy]
      exact fun _ => by decide
    split at hc
    · cases hc
      intro y hy
      rw [List.mem_singleton.mp hy]
      exact fun _ => by decide
    split at hc
    · cases hc
      exact ⟨[7], rfl, by decide, fun h0 => absurd h0 (by decide)⟩
    split at hc
    · cases hc
      exact fun y hy => absurd hy List.not_mem_nil
    · cases hc

/-- A box of an array of an array. -/
theorem snapshot_iff_nest : Snapshot nest (plain 0x1A 16) := by
  refine (snapshot_iff nest_ok fun _ => by decide).mpr ⟨2, .arr rfl fun e he => ?_⟩
  rw [List.mem_singleton.mp he]
  refine .arr rfl fun e he => ?_
  rw [List.mem_singleton.mp he]
  refine .shared fun x hf hx => ?_
  obtain ⟨c, hc, -⟩ := hx
  rcases hf.cases_head with rfl | ⟨y, ⟨d, hd, -⟩, -⟩
  · cases hc
  · cases hd

/-- **A box of a flat buffer is the buffer.** -/
theorem not_snapshot : nest.Ok ∧ nest.Refs (plain 0x1E 48) ∧ ¬ Snapshot nest (plain 0x1E 48) := by
  have hrefs : nest.Refs (plain 0x1E 48) := fun _ => by decide
  refine ⟨nest_ok, hrefs, fun hs => ?_⟩
  have hcell : nest.cellOf (plain 0x1E 48) = some (.view 64 0 1) := rfl
  obtain ⟨n, hcopied⟩ := copied_of_snapshot nest_ok hrefs hs
  cases hcopied with
  | shared hno =>
    exact hno _ .refl ⟨_, hcell, .data [7], rfl, fun hnil => absurd hnil (by decide)⟩
  | arr hc _ => cases hcell.symm.trans hc
  | struct hc _ => cases hcell.symm.trans hc

end Jacl.Snapshots
