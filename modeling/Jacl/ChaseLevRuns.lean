import Jacl.ChaseLev

/-!
# Runs of the work-stealing deque

The deque denotes a list in every reachable state: what has taken effect so far replays on the
empty list and gives the elements between `top` and the effective bottom.  A thief that has passed
its test of `bottom` either has an old `top`, and its CAS will fail, or holds the index of the
first element, below everything the owner may take without a CAS.

A buffer that a thief holds is the current one, or it was retired under an epoch no older than the
one the thief announced; a `reclaim` either has that epoch below its minimum or has the thief's
slot still to read.
-/

namespace Jacl.ChaseLev
open Function Deques

variable {α : Type} [Inhabited α]

/-! ### The invariant -/

namespace State
variable (s : State α)

/-- Below this a thief may still take an element. -/
def stealLim : Int :=
  match s.owner with
  | .takeRead b _ t => if t < b then b else b + 1
  | _ => s.hi

/-- The current buffer is in the retired list already. -/
def Swapping : Prop :=
  match s.owner with
  | .swap .. => True
  | _ => False

/-- A thief that announced `e` may read `B` as buffer `k`. -/
structure Held (e k : Nat) (B : Buffer α) : Prop where
  alive : s.heap k = some B
  kept : k = s.buffer ∨ ∃ n ∈ s.retired, n.buffer = k ∧ e ≤ n.retireEpoch

/-- What a thief with slot `σ` has announced. -/
def Announced (σ e : Nat) : Prop := s.slots σ = some e ∧ e ≤ s.epoch

/-- A thief's `top` is old, or is that of an element it may have. -/
structure Claims (t : Int) : Prop where
  le : t ≤ s.top
  lt : t = s.top → s.top < s.stealLim

/-- Where a thief with slot `σ` is. -/
def PhaseOk (σ : Nat) : Phase α → Prop
  | .entered e => e ≤ s.epoch
  | .announced => ∃ e, s.Announced σ e
  | .gotTop t => (∃ e, s.Announced σ e) ∧ t ≤ s.top
  | .gotBottom t => (∃ e, s.Announced σ e) ∧ s.Claims t
  | .gotBuffer t k => ∃ e B, s.Announced σ e ∧ s.Claims t ∧ s.Held e k B ∧
      (t = s.top → B.get t = s.current.get t)
  | .gotElem t x => s.Claims t ∧ (t = s.top → x = s.current.get t)
  | .refused => False
  | _ => True

/-- A thief without a slot is idle, or has to take its count back. -/
def ThiefOk (i : Nat) : Thief α → Prop
  | ⟨some σ, p⟩ => σ < s.handed ∧ i ∉ s.refusals ∧ s.PhaseOk σ p
  | ⟨none, .idle⟩ => i ∉ s.refusals
  | ⟨none, .refused⟩ => i ∈ s.refusals
  | _ => False

/-- The slots. -/
structure SlotsOk : Prop where
  count : s.thiefCount = s.handed + s.refusals.card
  handed : s.handed ≤ maxThieves
  full : s.refusals.Nonempty → s.handed = maxThieves ∧ s.crowded = true
  apart : ∀ i j σ, (s.thieves i).id = some σ → (s.thieves j).id = some σ → i = j

/-- The buffers. -/
structure HeapOk : Prop where
  current : s.heap s.buffer = some s.current
  nonneg : 0 ≤ s.top
  le : s.top ≤ s.hi
  room : s.hi - s.top ≤ s.current.capacity
  fresh : ∀ k, s.next ≤ k → s.heap k = none
  nodes : ∀ n ∈ s.retired, s.heap n.buffer ≠ none ∧ n.retireEpoch ≤ s.epoch
  alone : ∀ n ∈ s.retired, ∀ n' ∈ s.retired, n.buffer = n'.buffer → n = n'
  away : ¬s.Swapping → ∀ n ∈ s.retired, n.buffer ≠ s.buffer

/-- There is room for one more in buffer `k`, the current one. -/
structure Room (k : Nat) (b : Int) : Prop where
  buffer : k = s.buffer
  bottom : b = s.bottom
  room : b - s.top < s.current.capacity

def AfterOk : After α → Prop
  | .done => True
  | .write _ b k => s.Room k b

/-- Buffer `k'` is no one's yet, has room, and has the elements from `t` up to `i`. -/
structure Grows (k' : Nat) (t b i : Int) : Prop where
  unseen : k' ≠ s.buffer
  unretired : ∀ n ∈ s.retired, n.buffer ≠ k'
  bottom : b = s.bottom
  old : t ≤ s.top
  copied : ∃ B', s.heap k' = some B' ∧ b - t < B'.capacity ∧
    ∀ j, t ≤ j → j < i → B'.get j = s.current.get j

/-- Where the owner is. -/
def OwnerOk : Prop :=
  match s.owner with
  | .idle => True
  | .pushBottom _ b => b = s.bottom
  | .pushTop _ b t => b = s.bottom ∧ t ≤ s.top ∧ b - t ≤ s.current.capacity
  | .grow _ b t k k' i => k = s.buffer ∧ t ≤ i ∧ i ≤ b ∧ s.Grows k' t b i
  | .swap _ b k' e => e = s.epoch ∧ (⟨s.buffer, e⟩ : Retired) ∈ s.retired ∧ ∃ t, s.Grows k' t b b
  | .advance _ b k' e => e = s.epoch ∧ s.Room k' b
  | .reclaim c => s.AfterOk c
  | .scan c _ _ _ => s.AfterOk c
  | .overrun => s.crowded = true
  | .write _ b k => s.Room k b
  | .publish x b => b = s.bottom ∧ b - s.top < s.current.capacity ∧ s.current.get b = x
  | .takeBottom b => b = s.bottom - 1
  | .takeBuffer b k => b = s.bottom - 1 ∧ k = s.buffer
  | .takeStored b k => b = s.bottom ∧ k = s.buffer
  | .takeRead b k t => b = s.bottom ∧ k = s.buffer ∧ t ≤ s.top ∧ t ≤ b ∧ (t < b → s.top ≤ b)
  | .takeRace t x => t = s.bottom ∧ t ≤ s.top ∧ (t = s.top → x = s.current.get t)
  | .restore v => v = s.bottom + 1 ∧ v = s.top

/-- Where `reclaim` is in the slots: what a thief holds is kept by the minimum, or by the slots that
are still to be read. -/
def ScanOk : Prop :=
  match s.owner with
  | .scan _ n i min =>
    (maxThieves < n → s.crowded = true) ∧
    ∀ j σ t k, s.thieves j = ⟨some σ, .gotBuffer t k⟩ → ∀ nd ∈ s.retired, nd.buffer = k →
      nd.freeable min = false ∨ i ≤ σ ∧ σ < n
  | _ => True

/-- **What holds in every reachable state.** -/
structure Inv : Prop where
  slots : s.SlotsOk
  heap : s.HeapOk
  owner : s.OwnerOk
  thieves : ∀ i, s.ThiefOk i (s.thieves i)
  scan : s.ScanOk
  replays : Replays s.log s.contents

end State

/-! ### What the steps leave to a thief -/

section Evolves
variable {s s' : State α} {i σ e k : Nat} {t : Int} {p : Phase α} {th : Thief α} {B : Buffer α}

/-- A change that the thieves can bear. -/
structure Evolves (s s' : State α) : Prop where
  epoch : s.epoch ≤ s'.epoch
  top : s.top ≤ s'.top
  lim : s'.top = s.top → s.top < s.stealLim → s.top < s'.stealLim
  get : s'.top = s.top → s.top < s.stealLim → s'.current.get s.top = s.current.get s.top
  held : ∀ {j σ t e k B}, s.thieves j = ⟨some σ, .gotBuffer t k⟩ → s.Held e k B → e ≤ s.epoch →
    ∃ B', s'.Held e k B' ∧ (s'.top = s.top → s.top < s.stealLim → B.get s.top = s.current.get s.top →
      B'.get s.top = s'.current.get s.top)
  handed : s.handed ≤ s'.handed

theorem State.Announced.evolves (h : s.Announced σ e) (ev : Evolves s s')
    (hslot : s'.slots σ = s.slots σ) : s'.Announced σ e :=
  ⟨hslot.trans h.1, h.2.trans ev.epoch⟩

theorem State.Claims.evolves (h : s.Claims t) (ev : Evolves s s') : s'.Claims t := by
  refine ⟨h.le.trans ev.top, fun ht => ?_⟩
  have hle := h.le
  have htop := ev.top
  have heq : t = s.top := by omega
  have hsame : s'.top = s.top := by omega
  rw [hsame]
  exact ev.lim hsame (h.lt heq)

theorem State.PhaseOk.evolves (h : s.PhaseOk σ p) (ev : Evolves s s') (hi : s.thieves i = ⟨some σ, p⟩)
    (hslot : s'.slots σ = s.slots σ) : s'.PhaseOk σ p := by
  have htop := ev.top
  cases p with
  | idle => trivial
  | claimed => trivial
  | refused => exact h
  | entered e => exact Nat.le_trans h ev.epoch
  | announced => exact h.imp fun e he => he.evolves ev hslot
  | gotTop t => exact ⟨h.1.imp fun e he => he.evolves ev hslot, h.2.trans ev.top⟩
  | gotBottom t => exact ⟨h.1.imp fun e he => he.evolves ev hslot, h.2.evolves ev⟩
  | gotBuffer t k =>
    obtain ⟨e, B, he, hc, hheld, hget⟩ := h
    obtain ⟨B', hheld', hget'⟩ := ev.held hi hheld he.2
    refine ⟨e, B', he.evolves ev hslot, hc.evolves ev, hheld', fun ht => ?_⟩
    have hle := hc.le
    obtain rfl : t = s.top := by omega
    exact hget' ht.symm (hc.lt rfl) (hget rfl)
  | gotElem t x =>
    obtain ⟨hc, hx⟩ := h
    refine ⟨hc.evolves ev, fun ht => ?_⟩
    have hle := hc.le
    obtain rfl : t = s.top := by omega
    rw [hx rfl, ev.get ht.symm (hc.lt rfl)]
  | leaving => trivial

theorem State.ThiefOk.evolves (h : s.ThiefOk i (s.thieves i)) (ev : Evolves s s')
    (hslot : ∀ σ, (s.thieves i).id = some σ → s'.slots σ = s.slots σ)
    (hrefusals : i ∈ s'.refusals ↔ i ∈ s.refusals) : s'.ThiefOk i (s.thieves i) := by
  rcases hi : s.thieves i with ⟨id, p⟩
  rw [hi] at h hslot
  cases id with
  | some σ =>
    obtain ⟨hσ, hno, hp⟩ := h
    exact ⟨hσ.trans_le ev.handed, fun hn => hno (hrefusals.mp hn), hp.evolves ev hi (hslot σ rfl)⟩
  | none =>
    cases p with
    | idle => exact fun hn => h (hrefusals.mp hn)
    | refused => exact hrefusals.mpr h
    | _ => exact h

/-- The buffers that a thief may hold stay, and the first element with its limit. -/
theorem Evolves.of_kept (hepoch : s.epoch ≤ s'.epoch) (htop : s'.top = s.top)
    (hhanded : s.handed ≤ s'.handed) (hlim : s.top < s.stealLim → s.top < s'.stealLim)
    (hcur : s.top < s.stealLim → s'.current.get s.top = s.current.get s.top)
    (hheld : ∀ {j σ t e k B}, s.thieves j = ⟨some σ, .gotBuffer t k⟩ → s.Held e k B → e ≤ s.epoch →
      s'.Held e k B) : Evolves s s' := by
  refine ⟨hepoch, htop.ge, fun _ => hlim, fun _ => hcur, fun hj hh he => ?_, hhanded⟩
  exact ⟨_, hheld hj hh he, fun _ hlt hB => hB.trans (hcur hlt).symm⟩

/-- The memory and the counters stay, and the limit does not fall onto `top`. -/
theorem Evolves.of_same (hepoch : s'.epoch = s.epoch) (htop : s'.top = s.top)
    (hheap : s'.heap = s.heap) (hbuf : s'.buffer = s.buffer) (hret : s'.retired = s.retired)
    (hhanded : s.handed ≤ s'.handed) (hlim : s.top < s.stealLim → s.top < s'.stealLim) :
    Evolves s s' := by
  refine .of_kept hepoch.ge htop hhanded hlim (fun _ => ?_) fun _ hh _ => ?_
  · rw [State.current, State.current, hheap, hbuf]
  · exact ⟨by rw [hheap]; exact hh.alive, by rw [hbuf, hret]; exact hh.kept⟩

end Evolves

/-! ### The steps of the owner -/

section Owner
variable {s s' : State α} {x : α} {b t i : Int} {k k' e n m : Nat} {c : After α} {min : Option Nat}

omit [Inhabited α] in
theorem State.stealLim_le : s.stealLim ≤ s.hi := by
  unfold State.stealLim State.hi
  cases s.owner <;> simp only [le_refl]
  split <;> omega

/-- What the thieves and their slots are is left alone. -/
structure Keeps (s s' : State α) : Prop where
  thieves : s'.thieves = s.thieves
  slots : s'.slots = s.slots
  thiefCount : s'.thiefCount = s.thiefCount
  handed : s'.handed = s.handed
  refusals : s'.refusals = s.refusals
  crowded : s'.crowded = s.crowded

theorem State.Inv.own (h : s.Inv) (hk : Keeps s s') (ev : Evolves s s') (hheap : s'.HeapOk)
    (howner : s'.OwnerOk) (hscan : s'.ScanOk) (hrep : Replays s'.log s'.contents) : s'.Inv where
  slots :=
    { count := by rw [hk.thiefCount, hk.handed, hk.refusals]; exact h.slots.count
      handed := by rw [hk.handed]; exact h.slots.handed
      full := by rw [hk.refusals, hk.handed, hk.crowded]; exact h.slots.full
      apart := by rw [hk.thieves]; exact h.slots.apart }
  heap := hheap
  owner := howner
  thieves := by
    intro i
    rw [hk.thieves]
    exact (h.thieves i).evolves ev (fun σ _ => by rw [hk.slots]) (by rw [hk.refusals])
  scan := hscan
  replays := hrep

/-- The owner goes on with its own variables only. -/
theorem State.Inv.goTo (h : s.Inv) {o : Owner α} (hhi : { s with owner := o }.hi = s.hi)
    (hlim : s.top < s.stealLim → s.top < { s with owner := o }.stealLim) (hsw : ¬s.Swapping)
    (howner : { s with owner := o }.OwnerOk) (hscan : { s with owner := o }.ScanOk) :
    { s with owner := o }.Inv := by
  refine h.own ⟨rfl, rfl, rfl, rfl, rfl, rfl⟩ (.of_same rfl rfl rfl rfl rfl le_rfl hlim) ?_ howner hscan ?_
  · exact
      { current := h.heap.current
        nonneg := h.heap.nonneg
        le := by rw [hhi]; exact h.heap.le
        room := by rw [hhi]; exact h.heap.room
        fresh := h.heap.fresh
        nodes := h.heap.nodes
        alone := h.heap.alone
        away := fun _ => h.heap.away hsw }
  · have hrep := h.replays
    unfold State.contents at hrep ⊢
    rw [hhi]
    exact hrep

theorem State.AfterOk.goTo {o : Owner α} (h : s.AfterOk c) : { s with owner := o }.AfterOk c := by
  cases c with
  | done => trivial
  | write x b k => exact ⟨h.buffer, h.bottom, h.room⟩

/-- `push`, `take` and `reclaim` begin. -/
theorem State.Inv.startPush (h : s.Inv) (ho : s.owner = .idle) :
    { s with owner := .pushBottom x s.bottom }.Inv := by
  refine h.goTo ?_ ?_ (by simp [State.Swapping, ho]) rfl trivial <;> simp [State.hi, State.stealLim, ho]

theorem State.Inv.startTake (h : s.Inv) (ho : s.owner = .idle) :
    { s with owner := .takeBottom (s.bottom - 1) }.Inv := by
  refine h.goTo ?_ ?_ (by simp [State.Swapping, ho]) rfl trivial <;> simp [State.hi, State.stealLim, ho]

theorem State.Inv.startReclaim (h : s.Inv) (ho : s.owner = .idle) :
    { s with owner := .reclaim .done }.Inv := by
  refine h.goTo ?_ ?_ (by simp [State.Swapping, ho]) trivial trivial <;>
    simp [State.hi, State.stealLim, ho]

theorem State.Inv.pushBottom (h : s.Inv) (ho : s.owner = .pushBottom x b) :
    { s with owner := .pushTop x b s.top }.Inv := by
  have hb := h.owner
  have hroom := h.heap.room
  simp only [State.OwnerOk, State.hi, ho] at hb hroom
  refine h.goTo ?_ ?_ (by simp [State.Swapping, ho]) ⟨hb, le_rfl, by rw [hb]; exact hroom⟩ trivial <;>
    simp [State.hi, State.stealLim, ho]

/-- There is room: on to the store of the element. -/
theorem State.Inv.pushFits (h : s.Inv) (ho : s.owner = .pushTop x b t)
    (hfit : b - t < s.current.capacity) : { s with owner := .write x b s.buffer }.Inv := by
  have hb := h.owner
  simp only [State.OwnerOk, ho] at hb
  obtain ⟨hb, ht, -⟩ := hb
  refine h.goTo ?_ ?_ (by simp [State.Swapping, ho])
    ⟨rfl, hb, show b - s.top < s.current.capacity by omega⟩ trivial <;>
    simp [State.hi, State.stealLim, ho]

/-- A `reclaim` with nothing to do. -/
theorem State.Inv.leave (h : s.Inv) (ho : s.owner = .reclaim c) : { s with owner := c.owner }.Inv := by
  have hc := h.owner
  simp only [State.OwnerOk, ho] at hc
  cases c with
  | done =>
    refine h.goTo ?_ ?_ (by simp [State.Swapping, ho]) trivial trivial <;>
      simp [State.hi, State.stealLim, After.owner, ho]
  | write x b k =>
    refine h.goTo ?_ ?_ (by simp [State.Swapping, ho]) hc.goTo trivial <;>
      simp [State.hi, State.stealLim, After.owner, ho]

omit [Inhabited α] in
theorem State.SlotsOk.crowded (h : s.SlotsOk) (hlt : maxThieves < s.thiefCount) : s.crowded = true := by
  have hcount := h.count
  have hhanded := h.handed
  refine (h.full ?_).2
  rw [← Finset.card_pos]
  omega

theorem State.Inv.reclaim (h : s.Inv) (ho : s.owner = .reclaim c) :
    { s with owner := .scan c s.thiefCount 0 none }.Inv := by
  have hc := h.owner
  simp only [State.OwnerOk, ho] at hc
  refine h.goTo ?_ ?_ (by simp [State.Swapping, ho]) hc.goTo
    ⟨h.slots.crowded, fun j σ t k hj nd _ _ => .inr ⟨Nat.zero_le _, ?_⟩⟩
  · simp [State.hi, ho]
  · simp [State.hi, State.stealLim, ho]
  · have hth := h.thieves j
    have hcount := h.slots.count
    rw [show s.thieves j = _ from hj] at hth
    have hσ : σ < s.handed := hth.1
    show σ < s.thiefCount
    omega

theorem freeable_lower {nd : Retired} {min e : Option Nat} (h : nd.freeable min = false) :
    nd.freeable (lower min e) = false := by
  cases min with
  | none => simp [Retired.freeable] at h
  | some m =>
    cases e with
    | none => exact h
    | some e =>
      simp only [Retired.freeable, Option.all_some, decide_eq_false_iff_not, not_lt] at h
      unfold lower
      dsimp only
      split <;> simp only [Retired.freeable, Option.all_some, decide_eq_false_iff_not, not_lt] <;> omega

theorem freeable_lower_of_le {nd : Retired} {min : Option Nat} {e : Nat} (h : e ≤ nd.retireEpoch) :
    nd.freeable (lower min (some e)) = false := by
  cases min with
  | none => simpa [Retired.freeable, lower] using h
  | some m =>
    unfold lower
    dsimp only
    split <;> simp only [Retired.freeable, Option.all_some, decide_eq_false_iff_not, not_lt] <;> omega

/-- One slot is read: a thief in it has announced an epoch that keeps what it holds. -/
theorem State.Inv.scanSlot (h : s.Inv) (ho : s.owner = .scan c n m min) :
    { s with owner := .scan c n (m + 1) (lower min (s.slots m)) }.Inv := by
  have hc := h.owner
  have hsc := h.scan
  have hsw : ¬s.Swapping := by simp [State.Swapping, ho]
  simp only [State.OwnerOk, State.ScanOk, ho] at hc hsc
  obtain ⟨hcrowd, hkeep⟩ := hsc
  refine h.goTo (by simp [State.hi, ho]) (by simp [State.hi, State.stealLim, ho]) hsw hc.goTo
    ⟨hcrowd, fun j σ t k hj nd hnd hk => ?_⟩
  rcases hkeep j σ t k hj nd hnd hk with hfree | ⟨hle, hlt⟩
  · exact .inl (freeable_lower hfree)
  by_cases hσ : σ = m
  · subst hσ
    left
    have hth := h.thieves j
    rw [show s.thieves j = _ from hj] at hth
    obtain ⟨-, -, e, B, he, -, hheld, -⟩ := hth
    rw [he.1]
    apply freeable_lower_of_le
    rcases hheld.kept with hcur | ⟨nd', hnd', hk', hle'⟩
    · exact absurd (hk.trans hcur) (h.heap.away hsw nd hnd)
    · rwa [h.heap.alone nd hnd nd' hnd' (hk.trans hk'.symm)]
  · exact .inr ⟨by omega, hlt⟩

theorem State.Inv.overrun (h : s.Inv) (ho : s.owner = .scan c n m min) (hlt : m < n)
    (hmax : maxThieves ≤ m) : { s with owner := .overrun }.Inv := by
  have hsc := h.scan
  simp only [State.ScanOk, ho] at hsc
  refine h.goTo ?_ ?_ (by simp [State.Swapping, ho]) (hsc.1 (by omega)) trivial <;>
    simp [State.hi, State.stealLim, ho]

theorem State.Inv.takeBottom (h : s.Inv) (ho : s.owner = .takeBottom b) :
    { s with owner := .takeBuffer b s.buffer }.Inv := by
  have hb := h.owner
  simp only [State.OwnerOk, ho] at hb
  refine h.goTo ?_ ?_ (by simp [State.Swapping, ho]) ⟨hb, rfl⟩ trivial <;>
    simp [State.hi, State.stealLim, ho]

/-- `take` found the deque empty. -/
theorem State.Inv.takeEmpty (h : s.Inv) (ho : s.owner = .takeStored b k) (hlt : b - s.top < 0) :
    { s with owner := .restore s.top }.Inv := by
  have hb := h.owner
  have hle := h.heap.le
  simp only [State.OwnerOk, State.hi, ho] at hb hle
  refine h.goTo ?_ ?_ (by simp [State.Swapping, ho]) ⟨?_, rfl⟩ trivial
  · simp only [State.hi, ho]
    omega
  · simp only [State.stealLim, State.hi, ho]
    omega
  · show s.top = s.bottom + 1
    omega

theorem State.Inv.takeTop (h : s.Inv) (ho : s.owner = .takeStored b k) (hle : ¬b - s.top < 0) :
    { s with owner := .takeRead b k s.top }.Inv := by
  have hb := h.owner
  simp only [State.OwnerOk, ho] at hb
  refine h.goTo ?_ ?_ (by simp [State.Swapping, ho])
    ⟨hb.1, hb.2, le_rfl, show s.top ≤ b by omega, fun hlt => le_of_lt hlt⟩ trivial
  · simp only [State.hi, ho]
  · simp only [State.stealLim, State.hi, ho]
    split <;> omega

/-- `take` is at the last element. -/
theorem State.Inv.takeLast (h : s.Inv) (ho : s.owner = .takeRead b k t) (hle : ¬0 < b - t) :
    { s with owner := .takeRace t (s.current.get b) }.Inv := by
  have hb := h.owner
  simp only [State.OwnerOk, ho] at hb
  obtain ⟨hb, -, htop, htb, -⟩ := hb
  obtain rfl : b = t := by omega
  refine h.goTo ?_ ?_ (by simp [State.Swapping, ho]) ⟨hb, htop, fun _ => rfl⟩ trivial
  · simp only [State.hi, ho]
  · simp only [State.stealLim, State.hi, ho]
    simp

/-- A thief was faster. -/
theorem State.Inv.takeLost (h : s.Inv) (ho : s.owner = .takeRace t x) (hne : s.top ≠ t) :
    { s with owner := .restore (t + 1) }.Inv := by
  have hb := h.owner
  have hle := h.heap.le
  simp only [State.OwnerOk, State.hi, ho] at hb hle
  obtain ⟨hb, htop, -⟩ := hb
  refine h.goTo ?_ ?_ (by simp [State.Swapping, ho])
    ⟨show t + 1 = s.bottom + 1 by omega, show t + 1 = s.top by omega⟩ trivial
  · simp only [State.hi, ho]
  · simp only [State.stealLim, State.hi, ho]
    exact fun h => h

/-! ### A new buffer -/

theorem State.HeapOk.lt_next (h : s.HeapOk) {B : Buffer α} (hk : s.heap k = some B) : k < s.next := by
  by_contra hle
  rw [h.fresh k (by omega)] at hk
  cases hk

/-- Memory that no one has changes. -/
theorem State.Inv.onHeap (h : s.Inv) {B' : Buffer α} {o : Owner α} (hk : k' ≠ s.buffer)
    (hret : ∀ n ∈ s.retired, n.buffer ≠ k') (hm : k' < m) (hle : s.next ≤ m)
    (hhi : { s with heap := update s.heap k' (some B'), next := m, owner := o }.hi = s.hi)
    (hlim : s.top < s.stealLim →
      s.top < { s with heap := update s.heap k' (some B'), next := m, owner := o }.stealLim)
    (hsw : ¬s.Swapping)
    (howner : { s with heap := update s.heap k' (some B'), next := m, owner := o }.OwnerOk)
    (hscan : { s with heap := update s.heap k' (some B'), next := m, owner := o }.ScanOk) :
    { s with heap := update s.heap k' (some B'), next := m, owner := o }.Inv := by
  have hbuf : update s.heap k' (some B') s.buffer = s.heap s.buffer := update_of_ne hk.symm _ _
  have hcur : { s with heap := update s.heap k' (some B'), next := m, owner := o }.current = s.current := by
    show (update s.heap k' (some B') s.buffer).getD _ = _
    rw [hbuf]
    rfl
  refine h.own ⟨rfl, rfl, rfl, rfl, rfl, rfl⟩ (.of_kept le_rfl rfl le_rfl hlim (fun _ => by rw [hcur])
    fun _ hh _ => ⟨?_, hh.kept⟩) ?_ howner hscan ?_
  · refine (update_of_ne ?_ _ _).trans hh.alive
    rintro rfl
    rcases hh.kept with hb | ⟨n, hn, hb, -⟩
    · exact hk hb
    · exact hret n hn hb
  · exact
      { current := by rw [hcur]; exact hbuf.trans h.heap.current
        nonneg := h.heap.nonneg
        le := by rw [hhi]; exact h.heap.le
        room := by rw [hhi, hcur]; exact h.heap.room
        fresh := by
          intro k hmk
          have hmk : m ≤ k := hmk
          exact (update_of_ne (by omega) _ _).trans (h.heap.fresh k (by omega))
        nodes := by
          intro n hn
          refine ⟨?_, (h.heap.nodes n hn).2⟩
          show update s.heap k' (some B') n.buffer ≠ none
          rw [update_of_ne (hret n hn)]
          exact (h.heap.nodes n hn).1
        alone := h.heap.alone
        away := fun _ => h.heap.away hsw }
  · have hrep := h.replays
    unfold State.contents at hrep ⊢
    rw [hhi, hcur]
    exact hrep

theorem State.Inv.grow (h : s.Inv) (ho : s.owner = .pushTop x b t)
    (hfull : s.current.capacity ≤ b - t) :
    { s with
      heap := update s.heap s.next (some (Buffer.new (s.current.logCapacity + 1)))
      next := s.next + 1
      owner := .grow x b t s.buffer s.next t }.Inv := by
  have hb := h.owner
  simp only [State.OwnerOk, ho] at hb
  obtain ⟨hb, ht, hcap⟩ := hb
  have hpos := s.current.capacity_pos
  have hne : s.next ≠ s.buffer := (h.heap.lt_next h.heap.current).ne'
  have hret : ∀ n ∈ s.retired, n.buffer ≠ s.next := by
    intro n hn heq
    exact (h.heap.nodes n hn).1 (h.heap.fresh _ heq.ge)
  refine h.onHeap hne hret (Nat.lt_succ_self _) (Nat.le_succ _) ?_ ?_ (by simp [State.Swapping, ho])
    ⟨rfl, le_rfl, by omega, hne, hret, hb, ht, _, update_self _ _ _, ?_, ?_⟩ trivial
  · simp [State.hi, ho]
  · simp [State.hi, State.stealLim, ho]
  · simp only [Buffer.capacity, Buffer.new, pow_succ] at hcap hpos ⊢
    omega
  · intro j hj hlt
    omega

theorem State.Inv.copy (h : s.Inv) (ho : s.owner = .grow x b t k k' i) (hlt : i < b)
    {B B' : Buffer α} (hB : s.heap k = some B) (hB' : s.heap k' = some B') :
    { s with
      heap := update s.heap k' (some (B'.put i (B.get i)))
      owner := .grow x b t k k' (i + 1) }.Inv := by
  have hb := h.owner
  simp only [State.OwnerOk, ho] at hb
  obtain ⟨rfl, hti, -, hg⟩ := hb
  obtain ⟨B'', hB'', hroom, hcopied⟩ := hg.copied
  obtain rfl : B' = B'' := Option.some.inj (hB'.symm.trans hB'')
  obtain rfl : B = s.current := Option.some.inj (hB.symm.trans h.heap.current)
  have hcur : { s with
      heap := update s.heap k' (some (B'.put i (s.current.get i)))
      owner := .grow x b t s.buffer k' (i + 1) }.current = s.current := by
    show (update s.heap k' _ s.buffer).getD _ = _
    rw [update_of_ne hg.unseen.symm]
    rfl
  refine h.onHeap hg.unseen hg.unretired (h.heap.lt_next hB') le_rfl ?_ ?_ (by simp [State.Swapping, ho])
    ⟨rfl, by omega, by omega, hg.unseen, hg.unretired, hg.bottom, hg.old, _, update_self _ _ _, hroom, ?_⟩
    trivial
  · simp [State.hi, ho]
  · simp [State.hi, State.stealLim, ho]
  · intro j hj hji
    rw [hcur]
    rcases Int.lt_add_one_iff.mp hji |>.lt_or_eq with hlt' | rfl
    · rw [B'.get_put_of_lt hlt' (by omega)]
      exact hcopied j hj hlt'
    · exact B'.get_put_self

/-- The old buffer is retired under the current epoch. -/
theorem State.Inv.retire (h : s.Inv) (ho : s.owner = .grow x b t k k' i) (hle : ¬i < b) :
    { s with retired := ⟨k, s.epoch⟩ :: s.retired, owner := .swap x b k' s.epoch }.Inv := by
  have hb := h.owner
  have hsw : ¬s.Swapping := by simp [State.Swapping, ho]
  simp only [State.OwnerOk, ho] at hb
  obtain ⟨rfl, hti, hib, hg⟩ := hb
  obtain rfl : i = b := by omega
  have hhi : { s with retired := ⟨s.buffer, s.epoch⟩ :: s.retired, owner := .swap x i k' s.epoch }.hi = s.hi := by
    simp [State.hi, ho]
  refine h.own ⟨rfl, rfl, rfl, rfl, rfl, rfl⟩ (.of_kept le_rfl rfl le_rfl ?_ (fun _ => rfl)
    fun _ hh _ => ⟨hh.alive, ?_⟩) ?_ ⟨rfl, List.mem_cons_self, t, hg.unseen, ?_, hg.bottom, hg.old, hg.copied⟩
    trivial ?_
  · simp [State.hi, State.stealLim, ho]
  · exact hh.kept.imp_right fun ⟨n, hn, hk⟩ => ⟨n, List.mem_cons_of_mem _ hn, hk⟩
  · exact
      { current := h.heap.current
        nonneg := h.heap.nonneg
        le := by rw [hhi]; exact h.heap.le
        room := by rw [hhi]; exact h.heap.room
        fresh := h.heap.fresh
        nodes := List.forall_mem_cons.mpr
          ⟨⟨by rw [h.heap.current]; exact Option.some_ne_none _, le_rfl⟩, h.heap.nodes⟩
        alone := by
          intro n hn n' hn' heq
          rcases List.mem_cons.mp hn with rfl | hn <;> rcases List.mem_cons.mp hn' with rfl | hn'
          · rfl
          · exact absurd heq.symm (h.heap.away hsw n' hn')
          · exact absurd heq (h.heap.away hsw n hn)
          · exact h.heap.alone n hn n' hn' heq
        away := fun hno => absurd trivial hno }
  · intro n hn
    rcases List.mem_cons.mp hn with rfl | hn
    · exact hg.unseen.symm
    · exact hg.unretired n hn
  · have hrep := h.replays
    unfold State.contents at hrep ⊢
    rw [hhi]
    exact hrep

/-- The new buffer has the elements of the old one. -/
theorem State.Inv.swap (h : s.Inv) (ho : s.owner = .swap x b k' e) :
    { s with buffer := k', owner := .advance x b k' e }.Inv := by
  have hb := h.owner
  have hheap := h.heap
  have hlim : s.stealLim = s.bottom := by simp only [State.stealLim, State.hi, ho]
  have hhi : s.hi = s.bottom := by simp only [State.hi, ho]
  simp only [State.OwnerOk, ho] at hb
  obtain ⟨he, hmem, t, hg⟩ := hb
  obtain ⟨B', hB', hroom, hcopied⟩ := hg.copied
  have hb := hg.bottom
  have hold := hg.old
  have hcur : { s with buffer := k', owner := .advance x b k' e }.current = B' := by
    show (s.heap k').getD _ = _
    rw [hB']
    rfl
  have hle := hheap.le
  refine h.own ⟨rfl, rfl, rfl, rfl, rfl, rfl⟩ (.of_kept le_rfl rfl le_rfl ?_ (fun hlt => ?_)
    fun _ hh hle' => ⟨hh.alive, ?_⟩) ?_ ⟨he, rfl, hb, ?_⟩ trivial ?_
  · rw [hlim]
    exact fun hlt => hlt
  · rw [hcur]
    exact hcopied _ hold (by omega)
  · right
    rcases hh.kept with rfl | hn
    · exact ⟨_, hmem, rfl, by rw [he]; exact hle'⟩
    · exact hn
  · exact
      { current := by rw [hcur]; exact hB'
        nonneg := hheap.nonneg
        le := by rw [hhi] at hle; exact hle
        room := by
          rw [hcur]
          show s.bottom - s.top ≤ B'.capacity
          omega
        fresh := hheap.fresh
        nodes := hheap.nodes
        alone := hheap.alone
        away := fun _ => hg.unretired }
  · rw [hcur]
    show b - s.top < B'.capacity
    omega
  · have hrep := h.replays
    unfold State.contents at hrep ⊢
    rw [hcur, window_congr (g := s.current.get)]
    · rw [hhi] at hrep
      exact hrep
    · intro j hj hlt
      exact hcopied j (hold.trans hj) (by rw [hb]; exact hlt)

theorem State.Inv.advance (h : s.Inv) (ho : s.owner = .advance x b k' e) :
    { s with epoch := e + 1, owner := .reclaim (.write x b k') }.Inv := by
  have hb := h.owner
  have hsw : ¬s.Swapping := by simp [State.Swapping, ho]
  simp only [State.OwnerOk, ho] at hb
  obtain ⟨rfl, hroom⟩ := hb
  have hhi : s.hi = s.bottom := by simp only [State.hi, ho]
  have hle := h.heap.le
  have hcap := h.heap.room
  have hrep := h.replays
  unfold State.contents at hrep
  rw [hhi] at hle hcap hrep
  refine h.own ⟨rfl, rfl, rfl, rfl, rfl, rfl⟩ (.of_kept (Nat.le_succ _) rfl le_rfl ?_ (fun _ => rfl)
    fun _ hh _ => ⟨hh.alive, hh.kept⟩) ?_ ⟨hroom.buffer, hroom.bottom, hroom.room⟩ trivial hrep
  · simp [State.hi, State.stealLim, ho]
  · exact
      { current := h.heap.current
        nonneg := h.heap.nonneg
        le := hle
        room := hcap
        fresh := h.heap.fresh
        nodes := fun n hn => ⟨(h.heap.nodes n hn).1, Nat.le_succ_of_le (h.heap.nodes n hn).2⟩
        alone := h.heap.alone
        away := fun _ => h.heap.away hsw }

/-- What the minimum allows to free, no thief holds. -/
theorem State.Inv.free (h : s.Inv) (ho : s.owner = .scan c n m min) (hle : ¬m < n) :
    { s.freeRetired min with owner := c.owner }.Inv := by
  have hc := h.owner
  have hsc := h.scan
  have hheap := h.heap
  have hsw : ¬s.Swapping := by simp [State.Swapping, ho]
  have hhi : s.hi = s.bottom := by simp only [State.hi, ho]
  have hlim : s.stealLim = s.bottom := by simp only [State.stealLim, State.hi, ho]
  simp only [State.OwnerOk, State.ScanOk, ho] at hc hsc
  have hkeep : ∀ {k}, (∀ nd ∈ s.retired, nd.buffer = k → nd.freeable min = false) →
      (s.freeRetired min).heap k = s.heap k := by
    intro k hk
    refine if_neg ?_
    simp only [List.any_eq_true, Bool.and_eq_true, decide_eq_true_iff, not_exists, not_and]
    intro nd hnd heq
    rw [hk nd hnd heq]
    exact Bool.false_ne_true
  have hbuf : (s.freeRetired min).heap s.buffer = s.heap s.buffer :=
    hkeep fun nd hnd heq => absurd heq (hheap.away hsw nd hnd)
  set s' : State α := { s.freeRetired min with owner := c.owner }
  have hcur : s'.current = s.current := by
    show ((s.freeRetired min).heap s.buffer).getD _ = _
    rw [hbuf]
    rfl
  have hhi' : s'.hi = s.bottom := by cases c <;> rfl
  have hlim' : s'.stealLim = s.bottom := by cases c <;> rfl
  have hmem : ∀ nd, nd ∈ s'.retired ↔ nd ∈ s.retired ∧ nd.freeable min = false := by
    intro nd
    show nd ∈ s.retired.filter _ ↔ _
    rw [List.mem_filter, Bool.not_eq_true']
  refine h.own ⟨rfl, rfl, rfl, rfl, rfl, rfl⟩ (.of_kept le_rfl rfl le_rfl ?_ (fun _ => by rw [hcur])
    fun {j σ t e k B} hj hh _ => ⟨?_, ?_⟩) ?_ ?_ ?_ ?_
  · rw [hlim, hlim']
    exact fun hlt => hlt
  · refine (hkeep fun nd hnd heq => ?_).trans hh.alive
    exact (hsc.2 j σ t k hj nd hnd heq).resolve_right (by omega)
  · refine hh.kept.imp_right fun ⟨nd, hnd, heq, hle⟩ => ⟨nd, (hmem nd).mpr ⟨hnd, ?_⟩, heq, hle⟩
    exact (hsc.2 j σ t k hj nd hnd heq).resolve_right (by omega)
  · exact
      { current := by rw [hcur]; exact hbuf.trans hheap.current
        nonneg := hheap.nonneg
        le := by rw [hhi', ← hhi]; exact hheap.le
        room := by rw [hhi', hcur, ← hhi]; exact hheap.room
        fresh := by
          intro k hk
          show (if _ then _ else _) = _
          rw [hheap.fresh k hk, ite_self]
        nodes := by
          intro nd hnd
          obtain ⟨hnd, hfree⟩ := (hmem nd).mp hnd
          refine ⟨?_, (hheap.nodes nd hnd).2⟩
          show (s.freeRetired min).heap nd.buffer ≠ none
          rw [hkeep fun nd' hnd' heq => by rwa [hheap.alone nd' hnd' nd hnd heq]]
          exact (hheap.nodes nd hnd).1
        alone := fun nd hnd nd' hnd' => hheap.alone nd ((hmem nd).mp hnd).1 nd' ((hmem nd').mp hnd').1
        away := fun _ nd hnd => hheap.away hsw nd ((hmem nd).mp hnd).1 }
  · cases c with
    | done => trivial
    | write x b k => exact ⟨hc.buffer, hc.bottom, by rw [hcur]; exact hc.room⟩
  · cases c <;> trivial
  · have hrep := h.replays
    unfold State.contents at hrep ⊢
    rw [hhi', hcur]
    rw [hhi] at hrep
    exact hrep

/-! ### The elements come and go -/

/-- The element is stored, in a slot of its own. -/
theorem State.Inv.write (h : s.Inv) (ho : s.owner = .write x b k) {B : Buffer α}
    (hB : s.heap k = some B) :
    { s with heap := update s.heap k (some (B.put b x)), owner := .publish x b }.Inv := by
  have hb := h.owner
  have hheap := h.heap
  have hhi : s.hi = s.bottom := by simp only [State.hi, ho]
  have hlim : s.stealLim = s.bottom := by simp only [State.stealLim, State.hi, ho]
  simp only [State.OwnerOk, ho] at hb
  obtain ⟨rfl, rfl, hroom⟩ := hb
  obtain rfl : B = s.current := Option.some.inj (hB.symm.trans hheap.current)
  have hcur : { s with
      heap := update s.heap s.buffer (some (s.current.put s.bottom x))
      owner := .publish x s.bottom }.current = s.current.put s.bottom x := by
    show (update s.heap s.buffer _ s.buffer).getD _ = _
    rw [update_self]
    rfl
  have hget : ∀ j, s.top ≤ j → j < s.bottom → (s.current.put s.bottom x).get j = s.current.get j :=
    fun j hj hlt => s.current.get_put_of_lt hlt (by omega)
  have hle := hheap.le
  have hcap := hheap.room
  rw [hhi] at hle hcap
  have hne : ∀ {k' B'}, s.heap k' = some B' →
      ∃ B'', update s.heap s.buffer (some (s.current.put s.bottom x)) k' = some B'' ∧
        (k' = s.buffer ∧ B'' = s.current.put s.bottom x ∨ B'' = B') := by
    intro k' B' hk'
    by_cases heq : k' = s.buffer
    · subst heq
      exact ⟨_, update_self _ _ _, .inl ⟨rfl, rfl⟩⟩
    · exact ⟨B', (update_of_ne heq _ _).trans hk', .inr rfl⟩
  refine h.own ⟨rfl, rfl, rfl, rfl, rfl, rfl⟩ ⟨le_rfl, le_rfl, fun _ => ?_, fun _ hlt => ?_,
    fun {j σ t e k' B'} _ hh _ => ?_, le_rfl⟩ ?_ ⟨rfl, ?_, ?_⟩ trivial ?_
  · rw [hlim]
    exact fun hlt => hlt
  · rw [hcur]
    exact hget _ le_rfl (hlim ▸ hlt)
  · obtain ⟨B'', hk'', hor⟩ := hne hh.alive
    refine ⟨B'', ⟨hk'', hh.kept⟩, fun _ hlt hsame => ?_⟩
    rw [hcur]
    rcases hor with ⟨-, rfl⟩ | rfl
    · rfl
    · rw [hsame, hget _ le_rfl (hlim ▸ hlt)]
  · exact
      { current := by rw [hcur]; exact update_self _ _ _
        nonneg := hheap.nonneg
        le := hle
        room := by rw [hcur]; exact hcap
        fresh := by
          intro k hk
          have hlt := hheap.lt_next hheap.current
          have hk : s.next ≤ k := hk
          exact (update_of_ne (by omega) _ _).trans (hheap.fresh k hk)
        nodes := by
          intro n hn
          obtain ⟨B', hB'⟩ := Option.ne_none_iff_exists'.mp (hheap.nodes n hn).1
          obtain ⟨B'', hB'', -⟩ := hne hB'
          exact ⟨ne_of_eq_of_ne hB'' (Option.some_ne_none _), (hheap.nodes n hn).2⟩
        alone := hheap.alone
        away := fun _ => hheap.away (by simp [State.Swapping, ho]) }
  · rw [hcur]
    exact hroom
  · rw [hcur]
    exact s.current.get_put_self
  · have hrep := h.replays
    unfold State.contents at hrep ⊢
    rw [hhi] at hrep
    rw [hcur]
    show Replays s.log (window _ s.top s.bottom)
    rw [window_congr (g := s.current.get) hget]
    exact hrep

/-- **The push takes effect**. -/
theorem State.Inv.publish (h : s.Inv) (ho : s.owner = .publish x b) :
    { s with bottom := b + 1, owner := .idle, log := s.log ++ [Event.push x] }.Inv := by
  have hb := h.owner
  have hheap := h.heap
  have hrep := h.replays
  have hhi : s.hi = s.bottom := by simp only [State.hi, ho]
  have hlim : s.stealLim = s.bottom := by simp only [State.stealLim, State.hi, ho]
  simp only [State.OwnerOk, ho] at hb
  obtain ⟨rfl, hroom, hx⟩ := hb
  have hle := hheap.le
  unfold State.contents at hrep
  rw [hhi] at hle hrep
  refine h.own ⟨rfl, rfl, rfl, rfl, rfl, rfl⟩ (.of_same rfl rfl rfl rfl rfl le_rfl ?_) ?_ trivial trivial
    (hrep.snoc ?_)
  · rw [hlim]
    intro hlt
    show s.top < s.bottom + 1
    omega
  · exact
      { current := hheap.current
        nonneg := hheap.nonneg
        le := show s.top ≤ s.bottom + 1 by omega
        room := show s.bottom + 1 - s.top ≤ s.current.capacity by omega
        fresh := hheap.fresh
        nodes := hheap.nodes
        alone := hheap.alone
        away := fun _ => hheap.away (by simp [State.Swapping, ho]) }
  · show Event.Does _ _ (window s.current.get s.top (s.bottom + 1))
    rw [window_concat hle, hx]
    exact .push _ _

/-- `take` lowers `bottom` below its element, which stays until the take is decided. -/
theorem State.Inv.takeBuffer (h : s.Inv) (ho : s.owner = .takeBuffer b k) :
    { s with bottom := b, owner := .takeStored b k }.Inv := by
  have hb := h.owner
  have hheap := h.heap
  have hrep := h.replays
  have hhi : s.hi = s.bottom := by simp only [State.hi, ho]
  have hlim : s.stealLim = s.bottom := by simp only [State.stealLim, State.hi, ho]
  simp only [State.OwnerOk, ho] at hb
  obtain ⟨hb, hk⟩ := hb
  have hhi' : { s with bottom := b, owner := .takeStored b k }.hi = s.hi := by
    rw [hhi]
    show b + 1 = s.bottom
    omega
  refine h.own ⟨rfl, rfl, rfl, rfl, rfl, rfl⟩ (.of_same rfl rfl rfl rfl rfl le_rfl ?_) ?_ ⟨rfl, hk⟩ trivial ?_
  · rw [hlim]
    intro hlt
    show s.top < b + 1
    omega
  · exact
      { current := hheap.current
        nonneg := hheap.nonneg
        le := by rw [hhi']; exact hheap.le
        room := by rw [hhi']; exact hheap.room
        fresh := hheap.fresh
        nodes := hheap.nodes
        alone := hheap.alone
        away := fun _ => hheap.away (by simp [State.Swapping, ho]) }
  · unfold State.contents at hrep ⊢
    rw [hhi']
    exact hrep

/-- **A take that no thief can meet takes effect**. -/
theorem State.Inv.takeSafe (h : s.Inv) (ho : s.owner = .takeRead b k t) (hlt : 0 < b - t) :
    { s with owner := .idle, log := s.log ++ [Event.take (s.current.get b)] }.Inv := by
  have hb := h.owner
  have hheap := h.heap
  have hrep := h.replays
  have hhi : s.hi = b + 1 := by simp only [State.hi, ho]
  simp only [State.OwnerOk, ho] at hb
  obtain ⟨rfl, -, -, -, htop⟩ := hb
  have htop := htop (by omega)
  have hlim : s.stealLim = s.bottom := by
    simp only [State.stealLim, ho]
    exact if_pos (by omega)
  have hroom := hheap.room
  unfold State.contents at hrep
  rw [hhi] at hroom hrep
  rw [window_concat htop] at hrep
  refine h.own ⟨rfl, rfl, rfl, rfl, rfl, rfl⟩ (.of_same rfl rfl rfl rfl rfl le_rfl ?_) ?_ trivial trivial
    (hrep.snoc (.take _ _))
  · rw [hlim]
    exact fun hlt => hlt
  · exact
      { current := hheap.current
        nonneg := hheap.nonneg
        le := htop
        room := show s.bottom - s.top ≤ s.current.capacity by omega
        fresh := hheap.fresh
        nodes := hheap.nodes
        alone := hheap.alone
        away := fun _ => hheap.away (by simp [State.Swapping, ho]) }

/-- **The last element is taken** by the CAS. -/
theorem State.Inv.takeWon (h : s.Inv) (ho : s.owner = .takeRace t x) (htop : s.top = t) :
    { s with top := t + 1, owner := .restore (t + 1), log := s.log ++ [Event.take x] }.Inv := by
  subst htop
  have hb := h.owner
  have hheap := h.heap
  have hrep := h.replays
  have hhi : s.hi = s.top + 1 := by simp only [State.hi, ho]
  simp only [State.OwnerOk, ho] at hb
  obtain ⟨hbot, -, hx⟩ := hb
  have hx := hx trivial
  unfold State.contents at hrep
  rw [hhi, window_concat le_rfl, ← hx] at hrep
  have hnn := hheap.nonneg
  have hpos := s.current.capacity_pos
  have hne : { s with top := s.top + 1, owner := .restore (s.top + 1), log := s.log ++ [Event.take x] }.top ≠
      s.top := fun heq => by
    have heq : s.top + 1 = s.top := heq
    omega
  refine h.own ⟨rfl, rfl, rfl, rfl, rfl, rfl⟩ ⟨le_rfl, show s.top ≤ s.top + 1 by omega,
    fun heq => absurd heq hne, fun heq => absurd heq hne,
    fun _ hh _ => ⟨_, ⟨hh.alive, hh.kept⟩, fun heq => absurd heq hne⟩, le_rfl⟩ ?_
    ⟨show s.top + 1 = s.bottom + 1 by omega, rfl⟩ trivial (hrep.snoc ?_)
  · exact
      { current := hheap.current
        nonneg := show 0 ≤ s.top + 1 by omega
        le := le_rfl
        room := by
          show s.top + 1 - (s.top + 1) ≤ s.current.capacity
          omega
        fresh := hheap.fresh
        nodes := hheap.nodes
        alone := hheap.alone
        away := fun _ => hheap.away (by simp [State.Swapping, ho]) }
  · have hnil : window s.current.get (s.top + 1) (s.top + 1) = window s.current.get s.top s.top := by
      rw [window_empty le_rfl, window_empty le_rfl]
    show Event.Does _ _ (window s.current.get (s.top + 1) (s.top + 1))
    rw [hnil]
    exact .take _ _

/-- `take` puts `bottom` back where the elements end. -/
theorem State.Inv.restore (h : s.Inv) {v : Int} (ho : s.owner = .restore v) :
    { s with bottom := v, owner := .idle }.Inv := by
  have hheap := h.heap
  have hrep := h.replays
  have hhi : s.hi = v := by simp only [State.hi, ho]
  have hlim : s.stealLim = v := by simp only [State.stealLim, State.hi, ho]
  have hle := hheap.le
  have hroom := hheap.room
  unfold State.contents at hrep
  rw [hhi] at hle hroom hrep
  refine h.own ⟨rfl, rfl, rfl, rfl, rfl, rfl⟩ (.of_same rfl rfl rfl rfl rfl le_rfl ?_) ?_ trivial trivial hrep
  · rw [hlim]
    exact fun hlt => hlt
  · exact
      { current := hheap.current
        nonneg := hheap.nonneg
        le := hle
        room := hroom
        fresh := hheap.fresh
        nodes := hheap.nodes
        alone := hheap.alone
        away := fun _ => hheap.away (by simp [State.Swapping, ho]) }

/-- **A step of the owner.** -/
theorem State.Inv.ownerStep (h : s.Inv) (hs : s.ownerStep = some s') : s'.Inv := by
  unfold State.ownerStep at hs
  cases ho : s.owner with
  | idle => rw [ho] at hs; cases hs
  | pushBottom x b =>
    rw [ho] at hs
    cases hs
    exact h.pushBottom ho
  | pushTop x b t =>
    rw [ho] at hs
    simp only [h.heap.current, Option.map_some, Option.some.injEq] at hs
    subst hs
    split
    · exact h.grow ho ‹_›
    · exact h.pushFits ho (not_le.mp ‹_›)
  | grow x b t k k' i =>
    rw [ho] at hs
    dsimp only at hs
    split at hs
    · split at hs
      · cases hs
        exact h.copy ho ‹_› ‹_› ‹_›
      · cases hs
    · cases hs
      exact h.retire ho ‹_›
  | swap x b k' e =>
    rw [ho] at hs
    cases hs
    exact h.swap ho
  | advance x b k' e =>
    rw [ho] at hs
    cases hs
    exact h.advance ho
  | reclaim c =>
    rw [ho] at hs
    dsimp only at hs
    split at hs <;> cases hs
    · exact h.leave ho
    · exact h.reclaim ho
  | scan c n m min =>
    rw [ho] at hs
    dsimp only at hs
    split at hs
    · split at hs <;> cases hs
      · exact h.scanSlot ho
      · exact h.overrun ho ‹_› (not_lt.mp ‹_›)
    · cases hs
      exact h.free ho ‹_›
  | overrun => rw [ho] at hs; cases hs
  | write x b k =>
    rw [ho] at hs
    obtain ⟨B, hB, rfl⟩ := Option.map_eq_some_iff.mp hs
    exact h.write ho hB
  | publish x b =>
    rw [ho] at hs
    cases hs
    exact h.publish ho
  | takeBottom b =>
    rw [ho] at hs
    cases hs
    exact h.takeBottom ho
  | takeBuffer b k =>
    rw [ho] at hs
    cases hs
    exact h.takeBuffer ho
  | takeStored b k =>
    rw [ho] at hs
    dsimp only at hs
    split at hs <;> cases hs
    · exact h.takeEmpty ho ‹_›
    · exact h.takeTop ho ‹_›
  | takeRead b k t =>
    have hb := h.owner
    simp only [State.OwnerOk, ho] at hb
    rw [ho] at hs
    simp only [hb.2.1, h.heap.current, Option.map_some, Option.some.injEq] at hs
    subst hs
    split
    · exact h.takeSafe ho ‹_›
    · exact h.takeLast ho ‹_›
  | takeRace t x =>
    rw [ho] at hs
    dsimp only at hs
    split at hs <;> cases hs
    · exact h.takeWon ho ‹_›
    · exact h.takeLost ho ‹_›
  | restore v =>
    rw [ho] at hs
    cases hs
    exact h.restore ho

end Owner

/-! ### The steps of the thieves -/

section Thief
variable {s s' : State α} {x : α} {t : Int} {i j σ e k : Nat} {th : Thief α} {p : Phase α}

/-- A step of one thief, which leaves the owner's things alone. -/
theorem State.Inv.thief (h : s.Inv) (hth : s'.thieves = update s.thieves i th)
    (hslots : ∀ σ, (s.thieves i).id ≠ some σ → s'.slots σ = s.slots σ)
    (hrefusals : ∀ j, j ≠ i → (j ∈ s'.refusals ↔ j ∈ s.refusals)) (hheap : s'.HeapOk)
    (howner : s'.OwnerOk) (ev : Evolves s s') (hslotsOk : s'.SlotsOk) (hok : s'.ThiefOk i th)
    (hscan : s'.ScanOk) (hrep : Replays s'.log s'.contents) : s'.Inv := by
  refine ⟨hslotsOk, hheap, howner, fun j => ?_, hscan, hrep⟩
  rw [hth]
  by_cases hj : j = i
  · subst hj
    rwa [update_self]
  · rw [update_of_ne hj]
    refine (h.thieves j).evolves ev (fun σ hσ => hslots σ fun hi => hj ?_) (hrefusals j hj)
    exact h.slots.apart j i σ hσ hi

omit [Inhabited α] in
theorem State.SlotsOk.setThief (h : s.SlotsOk) (hid : th.id = (s.thieves i).id ∨ th.id = none) :
    (s.setThief i th).SlotsOk := by
  refine ⟨h.count, h.handed, h.full, fun a b σ ha hb => ?_⟩
  have hold : ∀ {a σ}, ((s.setThief i th).thieves a).id = some σ → (s.thieves a).id = some σ := by
    intro a σ ha
    by_cases hai : a = i
    · subst hai
      rw [setThief_self] at ha
      rcases hid with heq | heq
      · rwa [← heq]
      · rw [heq] at ha
        cases ha
    · rwa [setThief_of_ne hai] at ha
  exact h.apart a b σ (hold ha) (hold hb)

/-- The owner bears a step of a thief. -/
theorem State.OwnerOk.congr (h : s.OwnerOk)
    (htop : s'.top = s.top ∨ s'.top = s.top + 1 ∧ s.top < s.stealLim) (hbot : s'.bottom = s.bottom)
    (hbuf : s'.buffer = s.buffer) (hret : s'.retired = s.retired) (hepoch : s'.epoch = s.epoch)
    (hheap : s'.heap = s.heap) (hown : s'.owner = s.owner) (hcr : s.crowded = true → s'.crowded = true) :
    s'.OwnerOk := by
  have hcur : s'.current = s.current := by rw [State.current, State.current, hheap, hbuf]
  have hle : s.top ≤ s'.top := by omega
  have hroom : ∀ {k b}, s.Room k b → s'.Room k b := fun {k b} hr =>
    ⟨by rw [hbuf]; exact hr.buffer, by rw [hbot]; exact hr.bottom,
      by rw [hcur]; have := hr.room; omega⟩
  have hafter : ∀ {c}, s.AfterOk c → s'.AfterOk c := by
    intro c hc
    cases c with
    | done => trivial
    | write x b k => exact hroom hc
  have hgrows : ∀ {k' t b i}, s.Grows k' t b i → s'.Grows k' t b i := fun hg =>
    ⟨by rw [hbuf]; exact hg.unseen, by rw [hret]; exact hg.unretired, by rw [hbot]; exact hg.bottom,
      hg.old.trans hle, by rw [hheap, hcur]; exact hg.copied⟩
  unfold State.OwnerOk at h ⊢
  unfold State.stealLim State.hi at htop
  rw [hown, hbot, hbuf, hret, hepoch, hcur]
  cases ho : s.owner <;> rw [ho] at h htop <;> dsimp only at h htop ⊢
  case pushTop => exact ⟨h.1, h.2.1.trans hle, h.2.2⟩
  case grow => exact ⟨h.1, h.2.1, h.2.2.1, hgrows h.2.2.2⟩
  case swap => exact ⟨h.1, h.2.1, h.2.2.imp fun t ht => hgrows ht⟩
  case advance => exact ⟨h.1, hroom h.2⟩
  case reclaim => exact hafter h
  case scan => exact hafter h
  case overrun => exact hcr h
  case write => exact hroom h
  case publish => exact ⟨h.1, by omega, h.2.2⟩
  case takeRead b k t =>
    obtain ⟨hb, hk, ht, htb, hlt⟩ := h
    refine ⟨hb, hk, by omega, htb, fun htb => ?_⟩
    rw [if_pos htb] at htop
    have := hlt htb
    omega
  case takeRace t x => exact ⟨h.1, by omega, fun heq => h.2.2 (by omega)⟩
  case restore v => exact ⟨h.1, by omega⟩
  all_goals exact h

theorem State.HeapOk.congr (h : s.HeapOk) (htop : s'.top = s.top) (hhi : s'.hi = s.hi)
    (hbuf : s'.buffer = s.buffer) (hret : s'.retired = s.retired) (hepoch : s'.epoch = s.epoch)
    (hheap : s'.heap = s.heap) (hnext : s'.next = s.next) (hown : s'.owner = s.owner) : s'.HeapOk := by
  have hcur : s'.current = s.current := by rw [State.current, State.current, hheap, hbuf]
  constructor
  · rw [hheap, hbuf, hcur]
    exact h.current
  · rw [htop]
    exact h.nonneg
  · rw [htop, hhi]
    exact h.le
  · rw [htop, hhi, hcur]
    exact h.room
  · rw [hheap, hnext]
    exact h.fresh
  · rw [hret, hheap, hepoch]
    exact h.nodes
  · rw [hret]
    exact h.alone
  · unfold State.Swapping
    rw [hret, hbuf, hown]
    exact h.away

/-- A step in which a thief takes no element and loads no buffer. -/
theorem State.Inv.quiet (h : s.Inv) {slots : Nat → Option Nat} {count handed : Nat} {refusals : Finset Nat}
    {crowded : Bool}
    (hslots : ∀ σ, (s.thieves i).id ≠ some σ → slots σ = s.slots σ)
    (hrefusals : ∀ j, j ≠ i → (j ∈ refusals ↔ j ∈ s.refusals)) (hhanded : s.handed ≤ handed)
    (hcr : s.crowded = true → crowded = true)
    (hslotsOk : ({ s with
      slots := slots, thiefCount := count, handed := handed, refusals := refusals,
      crowded := crowded }.setThief i th).SlotsOk)
    (hok : ({ s with
      slots := slots, thiefCount := count, handed := handed, refusals := refusals,
      crowded := crowded }.setThief i th).ThiefOk i th)
    (hp : ∀ t k, th.phase ≠ .gotBuffer t k) :
    ({ s with
      slots := slots, thiefCount := count, handed := handed, refusals := refusals,
      crowded := crowded }.setThief i th).Inv := by
  refine h.thief rfl hslots hrefusals (h.heap.congr rfl rfl rfl rfl rfl rfl rfl rfl)
    (h.owner.congr (.inl rfl) rfl rfl rfl rfl rfl rfl hcr) (.of_same rfl rfl rfl rfl rfl hhanded fun hlt => hlt)
    hslotsOk hok ?_ h.replays
  have hsc := h.scan
  unfold State.ScanOk at hsc ⊢
  simp only [setThief_owner]
  cases ho : s.owner <;> rw [ho] at hsc <;> dsimp only at hsc ⊢
  rename_i c n m min
  refine ⟨fun hlt => hcr (hsc.1 hlt), fun j σ t k hj => ?_⟩
  by_cases hji : j = i
  · subst hji
    rw [setThief_self] at hj
    exact absurd (congrArg Thief.phase hj) (hp t k)
  · rw [setThief_of_ne hji] at hj
    exact hsc.2 j σ t k hj

omit [Inhabited α] in
theorem State.SlotsOk.withSlots (h : s.SlotsOk) {slots : Nat → Option Nat} :
    { s with slots := slots }.SlotsOk :=
  ⟨h.count, h.handed, h.full, h.apart⟩

theorem State.Inv.thiefOk (h : s.Inv) (hi : s.thieves i = th) : s.ThiefOk i th := hi ▸ h.thieves i

/-- A thief does not see where the others are. -/
theorem State.PhaseOk.setThief (h : s.PhaseOk σ p) : (s.setThief i th).PhaseOk σ p := by
  cases p with
  | gotBottom t => exact ⟨h.1, h.2.le, h.2.lt⟩
  | gotBuffer t k =>
    obtain ⟨e, B, he, hc, hheld, hget⟩ := h
    exact ⟨e, B, he, ⟨hc.le, hc.lt⟩, ⟨hheld.alive, hheld.kept⟩, hget⟩
  | gotElem t x => exact ⟨⟨h.1.le, h.1.lt⟩, h.2⟩
  | _ => exact h

/-- A thief with a slot goes on with its own variables only. -/
theorem State.Inv.goOn {p' : Phase α} (h : s.Inv) (hi : s.thieves i = ⟨some σ, p⟩)
    (hp : s.PhaseOk σ p') (hb : ∀ t k, p' ≠ .gotBuffer t k) : (s.setThief i ⟨some σ, p'⟩).Inv := by
  obtain ⟨hσ, hno, -⟩ := h.thiefOk hi
  exact h.quiet (fun _ _ => rfl) (fun _ _ => .rfl) le_rfl id
    (h.slots.setThief (.inl (by rw [hi]))) ⟨hσ, hno, hp.setThief⟩ hb

/-- A thief writes its slot. -/
theorem State.Inv.note {p' : Phase α} {e : Option Nat} (h : s.Inv) (hi : s.thieves i = ⟨some σ, p⟩)
    (hp : { s with slots := update s.slots σ e }.PhaseOk σ p') (hb : ∀ t k, p' ≠ .gotBuffer t k) :
    ({ s with slots := update s.slots σ e }.setThief i ⟨some σ, p'⟩).Inv := by
  obtain ⟨hσ, hno, -⟩ := h.thiefOk hi
  refine h.quiet (fun τ hτ => update_of_ne ?_ _ _) (fun _ _ => .rfl) le_rfl id
    (h.slots.withSlots.setThief (.inl (by rw [hi]))) ⟨hσ, hno, hp.setThief⟩ hb
  rintro rfl
  exact hτ (by rw [hi])

/-- A thief gives its slot up. -/
theorem State.Inv.unregister (h : s.Inv) (hi : s.thieves i = ⟨some σ, .idle⟩) :
    ({ s with slots := update s.slots σ none }.setThief i ⟨none, .idle⟩).Inv := by
  obtain ⟨-, hno, -⟩ := h.thiefOk hi
  refine h.quiet (fun τ hτ => update_of_ne ?_ _ _) (fun _ _ => .rfl) le_rfl id
    (h.slots.withSlots.setThief (.inr rfl)) hno fun t k hp => by cases hp
  rintro rfl
  exact hτ (by rw [hi])

/-- The counter gives each thief a slot of its own. -/
theorem State.Inv.claim (h : s.Inv) (hi : s.thieves i = ⟨none, .idle⟩) (hlt : s.thiefCount < maxThieves) :
    ({ s with thiefCount := s.thiefCount + 1, handed := s.handed + 1 }.setThief i
      ⟨some s.thiefCount, .claimed⟩).Inv := by
  have hok := h.thiefOk hi
  have hslots := h.slots
  have hcount := hslots.count
  have hempty : s.refusals = ∅ := by
    by_contra hne
    have := (hslots.full (Finset.nonempty_iff_ne_empty.mpr hne)).1
    omega
  rw [hempty, Finset.card_empty, Nat.add_zero] at hcount
  have hne : ∀ a, (s.thieves a).id ≠ some s.thiefCount := by
    intro a ha
    have hth := h.thieves a
    rcases hth' : s.thieves a with ⟨id, p⟩
    rw [hth'] at hth ha
    obtain rfl : id = some s.thiefCount := ha
    have hσ : s.thiefCount < s.handed := hth.1
    omega
  refine h.quiet (fun _ _ => rfl) (fun _ _ => .rfl) (Nat.le_succ _) id ⟨?_, ?_, ?_, ?_⟩
    ⟨?_, hok, trivial⟩ fun t k hp => by cases hp
  · show s.thiefCount + 1 = s.handed + 1 + s.refusals.card
    rw [hempty, Finset.card_empty]
    omega
  · show s.handed + 1 ≤ maxThieves
    omega
  · intro hne
    have hne : s.refusals.Nonempty := hne
    rw [hempty] at hne
    exact absurd hne Finset.not_nonempty_empty
  · intro a b σ ha hb
    by_cases hai : a = i <;> by_cases hbi : b = i
    · rw [hai, hbi]
    · subst hai
      rw [setThief_self] at ha
      rw [setThief_of_ne hbi] at hb
      exact absurd (hb.trans ha.symm) (hne b)
    · subst hbi
      rw [setThief_self] at hb
      rw [setThief_of_ne hai] at ha
      exact absurd (ha.trans hb.symm) (hne a)
    · rw [setThief_of_ne hai] at ha
      rw [setThief_of_ne hbi] at hb
      exact hslots.apart a b σ ha hb
  · show s.thiefCount < s.handed + 1
    omega

/-- A thief finds no slot. -/
theorem State.Inv.refuse (h : s.Inv) (hi : s.thieves i = ⟨none, .idle⟩) (hle : ¬s.thiefCount < maxThieves) :
    ({ s with
      thiefCount := s.thiefCount + 1
      refusals := insert i s.refusals
      crowded := true }.setThief i ⟨none, .refused⟩).Inv := by
  have hok : i ∉ s.refusals := h.thiefOk hi
  have hslots := h.slots
  have hcount := hslots.count
  have hmax := hslots.handed
  have hfull : s.handed = maxThieves := by
    by_cases hne : s.refusals.Nonempty
    · exact (hslots.full hne).1
    · rw [Finset.not_nonempty_iff_eq_empty.mp hne, Finset.card_empty] at hcount
      omega
  refine h.quiet (fun _ _ => rfl) (fun j hj => by simp [hj]) le_rfl (fun _ => rfl) ⟨?_, hmax, fun _ => ⟨hfull, rfl⟩, ?_⟩
    (Finset.mem_insert_self _ _) fun t k hp => by cases hp
  · show s.thiefCount + 1 = s.handed + (insert i s.refusals).card
    rw [Finset.card_insert_of_notMem hok]
    omega
  · exact (hslots.setThief (.inr rfl) : (s.setThief i ⟨none, .refused⟩).SlotsOk).apart

/-- It takes its count back. -/
theorem State.Inv.takeBack (h : s.Inv) (hi : s.thieves i = ⟨none, .refused⟩) :
    ({ s with thiefCount := s.thiefCount - 1, refusals := s.refusals.erase i }.setThief i
      ⟨none, .idle⟩).Inv := by
  have hok : i ∈ s.refusals := h.thiefOk hi
  have hslots := h.slots
  have hcount := hslots.count
  have hpos := Finset.card_pos.mpr ⟨i, hok⟩
  refine h.quiet (fun _ _ => rfl) (fun j hj => by simp [hj]) le_rfl id
    ⟨?_, hslots.handed, fun hne => hslots.full (hne.mono (Finset.erase_subset _ _)), ?_⟩
    (Finset.notMem_erase _ _) fun t k hp => by cases hp
  · show s.thiefCount - 1 = s.handed + (s.refusals.erase i).card
    rw [Finset.card_erase_of_mem hok]
    omega
  · exact (hslots.setThief (.inr rfl) : (s.setThief i ⟨none, .idle⟩).SlotsOk).apart

theorem State.Inv.bottom_le (h : s.Inv) : s.bottom ≤ s.stealLim := by
  have hb := h.owner
  unfold State.stealLim State.hi
  unfold State.OwnerOk at hb
  cases ho : s.owner <;> rw [ho] at hb <;> dsimp only at hb ⊢ <;> omega

/-- The current buffer is loaded: it is not among those that a `reclaim` may free. -/
theorem State.Inv.loadBuffer (h : s.Inv) (hi : s.thieves i = ⟨some σ, .gotBottom t⟩) :
    (s.setThief i ⟨some σ, .gotBuffer t s.buffer⟩).Inv := by
  obtain ⟨hσ, hno, ⟨e, he⟩, hc⟩ := h.thiefOk hi
  have hp : s.PhaseOk σ (.gotBuffer t s.buffer) :=
    ⟨e, s.current, he, hc, ⟨h.heap.current, .inl rfl⟩, fun _ => rfl⟩
  refine h.thief (i := i) rfl (fun _ _ => rfl) (fun _ _ => .rfl)
    (h.heap.congr rfl rfl rfl rfl rfl rfl rfl rfl) (h.owner.congr (.inl rfl) rfl rfl rfl rfl rfl rfl id)
    (.of_same rfl rfl rfl rfl rfl le_rfl fun hlt => hlt) (h.slots.setThief (.inl (by rw [hi])))
    ⟨hσ, hno, hp.setThief⟩ ?_ h.replays
  have hsc := h.scan
  have haway := h.heap.away
  unfold State.ScanOk at hsc ⊢
  unfold State.Swapping at haway
  simp only [setThief_owner]
  cases ho : s.owner <;> rw [ho] at hsc haway <;> dsimp only at hsc haway ⊢
  refine ⟨hsc.1, fun j τ t' k hj nd hnd hk => ?_⟩
  by_cases hji : j = i
  · subst hji
    rw [setThief_self] at hj
    cases hj
    exact absurd hk (haway not_false nd hnd)
  · rw [setThief_of_ne hji] at hj
    exact hsc.2 j τ t' k hj nd hnd hk

/-- **A steal takes effect**: the CAS takes the first element, which the owner has not. -/
theorem State.Inv.steal (h : s.Inv) (hi : s.thieves i = ⟨some σ, .gotElem t x⟩) (htop : s.top = t) :
    ({ s with top := t + 1, log := s.log ++ [Event.steal x] }.setThief i ⟨some σ, .leaving⟩).Inv := by
  subst htop
  obtain ⟨hσ, hno, hc, hx⟩ := h.thiefOk hi
  obtain rfl := hx rfl
  have hlt := hc.lt rfl
  have hhi := State.stealLim_le (s := s)
  have hheap := h.heap
  have hle := hheap.le
  have hroom := hheap.room
  have hnn := hheap.nonneg
  have hrep := h.replays
  unfold State.contents at hrep
  rw [window_cons (by omega)] at hrep
  have hne : ∀ {p : Prop}, s.top + 1 = s.top → p := by
    intro p heq
    omega
  refine h.thief (i := i) rfl (fun _ _ => rfl) (fun _ _ => .rfl) ?_ ?_
    ⟨le_rfl, show s.top ≤ s.top + 1 by omega, fun heq => hne heq, fun heq => hne heq,
      fun _ hh _ => ⟨_, ⟨hh.alive, hh.kept⟩, fun heq => hne heq⟩, le_rfl⟩
    ?_ ⟨hσ, hno, trivial⟩ ?_ (hrep.snoc (.steal _ _))
  · exact
      { current := hheap.current
        nonneg := show 0 ≤ s.top + 1 by omega
        le := show s.top + 1 ≤ s.hi by omega
        room := show s.hi - (s.top + 1) ≤ s.current.capacity by omega
        fresh := hheap.fresh
        nodes := hheap.nodes
        alone := hheap.alone
        away := hheap.away }
  · exact h.owner.congr (.inr ⟨rfl, hlt⟩) rfl rfl rfl rfl rfl rfl id
  · exact ⟨h.slots.count, h.slots.handed, h.slots.full, (h.slots.setThief
      (.inl (by rw [hi])) : (s.setThief i ⟨some σ, .leaving⟩).SlotsOk).apart⟩
  · have hsc := h.scan
    unfold State.ScanOk at hsc ⊢
    simp only [setThief_owner]
    cases ho : s.owner <;> rw [ho] at hsc <;> dsimp only at hsc ⊢
    refine ⟨hsc.1, fun j τ t k hj => ?_⟩
    by_cases hji : j = i
    · subst hji
      rw [setThief_self] at hj
      cases hj
    · rw [setThief_of_ne hji] at hj
      exact hsc.2 j τ t k hj

/-- **A step of a thief.** -/
theorem State.Inv.thiefStep (h : s.Inv) (hs : s.thiefStep i = some s') : s'.Inv := by
  have hok := h.thieves i
  rcases hi : s.thieves i with ⟨id, p⟩
  rw [hi] at hok
  unfold State.thiefStep at hs
  rw [hi] at hs
  cases id with
  | none =>
    cases p <;> first | cases hok | cases hs
    exact h.takeBack hi
  | some σ =>
    obtain ⟨hσ, hno, hp⟩ := hok
    cases p with
    | idle => cases hs
    | claimed =>
      cases hs
      exact h.note hi trivial fun t k hp => by cases hp
    | refused => cases hp
    | entered e =>
      cases hs
      exact h.note hi ⟨e, update_self _ _ _, hp⟩ fun t k hp => by cases hp
    | announced =>
      cases hs
      exact h.goOn hi ⟨hp, le_rfl⟩ fun t k hp => by cases hp
    | gotTop t =>
      cases hs
      split
      · exact h.goOn hi trivial fun t k hp => by cases hp
      · refine h.goOn hi ⟨hp.1, hp.2, fun heq => ?_⟩ fun t k hp => by cases hp
        have := h.bottom_le
        omega
    | gotBottom t =>
      cases hs
      exact h.loadBuffer hi
    | gotBuffer t k =>
      obtain ⟨e, B, he, hc, hheld, hget⟩ := hp
      simp only [hheld.alive, Option.map_some, Option.some.injEq] at hs
      subst hs
      exact h.goOn hi ⟨hc, hget⟩ fun t k hp => by cases hp
    | gotElem t x =>
      dsimp only at hs
      split at hs <;> cases hs
      · exact h.steal hi ‹_›
      · exact h.goOn hi trivial fun t k hp => by cases hp
    | leaving =>
      cases hs
      exact h.note hi trivial fun t k hp => by cases hp

end Thief

/-! ### Every run -/

section Runs
variable {s s' : State α} {a : Action α} {log : Nat}

theorem inv_init : (State.init log : State α).Inv where
  slots := ⟨rfl, Nat.zero_le _, fun h => absurd h Finset.not_nonempty_empty, fun _ _ _ h => by cases h⟩
  heap :=
    { current := rfl
      nonneg := le_rfl
      le := le_rfl
      room := by
        have := (State.init log : State α).current.capacity_pos
        show (0 : Int) - 0 ≤ _
        omega
      fresh := by
        intro k hk
        have hk : 1 ≤ k := hk
        exact (update_of_ne (by omega) _ _ : update (fun _ => none) 0 (some (Buffer.new log : Buffer α)) k = _)
      nodes := fun n hn => by cases hn
      alone := fun n hn => by cases hn
      away := fun _ n hn => by cases hn }
  owner := trivial
  thieves := fun i => Finset.notMem_empty i
  scan := trivial
  replays := .nil

/-- **One step.** -/
theorem State.Inv.step (h : s.Inv) (hs : s.step a = some s') : s'.Inv := by
  cases a with
  | push x =>
    dsimp only [State.step] at hs
    split at hs <;> cases hs
    exact h.startPush ‹_›
  | take =>
    dsimp only [State.step] at hs
    split at hs <;> cases hs
    exact h.startTake ‹_›
  | reclaim =>
    dsimp only [State.step] at hs
    split at hs <;> cases hs
    exact h.startReclaim ‹_›
  | own => exact h.ownerStep hs
  | register i =>
    dsimp only [State.step, State.register] at hs
    split at hs
    · split at hs <;> cases hs
      · exact h.claim ‹_› ‹_›
      · exact h.refuse ‹_› ‹_›
    · cases hs
  | unregister i =>
    dsimp only [State.step] at hs
    split at hs <;> cases hs
    exact h.unregister ‹_›
  | steal i =>
    dsimp only [State.step] at hs
    split at hs <;> cases hs
    exact h.goOn ‹_› le_rfl fun t k hp => by cases hp
  | go i => exact h.thiefStep hs

theorem Reachable.run {as : List (Action α)} (h : Reachable log s) (hs : s.run as = some s') :
    Reachable log s' := by
  induction as generalizing s with
  | nil =>
    cases hs
    exact h
  | cons a as ih =>
    obtain ⟨s₁, h₁, hs⟩ := Option.bind_eq_some_iff.mp hs
    exact ih (h.step h₁) hs

theorem Reachable.inv (h : Reachable log s) : s.Inv := by
  induction h with
  | init => exact inv_init
  | step _ hs ih => exact ih.step hs

end Runs

end Jacl.ChaseLev
