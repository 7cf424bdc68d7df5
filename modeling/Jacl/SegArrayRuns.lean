import Jacl.SegArraySort

/-!
# Runs of a segment array

`Op` is what can be done with an array.  `Spec` says what each operation is for the
list the array stands for, the sort being any ordered permutation, and `Reached` are
the runs from the empty array.  Every run whose sorts are of `2 ^ 31` elements at
most denotes the run of the list (`reached_denotes`); `reached_not_denotes` is a run
that ends before a sort that never returns.
-/

namespace Jacl.SegArray
open HeapSort

variable {α : Type}

/-- An operation; a push comes with the allocator's answer. -/
inductive Op (α : Type)
  | push (granted : Bool) (value : α)
  | pop
  | set (index : Nat) (value : α)
  | swapRemove (index : Nat)
  | get (index : Nat)
  | sort (cmp : α → α → Int)
  | iterate

/-- What an operation returns. -/
inductive Out (α : Type)
  | place (p : Option Place)
  | popped (value : Option α)
  | removed (ok : Bool)
  | element (value : Option α)
  | sorted
  | elements (values : List α)

/-- One operation; `fuel` bounds the rounds of each loop. -/
def step (fuel : Nat) (op : Op α) (sa : SegArray α) : Option (SegArray α × Out α) :=
  match op with
  | .push granted value => do
    let (sa, p) ← push granted value sa
    some (sa, .place p)
  | .pop => do
    let (sa, value) ← pop sa
    some (sa, .popped value)
  | .set index value => do
    let (sa, p) ← SegArray.set index value sa
    some (sa, .place p)
  | .swapRemove index => do
    let (sa, ok) ← swapRemove index sa
    some (sa, .removed ok)
  | .get index =>
    match sa.get index with
    | none => some (sa, .element none)
    | some p => do
      let value ← sa.load p
      some (sa, .element (some value))
  | .sort cmp => do
    let sa ← sort cmp fuel sa
    some (sa, .sorted)
  | .iterate => do
    let values ← iterate fuel sa
    some (sa, .elements values)

/-- The operation of the list `xs`: what is left of it and what is returned. -/
def Spec (op : Op α) (xs ys : List α) (out : Out α) : Prop :=
  match op with
  | .push granted value =>
    (ys = xs ++ [value] ∧ out = .place (some (locate xs.length)) ∧ xs.length < capacity) ∨
    (ys = xs ∧ out = .place none ∧ (xs.length = capacity ∨ granted = false))
  | .pop => ys = xs.dropLast ∧ out = .popped xs.getLast?
  | .set index value =>
    ys = xs.set index value ∧ out = .place (if index < xs.length then some (locate index) else none)
  | .swapRemove index => ys = listSwapRemove xs index ∧ out = .removed (decide (index < xs.length))
  | .get index => ys = xs ∧ out = .element xs[index]?
  | .sort cmp =>
    ys.Perm xs ∧ (TotalPreorder cmp → ys.Pairwise fun a b => cmp a b ≤ 0) ∧ out = .sorted
  | .iterate => ys = xs ∧ out = .elements xs

/-- A sort is of `2 ^ 31` elements at most. -/
def SortFits (op : Op α) (sa : SegArray α) : Prop :=
  match op with
  | .sort _ => sa.count ≤ 2 ^ 31
  | _ => True

/-- The run of the operations `ops` from the empty array, with what they returned.
Each meets the condition `fits` where it is called. -/
inductive Reached (fits : Op α → SegArray α → Prop) : List (Op α) → SegArray α → List (Out α) → Prop
  | start : Reached fits [] create []
  | next {ops sa outs op sa' out} (fuel : Nat) : Reached fits ops sa outs → fits op sa →
      step fuel op sa = some (sa', out) → Reached fits (ops ++ [op]) sa' (outs ++ [out])

/-- The run of the list. -/
inductive ListRun : List (Op α) → List α → List (Out α) → Prop
  | start : ListRun [] [] []
  | next {ops xs outs op ys out} : ListRun ops xs outs → Spec op xs ys out →
      ListRun (ops ++ [op]) ys (outs ++ [out])

/-- The cursor is the position the count computes. -/
def CursorAgrees (sa : SegArray α) : Prop :=
  0 < sa.count → sa.lastSeg = (locate (sa.count - 1)).seg ∧
    sa.lastSegBase = capacityForSegments (locate (sa.count - 1)).seg ∧
    sa.nextGrowAt = sa.lastSegBase + slotsInSegment (locate (sa.count - 1)).seg

variable {sa : SegArray α} {xs : List α}

theorem Denotes.cursorAgrees (hd : Denotes sa xs) : CursorAgrees sa := by
  intro hpos
  rcases hd.cursor with ⟨-, h0, -⟩ | ⟨k, hseg, hk, hbase, hgrow, hlow, hle, hfirst⟩
  · omega
  · have hk25 : k ≤ 25 := by have := hd.blocks.used; omega
    have hone := Nat.one_le_two_pow (n := k)
    rw [Nat.pow_succ] at hgrow
    have hloc : locate (sa.count - 1) = ⟨k, sa.count - 1 - (64 * 2 ^ k - 64)⟩ := by
      have hsplit : sa.count - 1 = 64 * 2 ^ k - 64 + (sa.count - 1 - (64 * 2 ^ k - 64)) := by
        by_cases heq : sa.count = sa.lastSegBase
        · have h0 := hfirst heq
          rw [h0] at hbase
          omega
        · omega
      conv_lhs => rw [hsplit]
      exact locate_eq hk25 (by omega)
    rw [hloc]
    refine ⟨hseg, ?_, ?_⟩
    · rw [hbase, capacityForSegments_eq hk25]
    · rw [hbase, slotsInSegment_eq hk25]
      omega

/-- **Every operation** that meets the condition goes through, given the rounds its
loops need, and is the list's. -/
theorem step_spec (hd : Denotes sa xs) {op : Op α} (hfit : SortFits op sa) {fuel : Nat}
    (hfuel : xs.length < fuel) :
    ∃ sa' ys out, step fuel op sa = some (sa', out) ∧ Denotes sa' ys ∧ Spec op xs ys out := by
  cases op with
  | push granted value =>
    rcases push_spec hd granted value with ⟨sa', hpush, hd', hroom⟩ | ⟨hpush, hwhy⟩
    · exact ⟨sa', _, _, by rw [step, hpush]; rfl, hd', .inl ⟨rfl, rfl, hroom⟩⟩
    · exact ⟨sa, xs, _, by rw [step, hpush]; rfl, hd, .inr ⟨rfl, rfl, hwhy⟩⟩
  | pop =>
    obtain ⟨sa', hpop, hd'⟩ := pop_spec hd
    exact ⟨sa', _, _, by rw [step, hpop]; rfl, hd', rfl, rfl⟩
  | set index value =>
    obtain ⟨sa', hset, hd'⟩ := set_spec hd index value
    exact ⟨sa', _, _, by rw [step, hset]; rfl, hd', rfl, rfl⟩
  | swapRemove index =>
    obtain ⟨sa', hremove, hd'⟩ := swapRemove_spec hd index
    exact ⟨sa', _, _, by rw [step, hremove]; rfl, hd', rfl, rfl⟩
  | get index =>
    refine ⟨sa, xs, _, ?_, hd, rfl, rfl⟩
    rw [step, hd.get]
    rcases Nat.lt_or_ge index xs.length with hi | hi
    · rw [if_pos hi]
      show (Option.bind _ _) = _
      rw [hd.cells index _ (List.getElem?_eq_getElem hi), List.getElem?_eq_getElem hi]
      rfl
    · rw [if_neg (Nat.not_lt.mpr hi), List.getElem?_eq_none hi]
  | sort cmp =>
    have hlen : xs.length ≤ 2 ^ 31 := by
      rw [← hd.count]
      exact hfit
    obtain ⟨sa', ys, hsort, hd', hperm, hord⟩ := sort_spec cmp hd hlen (Nat.le_of_lt hfuel)
    exact ⟨sa', ys, _, by rw [step, hsort]; rfl, hd', hperm, hord, rfl⟩
  | iterate =>
    exact ⟨sa, xs, _, by rw [step, iterate_spec hd hfuel]; rfl, hd, rfl, rfl⟩

/-! ### More rounds change nothing -/

theorem siftDown_mono {cmp : α → α → Int} {fuel more n root : Nat} {sa' : SegArray α} (hle : fuel ≤ more)
    (h : siftDown cmp fuel n root sa = some sa') : siftDown cmp more n root sa = some sa' := by
  induction fuel generalizing sa root more with
  | zero => cases h
  | succ fuel ih =>
    obtain ⟨more, rfl⟩ : ∃ m, more = m + 1 := ⟨more - 1, by omega⟩
    rw [siftDown] at h ⊢
    split
    · rename_i hchild
      rw [if_pos hchild] at h
      obtain ⟨child, hpick, h⟩ := Option.bind_eq_some_iff.mp h
      obtain ⟨a, ha, h⟩ := Option.bind_eq_some_iff.mp h
      obtain ⟨b, hb, h⟩ := Option.bind_eq_some_iff.mp h
      refine Option.bind_eq_some_iff.mpr ⟨child, hpick, Option.bind_eq_some_iff.mpr ⟨a, ha,
        Option.bind_eq_some_iff.mpr ⟨b, hb, ?_⟩⟩⟩
      split
      · rename_i hless
        rw [if_pos hless] at h
        obtain ⟨sa₁, hex, h⟩ := Option.bind_eq_some_iff.mp h
        exact Option.bind_eq_some_iff.mpr ⟨sa₁, hex, ih (by omega) h⟩
      · rename_i hless
        rwa [if_neg hless] at h
    · rename_i hchild
      rwa [if_neg hchild] at h

theorem buildMaxHeap_mono {cmp : α → α → Int} {fuel more n start : Nat} {sa' : SegArray α}
    (hle : fuel ≤ more) (h : buildMaxHeap cmp fuel n start sa = some sa') :
    buildMaxHeap cmp more n start sa = some sa' := by
  induction start generalizing sa with
  | zero => exact h
  | succ start ih =>
    obtain ⟨sa₁, hsift, hrest⟩ := Option.bind_eq_some_iff.mp h
    exact Option.bind_eq_some_iff.mpr ⟨sa₁, siftDown_mono hle hsift, ih hrest⟩

theorem extractAll_mono {cmp : α → α → Int} {fuel more e : Nat} {sa' : SegArray α} (hle : fuel ≤ more)
    (h : extractAll cmp fuel e sa = some sa') : extractAll cmp more e sa = some sa' := by
  induction e generalizing sa with
  | zero => exact h
  | succ e ih =>
    obtain ⟨sa₁, hex, h⟩ := Option.bind_eq_some_iff.mp h
    obtain ⟨sa₂, hsift, hrest⟩ := Option.bind_eq_some_iff.mp h
    exact Option.bind_eq_some_iff.mpr ⟨sa₁, hex, Option.bind_eq_some_iff.mpr
      ⟨sa₂, siftDown_mono hle hsift, ih hrest⟩⟩

theorem sort_mono {cmp : α → α → Int} {fuel more : Nat} {sa' : SegArray α} (hle : fuel ≤ more)
    (h : sort cmp fuel sa = some sa') : sort cmp more sa = some sa' := by
  rw [sort] at h ⊢
  split
  · rename_i hshort
    rwa [if_pos hshort] at h
  · rename_i hlong
    rw [if_neg hlong] at h
    obtain ⟨sa₁, hbuild, hextract⟩ := Option.bind_eq_some_iff.mp h
    exact Option.bind_eq_some_iff.mpr ⟨sa₁, buildMaxHeap_mono hle hbuild, extractAll_mono hle hextract⟩

theorem drain_mono {fuel more : Nat} {it : Iter} {ys : List α} (hle : fuel ≤ more)
    (h : drain sa fuel it = some ys) : drain sa more it = some ys := by
  induction fuel generalizing it more ys with
  | zero => cases h
  | succ fuel ih =>
    obtain ⟨more, rfl⟩ : ∃ m, more = m + 1 := ⟨more - 1, by omega⟩
    rw [drain] at h ⊢
    split
    · rename_i hvalid
      rw [if_pos hvalid] at h
      rcases hnext : iterNext it sa with ⟨it', _ | p⟩
      · rw [hnext] at h
        cases h
      · rw [hnext] at h
        obtain ⟨x, hx, h⟩ := Option.bind_eq_some_iff.mp h
        obtain ⟨rest, hrest, h⟩ := Option.bind_eq_some_iff.mp h
        exact Option.bind_eq_some_iff.mpr ⟨x, hx, Option.bind_eq_some_iff.mpr
          ⟨rest, ih (by omega) hrest, h⟩⟩
    · rename_i hvalid
      rwa [if_neg hvalid] at h

theorem step_mono {fuel more : Nat} {op : Op α} {r : SegArray α × Out α} (hle : fuel ≤ more)
    (h : step fuel op sa = some r) : step more op sa = some r := by
  cases op with
  | sort cmp =>
    obtain ⟨sa₁, hsort, hr⟩ := Option.bind_eq_some_iff.mp h
    exact Option.bind_eq_some_iff.mpr ⟨sa₁, sort_mono hle hsort, hr⟩
  | iterate =>
    obtain ⟨ys, hdrain, hr⟩ := Option.bind_eq_some_iff.mp h
    exact Option.bind_eq_some_iff.mpr ⟨ys, drain_mono hle hdrain, hr⟩
  | push => exact h
  | pop => exact h
  | set => exact h
  | swapRemove => exact h
  | get => exact h

theorem Reached.denotes {ops : List (Op α)} {outs : List (Out α)} (h : Reached SortFits ops sa outs) :
    ∃ xs, ListRun ops xs outs ∧ Denotes sa xs := by
  induction h with
  | start => exact ⟨[], .start, denotes_create⟩
  | @next ops sa outs op sa' out fuel _ hfit hstep ih =>
    obtain ⟨xs, hrun, hd⟩ := ih
    obtain ⟨sa₁, ys, out₁, hstep₁, hd₁, hspec⟩ :=
      step_spec hd hfit (show xs.length < max fuel (xs.length + 1) by omega)
    have hboth := step_mono (Nat.le_max_left fuel (xs.length + 1)) hstep
    rw [hstep₁] at hboth
    obtain ⟨rfl, rfl⟩ := Prod.mk.inj (Option.some.inj hboth)
    exact ⟨ys, .next hrun hspec, hd₁⟩

/-- **Segment arrays denote lists**: in every run whose sorts are of `2 ^ 31` elements
at most the array stands for the list of the same operations, which returned the same,
the cursor is where the count says, and no operation that meets the condition fails
or runs on forever. -/
theorem reached_denotes {ops : List (Op α)} {outs : List (Out α)} (h : Reached SortFits ops sa outs) :
    ∃ xs, ListRun ops xs outs ∧ Denotes sa xs ∧ CursorAgrees sa ∧
      ∀ op, SortFits op sa → ∃ r, ∀ fuel, xs.length < fuel → step fuel op sa = some r := by
  obtain ⟨xs, hrun, hd⟩ := h.denotes
  refine ⟨xs, hrun, hd, hd.cursorAgrees, fun op hfit => ?_⟩
  obtain ⟨sa', ys, out, hstep, -, -⟩ := step_spec hd hfit (Nat.lt_succ_self xs.length)
  exact ⟨(sa', out), fun fuel hfuel => step_mono hfuel hstep⟩

theorem reached_denotes_sorted :
    ∃ xs, ListRun [.push true 2, .push true 1, .sort cmpNat] xs
        [.place (some ⟨0, 0⟩), .place (some ⟨0, 1⟩), .sorted] ∧
      ∃ sa : SegArray Nat, Denotes sa xs := by
  have h₁ : Reached SortFits [Op.push true 2] _ [Out.place (some ⟨0, 0⟩)] :=
    .next 5 .start trivial rfl
  have h₂ : Reached SortFits [Op.push true 2, .push true 1] _
      [Out.place (some ⟨0, 0⟩), .place (some ⟨0, 1⟩)] := .next 5 h₁ trivial rfl
  have h₃ : Reached SortFits [Op.push true 2, .push true 1, .sort cmpNat] _
      [Out.place (some ⟨0, 0⟩), .place (some ⟨0, 1⟩), .sorted] :=
    .next 5 h₂ (by show _ ≤ _; decide) rfl
  obtain ⟨xs, hrun, hd, -⟩ := reached_denotes h₃
  exact ⟨xs, hrun, _, hd⟩

theorem Reached.weaken {fits : Op α → SegArray α → Prop} {ops : List (Op α)} {outs : List (Out α)}
    (h : Reached fits ops sa outs) : Reached (fun _ _ => True) ops sa outs := by
  induction h with
  | start => exact .start
  | next fuel _ _ hstep ih => exact .next fuel ih trivial hstep

theorem reached_pushes {xs : List α} (hlen : xs.length ≤ capacity) :
    ∃ sa outs, Reached SortFits (xs.map (Op.push true)) sa outs ∧ Denotes sa xs := by
  induction xs using List.reverseRecOn with
  | nil => exact ⟨_, _, .start, denotes_create⟩
  | append_singleton xs x ih =>
    rw [List.length_append, List.length_singleton] at hlen
    obtain ⟨sa, outs, hreached, hd⟩ := ih (by omega)
    rcases push_spec hd true x with ⟨sa', hpush, hd', -⟩ | ⟨-, hfull | hno⟩
    · rw [List.map_append]
      refine ⟨sa', outs ++ [.place (some (locate xs.length))], .next 0 hreached trivial ?_, hd'⟩
      rw [step, hpush]
      rfl
    · omega
    · cases hno

/-- A run of pushes after which a sort by a total preorder never returns: the claim
that every sort up to the capacity returns an ordered permutation fails. -/
theorem reached_not_denotes :
    ∃ (sa : SegArray Nat) (outs : List (Out Nat)),
      Reached (fun _ _ => True) ((elems stuckCount (oneTwo stuckChild)).map (Op.push true)) sa outs ∧
      stuckCount ≤ capacity ∧ TotalPreorder cmpNat ∧
      ∀ fuel, step fuel (.sort cmpNat) sa = none := by
  have hcap : stuckCount ≤ capacity := by decide
  have hlen : (elems stuckCount (oneTwo stuckChild)).length ≤ capacity := by
    rw [length_elems]
    exact hcap
  obtain ⟨sa, outs, hreached, hd⟩ := reached_pushes hlen
  refine ⟨sa, outs, hreached.weaken, hcap, cmpNat_totalPreorder, fun fuel => ?_⟩
  rw [step, sort_stuck hd]
  rfl

end Jacl.SegArray
