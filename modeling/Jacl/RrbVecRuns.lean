import Jacl.RrbVecConcat

/-!
# Vectors over whole runs

A run builds vectors from `jvec_empty` with `jvec_push_back`, `jvec_set` and
`jvec_concat`, in any order and any number of times (`Reach`).  Its two
parameters restrict the steps: the vectors that are pushed onto, and the pairs
that are concatenated.

In a run whose pushes all meet `PushFits` and whose counts fit 32 bits, every
vector is valid (`SafeReach.valid`), so its next push appends
(`pushBack_appends`) and its concatenations denote concatenations as long as the
tree stays low enough to shift (`concat_denotes_iff`).  Runs that only push
(`pushAll`) meet the condition up to 2080 elements and leave it at the next one,
where the tail goes past a full node (`pushAll_eq_none`).
-/

namespace Jacl.RrbVec
open Segments

variable {α : Type} [Zero α]

/-- **A vector some run builds**, pushing only onto vectors in `P` and
concatenating only pairs in `Q`. -/
inductive Reach (P : Root α → Prop) (Q : Root α → Root α → Prop) : Root α → Prop
  | empty : Reach P Q RrbVec.empty
  | push {v v' : Root α} {x : α} :
      Reach P Q v → P v → pushBack v x = some v' → Reach P Q v'
  | set {v v' : Root α} {i : Nat} {x : α} :
      Reach P Q v → set v i x = some (some v') → Reach P Q v'
  | concat {a b v : Root α} :
      Reach P Q a → Reach P Q b → Q a b → concat a b = some v → Reach P Q v

/-- Concatenations whose count does not wrap. -/
def SumFits (a b : Root α) : Prop := a.count + b.count < 2 ^ 32

/-- Runs whose pushes fit and whose counts do not wrap. -/
def SafeReach : Root α → Prop := Reach PushFits SumFits

/-- Runs with no restriction on their steps. -/
def AnyReach : Root α → Prop := Reach (fun _ => True) (fun _ _ => True)

theorem Reach.mono {P P' : Root α → Prop} {Q Q' : Root α → Root α → Prop}
    (hP : ∀ v, P v → P' v) (hQ : ∀ a b, Q a b → Q' a b) {v : Root α} (hv : Reach P Q v) :
    Reach P' Q' v := by
  induction hv with
  | empty => exact .empty
  | push _ hp hpush ih => exact .push ih (hP _ hp) hpush
  | set _ hset ih => exact .set ih hset
  | concat _ _ hq hcat iha ihb => exact .concat iha ihb (hQ _ _ hq) hcat

theorem SafeReach.any {v : Root α} (hv : SafeReach v) : AnyReach v :=
  hv.mono (fun _ _ => trivial) (fun _ _ _ => trivial)

/-! ### The invariant over a run -/

theorem valid_empty : Valid (empty : Root α) := by
  refine ⟨Nat.one_pos, .inl ⟨rfl, rfl⟩, fun cs h => ?_, ⟨?_, Nat.zero_le _⟩, ?_, ?_, ?_⟩
  · cases h
  · simp [empty, mkLeaf]
  · intro h
    exact absurd rfl h
  · simp [Root.toList, empty, mkLeaf]
  · exact Nat.two_pow_pos 32

/-- **One push.**  On a vector that meets `PushFits`, `jvec_push_back` is defined,
keeps the invariant and appends. -/
theorem pushBack_spec {r : Root α} (hr : Valid r) (hfit : PushFits r) (x : α) :
    ∃ r', pushBack r x = some r' ∧ Valid r' ∧ r'.toList = r.toList ++ [x] := by
  by_cases htail : r.tail.count < branch
  · obtain ⟨r', hpush, hv, hl, -⟩ := pushBack_tail hr htail hfit.1 x
    exact ⟨r', hpush, hv, hl⟩
  · obtain ⟨r', hpush, hv, hl, -⟩ := pushBack_full hr hfit htail x
    exact ⟨r', hpush, hv, hl⟩

/-- **Every vector of a safe run is valid.** -/
theorem SafeReach.valid {v : Root α} (hv : SafeReach v) : Valid v := by
  induction hv with
  | empty => exact valid_empty
  | push _ hfit hpush ih =>
    obtain ⟨r', hr', hvalid, -⟩ := pushBack_spec ih hfit _
    rw [hpush] at hr'
    exact Option.some.inj hr' ▸ hvalid
  | set _ hset ih => exact (set_spec ih hset).1
  | concat _ _ hsum hcat iha ihb =>
    obtain ⟨r', hr', hvalid, -⟩ := concat_spec iha ihb hsum
    rw [hcat] at hr'
    exact Option.some.inj hr' ▸ hvalid

/-! ### Pushes -/

/-- The push of `x` denotes the list with `x` appended: the count grows by one,
the old indices read as before, and the new one reads `x`. -/
def PushAppends (v : Root α) (x : α) : Prop :=
  ∃ v', pushBack v x = some v' ∧ v'.count = v.count + 1 ∧
    (∀ i < v.count, get v' i = get v i) ∧ get v' v.count = some (some x)

theorem pushAppends_of_valid {v : Root α} (hv : Valid v) (hfit : PushFits v) (x : α) :
    PushAppends v x := by
  have hlast : ∀ {v' : Root α}, v'.toList = v.toList ++ [x] → v'.toList[v.count]? = some x := by
    intro v' hl
    rw [hl, hv.count_eq, List.getElem?_concat_length]
  have hcount : ∀ {v' : Root α}, Valid v' → v'.toList = v.toList ++ [x] →
      v'.count = v.count + 1 := by
    intro v' hv' hl
    rw [hv'.count_eq, hl, List.length_append, ← hv.count_eq]
    rfl
  by_cases htail : v.tail.count < branch
  · obtain ⟨v', hpush, hv', hl, hroot, hdepth, hget⟩ := pushBack_tail hv htail hfit.1 x
    have hsplit := hv.count_split
    refine ⟨v', hpush, hcount hv' hl, hget, ?_⟩
    rw [get_tail hv' (by rw [hroot, hdepth]; omega), hlast hl]
  · obtain ⟨v', hpush, hv', hl, hd, hd', -⟩ := pushBack_full hv hfit htail x
    refine ⟨v', hpush, hcount hv' hl, fun i hi => ?_, ?_⟩
    · rw [get_spec hv' hd', get_spec hv hd, hl,
        List.getElem?_append_left (by rw [← hv.count_eq]; exact hi)]
    · rw [get_spec hv' hd', hlast hl]

/-- **Pushing, over every run.**  In a run whose pushes all meet `PushFits`, each
push onto a vector that meets it appends its element and moves no other. -/
theorem pushBack_appends {v : Root α} (hv : SafeReach v) (hfit : PushFits v) (x : α) :
    PushAppends v x :=
  pushAppends_of_valid hv.valid hfit x

/-! ### Runs that only push -/

/-- The vector built by pushing a list onto the empty vector. -/
def pushAll (xs : List α) : Option (Root α) := xs.foldlM pushBack empty

theorem pushAll_concat (xs : List α) (x : α) :
    pushAll (xs ++ [x]) = (pushAll xs).bind fun v => pushBack v x := by
  simp only [pushAll, List.foldlM_append, List.foldlM_cons, List.foldlM_nil, bind_pure]
  rfl

/-- The shape of a vector built by pushes alone: no tree while the tail holds
everything, then a dense tree that is one level deep up to 1024 elements. -/
def Packed (r : Root α) : Prop :=
  r.root = .null ∧ r.depth = 1 ∨
    Dense r.depth r.root ∧ (r.depth = 1 ∨ r.depth = 2 ∧ 1024 < (elems r.depth r.root).length)

omit [Zero α] in
/-- Up to 2080 elements a packed vector meets the condition of a push. -/
theorem Packed.pushFits {r : Root α} (hr : Valid r) (hp : Packed r) (hc : r.count < 2080) :
    PushFits r := by
  have hsplit := hr.count_split
  refine ⟨by omega, ?_⟩
  by_cases htail : r.tail.count < branch
  · exact .inl htail
  · have hfull := (hr.full_tail htail).1
    rcases hp with ⟨hnull, -⟩ | ⟨hdense, hdepth⟩
    · exact .inr (.inl hnull)
    · refine .inr (.inr ⟨?_, .inr ⟨hdense, ?_⟩⟩)
      · rw [Root.shift, bits]
        omega
      · rw [hr.tailOffset_eq]
        rcases hdepth with h1 | ⟨h2, hlen⟩
        · exact .inl h1
        · rw [hfull, branch] at hsplit
          exact .inr (by omega)

/-- A push keeps a vector packed. -/
theorem Packed.pushBack {r : Root α} (hr : Valid r) (hp : Packed r) (hc : r.count < 2080) (x : α) :
    ∃ r', pushBack r x = some r' ∧ Valid r' ∧ r'.toList = r.toList ++ [x] ∧ Packed r' := by
  have hfit := hp.pushFits hr hc
  by_cases htail : r.tail.count < branch
  · obtain ⟨r', hpush, hv, hl, hroot, hdepth, -⟩ := pushBack_tail hr htail hfit.1 x
    refine ⟨r', hpush, hv, hl, ?_⟩
    rw [Packed, hroot, hdepth]
    exact hp
  · obtain ⟨r', hpush, hv, hl, hd, hd', hdense, helems, hdepth⟩ := pushBack_full hr hfit htail x
    refine ⟨r', hpush, hv, hl, .inr ⟨hdense, ?_⟩⟩
    have hlen : (elems r'.depth r'.root).length = r.count := by rw [helems, hr.count_eq]
    have hsplit := hr.count_split
    have hfull := (hr.full_tail htail).1
    rw [hfull, branch] at hsplit
    rw [hr.tailOffset_eq, Root.shift] at hdepth
    rw [hlen]
    rcases hp with ⟨hnull, h1⟩ | ⟨-, h1 | ⟨h2, h1024⟩⟩
    · left
      rw [hnull, elems_null, h1] at hdepth
      simpa [bits] using hdepth
    · rw [h1] at hdepth hsplit
      norm_num [bits] at hdepth
      split at hdepth
      · right
        omega
      · left
        exact hdepth
    · right
      rw [h2] at hdepth hsplit h1024
      norm_num [bits] at hdepth
      rw [if_neg (by omega)] at hdepth
      exact ⟨hdepth, by omega⟩

/-- **Up to 2080 pushes build the list.** -/
theorem pushAll_spec (xs : List α) (hlen : xs.length ≤ 2080) :
    ∃ r, pushAll xs = some r ∧ Valid r ∧ r.toList = xs ∧ Packed r ∧ SafeReach r := by
  induction xs using List.reverseRecOn with
  | nil =>
    refine ⟨empty, rfl, valid_empty, ?_, .inl ⟨rfl, rfl⟩, .empty⟩
    simp [Root.toList, empty, mkLeaf]
  | append_singleton xs x ih =>
    rw [List.length_append, List.length_singleton] at hlen
    obtain ⟨r, hr, hv, hl, hp, hs⟩ := ih (by omega)
    have hc : r.count < 2080 := by rw [hv.count_eq, hl]; omega
    obtain ⟨r', hpush, hv', hl', hp'⟩ := hp.pushBack hv hc x
    refine ⟨r', by rw [pushAll_concat, hr]; exact hpush, hv', by rw [hl', hl], hp', ?_⟩
    exact .push hs (hp.pushFits hv hc) hpush

/-- A push onto a dense tree of two levels whose count is a multiple of 1024
writes past a full node. -/
theorem pushBack_carry {r : Root α} (hr : Valid r) (hd : r.depth = 2)
    (hdense : Dense r.depth r.root) (htail : ¬ r.tail.count < branch)
    (hcarry : tailOffset r % 1024 = 0) (hroom : tailOffset r < 2 ^ (r.shift + bits)) (x : α) :
    pushBack r x = none := by
  have hn : Indexable r.depth r.root := by
    rcases hr.tree with ⟨-, h1⟩ | hn
    · omega
    · exact hn
  have hoff := hr.tailOffset_eq
  have hsplit := hr.count_split
  have hbound := hr.bound
  have hpush : pushTail 2 (tailOffset r) r.root (.leaf r.tail) = none := by
    rw [hd] at hn hdense hoff hsplit
    exact pushTail_carry (h := 0) (q := 0) hn hdense (by omega) (by omega)
      (by rw [Nat.zero_mul, Nat.zero_add]; exact hoff) hcarry
  have hshift : r.shift + bits < 32 := by rw [Root.shift, hd, bits]; omega
  simp only [pushBack]
  rw [if_neg htail]
  cases hroot : r.root with
  | null => exact absurd hroot hn.not_null
  | leaf l =>
    rw [hroot, hd] at hn
    exact hn.elim
  | internal st cs =>
    rw [hroot] at hpush
    simp only [if_pos hshift]
    rw [Nat.shiftLeft_eq, Nat.one_mul, if_neg (by omega), hd, hpush]
    rfl

/-- **The 2081st push is undefined**, and so is every longer run of pushes. -/
theorem pushAll_eq_none (xs : List α) (hlen : 2080 < xs.length) : pushAll xs = none := by
  induction xs using List.reverseRecOn with
  | nil => simp at hlen
  | append_singleton xs x ih =>
    rw [List.length_append, List.length_singleton] at hlen
    rcases Nat.lt_or_ge 2080 xs.length with h | h
    · rw [pushAll_concat, ih h]
      rfl
    · obtain ⟨r, hr, hv, hl, hp, -⟩ := pushAll_spec xs h
      have hsplit := hv.count_split
      have hcount : r.count = 2080 := by rw [hv.count_eq, hl]; omega
      have htail := hv.tail_ok.2
      rw [branch] at htail
      rcases hp with ⟨hnull, -⟩ | ⟨hdense, h1 | ⟨h2, hlen2⟩⟩
      · -- without a tree the tail would hold 2080 elements
        rw [hnull, elems_null, List.length_nil] at hsplit
        omega
      · -- one level holds at most 1024
        rcases hv.tree with ⟨hnull, -⟩ | hn
        · rw [hnull, elems_null, List.length_nil] at hsplit
          omega
        · have := hn.length_bounds.2
          rw [h1] at this hsplit
          norm_num [bits] at this
          omega
      · have hn : Indexable r.depth r.root := by
          rcases hv.tree with ⟨-, h1⟩ | hn
          · omega
          · exact hn
        have hpos := hv.tail_pos (by omega)
        have hmod := dense_mod_branch hn hdense
        rw [branch] at hmod
        have hoff := hv.tailOffset_eq
        rw [pushAll_concat, hr]
        refine pushBack_carry hv h2 hdense (by rw [branch]; omega) (by omega) ?_ x
        rw [Root.shift, h2, bits]
        omega

/-- The condition is met far into a run: after 1056 pushes the tree has two levels. -/
theorem pushBack_appends_1056 :
    ∃ v : Root Nat, pushAll (List.range 1056) = some v ∧ PushAppends v 7 := by
  obtain ⟨v, hv, hvalid, hl, hp, hs⟩ := pushAll_spec (List.range 1056) (by simp)
  have hc : v.count < 2080 := by rw [hvalid.count_eq, hl]; simp
  exact ⟨v, hv, pushBack_appends hs (hp.pushFits hvalid hc) 7⟩

/-- The vector of 2080 pushes is reached by a run, and the next push is not an append. -/
theorem pushBack_not_appends_2080 :
    ∃ v : Root Nat, pushAll (List.range 2080) = some v ∧ AnyReach v ∧ pushBack v 0 = none ∧
      ¬ PushAppends v 0 := by
  obtain ⟨v, hv, -, -, -, hs⟩ := pushAll_spec (List.range 2080) (by simp)
  have hnone : pushBack v 0 = none := by
    have := pushAll_eq_none (List.range 2080 ++ [0]) (by simp)
    rwa [pushAll_concat, hv] at this
  refine ⟨v, hv, hs.any, hnone, ?_⟩
  rintro ⟨v', hv', -⟩
  rw [hnone] at hv'
  cases hv'

/-! ### Concatenations -/

/-- The concatenation denotes the list of `a` followed by the list of `b`: counts
add up, the root's shift is one that can be shifted by, and every read is defined
and returns the element of the list. -/
def ConcatDenotes (a b : Root α) : Prop :=
  ∃ v, concat a b = some v ∧ v.count = a.count + b.count ∧ v.shift ≤ 30 ∧
    ∀ i, get v i = some (a.toList ++ b.toList)[i]?

/-- **When a concatenation can be read**: the count does not wrap, and the trees
are low enough for the level that is put above them. -/
def ConcatFits (a b : Root α) : Prop := SumFits a b ∧ bits * concatDepth a b ≤ 30

/-- A concatenation whose count wraps does not have the count of the list. -/
theorem concat_count {a b v : Root α} (hcat : concat a b = some v)
    (hcount : v.count = a.count + b.count) (ha : a.count < 2 ^ 32) (hb : b.count < 2 ^ 32) :
    a.count + b.count < 2 ^ 32 := by
  unfold concat at hcat
  split at hcat
  · omega
  split at hcat
  · omega
  simp only [Option.bind_eq_bind, Option.bind_eq_some_iff] at hcat
  obtain ⟨⟨lTree, lDepth⟩, -, hcat⟩ := hcat
  have hmod := Nat.mod_lt (a.count + b.count) (Nat.two_pow_pos 32)
  split at hcat <;>
  · obtain rfl := Option.some.inj hcat
    simp only at hcount
    omega

/-- **Concatenating, over every run.**  For any two vectors of safe runs the
concatenation denotes the concatenated list exactly when it fits. -/
theorem concat_denotes_iff {a b : Root α} (ha : SafeReach a) (hb : SafeReach b) :
    ConcatDenotes a b ↔ ConcatFits a b := by
  constructor
  · rintro ⟨v, hcat, hcount, hshift, -⟩
    have hsum := concat_count hcat hcount ha.valid.bound hb.valid.bound
    obtain ⟨v', hcat', -, -, hdepth⟩ := concat_spec ha.valid hb.valid hsum
    obtain rfl : v = v' := Option.some.inj (hcat.symm.trans hcat')
    exact ⟨hsum, by rw [← hdepth]; exact hshift⟩
  · rintro ⟨hsum, hlevel⟩
    obtain ⟨v, hcat, hv, hl, hdepth⟩ := concat_spec ha.valid hb.valid hsum
    rw [← hdepth] at hlevel
    refine ⟨v, hcat, ?_, hlevel, fun i => ?_⟩
    · rw [hv.count_eq, hl, List.length_append, ← ha.valid.count_eq, ← hb.valid.count_eq]
    · rw [← hl]
      exact get_spec hv (by rw [bits] at hlevel; omega) i

/-- `k` concatenations of one vector onto itself, from the left. -/
def chain (c : Root α) : Nat → Option (Root α)
  | 0 => some c
  | k + 1 => (chain c k).bind fun v => concat v c

/-- **Every concatenation of a tree adds a level**: a chain of `k` is a safe run,
and is at least `k` levels deeper than the vector it repeats. -/
theorem chain_spec {c : Root α} (hc : SafeReach c) (hroot : c.root ≠ .null) (hne : c.count ≠ 0)
    {k : Nat} (hsum : (k + 1) * c.count < 2 ^ 32) :
    ∃ v, chain c k = some v ∧ SafeReach v ∧ v.count = (k + 1) * c.count ∧ c.depth + k ≤ v.depth := by
  induction k with
  | zero => exact ⟨c, rfl, hc, by omega, Nat.le_refl _⟩
  | succ k ih =>
    rw [Nat.succ_mul] at hsum
    obtain ⟨v, hv, hs, hcount, hdepth⟩ := ih (by omega)
    have hfit : SumFits v c := by rw [SumFits, hcount]; exact hsum
    obtain ⟨v', hcat, hv', hl, hd⟩ := concat_spec hs.valid hc.valid hfit
    refine ⟨v', by rw [chain, hv]; exact hcat, .concat hs hc hfit hcat, ?_, ?_⟩
    · rw [hv'.count_eq, hl, List.length_append, ← hs.valid.count_eq, ← hc.valid.count_eq, hcount,
        Nat.succ_mul (k + 1)]
    · have hv0 : v.count ≠ 0 := by
        have := Nat.le_mul_of_pos_left c.count (show 0 < k + 1 by omega)
        omega
      have hfull : v.depth ≤ fullDepth v := by
        unfold fullDepth
        split
        · rcases hs.valid.tree with ⟨-, h1⟩ | hn
          · omega
          · rename_i hnull
            exact absurd hnull hn.not_null
        · exact Nat.le_refl _
        · split <;> omega
      have hcd : concatDepth v c = max (fullDepth v) c.depth + 1 := by
        rw [concatDepth, if_neg hv0, if_neg hne]
        cases hr : c.root with
        | null => exact absurd hr hroot
        | leaf l => rfl
        | internal st cs => rfl
      rw [hd, hcd]
      omega

/-- Two vectors of 33 elements fit. -/
theorem concat_denotes_33 :
    ∃ c : Root Nat, pushAll (List.range 33) = some c ∧ ConcatDenotes c c := by
  obtain ⟨c, hc, hv, hl, -, hs⟩ := pushAll_spec (List.range 33) (by simp)
  have hdepth : (pushAll (List.range 33)).map (fun c => concatDepth c c) = some 2 := by decide
  rw [hc, Option.map_some, Option.some.injEq] at hdepth
  have hcount : c.count = 33 := by rw [hv.count_eq, hl]; simp
  exact ⟨c, hc, (concat_denotes_iff hs hs).mpr
    ⟨by rw [SumFits]; omega, by rw [hdepth]; decide⟩⟩

/-- Seven concatenations of a vector of 33 elements: the root's shift is 40, and
reading the first element of the last copy shifts by 35. -/
theorem concat_not_denotes_chain :
    ∃ c a v : Root Nat, pushAll (List.range 33) = some c ∧ chain c 6 = some a ∧
      SafeReach c ∧ SafeReach a ∧ concat a c = some v ∧ v.shift = 40 ∧ 231 < v.count ∧
      get v 231 = none ∧ ¬ ConcatDenotes a c := by
  obtain ⟨c, hc, hv, hl, -, hs⟩ := pushAll_spec (List.range 33) (by simp)
  have hcount : c.count = 33 := by rw [hv.count_eq, hl]; simp
  have heval : ((pushAll (List.range 33)).bind fun c => (chain c 7).map fun v =>
      (v.shift, v.count, get v 231)) = some (40, 264, none) := by decide
  have hroot : c.root ≠ .null := by
    intro h0
    have htail := hv.tail_ok.2
    have hsplit := hv.count_split
    rw [h0, elems_null, List.length_nil] at hsplit
    rw [branch] at htail
    omega
  obtain ⟨a, ha, hsa, hca, -⟩ := chain_spec (k := 6) hs hroot (by omega) (by omega)
  obtain ⟨v, hcat, -⟩ := concat_spec hsa.valid hv (by omega)
  rw [hc, Option.bind_some, chain, ha, Option.bind_some, hcat, Option.map_some,
    Option.some.injEq, Prod.mk.injEq, Prod.mk.injEq] at heval
  obtain ⟨hshift, hvc, hget⟩ := heval
  refine ⟨c, a, v, hc, ha, hs, hsa, hcat, hshift, by omega, hget, ?_⟩
  rintro ⟨v', hcat', -, -, hread⟩
  obtain rfl : v = v' := Option.some.inj (hcat.symm.trans hcat')
  rw [hread 231] at hget
  cases hget

end Jacl.RrbVec
