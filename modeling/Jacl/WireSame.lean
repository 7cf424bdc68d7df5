import Jacl.WireLayout
import Jacl.Entrywise

/-!
# A value on two heaps

`Same` says that a value on the reader's heap is the value on the writer's heap:
scalars by value or by bits, strings and buffers by their bytes, vectors element by
element, maps by their bindings.  `EqualOnWire` says which values on the writer's heap
`jacl_val_equal` cannot tell apart once each has been read into cells of its own
(`Same.equalOnWire`).
-/

namespace Jacl.Wire
open JaclVal Bytes Builtins Entrywise

/-! ### The same value on two heaps -/

/-- **The same contents**, kind by kind, over a relation on the values inside.  The cells
of `r` are at offsets in `new`; maps are tries for keys hashed to the depth `k`. -/
inductive Alike (h g : Heap) (k : Nat) (new : Nat → Prop) (same : JaclVal → JaclVal → Prop)
    (v r : JaclVal) : Prop
  | nil : v.type = 0x00 → r.type = 0x00 → r.payload = 0 → Alike h g k new same v r
  | bool : v.type = 0x01 → r.type = 0x01 → r.payload = v.payload % 2 → Alike h g k new same v r
  | int {x : Int} : IsInt h { v with error := false } x → Canonical g { r with error := false } x →
      Alike h g k new same v r
  | f32 : v.type = 0x03 → r.type = 0x03 → r.payload = v.payload % 2 ^ 32 →
      Alike h g k new same v r
  | f64 {bits : BitVec 64} : v.type = 0x10 → r.type = 0x10 → new r.payload →
      h.cells v.payload = some (.wide bits) → g.cells r.payload = some (.wide bits) →
      Alike h g k new same v r
  | str {s : List (BitVec 8)} : v.type = 0x04 ∨ v.type = 0x05 → r.type = 0x04 ∨ r.type = 0x05 →
      strBytes h v = some s → strBytes g r = some s → Alike h g k new same v r
  | bytes {code : Nat} {data : List (BitVec 8)} : v.type = 0x1E → r.type = 0x1E →
      new r.payload → h.cells v.payload = some (.fbuf 1 code data) →
      g.cells r.payload = some (.fbuf 1 1 data) → Alike h g k new same v r
  | vec {a b : RrbVec.Root JaclVal} : kindOf v = 0x06 → r.type = 0x06 → new r.payload →
      vecRoot h v = some a → vecRoot g r = some b →
      List.Forall₂ same (vecElems a) (vecElems b) → Alike h g k new same v r
  | map {s t : Hamt.Node JaclVal JaclVal} {ls : List (Hamt.Leaf JaclVal JaclVal)} :
      v.type = 0x07 → r.type = 0x07 → r.payload = 0 ∨ new r.payload →
      mapRoot h v = some s → mapRoot g r = some t → Hamt.count t = Hamt.count s →
      t = .null ∨ Hamt.Shape (keyHash g k) 7 [] t → ls.Perm (Hamt.entries 7 t) →
      List.Forall₂ (fun l l' => same l.key l'.key ∧ same l.value l'.value) (Hamt.entries 7 s) ls →
      Alike h g k new same v r

/-- **The value `r` on the heap `g` is the value `v` on the heap `h`**, errors included;
`r` is neither tainted nor secret. -/
def Same (h g : Heap) (k : Nat) (new : Nat → Prop) : Nat → JaclVal → JaclVal → Prop
  | 0, _, _ => False
  | n + 1, v, r => r.error = v.error ∧ r.tainted = false ∧ r.secret = false ∧
      Alike h g k new (Same h g k new n) v r

section Same
variable {h g g' : Heap} {k n : Nat} {new new' : Nat → Prop} {v r : JaclVal}

theorem Same.error (hs : Same h g k new n v r) : r.error = v.error := by
  cases n with
  | zero => exact hs.elim
  | succ n => exact hs.1

/-- The cells a value is read from are there. -/
theorem Same.closed (hs : Same h g k new n v r) (j : Nat) : Closed g j r := by
  induction n generalizing v r j with
  | zero => exact hs.elim
  | succ n ih =>
    cases j with
    | zero => trivial
    | succ j =>
      intro hr
      have hscalar : ∀ {o}, g.cells r.payload = some o → o.names = [] → o.children = [] →
          ∃ o, g.cells r.payload = some o ∧ (∀ w ∈ o.names, (strBytes g w).isSome = true) ∧
            ∀ w ∈ o.children, Closed g j w := by
        intro o ho hn hc
        exact ⟨o, ho, by rw [hn]; simp, by rw [hc]; simp⟩
      obtain ⟨-, -, -, hal⟩ := hs
      cases hal with
      | nil hv ht hp | bool hv ht hp | f32 hv ht hp =>
        simp [readsCell, isString, isIwide, isBigint, isF64, ht] at hr
      | int hx hc =>
        obtain ⟨-, hc⟩ := hc.isInt
        rcases hc with ⟨ht, -⟩ | ⟨-, bits, hc, -⟩ | ⟨-, sign, limb, hc, -⟩
        · have ht' : r.type = 0x02 := ht
          simp [readsCell, isString, isIwide, isBigint, isF64, ht'] at hr
        · exact hscalar hc rfl rfl
        · exact hscalar hc rfl rfl
      | f64 hv ht hnew hc hc' => exact hscalar hc' rfl rfl
      | str hv ht hb hb' =>
        rcases ht with ht | ht
        · simp [readsCell, isString, isIwide, isBigint, isF64, ht] at hr
        · rw [strBytes, ht, if_neg (by decide)] at hb'
          split at hb'
          · rename_i hc
            exact hscalar hc rfl rfl
          · cases hb'
      | bytes hv ht hnew hc hc' => exact hscalar hc' rfl rfl
      | @vec a b hv ht hnew ha hb hall =>
        rw [vecRoot] at hb
        split at hb
        · rename_i hc
          obtain rfl := Option.some.inj hb
          refine ⟨_, hc, by simp [Obj.names], fun w hw => ?_⟩
          obtain ⟨x, -, hx⟩ := mem_left hall hw
          exact ih hx j
        · cases hb
      | @map s t ls hv ht hnew hs htr hcount hshape hperm hall =>
        have hp : r.payload ≠ 0 := by
          intro hp
          simp [readsCell, isString, isIwide, isBigint, isF64, ht, hp] at hr
        rw [mapRoot, if_neg hp] at htr
        split at htr
        · rename_i hc
          obtain rfl := Option.some.inj htr
          refine ⟨_, hc, by simp [Obj.names], fun w hw => ?_⟩
          obtain ⟨l, hl, hw⟩ := List.mem_flatMap.mp hw
          obtain ⟨x, -, hk, hval⟩ := mem_left hall (hperm.mem_iff.mpr hl)
          rcases List.mem_pair.mp hw with rfl | rfl
          · exact ih hk j
          · exact ih hval j
        · cases htr

theorem vecRoot_mono (hle : g.Le g') {b : RrbVec.Root JaclVal} (hb : vecRoot g r = some b) :
    vecRoot g' r = some b := by
  rw [vecRoot] at hb ⊢
  cases hc : g.cells r.payload with
  | none => simp [hc] at hb
  | some o =>
    rw [hle _ _ hc]
    rwa [hc] at hb

theorem mapRoot_mono (hle : g.Le g') {t : Hamt.Node JaclVal JaclVal} (ht : mapRoot g r = some t) :
    mapRoot g' r = some t := by
  rw [mapRoot] at ht ⊢
  split at ht
  · rename_i hp
    rw [if_pos hp, ht]
  · rename_i hp
    rw [if_neg hp]
    cases hc : g.cells r.payload with
    | none => simp [hc] at ht
    | some o =>
      rw [hle _ _ hc]
      rwa [hc] at ht

theorem canonical_mono (hle : g.Le g') {x : Int} (hc : Canonical g r x) : Canonical g' r x := by
  obtain ⟨he, hc⟩ := hc
  refine ⟨he, ?_⟩
  by_cases h32 : FitsI32 x
  · rwa [if_pos h32] at hc ⊢
  · rw [if_neg h32] at hc ⊢
    by_cases h64 : FitsI64 x
    · rw [if_pos h64] at hc ⊢
      exact ⟨hc.1, hle _ _ hc.2⟩
    · rw [if_neg h64] at hc ⊢
      obtain ⟨ht, sign, limb, hcell, hok⟩ := hc
      exact ⟨ht, sign, limb, hle _ _ hcell, hok⟩

/-- The reader's heap may grow, and the depth may be larger. -/
theorem Same.mono (hs : Same h g k new n v r) (hle : g.Le g') (hnew : ∀ p, new p → new' p)
    {n' : Nat} (hn : n ≤ n') : Same h g' k new' n' v r := by
  induction n generalizing v r n' with
  | zero => exact hs.elim
  | succ n ih =>
    obtain ⟨n', rfl⟩ : ∃ m, n' = m + 1 := ⟨n' - 1, by omega⟩
    have ih' : ∀ {v r}, Same h g k new n v r → Same h g' k new' n' v r :=
      fun hs => ih hs (by omega)
    obtain ⟨he, ht, hsec, hal⟩ := hs
    refine ⟨he, ht, hsec, ?_⟩
    cases hal with
    | nil hv ht hp => exact .nil hv ht hp
    | bool hv ht hp => exact .bool hv ht hp
    | int hx hc => exact .int hx (canonical_mono hle hc)
    | f32 hv ht hp => exact .f32 hv ht hp
    | f64 hv ht hp hc hc' => exact .f64 hv ht (hnew _ hp) hc (hle _ _ hc')
    | str hv ht hb hb' =>
      exact .str hv ht hb (by rw [strBytes_mono hle (by simp [hb']), hb'])
    | bytes hv ht hp hc hc' => exact .bytes hv ht (hnew _ hp) hc (hle _ _ hc')
    | vec hv ht hp ha hb hall =>
      exact .vec hv ht (hnew _ hp) ha (vecRoot_mono hle hb) (hall.imp fun _ _ => ih')
    | map hv ht hp hs htr hcount hshape hperm hall =>
      refine .map hv ht (hp.imp_right (hnew _)) hs (mapRoot_mono hle htr) hcount ?_ hperm
        (hall.imp fun _ _ hl => ⟨ih' hl.1, ih' hl.2⟩)
      refine hshape.imp_right fun hsh => hsh.congr fun l hl => ?_
      obtain ⟨x, -, hk, -⟩ := mem_left hall (hperm.mem_iff.mpr hl)
      exact keyHash_mono hle (hk.closed k)

/-- The error flag is no part of the contents. -/
theorem Alike.setError {g : Heap} {new : Nat → Prop} {same : JaclVal → JaclVal → Prop} {r : JaclVal}
    (hal : Alike h g k new same { v with error := false } r) : Alike h g k new same v r.setError := by
  cases hal with
  | nil hv ht hp => exact .nil hv ht hp
  | bool hv ht hp => exact .bool hv ht hp
  | int hx hc => exact .int hx hc
  | f32 hv ht hp => exact .f32 hv ht hp
  | f64 hv ht hp hc hc' => exact .f64 hv ht hp hc hc'
  | str hv ht hb hb' => exact .str hv ht hb hb'
  | bytes hv ht hp hc hc' => exact .bytes hv ht hp hc hc'
  | vec hv ht hp ha hb hall => exact .vec hv ht hp ha hb hall
  | map hv ht hp hs htr hcount hshape hperm hall =>
    exact .map hv ht hp hs htr hcount hshape hperm hall

end Same

/-! ### Keys that are equal once they have crossed -/

/-- **Equal contents**, kind by kind, over the comparison of the values inside. -/
inductive EqualContents (fl : FloatOps) (h : Heap) (eq : JaclVal → JaclVal → Prop)
    (a b : JaclVal) : Prop
  | nil : a.type = 0x00 → b.type = 0x00 → EqualContents fl h eq a b
  | bool : a.type = 0x01 → b.type = 0x01 → a.payload % 2 = b.payload % 2 →
      EqualContents fl h eq a b
  | f32 : a.type = 0x03 → b.type = 0x03 → a.payload % 2 ^ 32 = b.payload % 2 ^ 32 →
      EqualContents fl h eq a b
  | num : (a.isAnyint || a.isAnyfloat) = true → (b.isAnyint || b.isAnyfloat) = true →
      numEqual fl h a b = true → EqualContents fl h eq a b
  | str : a.isString = true → b.isString = true → strBytes h a = strBytes h b →
      EqualContents fl h eq a b
  | vec {s t : RrbVec.Root JaclVal} : kindOf a = 0x06 → kindOf b = 0x06 → vecRoot h a = some s →
      vecRoot h b = some t → List.Forall₂ eq (vecElems s) (vecElems t) → EqualContents fl h eq a b
  | map {s t : Hamt.Node JaclVal JaclVal} : a.type = 0x07 → b.type = 0x07 →
      mapRoot h a = some s → mapRoot h b = some t → Hamt.count s = Hamt.count t →
      Hamt.count s ≤ eqMapCap →
      (∀ l ∈ Hamt.entries 7 s, ∃ l' ∈ Hamt.entries 7 t, eq l'.key l.key ∧
        eq l.value (if b.error then b else l'.value)) → EqualContents fl h eq a b

/-- **Equal once they have crossed**: `jacl_val_equal` on values in cells of their own,
where a key of a map is found by its equality, whatever its hash. -/
def EqualOnWire (fl : FloatOps) (h : Heap) : Nat → JaclVal → JaclVal → Prop
  | 0, _, _ => False
  | n + 1, a, b => EqualContents fl h (EqualOnWire fl h n) a b

/-- **Everything an equality can rest on.** -/
theorem valEqual_cases {fl : FloatOps} {g : Heap} {j : Nat} {r s : JaclVal}
    (he : valEqual fl g (j + 1) r s = true) :
    SameWord r s ∨ (r.isString = true ∧ s.isString = true ∧ strBytes g r = strBytes g s) ∨
    ((r.isAnyint || r.isAnyfloat) = true ∧ (s.isAnyint || s.isAnyfloat) = true ∧
      numEqual fl g r s = true) ∨
    (kindOf r = 0x06 ∧ kindOf s = 0x06 ∧ ∃ a b, vecRoot g r = some a ∧ vecRoot g s = some b ∧
      a.count = b.count ∧ ∀ p ∈ (vecElems a).zip (vecElems b), valEqual fl g j p.1 p.2 = true) ∨
    (r.type = 0x12 ∧ s.type = 0x12) ∨
    (r.type = 0x07 ∧ s.type = 0x07 ∧ ∃ a b, mapRoot g r = some a ∧ mapRoot g s = some b ∧
      Hamt.count a = Hamt.count b ∧ Hamt.count a ≤ eqMapCap ∧ ∀ l ∈ Hamt.entries 7 a,
        mapHasWith (valEqual fl g j) (keyHash g j) g s l.key = some true ∧
        ∃ x, mapGetWith (valEqual fl g j) (keyHash g j) g s l.key = some x ∧
          valEqual fl g j l.value x = true) := by
  rw [valEqual] at he
  split at he
  · rename_i hw
    exact .inl hw
  rename_i hw
  refine .inr ?_
  split at he
  · rename_i hs
    rw [Bool.and_eq_true] at hs
    exact .inl ⟨hs.1, hs.2, strBytes_eq_of_strEq he⟩
  refine .inr ?_
  split at he
  · rename_i hn
    rw [Bool.and_eq_true] at hn
    exact .inl ⟨hn.1, hn.2, he⟩
  refine .inr ?_
  split at he
  · cases he
  rename_i hk
  rw [ne_eq, not_not] at hk
  split at he
  · rename_i h6
    split at he
    · rename_i a b ha hb
      simp only [Bool.and_eq_true, beq_iff_eq, List.all_eq_true] at he
      exact .inl ⟨h6, hk ▸ h6, a, b, ha, hb, he.1, he.2⟩
    · cases he
  rename_i h6
  refine .inr ?_
  have htype : r.type = kindOf r ∧ s.type = kindOf r := by
    rw [kindOf] at h6 hk ⊢
    rw [kindOf] at hk
    split at h6
    · exact absurd rfl h6
    · rename_i hr
      rw [if_neg hr] at hk ⊢
      split at hk
      · omega
      · exact ⟨rfl, hk.symm⟩
  split at he
  · rename_i h12
    exact .inl ⟨by rw [htype.1, h12], by rw [htype.2, h12]⟩
  refine .inr ?_
  split at he
  · rename_i h7
    split at he
    · rename_i a b ha hb
      simp only [Bool.and_eq_true, beq_iff_eq, decide_eq_true_eq, List.all_eq_true] at he
      refine ⟨by rw [htype.1, h7], by rw [htype.2, h7], a, b, ha, hb, he.1.1, he.1.2,
        fun l hl => ⟨(he.2 l hl).1, ?_⟩⟩
      have hget := (he.2 l hl).2
      split at hget
      · rename_i x hx
        exact ⟨x, hx, hget⟩
      · cases hget
    · cases he
  · cases he

/-- What a lookup that finds something returns. -/
theorem mapGetWith_found {eq : JaclVal → JaclVal → Bool} {hash : JaclVal → BitVec 32} {g : Heap}
    {m key x : JaclVal} {t : Hamt.Node JaclVal JaclVal} (ht : mapRoot g m = some t)
    (hkey : key.error = false) (hhas : mapHasWith eq hash g m key = some true)
    (hget : mapGetWith eq hash g m key = some x) :
    ∃ l ∈ Hamt.entries 7 t, eq l.key key = true ∧ x = if m.error then m else l.value := by
  rw [mapHasWith, ht] at hhas
  have hhas' : Hamt.has eq hash t key = some true := hhas
  have hfound := hhas'
  rw [Hamt.has] at hfound
  obtain ⟨o, ho, hsome⟩ := Option.map_eq_some_iff.mp hfound
  obtain ⟨l, rfl⟩ := Option.isSome_iff_exists.mp hsome
  obtain ⟨hl, he⟩ := Hamt.mem_of_getLeaf ho
  refine ⟨l, hl, he, ?_⟩
  rw [mapGetWith] at hget
  split at hget
  · rename_i hm
    rw [if_pos hm]
    exact (Option.some.inj hget).symm
  · rename_i hm
    rw [if_neg hm]
    rw [hkey, if_neg (by decide), ht] at hget
    simp only [Option.bind_eq_bind, Option.bind_some, hhas', if_true, Hamt.get, ho,
      Option.map_some, Option.getD_some, Option.some.injEq] at hget
    exact hget.symm

section Numbers
variable {h g : Heap} {k n : Nat} {new : Nat → Prop} {same : JaclVal → JaclVal → Prop}
  {v r : JaclVal}

/-- An integer that is no bigint, as a float. -/
theorem numF64_isInt (fl : FloatOps) {x : Int} (hv : IsInt h { v with error := false } x)
    (hbig : v.isBigint = false) : numF64 fl h v = some (fl.intToF64 x) := by
  obtain ⟨-, ⟨ht, hx⟩ | ⟨ht, bits, hc, hx⟩ | ⟨ht, -⟩⟩ := hv
  · have ht' : v.type = 0x02 := ht
    simp [numF64, isI32, ht', ← hx, asI32]
  · have ht' : v.type = 0x0E := ht
    have hc' : h.cells v.payload = some (.wide bits) := hc
    simp [numF64, isI32, isF64, isBigint, BigInt.wideBits, ht', hc', ← hx]
  · have ht' : v.type = 0x09 := ht
    simp [isBigint, ht'] at hbig

/-- **A number that has crossed** is a number of the same kind with the same value. -/
theorem Alike.num (hal : Alike h g k new same v r) (hwf : WellFormed h (n + 1) v)
    (hn : (r.isAnyint || r.isAnyfloat) = true) (fl : FloatOps) :
    (v.isAnyint || v.isAnyfloat) = true ∧ v.isAnyint = r.isAnyint ∧
      numF64 fl h v = numF64 fl g r ∧ (r.isAnyint = true →
        ∃ x, IsInt h { v with error := false } x ∧ IsInt g { r with error := false } x) := by
  cases hal with
  | nil hv ht hp | bool hv ht hp =>
    simp [isAnyint, isI32, isIwide, isBigint, isAnyfloat, isF64, ht] at hn
  | @int x hx hc =>
    obtain ⟨hvi, -, -⟩ := hx.anyint
    obtain ⟨hri, -, -⟩ := hc.isInt.anyint
    change v.isAnyint = true at hvi
    change r.isAnyint = true at hri
    refine ⟨by simp [hvi], by rw [hvi, hri], ?_, fun _ => ⟨x, hx, hc.isInt⟩⟩
    by_cases hv9 : v.type = 0x09
    · -- a bigint is past 64 bits, so it is one again on the other side
      obtain ⟨y, hy⟩ := hwf.1 hv9
      have h64 : ¬ FitsI64 x := hx.unique hy.isInt rfl rfl ▸ hy.big_iff.mp hv9
      have hr9 : r.type = 0x09 := hc.big_iff.mpr h64
      obtain ⟨sign, limb, hcell, hok, hval⟩ := hx.big hv9
      obtain ⟨sign', limb', hcell', hok', hval'⟩ := hc.isInt.big hr9
      obtain ⟨rfl, rfl⟩ := hok.unique hok' (by rw [← hval, hval'])
      change h.cells v.payload = some (.big sign limb) at hcell
      change g.cells r.payload = some (.big sign limb) at hcell'
      simp [numF64, isI32, isF64, isBigint, hv9, hr9, hcell, hcell']
    · have hv9' : v.isBigint = false := by simp [isBigint, hv9]
      have hr9 : r.isBigint = false := by
        have h64 := (hx.intVal hv9').2
        have : r.type ≠ 0x09 := fun hr => hc.big_iff.mp hr h64
        simp [isBigint, this]
      rw [numF64_isInt fl hx hv9', numF64_isInt fl hc.isInt hr9]
  | f32 hv ht hp =>
    have hbits : BitVec.ofNat 32 r.payload = BitVec.ofNat 32 v.payload := by
      rw [hp]
      exact BitVec.eq_of_toNat_eq (by simp)
    simp [numF64, isAnyint, isI32, isIwide, isBigint, isAnyfloat, isF64, ht, hv, hbits]
  | f64 hv ht hp hc hc' =>
    simp [numF64, isAnyint, isI32, isIwide, isBigint, isAnyfloat, isF64, ht, hv, hc, hc']
  | str hv ht hb hb' =>
    rcases ht with ht | ht <;>
      simp [isAnyint, isI32, isIwide, isBigint, isAnyfloat, isF64, ht] at hn
  | bytes hv ht hp hc hc' =>
    simp [isAnyint, isI32, isIwide, isBigint, isAnyfloat, isF64, ht] at hn
  | vec hv ht hp ha hb hall =>
    simp [isAnyint, isI32, isIwide, isBigint, isAnyfloat, isF64, ht] at hn
  | map hv ht hp hs htr hcount hshape hperm hall =>
    simp [isAnyint, isI32, isIwide, isBigint, isAnyfloat, isF64, ht] at hn

end Numbers

/-! ### Telling the kinds apart -/

section Kinds
variable {h g : Heap} {k : Nat} {new : Nat → Prop} {same : JaclVal → JaclVal → Prop} {v r : JaclVal}

/-- Every kind by the type of the word on the reader's side. -/
theorem Alike.type_mem (hal : Alike h g k new same v r) :
    (r.type = 0x00 ∧ v.type = 0x00) ∨
    (r.type = 0x01 ∧ v.type = 0x01 ∧ r.payload = v.payload % 2) ∨
    (r.type = 0x03 ∧ v.type = 0x03 ∧ r.payload = v.payload % 2 ^ 32) ∨
    (r.type = 0x02 ∨ r.type = 0x0E ∨ r.type = 0x09) ∨ (r.type = 0x04 ∨ r.type = 0x05) ∨
    ((r.type = 0x10 ∨ r.type = 0x1E ∨ r.type = 0x06) ∧ new r.payload) ∨
    (r.type = 0x07 ∧ (r.payload = 0 ∨ new r.payload)) := by
  cases hal with
  | nil hv ht hp => exact .inl ⟨ht, hv⟩
  | bool hv ht hp => exact .inr (.inl ⟨ht, hv, hp⟩)
  | f32 hv ht hp => exact .inr (.inr (.inl ⟨ht, hv, hp⟩))
  | int hx hc => exact .inr (.inr (.inr (.inl hc.type_mem)))
  | str hv ht hb hb' => exact .inr (.inr (.inr (.inr (.inl ht))))
  | f64 hv ht hp hc hc' => exact .inr (.inr (.inr (.inr (.inr (.inl ⟨.inl ht, hp⟩)))))
  | bytes hv ht hp hc hc' => exact .inr (.inr (.inr (.inr (.inr (.inl ⟨.inr (.inl ht), hp⟩)))))
  | vec hv ht hp ha hb hall => exact .inr (.inr (.inr (.inr (.inr (.inl ⟨.inr (.inr ht), hp⟩)))))
  | map hv ht hp hs htr hcount hshape hperm hall =>
    exact .inr (.inr (.inr (.inr (.inr (.inr ⟨ht, hp⟩)))))

theorem Alike.string (hal : Alike h g k new same v r) (hs : r.isString = true) :
    v.isString = true ∧ strBytes g r = strBytes h v := by
  have ht : r.type = 0x04 ∨ r.type = 0x05 ∨ r.type = 0x14 := by
    simpa [isString, or_assoc] using hs
  cases hal with
  | str hv ht hb hb' =>
    refine ⟨?_, by rw [hb, hb']⟩
    rcases hv with hv | hv <;> simp [isString, hv]
  | int hx hc =>
    have htm : r.type = 0x02 ∨ r.type = 0x0E ∨ r.type = 0x09 := hc.type_mem
    omega
  | _ => omega

theorem Alike.vector (hal : Alike h g k new same v r) (ht : r.type = 0x06) :
    kindOf v = 0x06 ∧ ∃ a b, vecRoot h v = some a ∧ vecRoot g r = some b ∧
      List.Forall₂ same (vecElems a) (vecElems b) := by
  cases hal with
  | vec hv ht hp ha hb hall => exact ⟨hv, _, _, ha, hb, hall⟩
  | int hx hc =>
    have htm : r.type = 0x02 ∨ r.type = 0x0E ∨ r.type = 0x09 := hc.type_mem
    omega
  | _ => omega

theorem Alike.mapping (hal : Alike h g k new same v r) (ht : r.type = 0x07) :
    v.type = 0x07 ∧ ∃ s t ls, mapRoot h v = some s ∧ mapRoot g r = some t ∧
      Hamt.count t = Hamt.count s ∧ ls.Perm (Hamt.entries 7 t) ∧
      List.Forall₂ (fun l l' => same l.key l'.key ∧ same l.value l'.value) (Hamt.entries 7 s)
        ls := by
  cases hal with
  | map hv ht hp hs htr hcount hshape hperm hall =>
    exact ⟨hv, _, _, _, hs, htr, hcount, hperm, hall⟩
  | int hx hc =>
    have htm : r.type = 0x02 ∨ r.type = 0x0E ∨ r.type = 0x09 := hc.type_mem
    omega
  | _ => omega

variable {new' : Nat → Prop} {same' : JaclVal → JaclVal → Prop} {b s : JaclVal} {n n' : Nat}

/-- The flags play no part in the comparison of integers. -/
theorem numEqual_clear (fl : FloatOps) {x y : Int} (hv : IsInt h { v with error := false } x)
    (hr : IsInt h { r with error := false } y) : numEqual fl h v r = decide (x = y) := by
  have hclear := numEqual_isInt fl hv hr
  exact hclear

theorem numEqual_of_alike {fl : FloatOps} (ha : Alike h g k new same v r)
    (hb : Alike h g k new' same' b s) (hwa : WellFormed h (n + 1) v) (hwb : WellFormed h (n' + 1) b)
    (hr : (r.isAnyint || r.isAnyfloat) = true) (hs : (s.isAnyint || s.isAnyfloat) = true)
    (he : numEqual fl g r s = true) : numEqual fl h v b = true := by
  obtain ⟨-, hia, hfa, hxa⟩ := ha.num hwa hr fl
  obtain ⟨-, hib, hfb, hxb⟩ := hb.num hwb hs fl
  by_cases hint : r.isAnyint = true ∧ s.isAnyint = true
  · obtain ⟨x, hvx, hrx⟩ := hxa hint.1
    obtain ⟨y, hby, hsy⟩ := hxb hint.2
    have hg : numEqual fl g r s = decide (x = y) := numEqual_clear fl hrx hsy
    have hh : numEqual fl h v b = decide (x = y) := numEqual_clear fl hvx hby
    rw [hh, ← hg, he]
  · have hcond : ¬ (r.isAnyint && s.isAnyint) = true := by
      rwa [Bool.and_eq_true]
    rw [numEqual, if_neg hcond] at he
    rw [numEqual, hia, hib, if_neg hcond, hfa, hfb]
    exact he

/-- One word in two places stands for scalars or empty maps with the same contents. -/
theorem equalContents_of_word {fl : FloatOps} (eq : JaclVal → JaclVal → Prop)
    (ha : Alike h g k new same v r) (hb : Alike h g k new' same' b s)
    (hsep : ∀ p, new p → ¬ new' p) (hwa : WellFormed h (n + 1) v) (hwb : WellFormed h (n' + 1) b)
    (hw : SameWord r s) : EqualContents fl h eq v b := by
  obtain ⟨ht, hp⟩ := hw
  have hnew : ∀ {q}, q = r.payload → new r.payload → ¬ new' q := fun hq hn => hq ▸ hsep _ hn
  have hbt := hb.type_mem
  rcases ha.type_mem with ⟨h0, hv⟩ | ⟨h1, hv, hpv⟩ | ⟨h3, hv, hpv⟩ | hint | hstr | ⟨hcell, hn⟩ |
    ⟨h7, hn⟩
  · exact .nil hv (by omega)
  · exact .bool hv (by omega) (by omega)
  · exact .f32 hv (by omega) (by omega)
  · have hr : r.isAnyint = true := by
      rcases hint with h | h | h <;> simp [isAnyint, isI32, isIwide, isBigint, h]
    have hs : s.isAnyint = true := by rw [← hr, isAnyint, isAnyint, isI32, isI32, isIwide, isIwide,
      isBigint, isBigint, ht]
    obtain ⟨hnv, -, -, hxa⟩ := ha.num hwa (by simp [hr]) fl
    obtain ⟨hnb, -, -, hxb⟩ := hb.num hwb (by simp [hs]) fl
    obtain ⟨x, hvx, hrx⟩ := hxa hr
    obtain ⟨y, hby, hsy⟩ := hxb hs
    have hh : numEqual fl h v b = decide (x = y) := numEqual_clear fl hvx hby
    exact .num hnv hnb (by rw [hh, decide_eq_true_eq]; exact hrx.unique hsy ht hp)
  · have hr : r.isString = true := by rcases hstr with h | h <;> simp [isString, h]
    have hs : s.isString = true := by rw [← hr, isString, isString, ht]
    obtain ⟨hsv, hbv⟩ := ha.string hr
    obtain ⟨hsb, hbb⟩ := hb.string hs
    exact .str hsv hsb (by rw [← hbv, ← hbb, strBytes_eq_of_word ht hp])
  · -- a cell of its own on each side
    exfalso
    rcases hbt with h | h | h | h | h | ⟨-, hn'⟩ | h
    · omega
    · omega
    · omega
    · omega
    · omega
    · exact hnew hp.symm hn hn'
    · omega
  · have h0 : r.payload = 0 := by
      rcases hn with h0 | hn
      · exact h0
      · rcases hbt with h | h | h | h | h | h | ⟨-, h0 | hn'⟩
        · omega
        · omega
        · omega
        · omega
        · omega
        · omega
        · omega
        · exact absurd hn' (hnew hp.symm hn)
    obtain ⟨hv7, sv, tr, ls, hsv, htr, hcount, hperm, hall⟩ := ha.mapping h7
    obtain ⟨hb7, sb, ts, ls', hsb, hts, hcount', hperm', hall'⟩ := hb.mapping (ht ▸ h7)
    rw [mapRoot, if_pos h0] at htr
    rw [mapRoot, if_pos (hp ▸ h0)] at hts
    obtain rfl := Option.some.inj htr
    obtain rfl := Option.some.inj hts
    have hls : ls = [] := by simpa using hperm
    rw [hls] at hall
    have hnil := List.forall₂_nil_right_iff.mp hall
    refine .map hv7 hb7 hsv hsb (by rw [← hcount, ← hcount']) (by rw [← hcount]; decide) ?_
    rw [hnil]
    simp

end Kinds

theorem WellFormed.vector {h : Heap} {n : Nat} {v : JaclVal} (hwf : WellFormed h (n + 1) v)
    (hk : kindOf v = 0x06) {a : RrbVec.Root JaclVal} (ha : vecRoot h v = some a) {x : JaclVal}
    (hx : x ∈ vecElems a) : WellFormed h n x :=
  hwf.2.2.2.1 hk a ha x hx

theorem WellFormed.mapping {h : Heap} {n : Nat} {v : JaclVal} (hwf : WellFormed h (n + 1) v)
    (hk : v.type = 0x07) {t : Hamt.Node JaclVal JaclVal} (ht : mapRoot h v = some t) :
    Hamt.count t = (Hamt.entries 7 t).length ∧ ∀ l ∈ Hamt.entries 7 t, l.key.error = false ∧
      l.value.error = false ∧ WellFormed h n l.key ∧ WellFormed h n l.value :=
  hwf.2.2.2.2 hk t ht

/-- **Values that compare equal after crossing** are equal on the wire, provided they were
read into different cells. -/
theorem Same.equalOnWire {fl : FloatOps} {h g : Heap} {k j n n' : Nat} {new new' : Nat → Prop}
    {a b r s : JaclVal} (ha : Same h g k new n a r) (hb : Same h g k new' n' b s)
    (hsep : ∀ p, new p → ¬ new' p) (hwa : WellFormed h n a) (hwb : WellFormed h n' b)
    (he : valEqual fl g j r s = true) : EqualOnWire fl h j a b := by
  induction j generalizing n n' new new' a b r s with
  | zero => cases he
  | succ j ih =>
    obtain ⟨n, rfl⟩ : ∃ m, n = m + 1 := Nat.exists_eq_succ_of_ne_zero (by rintro rfl; exact ha)
    obtain ⟨n', rfl⟩ : ∃ m, n' = m + 1 := Nat.exists_eq_succ_of_ne_zero (by rintro rfl; exact hb)
    have hb' := hb
    obtain ⟨-, -, -, ha⟩ := ha
    obtain ⟨hbe, -, -, hb⟩ := hb
    rcases valEqual_cases he with hw | ⟨hr, hs, hbytes⟩ | ⟨hr, hs, hnum⟩ |
      ⟨hr, hs, va, vb, hva, hvb, hcount, hall⟩ | ⟨hr, hs⟩ |
      ⟨hr, hs, ta, tb, hta, htb, hcount, hcap, hall⟩
    · exact equalContents_of_word _ ha hb hsep hwa hwb hw
    · obtain ⟨hsv, hbv⟩ := ha.string hr
      obtain ⟨hsb, hbb⟩ := hb.string hs
      exact .str hsv hsb (by rw [← hbv, ← hbb, hbytes])
    · exact .num (ha.num hwa hr fl).1 (hb.num hwb hs fl).1
        (numEqual_of_alike ha hb hwa hwb hr hs hnum)
    · have htype : ∀ {v r : JaclVal} {same new}, Alike h g k new same v r → kindOf r = 0x06 →
          r.type = 0x06 := by
        intro v r same new hal hk
        rw [kindOf] at hk
        split at hk
        · have := hal.type_mem
          omega
        · exact hk
      obtain ⟨hka, xa, va', hxa, hva', hsa⟩ := ha.vector (htype ha hr)
      obtain ⟨hkb, xb, vb', hxb, hvb', hsb⟩ := hb.vector (htype hb hs)
      obtain rfl := Option.some.inj (hva.symm.trans hva')
      obtain rfl := Option.some.inj (hvb.symm.trans hvb')
      refine .vec hka hkb hxa hxb (forall₂_of_zip hsa hsb
        (by rw [length_vecElems, length_vecElems, hcount]) fun x hx y hy p hp h1 h2 => ?_)
      exact ih h1 h2 hsep (hwa.vector hka hxa hx) (hwb.vector hkb hxb hy) (hall p hp)
    · have := ha.type_mem
      omega
    · obtain ⟨hka, sa, ta', la, hsa, hta', hca, hpa, hfa⟩ := ha.mapping hr
      obtain ⟨hkb, sb, tb', lb, hsb, htb', hcb, hpb, hfb⟩ := hb.mapping hs
      obtain rfl := Option.some.inj (hta.symm.trans hta')
      obtain rfl := Option.some.inj (htb.symm.trans htb')
      obtain ⟨-, hwa'⟩ := hwa.mapping hka hsa
      obtain ⟨-, hwb'⟩ := hwb.mapping hkb hsb
      refine .map hka hkb hsa hsb (by omega) (by omega) fun l hl => ?_
      obtain ⟨d, hd, hkd, hvd⟩ := mem_right hfa hl
      obtain ⟨hke, -, hwk, hwv⟩ := hwa' l hl
      obtain ⟨hhas, x, hget, hx⟩ := hall d (hpa.mem_iff.mp hd)
      obtain ⟨d', hd', heq, rfl⟩ := mapGetWith_found htb (hkd.error.trans hke) hhas hget
      obtain ⟨l', hl', hkd', hvd'⟩ := mem_left hfb (hpb.mem_iff.mpr hd')
      obtain ⟨-, -, hwk', hwv'⟩ := hwb' l' hl'
      refine ⟨l', hl', ih hkd' hkd (fun p h1 h2 => hsep p h2 h1) hwk' hwk heq, ?_⟩
      rw [hbe] at hx
      split
      · rename_i hbe'
        rw [if_pos hbe'] at hx
        exact ih hvd hb' hsep hwv hwb hx
      · rename_i hbe'
        rw [if_neg hbe'] at hx
        exact ih hvd hvd' hsep hwv hwv' hx

end Jacl.Wire
