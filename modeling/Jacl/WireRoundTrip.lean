import Jacl.WireDecode

/-!
# The round trip of a value

What `jv_size`, `jv_write` and `jv_get` do together: the layout of the frame always, and
the value read back exactly when every vector fits, on maps whose keys stay apart.
-/

namespace Jacl.Wire
open JaclVal Bytes Builtins Entrywise

/-! ### Reading only adds cells -/

/-- `g'` has the cells of `g`, and perhaps more. -/
def Adds (g : Heap) (r : Heap × JaclVal) : Prop := g.Le r.1 ∧ r.1.Ok

theorem Adds.refl {g : Heap} (hok : g.Ok) (v : JaclVal) : Adds g (g, v) := ⟨Heap.Le.refl g, hok⟩

theorem Adds.alloc {g : Heap} (hok : g.Ok) (o : Obj) (v : JaclVal) : Adds g ((g.alloc o).1, v) :=
  ⟨Heap.le_alloc hok o, Heap.ok_alloc hok o⟩

theorem Adds.trans {g : Heap} {r s : Heap × JaclVal} (h : Adds g r) (h' : Adds r.1 s) : Adds g s :=
  ⟨h.1.trans h'.1, h'.2⟩

theorem adds_intResult {g : Heap} (hok : g.Ok) (x : Int) : Adds g (BigInt.intResult g x) := by
  rw [BigInt.intResult]
  split
  · exact .refl hok _
  · exact .alloc hok _ _

theorem adds_canon {g : Heap} (hok : g.Ok) (sign : Int) (limb : List Nat) :
    Adds g (BigInt.canon g sign limb) := by
  have hbig : Adds g (BigInt.bigOrError g sign (Limbs.trim limb)) := by
    rw [BigInt.bigOrError]
    split
    · exact .refl hok _
    · exact .alloc hok _ _
  rw [BigInt.canon]
  dsimp only
  generalize (Limbs.trim limb).getD 0 0 + _ = u
  split
  · exact .refl hok _
  · split
    · split
      · exact adds_intResult hok _
      · split
        · exact adds_intResult hok _
        · split
          · exact adds_intResult hok _
          · exact hbig
    · exact hbig

theorem adds_strNew {g : Heap} (hok : g.Ok) (s : List (BitVec 8)) : Adds g (strNew g s) := by
  rw [strNew]
  split
  · exact .refl hok _
  · exact .alloc hok _ _

theorem adds_vecPush {g : Heap} (hok : g.Ok) {vec x : JaclVal} {r : Heap × JaclVal}
    (hr : vecPush g vec x = some r) : Adds g r := by
  rw [vecPush] at hr
  obtain ⟨a, -, hr⟩ := Option.bind_eq_some_iff.mp hr
  obtain ⟨b, -, hr⟩ := Option.bind_eq_some_iff.mp hr
  rw [← Option.some.inj hr]
  exact .alloc hok _ _

theorem adds_mapSet {fl : FloatOps} {k : Nat} {g : Heap} (hok : g.Ok) {m key val : JaclVal}
    {r : Heap × JaclVal} (hr : mapSet fl k g m key val = some r) : Adds g r := by
  rw [mapSet] at hr
  split at hr
  · rw [← Option.some.inj hr]
    exact .refl hok _
  · split at hr
    · rw [← Option.some.inj hr]
      exact .refl hok _
    · split at hr
      · rw [← Option.some.inj hr]
        exact .refl hok _
      · obtain ⟨t, -, hr⟩ := Option.bind_eq_some_iff.mp hr
        obtain ⟨t', -, hr⟩ := Option.bind_eq_some_iff.mp hr
        rw [← Option.some.inj hr]
        exact mapOf_le hok t'

section Loops
variable {get : Heap → Nat → Option (Heap × JaclVal)}
  {set : Heap → JaclVal → JaclVal → JaclVal → Option (Heap × JaclVal)}

theorem adds_getVec (hget : ∀ g pos r, g.Ok → get g pos = some r → Adds g r) {n : Nat} {g : Heap}
    (hok : g.Ok) {vec : JaclVal} {pos : Nat} {r : Heap × JaclVal}
    (hr : getVec get n g vec pos = some r) : Adds g r := by
  induction n generalizing g vec pos with
  | zero =>
    rw [← Option.some.inj hr]
    exact .refl hok _
  | succ n ih =>
    rw [getVec] at hr
    obtain ⟨⟨g₁, x⟩, hx, hr⟩ := Option.bind_eq_some_iff.mp hr
    obtain ⟨⟨g₂, vec'⟩, hv, hr⟩ := Option.bind_eq_some_iff.mp hr
    have h₁ := hget _ _ _ hok hx
    have h₂ := adds_vecPush h₁.2 hv
    exact (h₁.trans h₂).trans (ih h₂.2 hr)

theorem adds_getMap (hget : ∀ g pos r, g.Ok → get g pos = some r → Adds g r)
    (hset : ∀ g m key val r, g.Ok → set g m key val = some r → Adds g r) {n : Nat} {g : Heap}
    (hok : g.Ok) {m : JaclVal} {pos : Nat} {r : Heap × JaclVal}
    (hr : getMap get set n g m pos = some r) : Adds g r := by
  induction n generalizing g m pos with
  | zero =>
    rw [← Option.some.inj hr]
    exact .refl hok _
  | succ n ih =>
    rw [getMap] at hr
    obtain ⟨⟨g₁, key⟩, hk, hr⟩ := Option.bind_eq_some_iff.mp hr
    obtain ⟨⟨g₂, val⟩, hv, hr⟩ := Option.bind_eq_some_iff.mp hr
    obtain ⟨⟨g₃, m'⟩, hm, hr⟩ := Option.bind_eq_some_iff.mp hr
    have h₁ := hget _ _ _ hok hk
    have h₂ := hget _ _ _ h₁.2 hv
    have h₃ := hset _ _ _ _ _ h₂.2 hm
    exact ((h₁.trans h₂).trans h₃).trans (ih h₃.2 hr)

end Loops

/-- Whatever it reads, `jv_get` leaves the cells of the heap as they are. -/
theorem adds_get {fl : FloatOps} {k fuel : Nat} {m : Memory} {g : Heap} (hok : g.Ok) {pos : Nat}
    {r : Heap × JaclVal} (hr : get fl k m fuel g pos = some r) : Adds g r := by
  induction fuel generalizing g pos r with
  | zero => cases hr
  | succ fuel ih =>
    have hrec : ∀ g pos r, g.Ok → get fl k m fuel g pos = some r → Adds g r :=
      fun g pos r hok hr => ih hok hr
    have hstr : ∀ what : String, Adds g (errVal g what) :=
      fun what => adds_strNew hok _
    rw [get] at hr
    dsimp only at hr
    generalize (m pos).toNat = tag at hr
    by_cases h0 : tag = Tag.nil.code
    · rw [if_pos h0] at hr
      exact Option.some.inj hr ▸ .refl hok _
    rw [if_neg h0] at hr
    by_cases h1 : tag = Tag.bool.code
    · rw [if_pos h1] at hr
      exact Option.some.inj hr ▸ .refl hok _
    rw [if_neg h1] at hr
    by_cases h2 : tag = Tag.i32.code
    · rw [if_pos h2] at hr
      exact Option.some.inj hr ▸ .refl hok _
    rw [if_neg h2] at hr
    by_cases h3 : tag = Tag.i64.code
    · rw [if_pos h3] at hr
      exact Option.some.inj hr ▸ adds_intResult hok _
    rw [if_neg h3] at hr
    by_cases h4 : tag = Tag.u32.code
    · rw [if_pos h4] at hr
      exact Option.some.inj hr ▸ adds_intResult hok _
    rw [if_neg h4] at hr
    by_cases h5 : tag = Tag.u64.code
    · rw [if_pos h5] at hr
      exact Option.some.inj hr ▸ adds_canon hok _ _
    rw [if_neg h5] at hr
    by_cases h6 : tag = Tag.f32.code
    · rw [if_pos h6] at hr
      exact Option.some.inj hr ▸ .refl hok _
    rw [if_neg h6] at hr
    by_cases h7 : tag = Tag.f64.code
    · rw [if_pos h7] at hr
      exact Option.some.inj hr ▸ .alloc hok _ _
    rw [if_neg h7] at hr
    by_cases h8 : tag = Tag.text.code
    · rw [if_pos h8] at hr
      exact Option.some.inj hr ▸ adds_strNew hok _
    rw [if_neg h8] at hr
    by_cases h9 : tag = Tag.bytes.code
    · rw [if_pos h9] at hr
      split at hr
      · exact Option.some.inj hr ▸ .alloc hok _ _
      · cases hr
    rw [if_neg h9] at hr
    by_cases h10 : tag = Tag.vec.code
    · rw [if_pos h10] at hr
      have halloc : Adds g (vecEmpty g) := .alloc hok _ _
      exact halloc.trans (adds_getVec hrec halloc.2 hr)
    rw [if_neg h10] at hr
    by_cases h11 : tag = Tag.map.code
    · rw [if_pos h11] at hr
      exact adds_getMap hrec (fun _ _ _ _ _ hok hset => adds_mapSet hok hset) hok hr
    rw [if_neg h11] at hr
    by_cases h12 : tag = Tag.error.code
    · rw [if_pos h12] at hr
      split at hr
      · exact Option.some.inj hr ▸ hstr _
      · obtain ⟨⟨g₁, x⟩, hx, hr⟩ := Option.bind_eq_some_iff.mp hr
        have h₁ := ih hok hx
        exact Option.some.inj hr ▸ h₁
    · rw [if_neg h12] at hr
      exact Option.some.inj hr ▸ hstr _

/-! ### A long vector is never read back -/

/-- The loop of `jv_get_vec` pushes one element for each head. -/
theorem getVec_pushAll {get : Heap → Nat → Option (Heap × JaclVal)}
    (hget : ∀ g pos r, g.Ok → get g pos = some r → Adds g r) {n : Nat} {g : Heap} (hok : g.Ok)
    {vec : JaclVal} {a : RrbVec.Root JaclVal} (ha : vecRoot g vec = some a) {xs : List JaclVal}
    (hxs : RrbVec.pushAll xs = some a) {pos : Nat} {r : Heap × JaclVal}
    (hr : getVec get n g vec pos = some r) :
    ∃ ys b, ys.length = n ∧ RrbVec.pushAll (xs ++ ys) = some b := by
  induction n generalizing g vec a xs pos with
  | zero => exact ⟨[], a, rfl, by rwa [List.append_nil]⟩
  | succ n ih =>
    rw [getVec] at hr
    obtain ⟨⟨g₁, x⟩, hx, hr⟩ := Option.bind_eq_some_iff.mp hr
    obtain ⟨⟨g₂, vec'⟩, hv, hr⟩ := Option.bind_eq_some_iff.mp hr
    have h₁ := hget _ _ _ hok hx
    have h₂ := adds_vecPush h₁.2 hv
    rw [vecPush, vecRoot_mono h₁.1 ha] at hv
    obtain ⟨a', ha', hv⟩ := Option.bind_eq_some_iff.mp hv
    obtain rfl := Option.some.inj ha'
    obtain ⟨b, hpush, hv⟩ := Option.bind_eq_some_iff.mp hv
    have hvec := Option.some.inj hv
    obtain ⟨rfl, rfl⟩ := Prod.mk.inj hvec
    obtain ⟨ys, c, hlen, hall⟩ := ih h₂.2 (vecRoot_alloc g₁ b)
      (show RrbVec.pushAll (xs ++ [x]) = some b by
        rw [RrbVec.pushAll_concat, hxs]
        exact hpush) hr
    exact ⟨x :: ys, c, by rw [List.length_cons, hlen], by rwa [List.append_assoc] at hall⟩

/-- An element that is not read back stops the loop. -/
theorem getVec_none {get : Heap → Nat → Option (Heap × JaclVal)} {n i : Nat} (hi : i < n)
    {off : Nat} (hnone : ∀ g, g.Ok → get g (off + i * headSize) = none)
    (hget : ∀ g pos r, g.Ok → get g pos = some r → Adds g r) {g : Heap} (hok : g.Ok)
    (vec : JaclVal) : getVec get n g vec off = none := by
  induction n generalizing i off g vec with
  | zero => omega
  | succ n ih =>
    rw [Option.eq_none_iff_forall_ne_some]
    intro r hr
    rw [getVec] at hr
    obtain ⟨⟨g₁, x⟩, hx, hr⟩ := Option.bind_eq_some_iff.mp hr
    obtain ⟨⟨g₂, vec'⟩, hv, hr⟩ := Option.bind_eq_some_iff.mp hr
    have h₁ := hget _ _ _ hok hx
    cases i with
    | zero =>
      rw [Nat.zero_mul, Nat.add_zero] at hnone
      rw [hnone g hok] at hx
      cases hx
    | succ i =>
      have hrest := ih (i := i) (by omega)
        (by rwa [show off + headSize + i * headSize = off + (i + 1) * headSize by ring])
        (adds_vecPush h₁.2 hv).2 vec'
      exact absurd (hrest.symm.trans hr) (by simp)

/-- A key or a value that is not read back stops the loop. -/
theorem getMap_none {get : Heap → Nat → Option (Heap × JaclVal)}
    {set : Heap → JaclVal → JaclVal → JaclVal → Option (Heap × JaclVal)} {n i : Nat} (hi : i < n)
    {off : Nat} (hnone : (∀ g, g.Ok → get g (off + i * entrySize) = none) ∨
      ∀ g, g.Ok → get g (off + i * entrySize + headSize) = none)
    (hget : ∀ g pos r, g.Ok → get g pos = some r → Adds g r)
    (hset : ∀ g m key val r, g.Ok → set g m key val = some r → Adds g r) {g : Heap} (hok : g.Ok)
    (m : JaclVal) : getMap get set n g m off = none := by
  induction n generalizing i off g m with
  | zero => omega
  | succ n ih =>
    rw [Option.eq_none_iff_forall_ne_some]
    intro r hr
    rw [getMap] at hr
    obtain ⟨⟨g₁, key⟩, hk, hr⟩ := Option.bind_eq_some_iff.mp hr
    obtain ⟨⟨g₂, val⟩, hv, hr⟩ := Option.bind_eq_some_iff.mp hr
    obtain ⟨⟨g₃, m'⟩, hm, hr⟩ := Option.bind_eq_some_iff.mp hr
    have h₁ := hget _ _ _ hok hk
    have h₂ := hget _ _ _ h₁.2 hv
    cases i with
    | zero =>
      rw [Nat.zero_mul, Nat.add_zero] at hnone
      rcases hnone with hnone | hnone
      · rw [hnone g hok] at hk
        cases hk
      · rw [hnone g₁ h₁.2] at hv
        cases hv
    | succ i =>
      have hrest := ih (i := i) (by omega)
        (by rwa [show off + entrySize + i * entrySize = off + (i + 1) * entrySize by ring])
        (hset _ _ _ _ _ h₂.2 hm).2 m'
      exact absurd (hrest.symm.trans hr) (by simp)

theorem VecsFit.leaf {h : Heap} {v : JaclVal} (h6 : kindOf v ≠ 0x06) (h7 : v.type ≠ 0x07)
    (n : Nat) : VecsFit h n v := by
  cases n with
  | zero => trivial
  | succ n => exact ⟨fun hk => absurd hk h6, fun hk => absurd hk h7⟩

theorem KeysApart.leaf {fl : FloatOps} {h : Heap} {k : Nat} {v : JaclVal} (h6 : kindOf v ≠ 0x06)
    (h7 : v.type ≠ 0x07) (n : Nat) : KeysApart fl h k n v := by
  cases n with
  | zero => trivial
  | succ n => exact ⟨fun hk => absurd hk h6, fun hk => absurd hk h7⟩

theorem ViewOf.leaf {h : Heap} {v : JaclVal} {w : View} (hw : ViewOf h v w)
    (hleaf : ∀ tag count cs step, w ≠ .heads tag count cs step) :
    kindOf v ≠ 0x06 ∧ v.type ≠ 0x07 := by
  cases hw with
  | error he => exact absurd rfl (hleaf _ _ _ _)
  | vec he hk hr => exact absurd rfl (hleaf _ _ _ _)
  | map he hk hr => exact absurd rfl (hleaf _ _ _ _)
  | nil he ht | bool he ht | i32 he ht | f32 he ht | i64 he ht | f64 he ht | u64 he ht
  | inline he ht | str he ht | bytes he ht => simp [kindOf, ht]

/-- An encoded value is no deeper than its encoding. -/
theorem VecsFit.all {h : Heap} {m : Memory} {n pos lo hi : Nat} {v : JaclVal}
    (henc : Enc h m n v pos lo hi) (hfit : VecsFit h n v) (j : Nat) : VecsFit h j v := by
  induction n generalizing v pos lo hi j with
  | zero => exact henc.elim
  | succ n ih =>
    cases j with
    | zero => trivial
    | succ j =>
      obtain ⟨w, hw, hv⟩ := henc
      cases w with
      | scalar tag x i =>
        obtain ⟨h6, h7⟩ := hw.leaf (by simp)
        exact .leaf h6 h7 _
      | data tag s =>
        obtain ⟨h6, h7⟩ := hw.leaf (by simp)
        exact .leaf h6 h7 _
      | heads tag count cs step =>
        obtain ⟨-, off, -, -, -, hcs⟩ := hv
        have hmem : ∀ c ∈ cs, ∃ pos lo hi, Enc h m n c pos lo hi := by
          intro c hc
          obtain ⟨i, hi⟩ := List.mem_iff_getElem?.mp hc
          obtain ⟨lo', hi', -, -, henc⟩ := hcs i c hi
          exact ⟨_, lo', hi', henc⟩
        cases hw with
        | error he =>
          obtain ⟨pos', lo', hi', hc⟩ := hmem _ (List.mem_singleton.mpr rfl)
          exact ih hc hfit.of_succ.clear (j + 1)
        | @vec a he hk ha =>
          obtain ⟨hcount, hall⟩ := hfit.1 hk a ha
          refine ⟨fun _ r hr => ?_, fun hk7 => by simp [kindOf, hk7] at hk⟩
          obtain rfl := Option.some.inj (ha.symm.trans hr)
          refine ⟨hcount, fun x hx => ?_⟩
          obtain ⟨pos', lo', hi', hc⟩ := hmem x hx
          exact ih hc (hall x hx) j
        | @map t he hk ht =>
          have hall := hfit.2 hk t ht
          refine ⟨fun hk6 => by simp [kindOf, hk] at hk6, fun _ t' ht' l hl => ?_⟩
          obtain rfl := Option.some.inj (ht.symm.trans ht')
          have hpair : ∀ c ∈ [l.key, l.value], c ∈ entryHeads t :=
            fun c hc => List.mem_flatMap.mpr ⟨l, hl, hc⟩
          obtain ⟨p₁, lo₁, hi₁, h₁⟩ := hmem l.key (hpair _ (by simp))
          obtain ⟨p₂, lo₂, hi₂, h₂⟩ := hmem l.value (hpair _ (by simp))
          exact ⟨ih h₁ (hall l hl).1 j, ih h₂ (hall l hl).2 j⟩

/-- **A value with a vector too long to rebuild is never read back.**  By induction on the
encoding: the read stops at the vector, and every read around it stops with it. -/
theorem get_eq_none (fl : FloatOps) {h : Heap} (k : Nat) {m : Memory} {n pos lo hi : Nat}
    {v : JaclVal} (henc : Enc h m n v pos lo hi) (hwf : WellFormed h n v) (hfit : ¬ VecsFit h n v)
    (fuel : Nat) {g : Heap} (hok : g.Ok) : get fl k m fuel g pos = none := by
  induction n generalizing v pos lo hi fuel g with
  | zero => exact henc.elim
  | succ n ih =>
    cases fuel with
    | zero => rfl
    | succ fuel =>
      have hadds : ∀ g pos r, g.Ok → get fl k m fuel g pos = some r → Adds g r :=
        fun _ _ _ hok hr => adds_get hok hr
      obtain ⟨w, hw, hv⟩ := henc
      cases w with
      | scalar tag x i =>
        obtain ⟨h6, h7⟩ := hw.leaf (by simp)
        exact absurd (.leaf h6 h7 _) hfit
      | data tag s =>
        obtain ⟨h6, h7⟩ := hw.leaf (by simp)
        exact absurd (.leaf h6 h7 _) hfit
      | heads tag count cs step =>
        obtain ⟨htag, off, hoff, hcount, -, hcs⟩ := hv
        have hcount' : le m (pos + 8 + 4) 4 = count := hcount
        cases hw with
        | error he =>
          obtain ⟨lo', hi', -, -, hc⟩ := hcs 0 _ rfl
          rw [Nat.zero_mul, Nat.add_zero] at hc
          have hnone := ih hc hwf.of_succ.clear (fun hf => hfit (hf.all hc (n + 1)).clear) fuel hok
          simp only [get, htag, hcount', hoff, hnone]
          rfl
        | @vec a he hk ha =>
          have hrun : get fl k m (fuel + 1) g pos = getVec (get fl k m fuel) a.count
              (vecEmpty g).1 (vecEmpty g).2 off := by
            simp only [get, htag, hcount', hoff]
            rfl
          rw [hrun]
          by_cases hlong : 2080 < a.count
          · rw [Option.eq_none_iff_forall_ne_some]
            intro r hr
            have hroot : vecRoot (vecEmpty g).1 (vecEmpty g).2 = some RrbVec.empty :=
              vecRoot_alloc g RrbVec.empty
            obtain ⟨ys, b, hlen, hall⟩ := getVec_pushAll hadds (Heap.ok_alloc hok _) hroot
              (show RrbVec.pushAll [] = some RrbVec.empty from rfl) hr
            rw [List.nil_append, RrbVec.pushAll_eq_none ys (by rw [hlen]; exact hlong)] at hall
            cases hall
          · have hex : ∃ x ∈ vecElems a, ¬ VecsFit h n x := by
              by_contra hall
              push Not at hall
              refine hfit ⟨fun _ r hr => ?_, fun hk7 => by simp [kindOf, hk7] at hk⟩
              obtain rfl := Option.some.inj (ha.symm.trans hr)
              exact ⟨by omega, hall⟩
            obtain ⟨x, hx, hnf⟩ := hex
            obtain ⟨i, hi⟩ := List.mem_iff_getElem?.mp hx
            obtain ⟨lo', hi', -, -, henc⟩ := hcs i x hi
            obtain ⟨hlt, -⟩ := List.getElem?_eq_some_iff.mp hi
            rw [length_vecElems] at hlt
            exact getVec_none hlt
              (fun g hok => ih henc (hwf.vector hk ha hx) hnf fuel hok) hadds
              (Heap.ok_alloc hok _) _
        | @map t he hk ht =>
          obtain ⟨hlen, hwfs⟩ := hwf.mapping hk ht
          have hrun : get fl k m (fuel + 1) g pos = getMap (get fl k m fuel) (mapSet fl k)
              (Hamt.count t) g mapEmpty off := by
            simp only [get, htag, hcount', hoff]
            rfl
          have hex : ∃ l ∈ Hamt.entries 7 t, ¬ VecsFit h n l.key ∨ ¬ VecsFit h n l.value := by
            by_contra hall
            push Not at hall
            refine hfit ⟨fun hk6 => by simp [kindOf, hk] at hk6, fun _ t' ht' => ?_⟩
            obtain rfl := Option.some.inj (ht.symm.trans ht')
            exact hall
          obtain ⟨l, hl, hnf⟩ := hex
          obtain ⟨i, hi⟩ := List.mem_iff_getElem?.mp hl
          obtain ⟨h₁, h₂⟩ := entryHeads_getElem hi
          obtain ⟨lo₁, hi₁, -, -, henc₁⟩ := hcs _ _ h₁
          obtain ⟨lo₂, hi₂, -, -, henc₂⟩ := hcs _ _ h₂
          obtain ⟨-, -, hw₁, hw₂⟩ := hwfs l hl
          obtain ⟨hlt, -⟩ := List.getElem?_eq_some_iff.mp hi
          rw [show off + 2 * i * headSize = off + i * entrySize by
            rw [headSize, entrySize]; omega] at henc₁
          rw [show off + (2 * i + 1) * headSize = off + i * entrySize + headSize by
            rw [headSize, entrySize]; omega] at henc₂
          rw [hrun, hlen]
          refine getMap_none hlt ?_ hadds (fun _ _ _ _ _ hok hset => adds_mapSet hok hset) hok _
          exact hnf.imp (fun hnf g hok => ih henc₁ hw₁ hnf fuel hok)
            fun hnf g hok => ih henc₂ hw₂ hnf fuel hok

/-! ### The round trip -/

/-- **A frame as `jv_write` leaves it**: `n` bytes are filled, the segments are 8-aligned,
inside the frame and apart from each other and from the root's head, and every other head
is in one segment. -/
structure Framed (m : Memory) (n : Nat) (e : JvEnc) (m' : Memory) : Prop where
  buf : e.buf = some m'
  len : e.len = n
  frame : ∀ i, n ≤ i → m' i = m i
  aligned : ∀ s ∈ e.segs, s.1 % 8 = 0
  inside : ∀ s ∈ e.segs, headSize ≤ s.1 ∧ s.1 + s.2 ≤ n
  apart : e.segs.Pairwise fun s s' => s.1 + s.2 ≤ s'.1
  heads : ∀ p ∈ e.heads, p = 0 ∨ ∃ s ∈ e.segs, s.1 ≤ p ∧ p + headSize ≤ s.1 + s.2

/-- **The round trip.**  Every value that `jv_size` accepts is written into exactly that many
bytes, in a proper layout.  Where the keys of its maps stay apart, `jv_get` of the frame
returns the same value on every heap if and only if every vector in it fits. -/
theorem round_trip (fl : FloatOps) (k : Nat) {h : Heap} {v : JaclVal} {n : Nat} {m : Memory}
    (hwf : WellFormed h putFuel v) (hsize : size h v = some (.ok n)) (hzero : ∀ i < n, m i = 0#8) :
    ∃ e m', write h v m = some e ∧ Framed m n e m' ∧
      (KeysApart fl h k putFuel v →
        (Decodes h k putFuel v (fun g => get fl k m' putFuel g 0) ↔ VecsFit h putFuel v)) := by
  obtain ⟨e, m', hwrite, hbuf, hlen, hframe, henc, hplaced, hheads⟩ := write_spec hwf hsize hzero
  refine ⟨e, m', hwrite, ⟨hbuf, hlen, hframe, fun s hs => (hplaced.mem hs).2.1,
    fun s hs => ⟨(hplaced.mem hs).1, (hplaced.mem hs).2.2⟩, hplaced.disjoint, hheads⟩,
    fun hkeys => ⟨fun hdec => ?_, fun hfit => get_spec fl k henc hwf hfit hkeys (Nat.le_refl _)⟩⟩
  -- a heap to read to
  have hok : Heap.Ok ⟨fun _ => none, 16⟩ := ⟨by decide, fun _ _ => rfl⟩
  by_contra hfit
  obtain ⟨g', r, hr, -⟩ := hdec _ hok
  have hnone := get_eq_none fl k henc hwf hfit putFuel hok
  exact absurd (hr.symm.trans hnone) (by simp)

/-! ### A vector of nils -/

/-- A heap with one vector, at 16. -/
def oneVector (r : RrbVec.Root JaclVal) : Heap := ⟨fun a => if a = 16 then some (.vec r) else none, 32⟩

theorem vecRoot_oneVector (r : RrbVec.Root JaclVal) :
    vecRoot (oneVector r) (plain 0x06 16) = some r := rfl

theorem putHeads_nils {h : Heap} {fuel depth : Nat} (hdepth : depth < maxDepth) {e : JvEnc}
    (he : e.err = none) (c off : Nat) :
    ∃ ps, putHeads (fun e c pos => put h (fuel + 1) e c pos depth) e (List.replicate c nil) off =
      some { e with heads := ps } := by
  induction c generalizing e off with
  | zero => exact ⟨e.heads, rfl⟩
  | succ c ih =>
    have hput : put h (fuel + 1) e nil off depth =
        some { e with heads := e.heads ++ [off] } := by
      rw [put, if_neg (by simp [he]), if_neg (by omega), if_neg (by decide)]
      rfl
    obtain ⟨ps, hps⟩ := ih (e := { e with heads := e.heads ++ [off] }) he (off + headSize)
    refine ⟨ps, ?_⟩
    rw [List.replicate_succ, putHeads, if_neg (by simp [he]), hput]
    exact hps

/-- A vector of nils crosses: a head and one segment. -/
theorem size_nils {r : RrbVec.Root JaclVal} {c : Nat} (hr : vecElems r = List.replicate c nil)
    (hpos : 0 < c) (hbound : headSize + c * headSize ≤ 0xFFFFFFFF) :
    size (oneVector r) (plain 0x06 16) = some (.ok (headSize + c * headSize)) := by
  have hcount : r.count = c := by rw [← length_vecElems, hr, List.length_replicate]
  have hseg : (segment ⟨none, headSize, none, [0], []⟩ 8 (c * headSize) c).1 =
      ⟨none, headSize + c * headSize, none, [0], [(headSize, c * headSize)]⟩ := by
    have hne : c * headSize ≠ 0 := by
      rw [headSize]
      omega
    rw [segment, if_neg hne]
    have halign : align headSize = headSize := by decide
    simp [halign, putLe, Nat.not_lt.mpr hbound]
  obtain ⟨ps, hps⟩ := @putHeads_nils (oneVector r) 128 2 (by decide)
    (e := ⟨none, headSize + c * headSize, none, [0], [(headSize, c * headSize)]⟩) rfl c
    (segment ⟨none, headSize, none, [0], []⟩ 8 (c * headSize) c).2
  have hput : put (oneVector r) putFuel ⟨none, headSize, none, [], []⟩ (plain 0x06 16) 0 0 =
      some ⟨none, headSize + c * headSize, none, ps, [(headSize, c * headSize)]⟩ := by
    rw [← hps, ← hseg, ← hr]
    rw [show putFuel = 129 + 1 from rfl, put]
    simp only [vecRoot_oneVector, hcount]
    rfl
  rw [size, hput]
  rfl

theorem wellFormed_oneVector {r : RrbVec.Root JaclVal} {c : Nat}
    (hr : vecElems r = List.replicate c nil) (n : Nat) :
    WellFormed (oneVector r) n (plain 0x06 16) := by
  have hnil : ∀ n, WellFormed (oneVector r) n nil := by
    intro n
    cases n with
    | zero => trivial
    | succ n =>
      refine ⟨fun h => ?_, fun h => ?_, fun h => ?_, fun h => ?_, fun h => ?_⟩ <;> cases h
  cases n with
  | zero => trivial
  | succ n =>
    refine ⟨fun h => ?_, fun h => ?_, fun h => ?_, fun _ r' hr' x hx => ?_, fun h => ?_⟩
    · cases h
    · cases h
    · cases h
    · rw [vecRoot_oneVector] at hr'
      obtain rfl := Option.some.inj hr'
      rw [hr] at hx
      rw [List.eq_of_mem_replicate hx]
      exact hnil n
    · cases h

/-- A vector of two nils makes the round trip. -/
theorem round_trip_two_nils : ∃ r, RrbVec.pushAll [nil, nil] = some r ∧
    ∃ e m', write (oneVector r) (plain 0x06 16) (fun _ => 0#8) = some e ∧
      Framed (fun _ => 0#8) 48 e m' ∧
      Decodes (oneVector r) 8 putFuel (plain 0x06 16) fun g => get .ieee 8 m' putFuel g 0 := by
  obtain ⟨r, hr, -⟩ := RrbVec.pushAll_spec [nil, nil] (by decide)
  have hels : vecElems r = List.replicate 2 nil := vecElems_of_pushAll (by decide) hr
  obtain ⟨e, m', hwrite, hframed, hiff⟩ := round_trip .ieee 8 (n := 48)
    (wellFormed_oneVector hels putFuel) (size_nils hels (by decide) (by decide))
    (m := fun _ => 0#8) fun _ _ => rfl
  refine ⟨r, hr, e, m', hwrite, hframed, (hiff ?_).mpr ?_⟩
  · refine ⟨fun _ r' hr' x hx => ?_, fun h => by cases h⟩
    obtain rfl := Option.some.inj ((vecRoot_oneVector r).symm.trans hr')
    rw [hels] at hx
    rw [List.eq_of_mem_replicate hx]
    exact .leaf (by decide) (by decide) _
  · refine ⟨fun _ r' hr' => ?_, fun h => by cases h⟩
    obtain rfl := Option.some.inj ((vecRoot_oneVector r).symm.trans hr')
    refine ⟨by rw [← length_vecElems, hels]; decide, fun x hx => ?_⟩
    rw [hels] at hx
    rw [List.eq_of_mem_replicate hx]
    exact .leaf (by decide) (by decide) _

/-- **A vector of 2081 nils is written and never read back**, from whatever frame `jv_write`
leaves and to whatever heap. -/
theorem not_round_trip_long_vector : ∃ (a b r : RrbVec.Root JaclVal) (n : Nat),
    RrbVec.pushAll (List.replicate 2080 nil) = some a ∧ RrbVec.pushAll [nil] = some b ∧
    RrbVec.concat a b = some r ∧ RrbVec.AnyReach r ∧
    size (oneVector r) (plain 0x06 16) = some (.ok n) ∧
    ∀ (fl : FloatOps) (k : Nat) (m : Memory), (∀ i < n, m i = 0#8) →
      ∃ e m', write (oneVector r) (plain 0x06 16) m = some e ∧ e.buf = some m' ∧
        ∀ g : Heap, g.Ok → get fl k m' putFuel g 0 = none := by
  obtain ⟨a, ha, hva, hla, hpa, hsa⟩ := RrbVec.pushAll_spec (List.replicate 2080 nil)
    (Nat.le_of_eq List.length_replicate)
  obtain ⟨b, hb, hvb, hlb, hpb, hsb⟩ := RrbVec.pushAll_spec [nil] (by decide)
  have hca : a.count = 2080 := by rw [hva.count_eq, hla, List.length_replicate]
  have hcb : b.count = 1 := by rw [hvb.count_eq, hlb]; rfl
  obtain ⟨r, hcat, hvr, hlr, hdr⟩ := RrbVec.concat_spec hva hvb (by omega)
  have hlist : r.toList = List.replicate 2081 nil := by
    rw [hlr, hla, hlb]
    exact (List.replicate_succ' (n := 2080)).symm
  have hdepth : r.depth ≤ 6 := by
    have hda : a.depth ≤ 2 := by rcases hpa with ⟨-, hd⟩ | ⟨-, hd | ⟨hd, -⟩⟩ <;> omega
    have hdb : b.depth ≤ 2 := by rcases hpb with ⟨-, hd⟩ | ⟨-, hd | ⟨hd, -⟩⟩ <;> omega
    have hfull : RrbVec.fullDepth a ≤ a.depth + 1 := by
      rw [RrbVec.fullDepth]
      split
      · omega
      · omega
      · split <;> omega
    rw [hdr, RrbVec.concatDepth, if_neg (by omega), if_neg (by omega)]
    split <;> omega
  have hels : vecElems r = List.replicate 2081 nil := by
    rw [vecElems_of_valid hvr hdepth, hlist]
  refine ⟨a, b, r, headSize + 2081 * headSize, ha, hb, hcat,
    .concat hsa.any hsb.any trivial hcat, size_nils hels (by decide) (by decide), ?_⟩
  intro fl k m hzero
  have hwf := wellFormed_oneVector hels putFuel
  obtain ⟨e, m', hwrite, hbuf, -, -, henc, -⟩ :=
    write_spec hwf (size_nils hels (by decide) (by decide)) hzero
  refine ⟨e, m', hwrite, hbuf, fun g hok => get_eq_none fl k henc hwf (fun hfit => ?_) putFuel hok⟩
  obtain ⟨hle, -⟩ := hfit.1 rfl r (vecRoot_oneVector r)
  rw [← length_vecElems, hels, List.length_replicate] at hle
  omega

end Jacl.Wire
