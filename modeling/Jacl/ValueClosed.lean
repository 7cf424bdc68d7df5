import Jacl.ValueEqual

/-!
# Equality and hash as the heap grows

The equality and the hash of values read the cells the values point to.  A value is
closed when these cells, and those of the values in them, are there.  Allocation
leaves the equality and the hash of closed values as they were.
-/

namespace Jacl
open JaclVal

/-- The words whose cell the equality or the hash reads. -/
def JaclVal.readsCell (v : JaclVal) : Bool :=
  (v.isString && v.type != 0x04) || v.isIwide || v.isBigint || v.isF64 || v.type == 0x06 ||
    v.type == 0x1B || v.type == 0x12 || (v.type == 0x07 && v.payload != 0)

/-- The values a cell holds. -/
def Obj.children : Obj → List JaclVal
  | .vec r => vecElems r
  | .map t => (Hamt.entries 7 t).flatMap fun l => [l.key, l.value]
  | .struct _ fields => fields.map Prod.snd
  | _ => []

/-- The strings that name a struct and its fields. -/
def Obj.names : Obj → List JaclVal
  | .struct name fields => name :: fields.map Prod.fst
  | _ => []

/-- **A closed value**: to the depth given, every cell that is read is there. -/
def Closed (h : Heap) : Nat → JaclVal → Prop
  | 0, _ => True
  | n + 1, v => v.readsCell = true → ∃ o, h.cells v.payload = some o ∧
      (∀ w ∈ o.names, (strBytes h w).isSome = true) ∧ ∀ w ∈ o.children, Closed h n w

section Growth
variable {h h' : Heap}

theorem Closed.mono (hle : h.Le h') {n : Nat} {v : JaclVal} (hv : Closed h n v) :
    Closed h' n v := by
  induction n generalizing v with
  | zero => trivial
  | succ n ih =>
    intro hr
    obtain ⟨o, ho, hnames, hch⟩ := hv hr
    refine ⟨o, hle _ _ ho, fun w hw => ?_, fun w hw => ih (hch w hw)⟩
    have := hnames w hw
    revert this
    rw [strBytes, strBytes]
    split
    · exact id
    · cases hc : h.cells w.payload with
      | none => simp
      | some o => rw [hle _ _ hc]; exact id

theorem Closed.of_succ {n : Nat} {v : JaclVal} (hv : Closed h (n + 1) v) : Closed h n v := by
  induction n generalizing v with
  | zero => trivial
  | succ n ih =>
    intro hr
    obtain ⟨o, ho, hnames, hch⟩ := hv hr
    exact ⟨o, ho, hnames, fun w hw => ih (hch w hw)⟩

theorem closed_nil (n : Nat) : Closed h n nil := by
  cases n with
  | zero => trivial
  | succ n =>
    intro hr
    cases hr

theorem Closed.cells (hle : h.Le h') {n : Nat} {v : JaclVal} (hv : Closed h (n + 1) v)
    (hr : v.readsCell = true) : h'.cells v.payload = h.cells v.payload := by
  obtain ⟨o, ho, -⟩ := hv hr
  rw [hle _ _ ho, ho]

/-! ### The readers -/

theorem strBytes_mono (hle : h.Le h') {v : JaclVal} (hv : (strBytes h v).isSome = true) :
    strBytes h' v = strBytes h v := by
  revert hv
  rw [strBytes, strBytes]
  split
  · exact fun _ => rfl
  · cases hc : h.cells v.payload with
    | none => simp
    | some o => rw [hle _ _ hc]; exact fun _ => rfl

theorem Closed.strBytes (hle : h.Le h') {n : Nat} {v : JaclVal} (hv : Closed h (n + 1) v)
    (hs : v.isString = true) : Jacl.strBytes h' v = Jacl.strBytes h v := by
  rw [Jacl.strBytes, Jacl.strBytes]
  by_cases h4 : v.type = 0x04
  · simp [h4]
  · rw [hv.cells hle (by simp [readsCell, hs, h4])]

theorem strEq_congr {a b : JaclVal} (ha : strBytes h' a = strBytes h a)
    (hb : strBytes h' b = strBytes h b) : strEq h' a b = strEq h a b := by
  rw [strEq, strEq, ha, hb]

theorem Closed.wideBits (hle : h.Le h') {n : Nat} {v : JaclVal} (hv : Closed h (n + 1) v)
    (hw : v.isIwide = true) : BigInt.wideBits h' v = BigInt.wideBits h v := by
  rw [BigInt.wideBits, BigInt.wideBits, hv.cells hle (by simp [readsCell, hw])]

theorem Closed.intVal (hle : h.Le h') {n : Nat} {v : JaclVal} (hv : Closed h (n + 1) v)
    (hi : v.isAnyint = true) (hb : v.isBigint = false) :
    BigInt.intVal h' v = BigInt.intVal h v := by
  rw [BigInt.intVal, BigInt.intVal]
  by_cases h32 : v.isI32 = true
  · rw [if_pos h32, if_pos h32]
  · rw [if_neg h32, if_neg h32]
    refine hv.wideBits hle ?_
    simpa [isAnyint, h32, hb] using hi

theorem Closed.read (hle : h.Le h') {n : Nat} {v : JaclVal} (hv : Closed h (n + 1) v)
    (hi : v.isAnyint = true) : BigInt.read h' v = BigInt.read h v := by
  rw [BigInt.read, BigInt.read]
  by_cases hb : v.isBigint = true
  · rw [if_pos hb, if_pos hb, hv.cells hle (by simp [readsCell, hb])]
  · rw [if_neg hb, if_neg hb, hv.intVal hle hi (by simpa using hb)]

theorem Closed.numF64 (fl : FloatOps) (hle : h.Le h') {n : Nat} {v : JaclVal}
    (hv : Closed h (n + 1) v) (hn : (v.isAnyint || v.isAnyfloat) = true) :
    Jacl.numF64 fl h' v = Jacl.numF64 fl h v := by
  rw [Jacl.numF64, Jacl.numF64]
  by_cases h32 : v.isI32 = true
  · rw [if_pos h32, if_pos h32]
  · rw [if_neg h32, if_neg h32]
    by_cases hf : (v.type == 0x03) = true
    · rw [if_pos hf, if_pos hf]
    · rw [if_neg hf, if_neg hf]
      -- what is left points to a cell
      have hread : v.readsCell = true := by
        simp only [isAnyint, isAnyfloat, Bool.or_eq_true] at hn
        simp only [readsCell, Bool.or_eq_true]
        rcases hn with ((h | h) | h) | (h | h) <;> simp_all
      rw [hv.cells hle hread, BigInt.wideBits, BigInt.wideBits, hv.cells hle hread]

theorem Closed.numEqual (fl : FloatOps) (hle : h.Le h') {n : Nat} {a b : JaclVal}
    (ha : Closed h (n + 1) a) (hb : Closed h (n + 1) b)
    (hna : (a.isAnyint || a.isAnyfloat) = true) (hnb : (b.isAnyint || b.isAnyfloat) = true) :
    Jacl.numEqual fl h' a b = Jacl.numEqual fl h a b := by
  rw [Jacl.numEqual, Jacl.numEqual, ha.numF64 fl hle hna, hb.numF64 fl hle hnb]
  by_cases hi : (a.isAnyint && b.isAnyint) = true
  · rw [if_pos hi, if_pos hi]
    obtain ⟨hia, hib⟩ := Bool.and_eq_true_iff.mp hi
    by_cases hbig : (a.isBigint || b.isBigint) = true
    · rw [if_pos hbig, if_pos hbig, BigInt.bigCmp, BigInt.bigCmp, ha.read hle hia,
        hb.read hle hib]
    · obtain ⟨hba, hbb⟩ := Bool.or_eq_false_iff.mp (Bool.not_eq_true _ ▸ hbig)
      rw [if_neg hbig, if_neg hbig, ha.intVal hle hia hba, hb.intVal hle hib hbb]
  · rw [if_neg hi, if_neg hi]

theorem Closed.vecRoot (hle : h.Le h') {n : Nat} {v : JaclVal} (hv : Closed h (n + 1) v)
    (hk : kindOf v = 0x06) : Jacl.vecRoot h' v = Jacl.vecRoot h v := by
  have hread : v.readsCell = true := by
    rw [kindOf] at hk
    split at hk <;> simp_all [readsCell]
  rw [Jacl.vecRoot, Jacl.vecRoot, hv.cells hle hread]

theorem Closed.mem_vecElems {n : Nat} {v : JaclVal} (hv : Closed h (n + 1) v)
    {r : RrbVec.Root JaclVal} (hr : Jacl.vecRoot h v = some r) (hk : kindOf v = 0x06) :
    ∀ x ∈ vecElems r, Closed h n x := by
  have hread : v.readsCell = true := by
    rw [kindOf] at hk
    split at hk <;> simp_all [readsCell]
  obtain ⟨o, ho, -, hch⟩ := hv hread
  rw [Jacl.vecRoot, ho] at hr
  cases o <;> simp only [reduceCtorEq, Option.some.injEq] at hr
  subst hr
  exact hch

theorem Closed.mapRoot (hle : h.Le h') {n : Nat} {v : JaclVal} (hv : Closed h (n + 1) v)
    (ht : v.type = 0x07) : Jacl.mapRoot h' v = Jacl.mapRoot h v := by
  rw [Jacl.mapRoot, Jacl.mapRoot]
  by_cases h0 : v.payload = 0
  · rw [if_pos h0, if_pos h0]
  · rw [if_neg h0, if_neg h0, hv.cells hle (by simp [readsCell, ht, h0])]

theorem Closed.mem_entries {n : Nat} {v : JaclVal} (hv : Closed h (n + 1) v)
    {t : Hamt.Node JaclVal JaclVal} (hr : Jacl.mapRoot h v = some t) (ht : v.type = 0x07) :
    ∀ l ∈ Hamt.entries 7 t, Closed h n l.key ∧ Closed h n l.value := by
  rw [Jacl.mapRoot] at hr
  split at hr
  · cases hr
    simp
  · rename_i h0
    obtain ⟨o, ho, -, hch⟩ := hv (by simp [readsCell, ht, h0])
    rw [ho] at hr
    cases o <;> simp only [reduceCtorEq, Option.some.injEq] at hr
    subst hr
    intro l hl
    constructor
    · exact hch _ (List.mem_flatMap.mpr ⟨l, hl, by simp⟩)
    · exact hch _ (List.mem_flatMap.mpr ⟨l, hl, by simp⟩)

/-! ### The hash and the equality -/

/-- **The hash of a closed value** is that of the grown heap. -/
theorem keyHash_mono (hle : h.Le h') {n : Nat} {k : JaclVal} (hk : Closed h n k) :
    keyHash h' n k = keyHash h n k := by
  induction n generalizing k with
  | zero => rfl
  | succ n ih =>
    rw [keyHash, keyHash]
    by_cases hs : k.isString = true
    · rw [if_pos hs, if_pos hs, strHash, strHash, hk.strBytes hle hs]
    · rw [if_neg hs, if_neg hs]
      by_cases h6 : (k.type == 0x06) = true
      · have hkind : kindOf k = 0x06 := by simp_all [kindOf]
        rw [if_pos h6, if_pos h6, hk.vecRoot hle hkind]
        cases hr : vecRoot h k with
        | none => rfl
        | some r =>
          refine List.foldl_ext _ _ _ fun acc x hx => ?_
          rw [ih (hk.mem_vecElems hr hkind x hx)]
      · rw [if_neg h6, if_neg h6]
        by_cases hb : k.isBigint = true
        · rw [if_pos hb, if_pos hb, hk.cells hle (by simp [readsCell, hb])]
        · rw [if_neg hb, if_neg hb]

theorem all_congr {α : Type} {l : List α} {p q : α → Bool} (hpq : ∀ x ∈ l, p x = q x) :
    l.all p = l.all q := by
  rw [Bool.eq_iff_iff, List.all_eq_true, List.all_eq_true]
  constructor
  · intro hp x hx
    rw [← hpq x hx]
    exact hp x hx
  · intro hq x hx
    rw [hpq x hx]
    exact hq x hx

theorem mapHasWith_congr (eq eq' : JaclVal → JaclVal → Bool) {hash hash' : JaclVal → BitVec 32}
    {m key : JaclVal} (hr : mapRoot h' m = mapRoot h m) (hh : hash' key = hash key)
    (he : ∀ t, mapRoot h m = some t → ∀ l ∈ Hamt.entries 7 t, eq' l.key key = eq l.key key) :
    mapHasWith eq' hash' h' m key = mapHasWith eq hash h m key ∧
      mapGetWith eq' hash' h' m key = mapGetWith eq hash h m key := by
  rw [mapHasWith, mapHasWith, mapGetWith, mapGetWith, hr]
  cases ht : mapRoot h m with
  | none => exact ⟨rfl, rfl⟩
  | some t =>
    simp only [Option.bind_eq_bind, Option.bind_some, Hamt.has, Hamt.get, hh,
      Hamt.getLeaf_congr (he t ht)]
    exact ⟨trivial, trivial⟩

/-- What `jacl_map_get` returns is closed when the map is. -/
theorem Closed.mapGetWith {eq : JaclVal → JaclVal → Bool} {hash : JaclVal → BitVec 32} {n : Nat}
    {m key v : JaclVal} (hm : Closed h (n + 1) m) (ht : m.type = 0x07) (hk : Closed h n key)
    (hv : Jacl.mapGetWith eq hash h m key = some v) : Closed h n v := by
  rw [Jacl.mapGetWith] at hv
  split at hv
  · cases hv
    exact hm.of_succ
  · split at hv
    · cases hv
      exact hk
    · cases hr : Jacl.mapRoot h m with
      | none => simp [hr] at hv
      | some t =>
        simp only [hr, Option.bind_eq_bind, Option.bind_some, Hamt.has, Hamt.get] at hv
        cases hg : Hamt.getLeaf eq 7 t key (hash key) with
        | none => simp [hg] at hv
        | some leaf =>
          cases leaf with
          | none =>
            simp [hg] at hv
            subst hv
            exact closed_nil n
          | some l =>
            simp [hg] at hv
            subst hv
            exact (hm.mem_entries hr ht l (Hamt.mem_of_getLeaf hg).1).2

/-- **The equality of closed values** is that of the grown heap. -/
theorem valEqual_mono (fl : FloatOps) (hle : h.Le h') {n : Nat} {a b : JaclVal}
    (ha : Closed h n a) (hb : Closed h n b) : valEqual fl h' n a b = valEqual fl h n a b := by
  induction n generalizing a b with
  | zero => rfl
  | succ n ih =>
    rw [valEqual, valEqual]
    by_cases hw : a.type = b.type ∧ a.payload = b.payload
    · rw [if_pos hw, if_pos hw]
    rw [if_neg hw, if_neg hw]
    by_cases hs : (a.isString && b.isString) = true
    · obtain ⟨hsa, hsb⟩ := Bool.and_eq_true_iff.mp hs
      rw [if_pos hs, if_pos hs, strEq_congr (ha.strBytes hle hsa) (hb.strBytes hle hsb)]
    rw [if_neg hs, if_neg hs]
    by_cases hn : ((a.isAnyint || a.isAnyfloat) && (b.isAnyint || b.isAnyfloat)) = true
    · obtain ⟨hna, hnb⟩ := Bool.and_eq_true_iff.mp hn
      rw [if_pos hn, if_pos hn, ha.numEqual fl hle hb hna hnb]
    rw [if_neg hn, if_neg hn]
    by_cases hkind : kindOf a ≠ kindOf b
    · rw [if_pos hkind, if_pos hkind]
    rw [if_neg hkind, if_neg hkind]
    by_cases h6 : kindOf a = 0x06
    · -- elementwise
      have h6b : kindOf b = 0x06 := by omega
      rw [if_pos h6, if_pos h6, ha.vecRoot hle h6, hb.vecRoot hle h6b]
      cases hra : vecRoot h a with
      | none => rfl
      | some ra =>
        cases hrb : vecRoot h b with
        | none => rfl
        | some rb =>
          simp only
          congr 1
          refine all_congr fun p hp => ?_
          obtain ⟨hx, hy⟩ := List.of_mem_zip hp
          exact ih (ha.mem_vecElems hra h6 _ hx) (hb.mem_vecElems hrb h6b _ hy)
    rw [if_neg h6, if_neg h6]
    by_cases h12 : kindOf a = 0x12
    · have hta : a.type = 0x12 := by rw [kindOf] at h12; split at h12 <;> omega
      have htb : b.type = 0x12 := by
        have : kindOf b = 0x12 := by omega
        rw [kindOf] at this
        split at this <;> omega
      obtain ⟨oa, hoa, hna, hca⟩ := ha (by simp [readsCell, hta])
      obtain ⟨ob, hob, hnb, hcb⟩ := hb (by simp [readsCell, htb])
      rw [if_pos h12, if_pos h12, hle _ _ hoa, hle _ _ hob, hoa, hob]
      cases oa with
      | struct na fa =>
        cases ob with
        | struct nb fb =>
          simp only
          have hname := strEq_congr (strBytes_mono hle (hna na List.mem_cons_self))
            (strBytes_mono hle (hnb nb List.mem_cons_self))
          rw [hname]
          congr 1
          refine all_congr fun p hp => ?_
          obtain ⟨hx, hy⟩ := List.of_mem_zip hp
          have hfx : p.1.1 ∈ Obj.names (.struct na fa) :=
            List.mem_cons_of_mem _ (List.mem_map_of_mem hx)
          have hfy : p.2.1 ∈ Obj.names (.struct nb fb) :=
            List.mem_cons_of_mem _ (List.mem_map_of_mem hy)
          have hvx : p.1.2 ∈ Obj.children (.struct na fa) := List.mem_map_of_mem hx
          have hvy : p.2.2 ∈ Obj.children (.struct nb fb) := List.mem_map_of_mem hy
          rw [strEq_congr (strBytes_mono hle (hna _ hfx)) (strBytes_mono hle (hnb _ hfy)),
            ih (hca _ hvx) (hcb _ hvy)]
        | _ => rfl
      | _ => rfl
    rw [if_neg h12, if_neg h12]
    by_cases h7 : kindOf a = 0x07
    · -- every binding of `a` is looked up in `b`
      have hta : a.type = 0x07 := by rw [kindOf] at h7; split at h7 <;> omega
      have htb : b.type = 0x07 := by
        have : kindOf b = 0x07 := by omega
        rw [kindOf] at this
        split at this <;> omega
      rw [if_pos h7, if_pos h7, ha.mapRoot hle hta, hb.mapRoot hle htb]
      cases hra : mapRoot h a with
      | none => rfl
      | some ra =>
        cases hrb : mapRoot h b with
        | none => rfl
        | some rb =>
          simp only
          congr 1
          refine all_congr fun l hl => ?_
          obtain ⟨hck, hcv⟩ := ha.mem_entries hra hta l hl
          obtain ⟨hhas, hget⟩ := mapHasWith_congr (valEqual fl h n) (valEqual fl h' n)
            (hb.mapRoot hle htb) (keyHash_mono hle hck)
            (fun t ht l' hl' => ih (hb.mem_entries ht htb l' hl').1 hck)
          rw [hhas, hget]
          congr 1
          cases hg : mapGetWith (valEqual fl h n) (keyHash h n) h b l.key with
          | none => rfl
          | some v => exact ih hcv (hb.mapGetWith htb hck hg)
    rw [if_neg h7, if_neg h7]

end Growth

end Jacl
