import Jacl.WireSame
import Jacl.RrbVecRuns

/-!
# What is read back from a frame

`get_spec` proves that `jv_get` returns, for an encoded value, the same value on the
reader's heap, with two exceptions.  A vector of more than 2080 elements does not survive
the pushes that rebuild it (`VecsFit`), and keys that are equal once they are on the wire
may be merged by the sets that rebuild their map (`KeysApart`).
-/

namespace Jacl.Wire
open JaclVal Bytes Builtins Entrywise

/-! ### Strings of up to seven bytes -/

theorem range_bytes (s : List (BitVec 8)) {k : Nat} (hk : s.length ≤ k) :
    ((List.range k).map fun i =>
      BitVec.ofNat 8 (Nat.ofDigits 256 (s.map BitVec.toNat) >>> (i * 8))) =
      s ++ List.replicate (k - s.length) 0#8 := by
  induction s generalizing k with
  | nil => simp [List.map_const']
  | cons x s ih =>
    obtain ⟨k, rfl⟩ : ∃ j, k = j + 1 := Nat.exists_eq_succ_of_ne_zero (by
      rintro rfl
      simp at hk)
    rw [List.length_cons] at hk
    have hx := x.isLt
    rw [List.range_succ_eq_map, List.map_cons, List.map_map, List.map_cons, Nat.ofDigits_cons,
      List.length_cons, Nat.add_sub_add_right, List.cons_append, ← ih (by omega)]
    congr 1
    · apply BitVec.eq_of_toNat_eq
      simp
      omega
    · refine List.map_congr_left fun i _ => congrArg (BitVec.ofNat 8) ?_
      change (x.toNat + 256 * Nat.ofDigits 256 (s.map BitVec.toNat)) >>> ((i + 1) * 8) = _
      have hpow : 2 ^ ((i + 1) * 8) = 256 * 2 ^ (i * 8) := by ring
      rw [Nat.shiftRight_eq_div_pow, Nat.shiftRight_eq_div_pow, hpow, ← Nat.div_div_eq_div_mul]
      congr 1
      omega

/-- A string of at most seven bytes without a NUL is kept in the word. -/
theorem inlineBytes_inlineString {s : List (BitVec 8)} (hlen : s.length ≤ 7)
    (hne : ∀ x ∈ s, x ≠ 0#8) : inlineBytes (inlineString s).payload = s := by
  have hall : ∀ x ∈ s, (x != 0#8) = true := fun x hx => by simpa using hne x hx
  rw [inlineString, List.take_of_length_le hlen, List.takeWhile_eq_self_iff.mpr hall]
  change ((List.range 7).map fun i => BitVec.ofNat 8
    (Nat.ofDigits 256 (s.map BitVec.toNat) >>> (i * 8))).takeWhile _ = s
  rw [range_bytes s hlen, List.takeWhile_append_of_pos hall]
  cases 7 - s.length with
  | zero => simp
  | succ j => simp [List.replicate_succ]

theorem inlineBytes_spec (payload : Nat) :
    (inlineBytes payload).length ≤ 7 ∧ ∀ x ∈ inlineBytes payload, x ≠ 0#8 := by
  constructor
  · refine (List.takeWhile_prefix _).length_le.trans ?_
    simp
  · intro x hx
    simpa using List.mem_takeWhile_imp hx

/-! ### Rebuilding vectors and maps -/

/-- No vector has more elements than pushes can build, to the depth given. -/
def VecsFit (h : Heap) : Nat → JaclVal → Prop
  | 0, _ => True
  | n + 1, v =>
    (kindOf v = 0x06 → ∀ r, vecRoot h v = some r → r.count ≤ 2080 ∧ ∀ x ∈ vecElems r, VecsFit h n x) ∧
    (v.type = 0x07 → ∀ t, mapRoot h v = some t →
      ∀ l ∈ Hamt.entries 7 t, VecsFit h n l.key ∧ VecsFit h n l.value)

/-- No two keys of a map are equal on the wire, to the depth given. -/
def KeysApart (fl : FloatOps) (h : Heap) (k : Nat) : Nat → JaclVal → Prop
  | 0, _ => True
  | n + 1, v =>
    (kindOf v = 0x06 → ∀ r, vecRoot h v = some r → ∀ x ∈ vecElems r, KeysApart fl h k n x) ∧
    (v.type = 0x07 → ∀ t, mapRoot h v = some t →
      (Hamt.entries 7 t).Pairwise (fun l l' => ¬ EqualOnWire fl h k l.key l'.key) ∧
      ∀ l ∈ Hamt.entries 7 t, KeysApart fl h k n l.key ∧ KeysApart fl h k n l.value)

/-- A cell that is new in `g'`. -/
def Fresh (g g' : Heap) (p : Nat) : Prop := g.cells p = none ∧ (g'.cells p).isSome = true

theorem Fresh.of_le {g₀ g g' g'' : Heap} (hle : g₀.Le g) (hle' : g'.Le g'') {p : Nat}
    (hp : Fresh g g' p) : Fresh g₀ g'' p := by
  constructor
  · cases hc : g₀.cells p with
    | none => rfl
    | some o =>
      have hnone := hp.1
      rw [hle _ _ hc] at hnone
      cases hnone
  · obtain ⟨o, ho⟩ := Option.isSome_iff_exists.mp hp.2
    rw [hle' _ _ ho]
    rfl

theorem fresh_alloc {g : Heap} (hok : g.Ok) (o : Obj) : Fresh g (g.alloc o).1 g.next :=
  ⟨hok.2 _ (Nat.le_refl _), by rw [show g.next = (g.alloc o).2 from rfl, Heap.cells_alloc]; rfl⟩

/-- **A reader returns `v`** from every heap, in new cells. -/
def Decodes (h : Heap) (k n : Nat) (v : JaclVal) (get : Heap → Option (Heap × JaclVal)) : Prop :=
  ∀ g : Heap, g.Ok → ∃ g' r, get g = some (g', r) ∧ g.Le g' ∧ g'.Ok ∧
    Same h g' k (Fresh g g') n v r

theorem vecElems_of_valid {r : RrbVec.Root JaclVal} (hv : RrbVec.Valid r) (hd : r.depth ≤ 6) :
    vecElems r = r.toList := by
  refine List.ext_getElem (by rw [length_vecElems, hv.count_eq]) fun i h1 h2 => ?_
  simp only [vecElems, List.getElem_map, List.getElem_range, vecGet]
  rw [RrbVec.get_spec hv hd, List.getElem?_eq_getElem h2]

theorem vecElems_of_pushAll {xs : List JaclVal} (hlen : xs.length ≤ 2080)
    {r : RrbVec.Root JaclVal} (hr : RrbVec.pushAll xs = some r) : vecElems r = xs := by
  obtain ⟨r', hr', hv, hl, hp, -⟩ := RrbVec.pushAll_spec xs hlen
  obtain rfl := Option.some.inj (hr.symm.trans hr')
  have hd : r.depth ≤ 6 := by
    rcases hp with ⟨-, hd⟩ | ⟨-, hd | ⟨hd, -⟩⟩ <;> omega
  rw [vecElems_of_valid hv hd, hl]

section Loops
variable {fl : FloatOps} {h : Heap} {k n : Nat} {get : Heap → Nat → Option (Heap × JaclVal)}

variable (get) in
/-- **The loop of `jv_get_vec`.**  By induction on the heads that are left: the vector so
far was pushed element by element, in a cell that `g₀` does not have. -/
theorem getVec_spec (cs : List JaclVal) (off : Nat)
    (hget : ∀ i c, cs[i]? = some c → Decodes h k n c fun g => get g (off + i * headSize))
    {g₀ g : Heap} (hle : g₀.Le g) (hok : g.Ok) {p : Nat} (hp : g₀.cells p = none)
    {xs : List JaclVal} {r : RrbVec.Root JaclVal} (hcell : g.cells p = some (.vec r))
    (hr : RrbVec.pushAll xs = some r) (hlen : xs.length + cs.length ≤ 2080) :
    ∃ g' p' r' ys, getVec get cs.length g (plain 0x06 p) off = some (g', plain 0x06 p') ∧
      g.Le g' ∧ g'.Ok ∧ g₀.cells p' = none ∧ g'.cells p' = some (.vec r') ∧
      RrbVec.pushAll (xs ++ ys) = some r' ∧
      List.Forall₂ (Same h g' k (Fresh g₀ g') n) cs ys := by
  induction cs generalizing off g p xs r with
  | nil =>
    exact ⟨g, p, r, [], rfl, Heap.Le.refl g, hok, hp, hcell, by rwa [List.append_nil],
      List.Forall₂.nil⟩
  | cons c cs ih =>
    rw [List.length_cons] at hlen
    obtain ⟨g₁, x, hx, hle₁, hok₁, hsame⟩ := hget 0 c rfl g hok
    obtain ⟨r₁, hr₁, -⟩ := RrbVec.pushAll_spec (xs ++ [x]) (by
      rw [List.length_append, List.length_singleton]
      omega)
    have hpush : RrbVec.pushBack r x = some r₁ := by
      rw [RrbVec.pushAll_concat, hr] at hr₁
      exact hr₁
    have hle₂ := Heap.le_alloc hok₁ (.vec r₁)
    have hfresh := (fresh_alloc hok₁ (.vec r₁)).of_le (hle.trans hle₁) (Heap.Le.refl _)
    obtain ⟨g', p', r', ys, hrun, hle', hok', hp', hcell', hall, hsames⟩ := ih
      (off + headSize) (fun i c hc => by
        have := hget (i + 1) c hc
        rwa [show off + (i + 1) * headSize = off + headSize + i * headSize by ring] at this)
      ((hle.trans hle₁).trans hle₂) (Heap.ok_alloc hok₁ _) hfresh.1
      (Heap.cells_alloc g₁ (.vec r₁)) hr₁ (by
        rw [List.length_append, List.length_singleton]
        omega)
    refine ⟨g', p', r', x :: ys, ?_, (hle₁.trans hle₂).trans hle', hok', hp', hcell', ?_, ?_⟩
    · have hroot : vecRoot g₁ (plain 0x06 p) = some r := by
        rw [vecRoot, show (plain 0x06 p).payload = p from rfl, hle₁ _ _ hcell]
      rw [List.length_cons, getVec]
      rw [Nat.zero_mul, Nat.add_zero] at hx
      simp only [hx, Option.bind_eq_bind, Option.bind_some, vecPush, hroot, hpush]
      exact hrun
    · rw [← hall, List.append_assoc]
      rfl
    · refine List.Forall₂.cons ?_ hsames
      exact hsame.mono (hle₂.trans hle') (fun q hq => hq.of_le hle (hle₂.trans hle')) (Nat.le_refl n)

theorem mapOf_word {g : Heap} (hok : g.Ok) (t : Hamt.Node JaclVal JaclVal) :
    ∃ p, (mapOf g t).2 = plain 0x07 p ∧ (p = 0 ∨ Fresh g (mapOf g t).1 p) := by
  cases t with
  | null => exact ⟨0, rfl, .inl rfl⟩
  | leaf l => exact ⟨_, rfl, .inr (fresh_alloc hok _)⟩
  | collision hash items => exact ⟨_, rfl, .inr (fresh_alloc hok _)⟩
  | internal bm c cs => exact ⟨_, rfl, .inr (fresh_alloc hok _)⟩

/-- A decoded entry of a map. -/
def SameEntry (h g : Heap) (k : Nat) (new : Nat → Prop) (n : Nat)
    (l d : Hamt.Leaf JaclVal JaclVal) : Prop :=
  Same h g k new n l.key d.key ∧ Same h g k new n l.value d.value

theorem SameEntry.mono {g g' : Heap} {new new' : Nat → Prop} {l d : Hamt.Leaf JaclVal JaclVal}
    (hs : SameEntry h g k new n l d) (hle : g.Le g') (hnew : ∀ p, new p → new' p) :
    SameEntry h g' k new' n l d :=
  ⟨hs.1.mono hle hnew (Nat.le_refl n), hs.2.mono hle hnew (Nat.le_refl n)⟩

/-- What the loop knows of an entry it has still to read. -/
structure EntryOk (h : Heap) (k n : Nat) (get : Heap → Nat → Option (Heap × JaclVal)) (pos : Nat)
    (l : Hamt.Leaf JaclVal JaclVal) : Prop where
  key : Decodes h k n l.key fun g => get g pos
  value : Decodes h k n l.value fun g => get g (pos + headSize)
  key_error : l.key.error = false
  value_error : l.value.error = false
  wf : WellFormed h n l.key

/-- **One set of the loop** adds an entry: no key read before is equal to the new one. -/
theorem mapSet_fresh {done ds : List (Hamt.Leaf JaclVal JaclVal)} {l : Hamt.Leaf JaclVal JaclVal}
    {g g₁ : Heap} {new : Nat → Prop} {m key val : JaclVal} {t : Hamt.Node JaclVal JaclVal}
    (hm : MapOk k g m t) (hle : g.Le g₁) (hok : g₁.Ok) (hds : ds.Perm (Hamt.entries 7 t))
    (hall : List.Forall₂ (SameEntry h g k new n) done ds) (hwf : ∀ l ∈ done, WellFormed h n l.key)
    (hwl : WellFormed h n l.key) (hdist : ∀ d ∈ done, ¬ EqualOnWire fl h k d.key l.key)
    (hnew : ∀ p, new p → g.cells p ≠ none)
    (hkey : Same h g₁ k (fun p => g.cells p = none) n l.key key) (hke : key.error = false)
    (hve : val.error = false) :
    ∃ t', mapSet fl k g₁ m key val = some (mapOf g₁ t') ∧
      MapOk k (mapOf g₁ t').1 (mapOf g₁ t').2 t' ∧
      (Hamt.entries 7 t').Perm (⟨key, val, keyHash g₁ k key⟩ :: ds) := by
  obtain ⟨t', hset, hm', hto⟩ := (hm.mono hle hok).set fl (hkey.closed k) hke hve
  refine ⟨t', hset, hm', ?_⟩
  rcases hto with ⟨rfl, rfl⟩ | hto
  · have hnil : ds = [] := by simpa using hds
    rw [hnil]
    simp
  · refine (hto.perm fun d hd => ?_).trans (hds.symm.cons _)
    obtain ⟨l', hl', hsame, -⟩ := mem_left hall (hds.mem_iff.mpr hd)
    rw [← Bool.not_eq_true]
    intro he
    exact hdist l' hl' ((hsame.mono hle hnew (Nat.le_refl n)).equalOnWire hkey
      (fun _ h1 h2 => h1 h2) (hwf l' hl') hwl he)

variable (fl get) in
/-- **The loop over a map's entries.**  By induction on the entries that are left: the map
so far holds exactly what was read for the entries before. -/
theorem getMap_spec (ls : List (Hamt.Leaf JaclVal JaclVal)) (off : Nat)
    (hget : ∀ i l, ls[i]? = some l → EntryOk h k n get (off + i * entrySize) l)
    {done : List (Hamt.Leaf JaclVal JaclVal)} (hwf : ∀ l ∈ done, WellFormed h n l.key)
    (hdist : (done ++ ls).Pairwise fun l l' => ¬ EqualOnWire fl h k l.key l'.key)
    {g₀ g : Heap} (hle : g₀.Le g) {p : Nat} (hp : p = 0 ∨ Fresh g₀ g p)
    {t : Hamt.Node JaclVal JaclVal} (hm : MapOk k g (plain 0x07 p) t)
    {ds : List (Hamt.Leaf JaclVal JaclVal)} (hds : ds.Perm (Hamt.entries 7 t))
    (hall : List.Forall₂ (SameEntry h g k (Fresh g₀ g) n) done ds) :
    ∃ g' p' t' ds', getMap get (mapSet fl k) ls.length g (plain 0x07 p) off =
        some (g', plain 0x07 p') ∧ g.Le g' ∧ (p' = 0 ∨ Fresh g₀ g' p') ∧
      MapOk k g' (plain 0x07 p') t' ∧ ds'.Perm (Hamt.entries 7 t') ∧
      List.Forall₂ (SameEntry h g' k (Fresh g₀ g') n) (done ++ ls) ds' := by
  induction ls generalizing off g p t done ds with
  | nil =>
    exact ⟨g, p, t, ds, rfl, Heap.Le.refl g, hp, hm, hds, by rwa [List.append_nil]⟩
  | cons l ls ih =>
    have hl := hget 0 l rfl
    rw [Nat.zero_mul, Nat.add_zero] at hl
    obtain ⟨g₁, key, hk, hle₁, hok₁, hkey⟩ := hl.key g hm.heap
    obtain ⟨g₂, val, hv, hle₂, hok₂, hval⟩ := hl.value g₁ hok₁
    have hle₁₂ := hle₁.trans hle₂
    have hdist' : ∀ d ∈ done, ¬ EqualOnWire fl h k d.key l.key :=
      fun d hd => (List.pairwise_append.mp hdist).2.2 d hd l List.mem_cons_self
    have hve : val.error = false := hval.error.trans hl.value_error
    obtain ⟨t', hset, hm', hperm⟩ := mapSet_fresh hm hle₁₂ hok₂ hds hall hwf hl.wf hdist'
      (fun q hq hnone => by simpa [hnone] using hq.2)
      (hkey.mono hle₂ (fun q hq => hq.1) (Nat.le_refl n)) (hkey.error.trans hl.key_error)
      hve
    obtain ⟨p₁, hp₁, hfresh⟩ := mapOf_word hok₂ t'
    obtain ⟨hle₃, hok₃⟩ := mapOf_le hok₂ t'
    rw [hp₁] at hm'
    obtain ⟨g', p', t'', ds', hrun, hle', hp', hm'', hds', hall'⟩ := ih
      (off + entrySize) (fun i l hl => by
        have := hget (i + 1) l hl
        rwa [show off + (i + 1) * entrySize = off + entrySize + i * entrySize by ring] at this)
      (show ∀ x ∈ done ++ [l], WellFormed h n x.key by
        intro x hx
        rcases List.mem_append.mp hx with hx | hx
        · exact hwf x hx
        · rw [List.mem_singleton.mp hx]
          exact hl.wf)
      (by rwa [List.append_assoc]) ((hle.trans hle₁₂).trans hle₃)
      (hfresh.imp_right fun hf => hf.of_le (hle.trans hle₁₂) (Heap.Le.refl _)) hm'
      ((List.perm_append_singleton _ _).trans hperm.symm)
      (forall₂_concat (hall.imp fun _ _ hs => hs.mono (hle₁₂.trans hle₃)
          fun q hq => hq.of_le (Heap.Le.refl _) (hle₁₂.trans hle₃))
        ⟨hkey.mono (hle₂.trans hle₃) (fun q hq => hq.of_le hle (hle₂.trans hle₃)) (Nat.le_refl n),
          hval.mono hle₃ (fun q hq => hq.of_le (hle.trans hle₁) hle₃) (Nat.le_refl n)⟩)
    refine ⟨g', p', t'', ds', ?_, (hle₁₂.trans hle₃).trans hle', hp', hm'', hds', ?_⟩
    · rw [List.length_cons, getMap]
      simp only [hk, hv, Option.bind_eq_bind, Option.bind_some, hset, hp₁]
      exact hrun
    · rwa [List.append_assoc] at hall'

end Loops

/-! ### Reading a head -/

section Heads
variable {fl : FloatOps} {h : Heap} {k n fuel pos : Nat} {m : Memory} {v : JaclVal}

/-- An integer that `Returns` gives back is what was written. -/
theorem same_of_returns {g : Heap} {x : Int} {r : Heap × JaclVal} (hr : Returns g x r)
    (hx : x.natAbs < bound) (hv : v.error = false) (hval : IsInt h { v with error := false } x)
    (hflags : r.2.tainted = false ∧ r.2.secret = false) :
    g.Le r.1 ∧ r.1.Ok ∧ Same h r.1 k (Fresh g r.1) (n + 1) v r.2 := by
  obtain ⟨hle, hok, hc⟩ := hr
  rw [if_pos hx] at hc
  exact ⟨hle, hok, by rw [hv]; exact hc.1, hflags.1, hflags.2, .int hval ⟨rfl, hc.2⟩⟩

theorem intResult_flags (g : Heap) (x : Int) :
    (BigInt.intResult g x).2.tainted = false ∧ (BigInt.intResult g x).2.secret = false := by
  rw [BigInt.intResult]
  split <;> exact ⟨rfl, rfl⟩

theorem canon_flags (g : Heap) (sign : Int) (limb : List Nat) :
    (BigInt.canon g sign limb).2.tainted = false ∧ (BigInt.canon g sign limb).2.secret = false := by
  have hbig : (BigInt.bigOrError g sign (Limbs.trim limb)).2.tainted = false ∧
      (BigInt.bigOrError g sign (Limbs.trim limb)).2.secret = false := by
    rw [BigInt.bigOrError]
    split <;> exact ⟨rfl, rfl⟩
  rw [BigInt.canon]
  dsimp only
  generalize (Limbs.trim limb).getD 0 0 + _ = u
  split
  · exact ⟨rfl, rfl⟩
  · split
    · split
      · exact intResult_flags g _
      · split
        · exact intResult_flags g _
        · split
          · exact intResult_flags g _
          · exact hbig
    · exact hbig

theorem ofNat_le {bits : BitVec 64} {p : Nat} (hx : le m p 8 = bits.toNat % 2 ^ (8 * 8)) :
    BitVec.ofNat 64 (le m p 8) = bits := by
  rw [hx, Nat.mod_eq_of_lt bits.isLt, BitVec.ofNat_toNat, BitVec.setWidth_eq]

/-- A bigint that crosses is positive and has at most two limbs. -/
theorem bigToU64_spec {sign : Int} {limb : List Nat} {x : Nat} (hok : BigOk sign limb)
    (hx : bigToU64 sign limb = some x) :
    sign = 1 ∧ x = Nat.ofDigits BigInt.base limb ∧ x < 2 ^ 64 := by
  rw [bigToU64] at hx
  split at hx
  · cases hx
  · rename_i hc
    rw [not_or, Int.not_lt, Nat.not_lt] at hc
    obtain rfl := Option.some.inj hx
    have hlen : limb.length ≠ 0 := fun h0 => hok.ne_nil (List.length_eq_zero_iff.mp h0)
    rw [ofDigits_of_length_le_two hlen hc.2]
    refine ⟨?_, rfl, ?_⟩
    · have := hok.sign_eq
      omega
    · have hlt := Nat.ofDigits_lt_base_pow_length BigInt.one_lt_base hok.below
      exact hlt.trans_le (Nat.pow_le_pow_right (by decide) hc.2)

/-- The two limbs of a 64-bit number. -/
theorem ofDigits_two {x : Nat} (hx : x < 2 ^ 64) :
    Nat.ofDigits BigInt.base [x % 2 ^ 32, x / 2 ^ 32 % 2 ^ 32] = x := by
  rw [Nat.ofDigits_cons, Nat.ofDigits_singleton, BigInt.base]
  omega

theorem lt_bound_of_lt {x : Nat} (hx : x < 2 ^ 64) : ((1 : Int) * x).natAbs < bound := by
  have hbase : BigInt.base ^ 2 = 2 ^ 64 := by decide
  rw [Int.one_mul, Int.natAbs_natCast]
  exact (hbase ▸ hx).trans_le base_sq_le_bound

/-- The payload of an inline integer is read back from its low 32 bits. -/
theorem payload_i32 (p : Nat) :
    (i32 (p % 2 ^ 32 : Nat)).payload = ((BitVec.ofNat 32 p).toInt % 2 ^ 32).toNat := by
  have hb : (BitVec.ofNat 32 p).toInt % ((2 ^ 32 : Nat) : Int) = ((p % 2 ^ 32 : Nat) : Int) := by
    rw [BitVec.toInt_eq_toNat_bmod, Int.bmod_emod, BitVec.toNat_ofNat]
    omega
  have hb' : (BitVec.ofNat 32 p).toInt % 2 ^ 32 = ((p % 2 ^ 32 : Nat) : Int) := hb
  rw [hb']
  simp only [i32, plain]
  omega

theorem decodes_scalar {tag : Tag} {x j : Nat} (hw : ViewOf h v (.scalar tag x j))
    (htag : (m pos).toNat = tag.code) (hx : le m (pos + 8) j = x % 2 ^ (8 * j))
    (hwf : WellFormed h (n + 1) v) :
    Decodes h k (n + 1) v fun g => get fl k m (fuel + 1) g pos := by
  intro g hok
  have hle := Heap.Le.refl g
  cases hw with
  | nil hv ht =>
    refine ⟨g, nil, by simp only [get, htag]; rfl, hle, hok, hv.symm, rfl, rfl, .nil ht rfl rfl⟩
  | bool hv ht =>
    refine ⟨g, bool (m (pos + 8) != 0#8), by simp only [get, htag]; rfl, hle, hok, hv.symm, rfl, rfl,
      .bool ht rfl ?_⟩
    have hbyte : (m (pos + 8)).toNat = v.payload % 2 := by
      rw [Bytes.le, Bytes.le, Nat.mul_zero, Nat.pow_zero, Nat.mul_one, Nat.zero_add,
        Nat.add_zero] at hx
      omega
    change (m (pos + 8) != 0#8).toNat = v.payload % 2
    rw [← hbyte]
    by_cases h0 : m (pos + 8) = 0#8
    · simp [h0]
    · have hpos : (m (pos + 8)).toNat ≠ 0 := fun hz => h0 (BitVec.eq_of_toNat_eq hz)
      rw [bne_iff_ne.mpr h0, Bool.toNat_true]
      omega
  | i32 hv ht =>
    refine ⟨g, i32 (le m (pos + 8) 4), by simp only [get, htag]; rfl, hle, hok, hv.symm, rfl, rfl,
      .int (x := v.asI32) ⟨rfl, .inl ⟨ht, rfl⟩⟩ ⟨rfl, ?_⟩⟩
    rw [if_pos (fitsI32_asI32 v), hx, Nat.mod_mod]
    exact ⟨rfl, payload_i32 v.payload⟩
  | f32 hv ht =>
    refine ⟨g, plain 0x03 (le m (pos + 8) 4), by simp only [get, htag]; rfl, hle, hok, hv.symm, rfl,
      rfl, .f32 ht rfl ?_⟩
    rw [hx]
    exact Nat.mod_mod _ _
  | @i64 bits hv ht hc =>
    have hbits := ofNat_le hx
    have hr := returns_intResult hok (fitsI64_toInt bits)
    refine ⟨_, _, ?_, same_of_returns hr (fitsI64_toInt bits).lt_bound hv ⟨rfl, .inr (.inl ⟨ht, bits, hc, rfl⟩)⟩ (intResult_flags g _)⟩
    simp only [get, htag, hbits]
    rfl
  | @f64 bits hv ht hc =>
    have hbits := ofNat_le hx
    refine ⟨(BigInt.wideNew g 0x10 bits.toInt).1, (BigInt.wideNew g 0x10 bits.toInt).2, ?_, Heap.le_alloc hok _, Heap.ok_alloc hok _, hv.symm, rfl, rfl,
      .f64 ht rfl (fresh_alloc hok _) hc ?_⟩
    · simp only [get, htag, hbits]
      rfl
    · change (g.alloc (.wide (BitVec.ofInt 64 bits.toInt))).1.cells
        (g.alloc (.wide (BitVec.ofInt 64 bits.toInt))).2 = _
      rw [Heap.cells_alloc, BitVec.ofInt_toInt]
  | @u64 sign limb x hv ht hc hu =>
    obtain ⟨y, hy⟩ := hwf.1 ht
    obtain ⟨sign', limb', hc', hbok, hval⟩ := hy.isInt.big ht
    change h.cells v.payload = _ at hc'
    rw [hc, Option.some.injEq, Obj.big.injEq] at hc'
    obtain ⟨rfl, rfl⟩ := hc'
    obtain ⟨rfl, hxv, hlt⟩ := bigToU64_spec hbok hu
    have hle8 : le m (pos + 8) 8 = x := by rw [hx, Nat.mod_eq_of_lt hlt]
    have hr := @returns_canon _ hok 1 [x % 2 ^ 32, x / 2 ^ 32 % 2 ^ 32] (.inl rfl) (by
        intro z hz
        rcases List.mem_pair.mp hz with rfl | rfl <;> exact Nat.mod_lt _ (by decide))
    rw [ofDigits_two hlt] at hr
    refine ⟨_, _, ?_, same_of_returns hr (lt_bound_of_lt hlt) hv ?_ (canon_flags g _ _)⟩
    · simp only [get, htag, hle8]
      rfl
    · rw [hxv, ← hval]
      exact hy.isInt

theorem decodes_data {tag : Tag} {s : List (BitVec 8)} {off : Nat} (hw : ViewOf h v (.data tag s))
    (htag : (m pos).toNat = tag.code) (hoff : le m (pos + 8) 4 = off)
    (hlen : le m (pos + 12) 4 = s.length) (hs : slice m off s.length = s)
    (hwf : WellFormed h (n + 1) v) :
    Decodes h k (n + 1) v fun g => get fl k m (fuel + 1) g pos := by
  intro g hok
  have hslice : slice m (le m (pos + 8) 4) (le m (pos + 8 + 4) 4) = s := by
    rw [hoff, hlen, hs]
  have htext : tag = .text → get fl k m (fuel + 1) g pos = some (strNew g s) := by
    rintro rfl
    simp only [get, htag, hslice]
    rfl
  cases hw with
  | inline hv ht =>
    obtain ⟨hle7, hne⟩ := inlineBytes_spec v.payload
    refine ⟨g, inlineString (inlineBytes v.payload), ?_, Heap.Le.refl g, hok, hv.symm, rfl, rfl,
      .str (.inl ht) (.inl rfl) (s := inlineBytes v.payload) ?_ ?_⟩
    · exact (htext rfl).trans (by rw [strNew, if_pos hle7])
    · rw [strBytes, ht, if_pos (by decide)]
    · rw [strBytes, if_pos (show ((inlineString (inlineBytes v.payload)).type == 0x04) = true from rfl),
        inlineBytes_inlineString hle7 hne]
  | str hv ht hc =>
    have hlong := hwf.2.1 ht s hc
    refine ⟨(g.alloc (.str s)).1, plain 0x05 g.next, ?_, Heap.le_alloc hok _, Heap.ok_alloc hok _,
      hv.symm, rfl, rfl, .str (.inr ht) (.inr rfl) (s := s) ?_ ?_⟩
    · exact (htext rfl).trans (by rw [strNew, if_neg (by omega)]; rfl)
    · rw [strBytes, ht, if_neg (by decide), hc]
    · have hcell : (g.alloc (.str s)).1.cells (plain 0x05 g.next).payload = some (.str s) :=
        Heap.cells_alloc g (.str s)
      rw [strBytes, if_neg (by simp [plain]), hcell]
  | @bytes code data hv ht hc hcode =>
    have hshort := hwf.2.2.1 ht 1 code s hc
    refine ⟨(g.alloc (.fbuf 1 1 s)).1, plain 0x1E g.next, ?_, Heap.le_alloc hok _,
      Heap.ok_alloc hok _, hv.symm, rfl, rfl,
      .bytes ht rfl (fresh_alloc hok _) hc (Heap.cells_alloc g (.fbuf 1 1 s))⟩
    have hlt : le m (pos + 8 + 4) 4 < 2 ^ 31 := by rwa [hlen]
    simp only [get, htag, hslice, if_pos hlt]
    rfl

/-! ### Reading a value -/

theorem WellFormed.clear {n : Nat} {v : JaclVal} (hwf : WellFormed h n v) :
    WellFormed h n { v with error := false } := by
  cases n with
  | zero => trivial
  | succ n => exact hwf

theorem VecsFit.of_succ {n : Nat} {v : JaclVal} (hfit : VecsFit h (n + 1) v) : VecsFit h n v := by
  induction n generalizing v with
  | zero => trivial
  | succ n ih =>
    refine ⟨fun hk r hr => ?_, fun hk t ht l hl => ?_⟩
    · obtain ⟨hcount, hall⟩ := hfit.1 hk r hr
      exact ⟨hcount, fun x hx => ih (hall x hx)⟩
    · obtain ⟨hkey, hval⟩ := hfit.2 hk t ht l hl
      exact ⟨ih hkey, ih hval⟩

theorem VecsFit.clear {n : Nat} {v : JaclVal} (hfit : VecsFit h n v) :
    VecsFit h n { v with error := false } := by
  cases n with
  | zero => trivial
  | succ n => exact hfit

theorem KeysApart.of_succ {n : Nat} {v : JaclVal} (hfit : KeysApart fl h k (n + 1) v) :
    KeysApart fl h k n v := by
  induction n generalizing v with
  | zero => trivial
  | succ n ih =>
    refine ⟨fun hk r hr x hx => ih (hfit.1 hk r hr x hx), fun hk t ht => ?_⟩
    obtain ⟨hdist, hall⟩ := hfit.2 hk t ht
    exact ⟨hdist, fun l hl => ⟨ih (hall l hl).1, ih (hall l hl).2⟩⟩

theorem KeysApart.clear {n : Nat} {v : JaclVal} (hfit : KeysApart fl h k n v) :
    KeysApart fl h k n { v with error := false } := by
  cases n with
  | zero => trivial
  | succ n => exact hfit

/-- The heads of a map's leaves, key and value in turn. -/
theorem entryHeads_getElem {t : Hamt.Node JaclVal JaclVal} {i : Nat}
    {l : Hamt.Leaf JaclVal JaclVal} (hl : (Hamt.entries 7 t)[i]? = some l) :
    (entryHeads t)[2 * i]? = some l.key ∧ (entryHeads t)[2 * i + 1]? = some l.value := by
  rw [entryHeads]
  generalize Hamt.entries 7 t = ls at hl
  induction ls generalizing i with
  | nil => simp at hl
  | cons l' ls ih =>
    cases i with
    | zero =>
      obtain rfl : l' = l := by simpa using hl
      exact ⟨rfl, rfl⟩
    | succ i => exact ih (by simpa using hl)

end Heads

/-- **`jv_get` returns the value that was written**, on whatever heap it is read to.  By
induction on the encoding. -/
theorem get_spec (fl : FloatOps) {h : Heap} (k : Nat) {m : Memory} {n fuel pos lo hi : Nat}
    {v : JaclVal} (henc : Enc h m n v pos lo hi) (hwf : WellFormed h n v) (hfit : VecsFit h n v)
    (hkeys : KeysApart fl h k n v) (hfuel : n ≤ fuel) : Decodes h k n v fun g => get fl k m fuel g pos := by
  induction n generalizing v pos lo hi fuel with
  | zero => exact henc.elim
  | succ n ih =>
    obtain ⟨fuel, rfl⟩ : ∃ f, fuel = f + 1 := ⟨fuel - 1, by omega⟩
    obtain ⟨w, hw, hv⟩ := henc
    cases w with
    | scalar tag x j => exact decodes_scalar hw hv.1 hv.2 hwf
    | data tag s =>
      obtain ⟨htag, off, hoff, hlen, hs, -⟩ := hv
      exact decodes_data hw htag hoff hlen hs hwf
    | heads tag count cs step =>
      obtain ⟨htag, off, hoff, hcount, -, hcs⟩ := hv
      have hcount' : le m (pos + 8 + 4) 4 = count := hcount
      intro g hok
      cases hw with
      | error herr =>
        obtain ⟨lo', hi', -, -, hc⟩ := hcs 0 _ rfl
        rw [Nat.zero_mul, Nat.add_zero] at hc
        obtain ⟨g', r, hr, hle, hok', hsame⟩ := ih hc hwf.of_succ.clear hfit.of_succ.clear
          hkeys.of_succ.clear (by omega : n ≤ fuel) g hok
        refine ⟨g', r.setError, ?_, hle, hok', herr.symm, ?_⟩
        · simp only [get, htag, hcount', hoff, hr]
          rfl
        · obtain ⟨-, ht, hsec, hal⟩ := hsame.mono (Heap.Le.refl g') (fun _ h => h) (Nat.le_succ n)
          exact ⟨ht, hsec, hal.setError⟩
      | @vec a herr hk ha =>
        obtain ⟨hmax, hfits⟩ := hfit.1 hk a ha
        obtain ⟨g', p', r', ys, hrun, hle', hok', hp', hcell', hall, hsames⟩ := getVec_spec
          (get fl k m fuel) (vecElems a) off (fun i c hc => by
            obtain ⟨lo', hi', -, -, henc⟩ := hcs i c hc
            have hmem := List.mem_of_getElem? hc
            exact ih henc (hwf.vector hk ha hmem) (hfits c hmem) (hkeys.1 hk a ha c hmem) (by omega))
          (Heap.le_alloc hok (.vec RrbVec.empty)) (Heap.ok_alloc hok _)
          (fresh_alloc hok (.vec RrbVec.empty)).1
          (Heap.cells_alloc g (.vec RrbVec.empty))
          (show RrbVec.pushAll [] = some RrbVec.empty from rfl) (by
            rw [length_vecElems]
            simpa using hmax)
        rw [List.nil_append] at hall
        refine ⟨g', plain 0x06 p', ?_, (Heap.le_alloc hok _).trans hle', hok', herr.symm, rfl, rfl,
          .vec hk rfl ⟨hp', by rw [show (plain 0x06 p').payload = p' from rfl, hcell']; rfl⟩ ha
            (b := r') ?_ ?_⟩
        · rw [length_vecElems] at hrun
          simp only [get, htag, hcount', hoff]
          exact hrun
        · rw [vecRoot, show (plain 0x06 p').payload = p' from rfl, hcell']
        · rw [vecElems_of_pushAll (by
            rw [← hsames.length_eq, length_vecElems]
            exact hmax) hall]
          exact hsames
      | @map t herr hk ht =>
        obtain ⟨hlen, hwfs⟩ := hwf.mapping hk ht
        have hfits := hfit.2 hk t ht
        obtain ⟨hdist, hapart⟩ := hkeys.2 hk t ht
        obtain ⟨g', p', t', ds, hrun, hle', hp', hm', hds, hsames⟩ := getMap_spec fl
          (get fl k m fuel) (Hamt.entries 7 t) off (fun i l hl => by
            obtain ⟨h1, h2⟩ := entryHeads_getElem hl
            obtain ⟨lo₁, hi₁, -, -, henc₁⟩ := hcs _ _ h1
            obtain ⟨lo₂, hi₂, -, -, henc₂⟩ := hcs _ _ h2
            have hmem := List.mem_of_getElem? hl
            obtain ⟨he₁, he₂, hw₁, hw₂⟩ := hwfs l hmem
            obtain ⟨hf₁, hf₂⟩ := hfits l hmem
            obtain ⟨ha₁, ha₂⟩ := hapart l hmem
            rw [show off + 2 * i * headSize = off + i * entrySize by
              rw [headSize, entrySize]; omega] at henc₁
            rw [show off + (2 * i + 1) * headSize = off + i * entrySize + headSize by
              rw [headSize, entrySize]; omega] at henc₂
            exact ⟨ih henc₁ hw₁ hf₁ ha₁ (by omega), ih henc₂ hw₂ hf₂ ha₂ (by omega), he₁, he₂, hw₁⟩)
          (by simp) hdist (Heap.Le.refl g) (.inl rfl) (mapOk_empty k hok)
          (show List.Perm [] (Hamt.entries 7 .null) by simp) List.Forall₂.nil
        have hcount'' : Hamt.count t' = Hamt.count t := by
          have hlen' : Hamt.count t' = (Hamt.entries 7 t').length := by
            rcases hm'.shape with rfl | hs
            · rfl
            · exact hs.nodeCount
          rw [hlen', hlen, ← hds.length_eq, ← hsames.length_eq]
          rfl
        refine ⟨g', plain 0x07 p', ?_, hle', hm'.heap, herr.symm, rfl, rfl,
          .map hk rfl hp' ht hm'.root hcount'' hm'.shape hds hsames⟩
        rw [← hlen] at hrun
        simp only [get, htag, hcount', hoff]
        exact hrun

end Jacl.Wire
