import Mathlib
import Jacl.Collections
import Jacl.IntTowerExact

/-!
# Equal keys and their hashes

`jmap_key_hash` follows `jacl_val_equal` on strings, on bigints and on dynamic vectors.
Every other word is hashed as it is, while the equality compares numbers by value,
typed vectors with vectors, structs and maps by contents, and ignores the flags.  This
module proves that equal keys have equal hashes, and that maps find one under the other,
where the hash follows the equality, and gives keys where it does not.
-/

namespace Jacl
open JaclVal Limbs BigInt Builtins

/-- A bigint as `jbig_canon` builds it. -/
def BigCell (h : Heap) (v : JaclVal) : Prop :=
  v.type = 0x09 ∧ ∃ sign limb, h.cells v.payload = some (.big sign limb) ∧ BigOk sign limb

/-- **Keys whose equality the hash follows**: one word, two strings, two bigints, or two
dynamic vectors with such elements throughout. -/
def Agree (h : Heap) : Nat → JaclVal → JaclVal → Prop
  | 0, _, _ => True
  | n + 1, a, b => a = b ∨ (a.isString = true ∧ b.isString = true) ∨ (BigCell h a ∧ BigCell h b) ∨
      (a.type = 0x06 ∧ b.type = 0x06 ∧ ∃ ra rb, vecRoot h a = some ra ∧ vecRoot h b = some rb ∧
        ∀ p ∈ (vecElems ra).zip (vecElems rb), Agree h n p.1 p.2)

section
variable {fl : FloatOps} {h : Heap} {n : Nat} {a b : JaclVal}

/-! ### Equal keys have equal hashes -/

theorem length_vecElems (r : RrbVec.Root JaclVal) : (vecElems r).length = r.count := by
  simp [vecElems]

theorem strBytes_eq_of_word (ht : a.type = b.type) (hp : a.payload = b.payload) :
    strBytes h a = strBytes h b := by
  rw [strBytes, strBytes, ht, hp]

/-- Equal strings have the same bytes. -/
theorem strBytes_eq_of_strEq (he : strEq h a b = true) : strBytes h a = strBytes h b := by
  rw [strEq] at he
  split at he
  · rename_i hab
    rw [hab]
  · cases hx : strBytes h a with
    | none => simp [hx] at he
    | some x =>
      cases hy : strBytes h b with
      | none => simp [hx, hy] at he
      | some y =>
        simp only [hx, hy, beq_iff_eq] at he
        rw [he]

theorem valEqual_of_word (ht : a.type = b.type) (hp : a.payload = b.payload) :
    valEqual fl h (n + 1) a b = true := by
  rw [valEqual, if_pos ⟨ht, hp⟩]

theorem valEqual_strings (hsa : a.isString = true) (hsb : b.isString = true)
    (hw : ¬ (a.type = b.type ∧ a.payload = b.payload)) :
    valEqual fl h (n + 1) a b = strEq h a b := by
  rw [valEqual, if_neg hw, if_pos (by simp [hsa, hsb])]

theorem strBytes_eq_of_valEqual (hsa : a.isString = true) (hsb : b.isString = true)
    (he : valEqual fl h (n + 1) a b = true) : strBytes h a = strBytes h b := by
  by_cases hw : a.type = b.type ∧ a.payload = b.payload
  · exact strBytes_eq_of_word hw.1 hw.2
  · rw [valEqual_strings hsa hsb hw] at he
    exact strBytes_eq_of_strEq he

theorem BigCell.isInt (ha : BigCell h a) : ∃ sign limb, h.cells a.payload = some (.big sign limb) ∧
    BigOk sign limb ∧ IsInt h { a with error := false } (sign * (Nat.ofDigits base limb : Nat)) := by
  obtain ⟨ht, sign, limb, hc, hok⟩ := ha
  exact ⟨sign, limb, hc, hok, rfl, .inr (.inr ⟨ht, sign, limb, hc, hok, rfl⟩)⟩

/-- Equal bigints have equal cells. -/
theorem cells_eq_of_valEqual (ha : BigCell h a) (hb : BigCell h b)
    (he : valEqual fl h (n + 1) a b = true) : h.cells a.payload = h.cells b.payload := by
  obtain ⟨s, l, hca, hoka, hia⟩ := ha.isInt
  obtain ⟨s', l', hcb, hokb, hib⟩ := hb.isInt
  by_cases hw : a.type = b.type ∧ a.payload = b.payload
  · rw [hw.2]
  · -- the flags play no part in the comparison
    have hcmp := valEqual_isInt fl n hia hib
    have hflags : valEqual fl h (n + 1) { a with error := false } { b with error := false } =
        valEqual fl h (n + 1) a b := by
      have hanyint : ∀ v : JaclVal, v.type = 0x09 → v.isAnyint = true ∧ v.isString = false ∧
          v.isBigint = true := by
        intro v hv
        simp [isAnyint, isString, isBigint, isI32, isIwide, hv]
      obtain ⟨h1, h2, h3⟩ := hanyint a ha.1
      obtain ⟨h4, h5, h6⟩ := hanyint b hb.1
      rw [valEqual, valEqual, if_neg hw, if_neg hw]
      simp only [isAnyint, isString, isBigint, isI32, isIwide, isAnyfloat, isF64] at *
      simp only [h1, h2, h4, numEqual, isAnyint, isI32, isIwide, isBigint]
      rfl
    rw [hflags, he] at hcmp
    obtain ⟨hsign, hlimb⟩ := hoka.unique hokb (of_decide_eq_true hcmp.symm)
    rw [hca, hcb, hsign, hlimb]

/-- The elementwise comparison of two vectors. -/
theorem valEqual_vectors (hka : kindOf a = 0x06) (hkb : kindOf b = 0x06)
    (hw : ¬ (a.type = b.type ∧ a.payload = b.payload)) :
    valEqual fl h (n + 1) a b =
      match vecRoot h a, vecRoot h b with
      | some ra, some rb => ra.count == rb.count &&
          ((vecElems ra).zip (vecElems rb)).all fun (x, y) => valEqual fl h n x y
      | _, _ => false := by
  have hta : a.type = 0x06 ∨ a.type = 0x1B := by
    rw [kindOf] at hka
    split at hka <;> omega
  have hs : a.isString = false := by rcases hta with h | h <;> simp [isString, h]
  have hn : (a.isAnyint || a.isAnyfloat) = false := by
    rcases hta with h | h <;> simp [isAnyint, isI32, isIwide, isBigint, isAnyfloat, isF64, h]
  rw [valEqual, if_neg hw, hs, hn, if_neg (by simp), if_neg (by simp), if_neg (by omega),
    if_pos hka]
  all_goals rfl

/-- Two vectors, equal and not one cell, are equal elementwise. -/
theorem valEqual_elems {ra rb : RrbVec.Root JaclVal} (hka : kindOf a = 0x06) (hkb : kindOf b = 0x06)
    (hw : ¬ (a.type = b.type ∧ a.payload = b.payload)) (hra : vecRoot h a = some ra)
    (hrb : vecRoot h b = some rb) :
    valEqual fl h (n + 1) a b = true ↔ ra.count = rb.count ∧
      ∀ p ∈ (vecElems ra).zip (vecElems rb), valEqual fl h n p.1 p.2 = true := by
  rw [valEqual_vectors hka hkb hw, hra, hrb]
  simp only [Bool.and_eq_true, beq_iff_eq, List.all_eq_true]

theorem map_eq_of_zip {α β : Type} {f : α → β} {l m : List α} (hlen : l.length = m.length)
    (hf : ∀ p ∈ l.zip m, f p.1 = f p.2) : l.map f = m.map f := by
  induction l generalizing m with
  | nil => rw [List.length_eq_zero_iff.mp hlen.symm]
  | cons x l ih =>
    cases m with
    | nil => cases hlen
    | cons y m =>
      rw [List.map_cons, List.map_cons, hf (x, y) List.mem_cons_self,
        ih (by simpa using hlen) fun p hp => hf p (List.mem_cons_of_mem _ hp)]

theorem zip_all_congr {α : Type} {f : α → α → Bool} {k l m : List α} (hlen : l.length = m.length)
    (hf : ∀ p ∈ l.zip m, ∀ y, f y p.1 = f y p.2) :
    (∀ p ∈ k.zip l, f p.1 p.2 = true) ↔ ∀ p ∈ k.zip m, f p.1 p.2 = true := by
  induction k generalizing l m with
  | nil => simp
  | cons x k ih =>
    cases l with
    | nil => rw [List.length_eq_zero_iff.mp hlen.symm]
    | cons y l =>
      cases m with
      | nil => cases hlen
      | cons z m =>
        have hhead := hf (y, z) List.mem_cons_self x
        have htail := ih (by simpa using hlen) fun p hp => hf p (List.mem_cons_of_mem _ hp)
        simp only [List.zip_cons_cons, List.forall_mem_cons]
        rw [hhead, htail]

theorem kindOf_vector (hta : a.type = 0x06) : kindOf a = 0x06 := by simp [kindOf, hta]

theorem keyHash_vector (hta : a.type = 0x06) {r : RrbVec.Root JaclVal} (hr : vecRoot h a = some r) :
    keyHash h (n + 1) a = ((vecElems r).map (keyHash h n)).foldl
      (fun acc y => (acc ^^^ y) * 16777619#32) (0x811c9dc5#32 ^^^ BitVec.ofNat 32 r.count) := by
  have hs : a.isString = false := by simp [isString, hta]
  rw [keyHash, hs, if_neg (by simp), if_pos (by simp [hta]), hr, List.foldl_map]

/-- **Equal keys have equal hashes** where the hash follows the equality. -/
theorem keyHash_eq (hag : Agree h n a b) (he : valEqual fl h n a b = true) :
    keyHash h n a = keyHash h n b := by
  induction n generalizing a b with
  | zero => rfl
  | succ n ih =>
    rcases hag with rfl | ⟨hsa, hsb⟩ | ⟨hba, hbb⟩ | ⟨hta, htb, ra, rb, hra, hrb, hels⟩
    · rfl
    · rw [keyHash, keyHash, if_pos hsa, if_pos hsb, strHash, strHash,
        strBytes_eq_of_valEqual hsa hsb he]
    · rw [keyHash, keyHash, cells_eq_of_valEqual hba hbb he]
      simp [isString, isBigint, hba.1, hbb.1]
    · rw [keyHash_vector hta hra, keyHash_vector htb hrb]
      by_cases hw : a.type = b.type ∧ a.payload = b.payload
      · rw [vecRoot, hw.2, ← vecRoot, hrb] at hra
        rw [Option.some.inj hra]
      · obtain ⟨hc, hall⟩ :=
          (valEqual_elems (kindOf_vector hta) (kindOf_vector htb) hw hra hrb).mp he
        rw [hc, map_eq_of_zip (by rw [length_vecElems, length_vecElems, hc])
          fun p hp => ih (hels p hp) (hall p hp)]

/-! ### Nothing tells equal keys apart -/

/-- The two words differ in their flags at most. -/
def SameWord (a b : JaclVal) : Prop := a.type = b.type ∧ a.payload = b.payload

theorem valEqual_of_sameWord (hw : SameWord a b) : valEqual fl h (n + 1) a b = true :=
  valEqual_of_word hw.1 hw.2

theorem ne_of_not_sameWord (hw : ¬ SameWord a b) : a ≠ b := by
  intro hab
  subst hab
  exact hw ⟨rfl, rfl⟩

theorem kindOf_eq {x : JaclVal} (hk : kindOf x = kindOf a) (h6 : kindOf a ≠ 0x06) :
    x.type = a.type := by
  rw [kindOf, kindOf] at hk
  rw [kindOf] at h6
  split at hk <;> split at hk <;> simp_all

theorem valEqual_right_string (hs : a.isString = true) {x : JaclVal} (hw : ¬ SameWord x a) :
    valEqual fl h (n + 1) x a = (x.isString && strEq h x a) := by
  have htype : a.type = 0x04 ∨ a.type = 0x05 ∨ a.type = 0x14 := by
    simpa [isString, or_assoc] using hs
  rw [SameWord] at hw
  rw [valEqual, if_neg hw]
  cases hsx : x.isString with
  | true => rw [hs, if_pos (by simp), Bool.true_and]
  | false =>
    have hn : (a.isAnyint || a.isAnyfloat) = false := by
      rcases htype with h | h | h <;>
        simp [isAnyint, isI32, isIwide, isBigint, isAnyfloat, isF64, h]
    have h6 : kindOf a ≠ 0x06 := by rcases htype with h | h | h <;> simp [kindOf, h]
    -- a word of the same kind would be a string too
    have hk : kindOf x ≠ kindOf a := by
      intro hk
      simp [isString, kindOf_eq hk h6] at hsx
      simp [isString, hsx] at hs
    rw [hn, if_neg (by simp), if_neg (by simp), if_pos hk, Bool.false_and]

theorem valEqual_right_big (ht : a.type = 0x09) {x : JaclVal} (hw : ¬ SameWord x a) :
    valEqual fl h (n + 1) x a = ((x.isAnyint || x.isAnyfloat) && numEqual fl h x a) := by
  have hs : a.isString = false := by simp [isString, ht]
  have hn : (a.isAnyint || a.isAnyfloat) = true := by simp [isAnyint, isBigint, ht]
  rw [SameWord] at hw
  rw [valEqual, if_neg hw, hs, hn, if_neg (by simp)]
  cases hx : (x.isAnyint || x.isAnyfloat) with
  | true => rw [if_pos (by simp), Bool.true_and]
  | false =>
    have hk : kindOf x ≠ kindOf a := by
      intro hk
      have := kindOf_eq hk (by simp [kindOf, ht])
      simp [isAnyint, isBigint, this, ht] at hx
    rw [if_neg (by simp), if_pos hk, Bool.false_and]

theorem valEqual_right_vec (ht : a.type = 0x06) {x : JaclVal} (hw : ¬ SameWord x a)
    (hk : kindOf x ≠ 0x06) : valEqual fl h (n + 1) x a = false := by
  have hka := kindOf_vector ht
  have hs : a.isString = false := by simp [isString, ht]
  have hn : (a.isAnyint || a.isAnyfloat) = false := by
    simp [isAnyint, isI32, isIwide, isBigint, isAnyfloat, isF64, ht]
  rw [SameWord] at hw
  rw [valEqual, if_neg hw, hs, hn, Bool.and_false, Bool.and_false, if_neg (by simp),
    if_neg (by simp), if_pos (by omega)]

theorem strEq_of_bytes {s : List (BitVec 8)} (ha : strBytes h a = some s)
    (hb : strBytes h b = some s) : strEq h a b = true := by
  rw [strEq, ha, hb]
  simp

theorem SameWord.isString {x : JaclVal} (hw : SameWord x a) : x.isString = a.isString := by
  rw [JaclVal.isString, JaclVal.isString, hw.1]

/-- Strings of the same bytes are equal to the same words. -/
theorem valEqual_congr_string (hsa : a.isString = true) (hsb : b.isString = true)
    (he : valEqual fl h (n + 1) a b = true) (x : JaclVal) :
    valEqual fl h (n + 1) x a = valEqual fl h (n + 1) x b := by
  by_cases hab : SameWord a b
  · -- one cell or one inline string
    by_cases hxa : SameWord x a
    · rw [valEqual_of_sameWord hxa, valEqual_of_sameWord ⟨hxa.1.trans hab.1, hxa.2.trans hab.2⟩]
    · have hxb : ¬ SameWord x b := fun hxb => hxa ⟨hxb.1.trans hab.1.symm, hxb.2.trans hab.2.symm⟩
      rw [valEqual_right_string hsa hxa, valEqual_right_string hsb hxb, strEq, strEq,
        if_neg (ne_of_not_sameWord hxa),
        if_neg (ne_of_not_sameWord hxb), strBytes_eq_of_word hab.1 hab.2]
  · rw [valEqual_strings hsa hsb hab] at he
    have hbytes := strBytes_eq_of_strEq he
    obtain ⟨s, hs⟩ : ∃ s, strBytes h a = some s := by
      rw [strEq, if_neg (ne_of_not_sameWord hab)] at he
      cases hx : strBytes h a with
      | none => simp [hx] at he
      | some s => exact ⟨s, rfl⟩
    have hs' := hbytes.symm.trans hs
    -- against either word the comparison is that with `s`
    have key : ∀ c : JaclVal, c.isString = true → strBytes h c = some s →
        valEqual fl h (n + 1) x c = (x.isString && (strBytes h x == some s)) := by
      intro c hc hcs
      by_cases hw : SameWord x c
      · rw [valEqual_of_sameWord hw, hw.isString, hc, strBytes_eq_of_word hw.1 hw.2, hcs]
        simp
      · rw [valEqual_right_string hc hw, strEq, if_neg (ne_of_not_sameWord hw), hcs]
        cases strBytes h x <;> simp
    rw [key a hsa hs, key b hsb hs']

/-- Bigints with equal cells are equal to the same words. -/
theorem valEqual_congr_big (hba : BigCell h a) (hbb : BigCell h b)
    (he : valEqual fl h (n + 1) a b = true) (x : JaclVal) :
    valEqual fl h (n + 1) x a = valEqual fl h (n + 1) x b := by
  have hcells := cells_eq_of_valEqual hba hbb he
  -- a word over an equal cell compares as equal
  have hone : ∀ c : JaclVal, BigCell h c → ∀ x : JaclVal, x.type = 0x09 →
      h.cells x.payload = h.cells c.payload → numEqual fl h x c = true := by
    intro c hc x hx hxc
    obtain ⟨s, l, hcc, hok, hi⟩ := hc.isInt
    have hix : IsInt h { x with error := false } (s * (Nat.ofDigits base l : Nat)) :=
      ⟨rfl, .inr (.inr ⟨hx, s, l, hxc.trans hcc, hok, rfl⟩)⟩
    have hcmp : bigCmp h x c = some 0 := by
      have := bigCmp_spec hix hi
      rwa [orderInt, if_neg (Int.lt_irrefl _), if_neg (Int.lt_irrefl _)] at this
    rw [numEqual, if_pos (by simp [isAnyint, isBigint, hx, hc.1]),
      if_pos (by simp [isBigint, hx]), hcmp]
    rfl
  have hnum : ∀ c : JaclVal, BigCell h c → valEqual fl h (n + 1) x c =
      ((x.isAnyint || x.isAnyfloat) && numEqual fl h x c) := by
    intro c hc
    by_cases hw : SameWord x c
    · have hx : x.type = 0x09 := hw.1.trans hc.1
      rw [valEqual_of_sameWord hw, hone c hc x hx (by rw [hw.2])]
      simp [isAnyint, isBigint, hx]
    · exact valEqual_right_big hc.1 hw
  have hread : BigInt.read h a = BigInt.read h b := by
    rw [BigInt.read, BigInt.read, hcells]
    simp [isBigint, hba.1, hbb.1]
  have hf64 : numF64 fl h a = numF64 fl h b := by
    rw [numF64, numF64, hcells]
    simp [isI32, isF64, isBigint, hba.1, hbb.1]
  rw [hnum a hba, hnum b hbb, numEqual, numEqual, hf64, bigCmp, bigCmp, hread]
  simp [isAnyint, isI32, isIwide, isBigint, hba.1, hbb.1]

/-- Elementwise equal vectors are equal to the same words. -/
theorem valEqual_congr_vec (hta : a.type = 0x06) (htb : b.type = 0x06)
    {ra rb : RrbVec.Root JaclVal} (hra : vecRoot h a = some ra) (hrb : vecRoot h b = some rb)
    (hcount : ra.count = rb.count)
    (hels : ∀ p ∈ (vecElems ra).zip (vecElems rb), valEqual fl h n p.2 p.1 = true ∧
      valEqual fl h n p.1 p.2 = true ∧ ∀ y, valEqual fl h n y p.1 = valEqual fl h n y p.2)
    (x : JaclVal) : valEqual fl h (n + 1) x a = valEqual fl h (n + 1) x b := by
  have hka := kindOf_vector hta
  have hkb := kindOf_vector htb
  have hroot : ∀ c : JaclVal, SameWord x c → vecRoot h x = vecRoot h c := by
    intro c hw
    rw [vecRoot, vecRoot, hw.2]
  have hkind : ∀ c : JaclVal, SameWord x c → kindOf x = kindOf c := by
    intro c hw
    rw [kindOf, kindOf, hw.1]
  by_cases hxa : SameWord x a
  · rw [valEqual_of_sameWord hxa]
    by_cases hxb : SameWord x b
    · rw [valEqual_of_sameWord hxb]
    · refine ((valEqual_elems ((hkind a hxa).trans hka) hkb hxb ((hroot a hxa).trans hra) hrb).mpr
        ⟨hcount, fun p hp => (hels p hp).2.1⟩).symm
  · by_cases hxb : SameWord x b
    · rw [valEqual_of_sameWord hxb]
      refine (valEqual_elems ((hkind b hxb).trans hkb) hka hxa ((hroot b hxb).trans hrb) hra).mpr
        ⟨hcount.symm, fun p hp => ?_⟩
      have hp' : p.swap ∈ (vecElems ra).zip (vecElems rb) := by
        rw [← List.zip_swap]
        exact List.mem_map_of_mem hp
      exact (hels p.swap hp').1
    · by_cases hkx : kindOf x = 0x06
      · -- both are compared with `x` elementwise
        cases hrx : vecRoot h x with
        | none => rw [valEqual_vectors hkx hka hxa, valEqual_vectors hkx hkb hxb, hrx]
        | some rx =>
          rw [Bool.eq_iff_iff, valEqual_elems hkx hka hxa hrx hra, valEqual_elems hkx hkb hxb hrx hrb,
            hcount]
          refine and_congr_right fun _ => zip_all_congr ?_ fun p hp => (hels p hp).2.2
          rw [length_vecElems, length_vecElems, hcount]
      · rw [valEqual_right_vec hta hxa hkx, valEqual_right_vec htb hxb hkx]

/-- **Equal keys are equal to the same keys**, where the hash follows the equality. -/
theorem valEqual_congr (hag : Agree h n a b) (he : valEqual fl h n a b = true) (x : JaclVal) :
    valEqual fl h n x a = valEqual fl h n x b := by
  induction n generalizing a b x with
  | zero => rfl
  | succ n ih =>
    rcases hag with rfl | ⟨hsa, hsb⟩ | ⟨hba, hbb⟩ | ⟨hta, htb, ra, rb, hra, hrb, hels⟩
    · rfl
    · exact valEqual_congr_string hsa hsb he x
    · exact valEqual_congr_big hba hbb he x
    · by_cases hw : SameWord a b
      · -- one cell, whose elements are compared with those of `x`
        by_cases hxa : SameWord x a
        · rw [valEqual_of_sameWord hxa, valEqual_of_sameWord ⟨hxa.1.trans hw.1, hxa.2.trans hw.2⟩]
        · have hxb : ¬ SameWord x b := fun hxb => hxa ⟨hxb.1.trans hw.1.symm, hxb.2.trans hw.2.symm⟩
          by_cases hkx : kindOf x = 0x06
          · rw [valEqual_vectors hkx (kindOf_vector hta) hxa,
              valEqual_vectors hkx (kindOf_vector htb) hxb, vecRoot, vecRoot, vecRoot, hw.2]
          · rw [valEqual_right_vec hta hxa hkx, valEqual_right_vec htb hxb hkx]
      · obtain ⟨hc, hall⟩ := (valEqual_elems (kindOf_vector hta) (kindOf_vector htb) hw hra hrb).mp he
        refine valEqual_congr_vec hta htb hra hrb hc (fun p hp => ?_) x
        have hcongr := ih (hels p hp) (hall p hp)
        refine ⟨?_, hall p hp, hcongr⟩
        rw [hcongr]
        cases n with
        | zero => cases hall p hp
        | succ n => exact valEqual_of_word rfl rfl

end

/-! ### Maps -/

/-- **The maps a program builds**, on a growing heap: by sets of any keys, and by
removals of keys whose hash the keys equal to them follow. -/
inductive Built (fl : FloatOps) (n : Nat) : Heap → JaclVal → Prop
  | empty {h : Heap} : h.Ok → Built fl n h mapEmpty
  | grow {h h' : Heap} {m : JaclVal} : Built fl n h m → h.Le h' → h'.Ok → Built fl n h' m
  | set {h h' : Heap} {m m' key val : JaclVal} : Built fl n h m → Closed h n key →
      key.error = false → val.error = false → mapSet fl n h m key val = some (h', m') →
      Built fl n h' m'
  | remove {h h' : Heap} {m m' key : JaclVal} : Built fl n h m → Closed h n key →
      key.error = false →
      (∀ t, mapRoot h m = some t → ∀ l ∈ Hamt.entries 7 t,
        valEqual fl h n l.key key = true → Agree h n l.key key) →
      mapRemove fl n h m key = some (h', m') → Built fl n h' m'

/-- `jacl_map_remove` on a map. -/
theorem MapOk.remove {n : Nat} {h : Heap} {m : JaclVal} {t : Hamt.Node JaclVal JaclVal}
    (hm : MapOk n h m t) (fl : FloatOps) {key : JaclVal} (hke : key.error = false)
    (hag : ∀ l ∈ Hamt.entries 7 t, valEqual fl h n l.key key = true → Agree h n l.key key) :
    ∃ t', mapRemove fl n h m key = some (mapOf h t') ∧
      MapOk n (mapOf h t').1 (mapOf h t').2 t' := by
  have hrun : ∀ t', Hamt.unset (valEqual fl h n) (keyHash h n) t key = some t' →
      mapRemove fl n h m key = some (mapOf h t') := by
    intro t' ht'
    simp [mapRemove, hm.no_error, hke, hm.root, ht']
  rcases hm.shape with rfl | hs
  · exact ⟨.null, hrun _ rfl, mapOk_mapOf hm.heap (.inl rfl) (by simp)⟩
  · obtain ⟨t', b, hun, hto⟩ :=
      Hamt.unsetRecursive_unsetTo (valEqual fl h n) key (keyHash h n key) hs
    have hunset : Hamt.unset (valEqual fl h n) (keyHash h n) t key = some t' := by
      rw [Hamt.unset, hun]
      rfl
    refine ⟨t', hrun _ hunset, mapOk_mapOf hm.heap ?_ fun l hl => hm.closed l (hto.mem_of_mem hl)⟩
    exact hto.shape rfl hs fun l hl he => keyHash_eq (hag l hl he) he

/-- Every map that is built is well formed. -/
theorem Built.mapOk {fl : FloatOps} {n : Nat} {h : Heap} {m : JaclVal} (hm : Built fl n h m) :
    ∃ t, MapOk n h m t := by
  induction hm with
  | empty hok => exact ⟨.null, mapOk_empty n hok⟩
  | grow _ hle hok ih =>
    obtain ⟨t, ht⟩ := ih
    exact ⟨t, ht.mono hle hok⟩
  | set _ hk hke hve hrun ih =>
    obtain ⟨t, ht⟩ := ih
    obtain ⟨t', hset, hok, -⟩ := ht.set fl hk hke hve
    rw [hset] at hrun
    rw [Option.some.inj hrun] at hok
    exact ⟨t', hok⟩
  | remove _ hk hke hag hrun ih =>
    obtain ⟨t, ht⟩ := ih
    obtain ⟨t', hrem, hok⟩ := ht.remove fl hke (hag t ht.root)
    rw [hrem] at hrun
    rw [Option.some.inj hrun] at hok
    exact ⟨t', hok⟩

/-- Reading a map under a key equal to the one just set. -/
theorem MapOk.get_set {n : Nat} {h : Heap} {m : JaclVal} {t : Hamt.Node JaclVal JaclVal}
    (hm : MapOk n h m t) (fl : FloatOps) {a b v : JaclVal} (ha : Closed h n a) (hb : Closed h n b)
    (hae : a.error = false) (hbe : b.error = false) (hag : Agree h n a b)
    (he : valEqual fl h n a b = true) :
    ∃ h' m', mapSet fl n h m a v = some (h', m') ∧ mapGet fl n h' m' b = some v := by
  cases hve : v.error with
  | true =>
    refine ⟨h, v, ?_, ?_⟩
    · simp [mapSet, hm.no_error, hae, hve]
    · simp [mapGet, mapGetWith, hve]
  | false =>
    obtain ⟨t', hset, hok, hto⟩ := hm.set fl ha hae hve
    obtain ⟨hle, -⟩ := mapOf_le hm.heap t'
    obtain ⟨h', m', hpair⟩ : ∃ h' m', mapOf h t' = (h', m') := ⟨_, _, rfl⟩
    rw [hpair] at hset hok hle
    refine ⟨h', m', hset, ?_⟩
    -- on the grown heap the keys hash and compare as they did
    have hhash : keyHash h' n b = keyHash h n a := by
      rw [keyHash_mono hle hb, keyHash_eq hag he]
    have hnew : valEqual fl h' n a b = true := by
      rw [valEqual_mono fl hle ha hb, he]
    have hleaf : Hamt.getLeaf (valEqual fl h' n) 7 t' b (keyHash h n a) =
        some (some ⟨a, v, keyHash h n a⟩) := by
      rcases hto with ⟨-, rfl⟩ | hto
      · rw [Hamt.getLeaf, if_pos hnew]
      · refine hto.getLeaf_new hnew fun l hl => ?_
        rw [valEqual_mono fl hle (hm.closed l hl) hb]
        exact (valEqual_congr hag he l.key).symm
    have hno : m'.error = false := hok.no_error
    simp [mapGet, mapGetWith, hno, hbe, hok.root, Hamt.has, Hamt.get, hhash, hleaf]

/-- **Map keys are consistent** where the hash follows the equality: equal keys have
equal hashes, and every map finds under the one what was set under the other. -/
theorem keys_consistent (fl : FloatOps) (n : Nat) {h : Heap} {a b : JaclVal} (ha : Closed h n a)
    (hb : Closed h n b) (hae : a.error = false) (hbe : b.error = false) (hag : Agree h n a b)
    (he : valEqual fl h n a b = true) :
    keyHash h n a = keyHash h n b ∧
      ∀ m v, Built fl n h m →
        ∃ h' m', mapSet fl n h m a v = some (h', m') ∧ mapGet fl n h' m' b = some v := by
  refine ⟨keyHash_eq hag he, fun m v hm => ?_⟩
  obtain ⟨t, ht⟩ := hm.mapOk
  exact ht.get_set fl ha hb hae hbe hag he

/-- The bigint `2 ^ 64` in two cells, and two cells of the `i64` `2 ^ 40`. -/
def twins : Heap :=
  ⟨fun a => if a = 16 ∨ a = 32 then some (.big 1 [0, 0, 1])
    else if a = 48 ∨ a = 64 then some (.wide (2 ^ 40)) else none, 80⟩

theorem twins_ok : twins.Ok := by
  refine ⟨by decide, fun a ha => ?_⟩
  have h80 : 80 ≤ a := ha
  simp only [twins]
  rw [if_neg (by omega), if_neg (by omega)]

theorem keys_consistent_bigint :
    keyHash twins 2 (plain 0x09 16) = keyHash twins 2 (plain 0x09 32) ∧
      ∃ h' m', mapSet .ieee 2 twins mapEmpty (plain 0x09 16) (i32 7) = some (h', m') ∧
        mapGet .ieee 2 h' m' (plain 0x09 32) = some (i32 7) := by
  have hbig : BigOk 1 [0, 0, 1] :=
    ⟨.inl rfl, by decide, by rw [Below]; decide, by intro x hx; cases hx; decide, by decide⟩
  have hcell : ∀ p, p = 16 ∨ p = 32 → BigCell twins (plain 0x09 p) ∧ Closed twins 2 (plain 0x09 p) := by
    intro p hp
    have hc : twins.cells p = some (.big 1 [0, 0, 1]) := by simp only [twins, if_pos hp]
    exact ⟨⟨rfl, _, _, hc, hbig⟩, fun _ => ⟨_, hc, by simp [Obj.names], by simp [Obj.children]⟩⟩
  obtain ⟨hba, hca⟩ := hcell 16 (.inl rfl)
  obtain ⟨hbb, hcb⟩ := hcell 32 (.inr rfl)
  obtain ⟨hhash, hmap⟩ := keys_consistent .ieee 2 hca hcb rfl rfl (.inr (.inr (.inl ⟨hba, hbb⟩)))
    (by decide)
  exact ⟨hhash, hmap mapEmpty (i32 7) (.empty twins_ok)⟩

/-- **Equal keys with different hashes.**  Two cells of one `i64`, and an `i32` with and
without the taint flag, are equal and hash differently; a map that binds the one `i64`
has no value for the other. -/
theorem keys_not_consistent :
    (valEqual .ieee twins 1 (plain 0x0E 48) (plain 0x0E 64) = true ∧
      keyHash twins 1 (plain 0x0E 48) ≠ keyHash twins 1 (plain 0x0E 64) ∧
      ∃ h₁ m₁ h₂ m₂, mapSet .ieee 1 twins mapEmpty (i32 1) (i32 0) = some (h₁, m₁) ∧
        mapSet .ieee 1 h₁ m₁ (plain 0x0E 48) (i32 7) = some (h₂, m₂) ∧
        mapGet .ieee 1 h₂ m₂ (plain 0x0E 64) = some nil) ∧
    (valEqual .ieee twins 1 (i32 5) { i32 5 with tainted := true } = true ∧
      keyHash twins 1 (i32 5) ≠ keyHash twins 1 { i32 5 with tainted := true }) := by
  refine ⟨⟨by decide, by decide, ?_⟩, by decide, by decide⟩
  exact ⟨_, _, _, _, rfl, rfl, by decide⟩

end Jacl
