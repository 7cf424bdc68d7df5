import Jacl.WireDecode
import Jacl.Probing

/-!
# Runtime strings (`runtime/string.c`)

A string of seven bytes or fewer is in the value's word, a longer one in a cell, and the intern table
keeps one cell for each content.  A copy that leaves the bounds of what it writes to is `none`.
Lengths and the sizes of cells are `uint32_t`, and their sums wrap.
-/

namespace Jacl.Strings
open JaclVal Wire Function

abbrev Bytes := List (BitVec 8)

/-- The bytes of a new cell, behind its `JaclStr` and before a NUL. -/
def cell (h : Heap) (s : Bytes) : Option (Heap × JaclVal) :=
  if 4 + s.length + 1 ≤ (4 + s.length + 1) % 2 ^ 32 then
    some ((h.alloc (.str s)).1, plain 0x05 (h.alloc (.str s)).2)
  else none

/-- `jacl_str_new`. -/
def strNew (h : Heap) (s : Bytes) : Option (Heap × JaclVal) :=
  if s.length ≤ 7 then some (h, inlineString s) else cell h s

/-- `jacl_str_len`. -/
def strLen (h : Heap) (v : JaclVal) : Option Nat := (strBytes h v).map List.length

/-- `jacl_str_concat`; `toString` is `jacl_to_string`. -/
def strConcat (toString : Heap → JaclVal → Heap × JaclVal) (h : Heap) (a b : JaclVal) :
    Option (Heap × JaclVal) :=
  if a.error then some (h, a)
  else if b.error then some (h, b)
  else
    let (h, a) := if a.isString then (h, a) else toString h a
    if a.error then some (h, a)
    else
      let (h, b) := if b.isString then (h, b) else toString h b
      if b.error then some (h, b)
      else do
        let x ← strBytes h a
        let y ← strBytes h b
        if (x.length + y.length) % 2 ^ 32 ≤ 7 then
          -- Both are copied to a buffer of eight bytes.
          if x.length + y.length ≤ 7 then some (h, inlineString (x ++ y)) else none
        else cell h (x ++ y)

/-- `jacl_str_slice`. -/
def strSlice (h : Heap) (s a b : JaclVal) : Option (Heap × JaclVal) :=
  if s.error then some (h, s)
  else if !a.isI32 || !b.isI32 then some (h, errorVal)
  else do
    let x ← strBytes h s
    let n := (BitVec.ofNat 32 x.length).toInt
    let lo := max a.asI32 0
    let hi := min b.asI32 n
    if hi ≤ lo then strNew h []
    else strNew h ((x.drop lo.toNat).take (hi - lo).toNat)

/-! ### The intern table -/

/-- `INTERN_CAP`. -/
def internCap : Nat := 4096

/-- The heap and `intern_tab`. -/
structure Interns where
  heap : Heap
  tab : Nat → JaclVal

/-- The bytes in each slot of the table; a nil is a free slot. -/
def Interns.contents (st : Interns) (i : Nat) : Option Bytes :=
  if (st.tab i).type = 0 then none else strBytes st.heap (st.tab i)

/-- `str_hash`. -/
def bytesHash (s : Bytes) : Nat :=
  (s.foldl (fun h c => (h ^^^ c.setWidth 32) * 16777619#32) 2166136261#32).toNat

/-- `jacl_str_intern`. -/
def strIntern (st : Interns) (s : Bytes) : Option (Interns × JaclVal) :=
  if s.length ≤ 7 then some (st, inlineString s)
  else
    match Probing.probe internCap st.contents s internCap (bytesHash s % internCap) with
    | .hit i => some (st, st.tab i)
    | .free i => (strNew st.heap s).map fun hv => (⟨hv.1, update st.tab i hv.2⟩, hv.2)
    | .full => (strNew st.heap s).map fun hv => (⟨hv.1, st.tab⟩, hv.2)

/-- Whatever the program does next, a string once made stays as it is. -/
inductive Later (st : Interns) : Interns → Prop
  | refl : Later st st
  | intern {st₁ st₂ : Interns} {s : Bytes} {v : JaclVal} (h : Later st st₁)
      (hi : strIntern st₁ s = some (st₂, v)) : Later st st₂
  | grow {st₁ : Interns} {h' : Heap} (h : Later st st₁) (hle : st₁.heap.Le h') (hok : h'.Ok) :
      Later st ⟨h', st₁.tab⟩

/-- `jacl_intern_init`. -/
def Interns.init (h : Heap) : Interns := ⟨h, fun _ => nil⟩

/-! ### What a string denotes -/

/-- A value is the string of these bytes. -/
structure Denotes (h : Heap) (v : JaclVal) (s : Bytes) : Prop where
  isString : v.isString = true
  ok : v.error = false
  len : strLen h v = some s.length
  bytes : strBytes h v = some s

/-- The word has no NUL in it for a short string to end at. -/
def Clean (s : Bytes) : Prop := s.length ≤ 7 → 0#8 ∉ s

instance (s : Bytes) : Decidable (Clean s) := inferInstanceAs (Decidable (_ → _))

variable {h h' : Heap} {v a b : JaclVal} {s t : Bytes}

theorem Denotes.of_bytes (hs : v.isString = true) (hok : v.error = false)
    (hb : strBytes h v = some s) : Denotes h v s :=
  ⟨hs, hok, by rw [strLen, hb]; rfl, hb⟩

theorem Denotes.mono (hd : Denotes h v s) (hle : h.Le h') : Denotes h' v s := by
  refine .of_bytes hd.isString hd.ok ?_
  rw [strBytes_mono hle (by rw [hd.bytes]; rfl), hd.bytes]

theorem Denotes.unique (ha : Denotes h v s) (hb : Denotes h v t) : s = t :=
  Option.some.inj (ha.bytes.symm.trans hb.bytes)

/-- What becomes of the bytes of an inline string. -/
theorem strBytes_inlineString (h : Heap) (s : Bytes) :
    strBytes h (inlineString s) = some ((s.take 7).takeWhile (· != 0#8)) := by
  have hcut : inlineString s = inlineString ((s.take 7).takeWhile (· != 0#8)) := by
    have hlen : ((s.take 7).takeWhile (· != 0#8)).length ≤ 7 :=
      (List.takeWhile_prefix _).length_le.trans (List.length_take_le 7 s)
    have hself := List.takeWhile_eq_self_iff.mpr
      fun x (hx : x ∈ (s.take 7).takeWhile (· != 0#8)) => List.mem_takeWhile_imp hx
    rw [inlineString, inlineString, List.take_of_length_le hlen, hself]
  have hne : ∀ x ∈ (s.take 7).takeWhile (· != 0#8), x ≠ 0#8 := by
    intro x hx
    simpa using List.mem_takeWhile_imp hx
  rw [strBytes, if_pos (by rfl), hcut, inlineBytes_inlineString _ hne]
  exact (List.takeWhile_prefix _).length_le.trans (List.length_take_le 7 s)

theorem takeWhile_ne_zero_eq : s.takeWhile (· != 0#8) = s ↔ 0#8 ∉ s := by
  rw [List.takeWhile_eq_self_iff]
  constructor
  · intro hall hmem
    have := hall _ hmem
    simp at this
  · intro hnot x hx
    refine bne_iff_ne.mpr ?_
    rintro rfl
    exact hnot hx

/-- **An inline string is what it was made of** if no NUL is. -/
theorem denotes_inlineString (hlen : s.length ≤ 7) : Denotes h (inlineString s) s ↔ 0#8 ∉ s := by
  have hb := strBytes_inlineString h s
  rw [List.take_of_length_le hlen] at hb
  constructor
  · intro hd
    exact takeWhile_ne_zero_eq.mp (Option.some.inj (hb.symm.trans hd.bytes))
  · intro hnot
    rw [takeWhile_ne_zero_eq.mpr hnot] at hb
    exact .of_bytes rfl rfl hb

/-- A cell's size does not wrap. -/
def Small (s : Bytes) : Prop := s.length + 5 < 2 ^ 32

theorem cell_eq (hsmall : Small s) :
    cell h s = some ((h.alloc (.str s)).1, plain 0x05 (h.alloc (.str s)).2) := by
  refine if_pos ?_
  rw [Nat.mod_eq_of_lt (by unfold Small at hsmall; omega)]

theorem cell_none (hbig : ¬Small s) : cell h s = none := by
  refine if_neg ?_
  unfold Small at hbig
  have := Nat.mod_lt (4 + s.length + 1) (show 0 < 2 ^ 32 by decide)
  omega

theorem denotes_cell (h : Heap) (s : Bytes) :
    Denotes (h.alloc (.str s)).1 (plain 0x05 (h.alloc (.str s)).2) s := by
  refine .of_bytes rfl rfl ?_
  rw [strBytes, if_neg (by rintro ⟨⟩)]
  have hcell : (h.alloc (.str s)).1.cells (plain 0x05 (h.alloc (.str s)).2).payload = some (.str s) :=
    Heap.cells_alloc h _
  rw [hcell]

/-! ### The operations -/

/-- **`jacl_str_new`.** -/
theorem strNew_iff (h : Heap) (s : Bytes) :
    (∃ h' v, strNew h s = some (h', v) ∧ Denotes h' v s) ↔ Clean s ∧ Small s := by
  rw [strNew]
  split
  · rename_i hlen
    have hsmall : Small s := by unfold Small; omega
    constructor
    · rintro ⟨h', v, heq, hd⟩
      cases heq
      exact ⟨fun _ => (denotes_inlineString hlen).mp hd, hsmall⟩
    · rintro ⟨hclean, -⟩
      exact ⟨h, _, rfl, (denotes_inlineString hlen).mpr (hclean hlen)⟩
  · rename_i hlen
    constructor
    · rintro ⟨h', v, heq, -⟩
      refine ⟨fun hle => absurd hle hlen, ?_⟩
      by_contra hbig
      rw [cell_none hbig] at heq
      cases heq
    · rintro ⟨-, hsmall⟩
      exact ⟨_, _, cell_eq hsmall, denotes_cell h s⟩

theorem le_strNew (hok : h.Ok) (hn : strNew h s = some (h', v)) : h.Le h' ∧ h'.Ok := by
  rw [strNew] at hn
  split at hn
  · cases hn
    exact ⟨.refl h, hok⟩
  · by_cases hsmall : Small s
    · rw [cell_eq hsmall] at hn
      cases hn
      exact ⟨Heap.le_alloc hok _, Heap.ok_alloc hok _⟩
    · rw [cell_none hsmall] at hn
      cases hn

/-- **`jacl_str_concat`.** -/
theorem strConcat_iff (ts : Heap → JaclVal → Heap × JaclVal) (ha : Denotes h a s) (hb : Denotes h b t)
    (hs : Clean s) (ht : Clean t) :
    (∃ h' v, strConcat ts h a b = some (h', v) ∧ Denotes h' v (s ++ t)) ↔ Small (s ++ t) := by
  have hcat : strConcat ts h a b =
      if (s.length + t.length) % 2 ^ 32 ≤ 7 then
        if s.length + t.length ≤ 7 then some (h, inlineString (s ++ t)) else none
      else cell h (s ++ t) := by
    simp only [strConcat, ha.ok, hb.ok, ha.isString, hb.isString, if_true, ha.bytes, hb.bytes,
      Bool.false_eq_true, if_false, Option.bind_eq_bind, Option.bind_some]
  have hlen : (s ++ t).length = s.length + t.length := List.length_append
  rw [hcat]
  split
  · split
    · rename_i hle
      have hnot : 0#8 ∉ s ++ t := by
        rw [List.mem_append]
        rintro (hm | hm)
        · exact hs (by omega) hm
        · exact ht (by omega) hm
      refine iff_of_true ⟨h, _, rfl, (denotes_inlineString (by omega)).mpr hnot⟩ ?_
      unfold Small
      omega
    · refine iff_of_false ?_ ?_
      · rintro ⟨h', v, heq, -⟩
        cases heq
      · unfold Small
        omega
  · constructor
    · rintro ⟨h', v, heq, -⟩
      by_contra hbig
      rw [cell_none hbig] at heq
      cases heq
    · intro hsmall
      exact ⟨_, _, cell_eq hsmall, denotes_cell h _⟩

/-- The bytes from `lo` to `hi`, within the string. -/
def sub (s : Bytes) (lo hi : Int) : Bytes := (s.take hi.toNat).drop lo.toNat

theorem asI32_i32 (x : BitVec 32) : (i32 x.toInt).asI32 = x.toInt := by
  have hx : (x.toInt % 2 ^ 32).toNat = x.toNat := by
    have hcast : ((2 ^ 32 : Nat) : Int) = 2 ^ 32 := by norm_num
    rw [BitVec.toInt_eq_toNat_bmod, ← hcast, Int.bmod_emod]
    have := x.isLt
    omega
  show (BitVec.ofNat 32 (x.toInt % 2 ^ 32).toNat).toInt = x.toInt
  rw [hx, BitVec.ofNat_toNat, BitVec.setWidth_eq]

theorem sub_eq_nil {lo hi : Int} : sub s lo hi = [] ↔ min hi s.length ≤ max lo 0 := by
  rw [sub, List.drop_eq_nil_iff, List.length_take]
  omega

/-- **`jacl_str_slice`.** -/
theorem strSlice_iff (ha : Denotes h a s) (lo hi : BitVec 32) (hs : Small s) :
    (∃ h' v, strSlice h a (i32 lo.toInt) (i32 hi.toInt) = some (h', v) ∧
      Denotes h' v (sub s lo.toInt hi.toInt)) ↔
    Clean (sub s lo.toInt hi.toInt) ∧ (s.length < 2 ^ 31 ∨ sub s lo.toInt hi.toInt = []) := by
  have hi32 : ∀ x : BitVec 32, (i32 x.toInt).isI32 = true := fun _ => rfl
  have hnil : Clean [] := fun _ => List.not_mem_nil
  have hnone : Small [] := by unfold Small; decide
  have hlo := lo.toInt_lt
  have hhi := hi.toInt_lt
  obtain ⟨n, hn⟩ : ∃ n, (BitVec.ofNat 32 s.length).toInt = n := ⟨_, rfl⟩
  have hlow : n = s.length ∧ s.length < 2 ^ 31 ∨ n < 0 ∧ ¬s.length < 2 ^ 31 := by
    unfold Small at hs
    rw [BitVec.toInt_eq_toNat_cond, BitVec.toNat_ofNat] at hn
    split at hn <;> omega
  simp only [strSlice, ha.ok, hi32, asI32_i32, ha.bytes, hn, Bool.false_eq_true, if_false,
    Bool.not_true, Bool.or_self, Option.bind_eq_bind, Option.bind_some]
  split
  · rename_i hle
    -- The empty string, which is right when there is nothing between.
    constructor
    · rintro ⟨h', v, heq, hd⟩
      obtain ⟨h'', v', heq', hd'⟩ := (strNew_iff h []).mpr ⟨hnil, hnone⟩
      rw [heq] at heq'
      cases heq'
      have hempty := hd.unique hd'
      rw [hempty]
      exact ⟨hnil, .inr rfl⟩
    · rintro ⟨-, hside⟩
      have hempty : sub s lo.toInt hi.toInt = [] := by
        rcases hside with hlt | hempty
        · rw [sub_eq_nil]
          omega
        · exact hempty
      rw [hempty]
      exact (strNew_iff h []).mpr ⟨hnil, hnone⟩
  · rename_i hlt
    have hshort : s.length < 2 ^ 31 := by omega
    have hrange : (s.drop (max lo.toInt 0).toNat).take (min hi.toInt n - max lo.toInt 0).toNat =
        sub s lo.toInt hi.toInt := by
      have h1 : (max lo.toInt 0).toNat = lo.toInt.toNat := by omega
      have h2 : (min hi.toInt n - max lo.toInt 0).toNat =
          min hi.toInt.toNat s.length - lo.toInt.toNat := by omega
      rw [sub, h1, h2, ← List.drop_take, ← List.take_eq_take_min]
    rw [hrange, strNew_iff]
    have hsub : Small (sub s lo.toInt hi.toInt) := by
      unfold Small at hs ⊢
      have : (sub s lo.toInt hi.toInt).length ≤ s.length := by
        rw [sub, List.length_drop, List.length_take]
        omega
      omega
    exact ⟨fun hboth => ⟨hboth.1, .inl hshort⟩, fun hboth => ⟨hboth.1, hsub⟩⟩

end Jacl.Strings
