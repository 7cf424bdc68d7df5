import Jacl.Strings

/-!
# Strings denote byte sequences

The intern table is sound in whatever order strings come, and so a string of it keeps its cell.
-/

namespace Jacl.Strings
open JaclVal Wire Function

/-- **The table holds strings, each content once.** -/
structure Interns.Ok (st : Interns) : Prop where
  heap : st.heap.Ok
  cells : ∀ i, (st.tab i).type ≠ 0 → ∃ s, Denotes st.heap (st.tab i) s
  sound : Probing.Sound internCap bytesHash st.contents

variable {st st' : Interns} {h' : Heap} {v : JaclVal} {s t : Bytes} {i : Nat}

theorem Interns.contents_of_denotes (hty : (st.tab i).type ≠ 0) (hd : Denotes st.heap (st.tab i) s) :
    st.contents i = some s := by
  rw [contents, if_neg hty, hd.bytes]

theorem Interns.Ok.denotes (hok : st.Ok) (hi : st.contents i = some s) :
    Denotes st.heap (st.tab i) s := by
  by_cases hty : (st.tab i).type = 0
  · rw [contents, if_pos hty] at hi
    cases hi
  · obtain ⟨t, ht⟩ := hok.cells i hty
    rw [contents_of_denotes hty ht] at hi
    cases hi
    exact ht

theorem Interns.contents_init (h : Heap) : (Interns.init h).contents = fun _ => none :=
  funext fun _ => if_pos rfl

theorem Interns.ok_init {h : Heap} (hok : h.Ok) : (Interns.init h).Ok where
  heap := hok
  cells i hty := absurd rfl hty
  sound := by
    rw [contents_init]
    exact Probing.sound_empty

theorem Interns.Ok.contents_grow (hok : st.Ok) (hle : st.heap.Le h') :
    Interns.contents ⟨h', st.tab⟩ = st.contents := by
  funext i
  by_cases hty : (st.tab i).type = 0
  · rw [contents, contents, if_pos hty, if_pos hty]
  · obtain ⟨s, hs⟩ := hok.cells i hty
    rw [contents_of_denotes hty hs]
    exact @contents_of_denotes ⟨h', st.tab⟩ s i hty (hs.mono hle)

theorem Interns.Ok.grow (hok : st.Ok) (hle : st.heap.Le h') (hh : h'.Ok) :
    Interns.Ok ⟨h', st.tab⟩ where
  heap := hh
  cells i hty := (hok.cells i hty).imp fun _ hs => hs.mono hle
  sound := by
    rw [hok.contents_grow hle]
    exact hok.sound

/-- A new string goes into a free slot. -/
theorem Interns.Ok.contents_put (hok : st.Ok) (hle : st.heap.Le h') (hd : Denotes h' v s) :
    Interns.contents ⟨h', update st.tab i v⟩ = update st.contents i (some s) := by
  have hty : v.type ≠ 0 := by
    intro h0
    have := hd.isString
    simp [JaclVal.isString, h0] at this
  have hgrow := hok.contents_grow hle
  funext j
  by_cases hj : j = i
  · subst hj
    rw [update_self]
    apply contents_of_denotes
    · show (update st.tab j v j).type ≠ 0
      rw [update_self]
      exact hty
    · show Denotes h' (update st.tab j v j) s
      rw [update_self]
      exact hd
  · rw [update_of_ne hj, ← hgrow, contents, contents]
    show (if (update st.tab i v j).type = 0 then _ else strBytes h' (update st.tab i v j)) = _
    rw [update_of_ne hj]

theorem Interns.Ok.put (hok : st.Ok) (hle : st.heap.Le h') (hh : h'.Ok) (hd : Denotes h' v s)
    (hs : Probing.Sound internCap bytesHash (update st.contents i (some s))) :
    Interns.Ok ⟨h', update st.tab i v⟩ where
  heap := hh
  cells j hty := by
    by_cases hj : j = i
    · rw [hj]
      exact ⟨s, by show Denotes h' (update st.tab i v i) s; rw [update_self]; exact hd⟩
    · have heq : update st.tab i v j = st.tab j := update_of_ne hj _ _
      obtain ⟨t, ht⟩ := hok.cells j (heq ▸ hty)
      exact ⟨t, by show Denotes h' (update st.tab i v j) t; rw [heq]; exact ht.mono hle⟩
  sound := by
    rw [hok.contents_put hle hd]
    exact hs

/-- **What interning does with a long string.** -/
theorem strIntern_cases (hok : st.Ok) (hlong : 7 < s.length) :
    (∃ i < internCap, st.contents i = some s ∧ strIntern st s = some (st, st.tab i)) ∨
    (∃ i < internCap, st.contents i = none ∧
      Probing.Sound internCap bytesHash (update st.contents i (some s)) ∧
      strIntern st s = (strNew st.heap s).map fun hv => (⟨hv.1, update st.tab i hv.2⟩, hv.2)) ∨
    (∀ i < internCap, st.contents i ≠ none ∧ st.contents i ≠ some s) ∧
      strIntern st s = (strNew st.heap s).map fun hv => (⟨hv.1, st.tab⟩, hv.2) := by
  rw [strIntern, if_neg (Nat.not_le.mpr hlong)]
  rcases hok.sound.probe_cases s with ⟨i, hi, hp, hx⟩ | ⟨i, hi, hp, hx, -, hs⟩ | ⟨hp, hall⟩
  · exact .inl ⟨i, hi, hx, by rw [hp]⟩
  · exact .inr (.inl ⟨i, hi, hx, hs, by rw [hp]⟩)
  · exact .inr (.inr ⟨hall, by rw [hp]⟩)

/-- A long string that is made denotes its bytes. -/
theorem denotes_of_long {h h' : Heap} (hlong : 7 < s.length) (hn : strNew h s = some (h', v)) :
    Denotes h' v s := by
  rw [strNew, if_neg (Nat.not_le.mpr hlong)] at hn
  by_cases hsmall : Small s
  · rw [cell_eq hsmall] at hn
    cases hn
    exact denotes_cell h s
  · rw [cell_none hsmall] at hn
    cases hn

/-- What stays of a table: its heap's strings, and the slots that are taken. -/
structure Interns.Keeps (st st' : Interns) : Prop where
  ok : st'.Ok
  heap : st.heap.Le st'.heap
  slots : ∀ i s, st.contents i = some s → st'.contents i = some s ∧ st'.tab i = st.tab i

theorem Interns.Keeps.refl (hok : st.Ok) : st.Keeps st :=
  ⟨hok, .refl _, fun _ _ hi => ⟨hi, rfl⟩⟩

theorem Interns.Keeps.trans {st'' : Interns} (h1 : st.Keeps st') (h2 : st'.Keeps st'') :
    st.Keeps st'' where
  ok := h2.ok
  heap := h1.heap.trans h2.heap
  slots i s hi := by
    obtain ⟨hc, ht⟩ := h1.slots i s hi
    obtain ⟨hc', ht'⟩ := h2.slots i s hc
    exact ⟨hc', ht'.trans ht⟩

theorem Interns.Ok.keeps_grow (hok : st.Ok) (hle : st.heap.Le h') (hh : h'.Ok) :
    st.Keeps ⟨h', st.tab⟩ where
  ok := hok.grow hle hh
  heap := hle
  slots i s hi := ⟨by rw [hok.contents_grow hle]; exact hi, rfl⟩

/-- **Interning keeps the table**, and a long string is then in it, if it was or there was room. -/
theorem strIntern_keeps (hok : st.Ok) (hi : strIntern st s = some (st', v)) : st.Keeps st' := by
  by_cases hlong : 7 < s.length
  · rcases strIntern_cases hok hlong with ⟨i, -, -, heq⟩ | ⟨i, -, hnone, hs, heq⟩ | ⟨-, heq⟩
    · rw [heq] at hi
      cases hi
      exact .refl hok
    · rw [heq] at hi
      obtain ⟨⟨h', v'⟩, hn, hv⟩ := Option.map_eq_some_iff.mp hi
      cases hv
      obtain ⟨hle, hh⟩ := le_strNew hok.heap hn
      have hd := denotes_of_long hlong hn
      refine ⟨hok.put hle hh hd hs, hle, fun j t hj => ?_⟩
      have hne : j ≠ i := by
        rintro rfl
        rw [hnone] at hj
        cases hj
      refine ⟨?_, update_of_ne hne _ _⟩
      rw [hok.contents_put hle hd, update_of_ne hne]
      exact hj
    · rw [heq] at hi
      obtain ⟨⟨h', v'⟩, hn, hv⟩ := Option.map_eq_some_iff.mp hi
      cases hv
      obtain ⟨hle, hh⟩ := le_strNew hok.heap hn
      exact hok.keeps_grow hle hh
  · rw [strIntern, if_pos (Nat.not_lt.mp hlong)] at hi
    cases hi
    exact .refl hok

theorem Later.keeps (hok : st.Ok) (hl : Later st st') : st.Keeps st' := by
  induction hl with
  | refl => exact .refl hok
  | intern _ hi ih => exact ih.trans (strIntern_keeps ih.ok hi)
  | grow _ hle hh ih => exact ih.trans (ih.ok.keeps_grow hle hh)

/-- **An interned string denotes its bytes.** -/
theorem strIntern_denotes (hok : st.Ok) (hclean : Clean s) (hsmall : Small s) :
    ∃ st' v, strIntern st s = some (st', v) ∧ Denotes st'.heap v s := by
  by_cases hlong : 7 < s.length
  · obtain ⟨h', v, hn, hd⟩ := (strNew_iff st.heap s).mpr ⟨hclean, hsmall⟩
    rcases strIntern_cases hok hlong with ⟨i, -, hc, heq⟩ | ⟨i, -, -, -, heq⟩ | ⟨-, heq⟩
    · exact ⟨st, _, heq, hok.denotes hc⟩
    · exact ⟨_, v, by rw [heq, hn]; rfl, hd⟩
    · exact ⟨_, v, by rw [heq, hn]; rfl, hd⟩
  · have hle := Nat.not_lt.mp hlong
    exact ⟨st, _, by rw [strIntern, if_pos hle], (denotes_inlineString hle).mpr (hclean hle)⟩

/-- There is room in the table for a string, or it is there. -/
def Interns.Room (st : Interns) (s : Bytes) : Prop :=
  ∃ i < internCap, st.contents i = some s ∨ st.contents i = none

/-- **A string of the table is interned to one value.** -/
theorem strIntern_same (hok : st.Ok) (hroom : 7 < s.length → st.Room s) {st₁ st₂ st₃ : Interns}
    {x y : JaclVal} (h1 : strIntern st s = some (st₁, x)) (hl : Later st₁ st₂)
    (h2 : strIntern st₂ s = some (st₃, y)) : x = y := by
  by_cases hlong : 7 < s.length
  · have hok1 := (strIntern_keeps hok h1).ok
    -- It is at one place of the table from now on.
    have hin : ∃ i < internCap, st₁.contents i = some s ∧ st₁.tab i = x := by
      rcases strIntern_cases hok hlong with ⟨i, hi, hc, heq⟩ | ⟨i, hi, -, hs, heq⟩ | ⟨hall, heq⟩
      · rw [heq] at h1
        cases h1
        exact ⟨i, hi, hc, rfl⟩
      · rw [heq] at h1
        obtain ⟨⟨h', v⟩, hn, hv⟩ := Option.map_eq_some_iff.mp h1
        cases hv
        obtain ⟨hle, -⟩ := le_strNew hok.heap hn
        refine ⟨i, hi, ?_, update_self _ _ _⟩
        rw [hok.contents_put hle (denotes_of_long hlong hn), update_self]
      · obtain ⟨i, hi, hc | hc⟩ := hroom hlong
        · exact absurd hc (hall i hi).2
        · exact absurd hc (hall i hi).1
    obtain ⟨i, hi, hc, hx⟩ := hin
    have hk := hl.keeps hok1
    obtain ⟨hc2, ht2⟩ := hk.slots i s hc
    rcases strIntern_cases hk.ok hlong with ⟨j, hj, hcj, heq⟩ | ⟨j, hj, hnone, hs, -⟩ | ⟨hall, -⟩
    · rw [heq] at h2
      cases h2
      rw [← hk.ok.sound.unique i j s hi hj hc2 hcj, ht2, hx]
    · have hne : i ≠ j := by
        rintro rfl
        rw [hnone] at hc2
        cases hc2
      refine absurd (hs.unique i j s hi hj ?_ (update_self _ _ _)) hne
      rw [update_of_ne hne]
      exact hc2
    · exact absurd hc2 (hall i hi).2
  · rw [strIntern, if_pos (Nat.not_lt.mp hlong)] at h1 h2
    cases h1
    cases h2
    rfl

/-- A full table gives a new cell each time. -/
theorem strIntern_new (hok : st.Ok) (hlong : 7 < s.length) (hsmall : Small s) (hfull : ¬st.Room s) :
    ∃ st₁ x st₂ y, strIntern st s = some (st₁, x) ∧ strIntern st₁ s = some (st₂, y) ∧ x ≠ y := by
  have hnew : ∀ {st : Interns}, st.Ok → ¬st.Room s → strIntern st s =
      some (⟨(st.heap.alloc (.str s)).1, st.tab⟩, plain 0x05 st.heap.next) := by
    intro st hok hfull
    rcases strIntern_cases hok hlong with ⟨i, hi, hc, -⟩ | ⟨i, hi, hc, -, -⟩ | ⟨-, heq⟩
    · exact absurd ⟨i, hi, .inl hc⟩ hfull
    · exact absurd ⟨i, hi, .inr hc⟩ hfull
    · rw [heq, strNew, if_neg (Nat.not_le.mpr hlong), cell_eq hsmall]
      rfl
  have h1 := hnew hok hfull
  have hle := Heap.le_alloc hok.heap (.str s)
  have hok1 := hok.grow hle (Heap.ok_alloc hok.heap (.str s))
  have hfull1 : ¬Interns.Room ⟨(st.heap.alloc (.str s)).1, st.tab⟩ s := by
    rw [Interns.Room, hok.contents_grow hle]
    exact hfull
  refine ⟨_, _, _, _, h1, hnew hok1 hfull1, fun heq => ?_⟩
  have hp : st.heap.next = st.heap.next + 16 := congrArg JaclVal.payload heq
  omega

/-- **What the operations owe two strings**: their values have their lengths and bytes, and so have
the strings that are made of them; they are equal, and interned to one value however much later, just
if their bytes are the same. -/
def Lawful (ts : Heap → JaclVal → Heap × JaclVal) (st : Interns) (s t : Bytes) (lo hi : BitVec 32) :
    Prop :=
  (∃ h₁ a, strNew st.heap s = some (h₁, a) ∧ Denotes h₁ a s ∧
    ∃ h₂ b, strNew h₁ t = some (h₂, b) ∧ Denotes h₂ b t ∧
      (∃ h₃ c, strConcat ts h₂ a b = some (h₃, c) ∧ Denotes h₃ c (s ++ t)) ∧
      (∃ h₃ c, strSlice h₂ a (i32 lo.toInt) (i32 hi.toInt) = some (h₃, c) ∧
        Denotes h₃ c (sub s lo.toInt hi.toInt)) ∧
      (strEq h₂ a b = true ↔ s = t) ∧ (strEq h₂ a b = true → strHash h₂ a = strHash h₂ b)) ∧
  ∃ st₁ x, strIntern st s = some (st₁, x) ∧ Denotes st₁.heap x s ∧
    ∀ st₂, Later st₁ st₂ → ∃ st₃ y, strIntern st₂ t = some (st₃, y) ∧ Denotes st₃.heap y t ∧
      (x = y ↔ s = t)

/-- **When they give it**: no short string has a NUL, no length wraps, and a long string that is
interned again found room. -/
structure Serves (st : Interns) (s t : Bytes) (lo hi : BitVec 32) : Prop where
  clean : Clean s
  clean' : Clean t
  cleanSub : Clean (sub s lo.toInt hi.toInt)
  small : Small s
  small' : Small t
  smalls : Small (s ++ t)
  signed : s.length < 2 ^ 31 ∨ sub s lo.toInt hi.toInt = []
  room : 7 < s.length → s = t → st.Room s

theorem strEq_iff {h : Heap} {a b : JaclVal} (ha : Denotes h a s) (hb : Denotes h b t) :
    strEq h a b = true ↔ s = t := by
  constructor
  · intro heq
    have := strBytes_eq_of_strEq heq
    rw [ha.bytes, hb.bytes] at this
    exact Option.some.inj this
  · rintro rfl
    exact strEq_of_bytes ha.bytes hb.bytes

/-- **Strings denote byte sequences**, in every state that the program can come to, just when `Serves`. -/
theorem strings_denote (ts : Heap → JaclVal → Heap × JaclVal) {h : Heap} (hh : h.Ok)
    (hl : Later (.init h) st) (s t : Bytes) (lo hi : BitVec 32) :
    Lawful ts st s t lo hi ↔ Serves st s t lo hi := by
  have hok := (hl.keeps (Interns.ok_init hh)).ok
  constructor
  · rintro ⟨⟨h₁, a, hn, ha, h₂, b, hn', hb, hcat, hslice, -, -⟩, st₁, x, hx, -, hlater⟩
    obtain ⟨hclean, hsmall⟩ := (strNew_iff _ s).mp ⟨h₁, a, hn, ha⟩
    obtain ⟨hclean', hsmall'⟩ := (strNew_iff _ t).mp ⟨h₂, b, hn', hb⟩
    obtain ⟨hle, hok₁⟩ := le_strNew hok.heap hn
    have ha₂ := ha.mono (le_strNew hok₁ hn').1
    obtain ⟨hcleanSub, hsigned⟩ := (strSlice_iff ha₂ lo hi hsmall).mp hslice
    refine ⟨hclean, hclean', hcleanSub, hsmall, hsmall',
      (strConcat_iff ts ha₂ hb hclean hclean').mp hcat, hsigned, fun hlong heq => ?_⟩
    subst heq
    by_contra hfull
    obtain ⟨st₁', x', st₂, y', hx', hy', hne⟩ := strIntern_new hok hlong hsmall hfull
    rw [hx] at hx'
    cases hx'
    obtain ⟨st₃, y, hy, -, hiff⟩ := hlater st₁ .refl
    rw [hy] at hy'
    cases hy'
    exact hne (hiff.mpr rfl)
  · intro hs
    obtain ⟨h₁, a, hn, ha⟩ := (strNew_iff st.heap s).mpr ⟨hs.clean, hs.small⟩
    obtain ⟨h₂, b, hn', hb⟩ := (strNew_iff h₁ t).mpr ⟨hs.clean', hs.small'⟩
    obtain ⟨hle, hok₁⟩ := le_strNew hok.heap hn
    have ha₂ := ha.mono (le_strNew hok₁ hn').1
    refine ⟨⟨h₁, a, hn, ha, h₂, b, hn', hb, (strConcat_iff ts ha₂ hb hs.clean hs.clean').mpr hs.smalls,
      (strSlice_iff ha₂ lo hi hs.small).mpr ⟨hs.cleanSub, hs.signed⟩, strEq_iff ha₂ hb, fun heq => ?_⟩, ?_⟩
    · rw [strHash, strHash, strBytes_eq_of_strEq heq]
    · obtain ⟨st₁, x, hx, hdx⟩ := strIntern_denotes hok hs.clean hs.small
      refine ⟨st₁, x, hx, hdx, fun st₂ hl₂ => ?_⟩
      have hk := hl₂.keeps (strIntern_keeps hok hx).ok
      obtain ⟨st₃, y, hy, hdy⟩ := strIntern_denotes hk.ok hs.clean' hs.small'
      refine ⟨st₃, y, hy, hdy, fun hxy => ?_, fun heq => ?_⟩
      · have hdx₃ := (hdx.mono hk.heap).mono (strIntern_keeps hk.ok hy).heap
        exact hdx₃.unique (hxy ▸ hdy)
      · subst heq
        exact strIntern_same hok (fun hlong => hs.room hlong rfl) hx hl₂ hy

theorem ok_empty : Heap.Ok ⟨fun _ => none, 16⟩ := ⟨by decide, fun _ _ => rfl⟩

/-- `ab` and `a longer string`. -/
theorem strings_denote_plain : Lawful (fun h v => (h, v)) (.init ⟨fun _ => none, 16⟩) [97#8, 98#8]
    ("a longer string".toList.map fun c => BitVec.ofNat 8 c.toNat) 0#32 1#32 := by
  refine (strings_denote _ ok_empty .refl _ _ _ _).mpr
    ⟨by decide, by decide, by decide, ?_, ?_, ?_, .inl (by decide), fun h => absurd h (by decide)⟩ <;>
  · unfold Small
    decide

/-- `a`, NUL: a string of one byte. -/
theorem not_strings_denote : ¬Lawful (fun h v => (h, v)) (.init ⟨fun _ => none, 16⟩) [97#8, 0#8] []
    0#32 0#32 := by
  rintro ⟨⟨h₁, a, hn, ha, -⟩, -⟩
  have hclean := ((strNew_iff _ _).mp ⟨h₁, a, hn, ha⟩).1
  exact hclean (by decide) (by decide)

end Jacl.Strings
