import Jacl.Graphemes

/-!
# Where a UTF-8 text can be cut

A byte that is no continuation byte starts a codepoint, so that the offsets that do not point at
a continuation byte are those between codepoints, and both sides of a cut there are UTF-8.
-/

namespace Jacl.Utf8
open Graphemes

variable {cp o : Nat} {cps l r : List Nat} {text text' rest : List Byte}

/-- The byte at `i`, if there is one, is a continuation byte. -/
def continuationAt (text : List Byte) (i : Nat) : Bool := (text[i]?.map isContinuation).getD false

/-- Between two codepoints, or at an end. -/
def Cut (text : List Byte) (o : Nat) : Prop := o ≤ text.length ∧ validate (text.take o) = true

instance : Decidable (Cut text o) := inferInstanceAs (Decidable (_ ∧ _))

/-- The bytes that are no continuation bytes (`utf8_codepoint_count`). -/
def codepointCount (src : List Byte) : Nat := src.countP fun b => !isContinuation b

/-! ### Codepoints and their bytes -/

theorem lead_byte : ∀ b : Byte, codepointLength b ≠ 0 → isContinuation b = false := by
  decide +kernel

/-- A lead byte, and continuation bytes after it. -/
theorem encode_bytes (h : Scalar cp) : ∃ b tail, encode cp = b :: tail ∧
    isContinuation b = false ∧ ∀ c ∈ tail, isContinuation c = true := by
  have hlow := fun x => (tail_byte (x &&& 0x3F) (by rw [low_bits]; omega)).1
  obtain ⟨hmax, hsur⟩ := h
  unfold encode
  split_ifs with h1 h2 h3
  · refine ⟨_, _, rfl, lead_byte _ ?_, (by simp)⟩
    rw [ascii_byte cp h1]
    decide
  · refine ⟨_, _, rfl, lead_byte _ ?_, by simp [hlow]⟩
    rw [(lead_two (cp >>> 6) (by rw [high_bits]; omega)).1]
    decide
  · refine ⟨_, _, rfl, lead_byte _ ?_, by simp [hlow]⟩
    rw [(lead_three (cp >>> 12) (by rw [high_bits]; omega)).1]
    decide
  · refine ⟨_, _, rfl, lead_byte _ ?_, by simp [hlow]⟩
    rw [(lead_four (cp >>> 18) (by rw [high_bits]; omega)).1]
    decide

theorem codepointCount_append : codepointCount (text ++ text') =
    codepointCount text + codepointCount text' := List.countP_append

/-- **One of the bytes of a codepoint is none of its continuation bytes.** -/
theorem codepointCount_encodeAll (h : ∀ c ∈ cps, Scalar c) :
    codepointCount (encodeAll cps) = cps.length := by
  induction cps with
  | nil => rfl
  | cons cp cps ih =>
    obtain ⟨b, tail, hb, hlead, htail⟩ := encode_bytes (h cp List.mem_cons_self)
    have hzero : tail.countP (fun c => !isContinuation c) = 0 :=
      List.countP_eq_zero.mpr fun c hc => by simp [htail c hc]
    rw [encodeAll_cons, codepointCount_append, ih fun c hc => h c (List.mem_cons_of_mem _ hc), hb,
      codepointCount, List.countP_cons_of_pos (by rw [hlead]; rfl), hzero, List.length_cons]
    omega

/-- A text is that of one sequence only. -/
theorem prefix_of_encodeAll (hl : ∀ c ∈ l, Scalar c) (h : ∀ c ∈ cps, Scalar c)
    (heq : encodeAll l ++ rest = encodeAll cps) : ∃ r, cps = l ++ r ∧ rest = encodeAll r := by
  induction l generalizing cps with
  | nil => exact ⟨cps, rfl, heq⟩
  | cons cp l ih =>
    have hcp := hl cp List.mem_cons_self
    rw [encodeAll_cons, List.append_assoc] at heq
    cases cps with
    | nil =>
      have hlen := congrArg List.length heq
      have := encode_length_pos hcp
      rw [List.length_append, encodeAll_nil, List.length_nil] at hlen
      omega
    | cons cp' cps =>
      have hfront := congrArg decode heq
      rw [encodeAll_cons, decode_encode hcp, decode_encode (h cp' List.mem_cons_self)] at hfront
      obtain rfl := (Prod.mk.inj (Option.some.inj hfront)).1
      rw [encodeAll_cons, List.append_cancel_left_eq] at heq
      obtain ⟨r, rfl, hr⟩ := ih (fun c hc => hl c (List.mem_cons_of_mem _ hc))
        (fun c hc => h c (List.mem_cons_of_mem _ hc)) heq
      exact ⟨r, rfl, hr⟩

/-! ### Cuts -/

theorem continuationAt_append : continuationAt (text ++ text') (text.length + o) =
    continuationAt text' o := by
  rw [continuationAt, List.getElem?_append_right (Nat.le_add_right _ _), Nat.add_sub_cancel_left,
    continuationAt]

/-- No codepoint goes on at the start of another, nor at the end. -/
theorem continuationAt_offset (h : ∀ c ∈ r, Scalar c) :
    continuationAt (encodeAll (l ++ r)) (offset l) = false := by
  have hat := @continuationAt_append 0 (encodeAll l) (encodeAll r)
  rw [Nat.add_zero, length_encodeAll, ← encodeAll_append] at hat
  rw [hat]
  cases r with
  | nil => rfl
  | cons cp r =>
    obtain ⟨b, tail, hb, hlead, -⟩ := encode_bytes (h cp List.mem_cons_self)
    rw [encodeAll_cons, hb]
    exact hlead

theorem exists_cut (h : ∀ c ∈ cps, Scalar c) (ho : o ≤ (encodeAll cps).length)
    (hat : continuationAt (encodeAll cps) o = false) : ∃ l r, cps = l ++ r ∧ offset l = o := by
  induction cps generalizing o with
  | nil => exact ⟨[], [], rfl, (Nat.le_zero.mp ho).symm⟩
  | cons cp cps ih =>
    rcases Nat.eq_zero_or_pos o with rfl | hpos
    · exact ⟨[], cp :: cps, rfl, rfl⟩
    obtain ⟨b, tail, hb, hlead, htail⟩ := encode_bytes (h cp List.mem_cons_self)
    rw [encodeAll_cons] at ho hat
    by_cases hin : o < (encode cp).length
    · -- inside of `cp`, where all bytes go on
      obtain ⟨o, rfl⟩ := Nat.exists_eq_succ_of_ne_zero (Nat.ne_of_gt hpos)
      rw [hb, List.length_cons] at hin
      have hlt : o < tail.length := Nat.lt_of_succ_lt_succ hin
      rw [continuationAt, List.getElem?_append_left (by rw [hb]; exact hin), hb,
        List.getElem?_cons_succ, List.getElem?_eq_getElem hlt] at hat
      have hcont := htail _ (List.getElem_mem hlt)
      rw [Option.map_some, Option.getD_some, hcont] at hat
      cases hat
    · rw [List.length_append] at ho
      obtain ⟨l, r, rfl, hl⟩ := ih (o := o - (encode cp).length)
        (fun c hc => h c (List.mem_cons_of_mem _ hc)) (by omega)
        (by
          rw [← hat, ← @continuationAt_append (o - (encode cp).length) (encode cp),
            Nat.add_sub_cancel' (Nat.le_of_not_lt hin)])
      exact ⟨cp :: l, r, rfl, by rw [offset_cons, hl]; omega⟩

theorem validate_encodeAll (h : ∀ c ∈ cps, Scalar c) : validate (encodeAll cps) = true :=
  validate_iff.mpr ⟨cps, h, rfl⟩

theorem validate_append (h : validate text = true) (h' : validate text' = true) :
    validate (text ++ text') = true := by
  obtain ⟨cps, hcps, rfl⟩ := validate_iff.mp h
  obtain ⟨cps', hcps', rfl⟩ := validate_iff.mp h'
  rw [← encodeAll_append]
  refine validate_encodeAll fun c hc => ?_
  obtain hc | hc := List.mem_append.mp hc
  · exact hcps c hc
  · exact hcps' c hc

/-- A cut of a text that is UTF-8 goes between two sequences of codepoints. -/
theorem cut_iff_exists (h : ∀ c ∈ cps, Scalar c) :
    Cut (encodeAll cps) o ↔ ∃ l r, cps = l ++ r ∧ offset l = o := by
  constructor
  · rintro ⟨ho, hval⟩
    obtain ⟨l, hl, htake⟩ := validate_iff.mp hval
    obtain ⟨r, rfl, -⟩ := @prefix_of_encodeAll cps l ((encodeAll cps).drop o) hl h
      (by rw [← htake, List.take_append_drop])
    have hlen := congrArg List.length htake
    rw [List.length_take, Nat.min_eq_left ho, length_encodeAll] at hlen
    exact ⟨l, r, rfl, hlen.symm⟩
  · rintro ⟨l, r, rfl, rfl⟩
    refine ⟨by rw [length_encodeAll, offset_append]; omega, ?_⟩
    rw [encodeAll_append, ← length_encodeAll, List.take_left]
    exact validate_encodeAll fun c hc => h c (List.mem_append_left _ hc)

/-- **What the code tests**: that the byte there does not go on. -/
theorem cut_iff (h : validate text = true) :
    Cut text o ↔ o ≤ text.length ∧ continuationAt text o = false := by
  obtain ⟨cps, hcps, rfl⟩ := validate_iff.mp h
  rw [cut_iff_exists hcps]
  constructor
  · rintro ⟨l, r, rfl, rfl⟩
    refine ⟨by rw [length_encodeAll, offset_append]; omega, ?_⟩
    exact continuationAt_offset fun c hc => hcps c (List.mem_append_right _ hc)
  · rintro ⟨ho, hat⟩
    exact exists_cut hcps ho hat

theorem Cut.drop (h : validate text = true) (hc : Cut text o) : validate (text.drop o) = true := by
  obtain ⟨cps, hcps, rfl⟩ := validate_iff.mp h
  obtain ⟨l, r, rfl, rfl⟩ := (cut_iff_exists hcps).mp hc
  rw [drop_encodeAll]
  exact validate_encodeAll fun c hc => hcps c (List.mem_append_right _ hc)

theorem cut_take {i : Nat} (hc : Cut text o) (hle : o ≤ i) : Cut (text.take i) o := by
  refine ⟨?_, by rw [List.take_take, Nat.min_eq_left hle]; exact hc.2⟩
  rw [List.length_take]
  have := hc.1
  omega

/-- What lies between two cuts is UTF-8. -/
theorem validate_between {i : Nat} (ho : Cut text o) (hi : Cut text i) (hle : o ≤ i) :
    validate ((text.drop o).take (i - o)) = true := by
  have hpart := (cut_take ho hle).drop hi.2
  rwa [List.drop_take] at hpart

/-- Past a codepoint there is a cut. -/
theorem Cut.next {n : Nat} (h : validate text = true) (hc : Cut text o)
    (hdec : decode (text.drop o) = some (cp, n)) : Cut text (o + n) := by
  obtain ⟨cps, hcps, rfl⟩ := validate_iff.mp h
  obtain ⟨l, r, rfl, rfl⟩ := (cut_iff_exists hcps).mp hc
  rw [drop_encodeAll] at hdec
  cases r with
  | nil => cases hdec
  | cons c r =>
    rw [encodeAll_cons, decode_encode (hcps c (by simp))] at hdec
    obtain ⟨rfl, rfl⟩ := Prod.mk.inj (Option.some.inj hdec)
    refine (cut_iff_exists hcps).mpr ⟨l ++ [c], r, by simp, ?_⟩
    rw [offset_append, offset_cons, offset_nil, Nat.add_zero]

/-- No codepoint starts with a continuation byte. -/
theorem decode_continuation (hat : continuationAt text o = true) : decode (text.drop o) = none := by
  rw [continuationAt] at hat
  cases hget : text[o]? with
  | none =>
    rw [hget] at hat
    cases hat
  | some b =>
    rw [hget, Option.map_some, Option.getD_some] at hat
    have hzero : codepointLength b = 0 := by
      by_contra h0
      rw [lead_byte b h0] at hat
      cases hat
    obtain ⟨hlt, hb⟩ := List.getElem?_eq_some_iff.mp hget
    rw [List.drop_eq_getElem_cons hlt, hb]
    unfold decode
    dsimp only
    rw [hzero]
    rcases text.drop (o + 1) with _ | ⟨b1, _ | ⟨b2, _ | ⟨b3, tail⟩⟩⟩ <;> rfl

/-- A codepoint has at most four bytes. -/
theorem exists_cut_near (h : validate text = true) (ho : o ≤ text.length) :
    ∃ q, o ≤ q ∧ q ≤ o + 3 ∧ Cut text q := by
  obtain ⟨cps, hcps, rfl⟩ := validate_iff.mp h
  have key : ∃ l r, cps = l ++ r ∧ o ≤ offset l ∧ offset l ≤ o + 3 := by
    clear h
    induction cps generalizing o with
    | nil => exact ⟨[], [], rfl, ho, Nat.zero_le _⟩
    | cons cp cps ih =>
      rcases Nat.eq_zero_or_pos o with rfl | hpos
      · exact ⟨[], cp :: cps, rfl, Nat.le_refl _, Nat.zero_le _⟩
      have hcp := @encode_length_le cp
      rw [encodeAll_cons, List.length_append] at ho
      by_cases hin : o ≤ (encode cp).length
      · refine ⟨[cp], cps, rfl, ?_, ?_⟩
        · rw [offset_cons, offset_nil]
          exact hin
        · rw [offset_cons, offset_nil]
          omega
      · obtain ⟨l, r, rfl, hle, hge⟩ := @ih (o - (encode cp).length)
          (fun c hc => hcps c (List.mem_cons_of_mem _ hc)) (by omega)
        refine ⟨cp :: l, r, rfl, ?_, ?_⟩
        · rw [offset_cons]
          omega
        · rw [offset_cons]
          omega
  obtain ⟨l, r, rfl, hle, hge⟩ := key
  exact ⟨offset l, hle, hge, (cut_iff_exists hcps).mpr ⟨l, r, rfl, rfl⟩⟩

theorem cut_zero : Cut text 0 := ⟨Nat.zero_le _, rfl⟩

theorem cut_length (h : validate text = true) : Cut text text.length :=
  ⟨Nat.le_refl _, by rw [List.take_length]; exact h⟩

end Jacl.Utf8
