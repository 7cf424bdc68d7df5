import Jacl.NfdForms

/-!
# When a text is normalised

A text that neither fits the buffer nor has short segments loses marks.  Normalising again
comes to the same question about the decomposition, whose ASCII codepoints come sooner than
those of the text.
-/

namespace Jacl.Nfd
open Utf8

/-- The text fits the buffer, or its segments are short. -/
def Handled (T : Tables) (cps : List Nat) : Prop := Fits T cps ∨ Short T cps

/-- What a caller gets: the bytes, with a buffer of the length that is given without one. -/
def output (T : Tables) (src : List Byte) : List Byte := (nfd T src (nfdLength T src)).dst

/-- **The text is normalised**: to the canonical form, which is as long as is said without a buffer,
passes the quick check, and stays when it is normalised again. -/
structure Normalizes (T : Tables) (cps : List Nat) : Prop where
  form : output T (encodeAll cps) = encodeAll (canonicalForm T cps)
  length : ∀ dstCap, nfdLength T (encodeAll cps) ≤ dstCap → nfd T (encodeAll cps) dstCap =
    ⟨0, output T (encodeAll cps), (output T (encodeAll cps)).length⟩
  check : isNfd T (output T (encodeAll cps)) = true
  again : output T (output T (encodeAll cps)) = output T (encodeAll cps)

variable {T : Tables} {cps : List Nat} {dstCap : Nat}

theorem nfdBuffer_encodeAll (hT : T.Unicode) (hcps : ∀ cp ∈ cps, Scalar cp) :
    (Fits T cps → nfdBuffer T (encodeAll cps) dstCap =
      some (finish dstCap (emit dstCap (canonicalForm T cps) ([], 0)))) ∧
    (¬ Fits T cps → nfdBuffer T (encodeAll cps) dstCap = none) := by
  have hfits : FitsAfter T 0 cps ↔ Fits T cps := by
    simp only [FitsAfter, Fits, Nat.zero_add]
  obtain ⟨hyes, hno⟩ := @fillBuffer_encodeAll T cps _ hT [] hcps (Nat.le_refl _) (by decide)
  refine ⟨fun h => ?_, fun h => ?_⟩
  · rw [nfdBuffer, hyes (hfits.mpr h), Option.map_some, List.nil_append, canonicalForm_eq]
  · rw [nfdBuffer, hno fun hf => h (hfits.mp hf), Option.map_none]

theorem nfdSegments_encodeAll (hT : T.Unicode) (hcps : ∀ cp ∈ cps, Scalar cp) :
    nfdSegments T (encodeAll cps) dstCap =
      finish dstCap (emit dstCap (segmented T cps.length cps) ([], 0)) := by
  rw [nfdSegments, segments_encodeAll hT hcps (Nat.le_refl _) (Nat.le_refl _)]

theorem length_canonicalForm :
    (encodeAll (canonicalForm T cps)).length = (encodeAll (decomposed T cps)).length := by
  rw [canonicalForm_eq]
  exact length_encodeAll_perm canonicalOrder_perm

/-- **A text that is handled** comes to its canonical form. -/
theorem nfd_of_handled (hT : T.Unicode) (hcps : ∀ cp ∈ cps, Scalar cp) (h : Handled T cps) :
    nfd T (encodeAll cps) dstCap = finish dstCap (emit dstCap (canonicalForm T cps) ([], 0)) := by
  obtain ⟨hyes, hno⟩ := @nfdBuffer_encodeAll T cps dstCap hT hcps
  by_cases hfits : Fits T cps
  · rw [nfd, hyes hfits]
  · rw [nfd, hno hfits, canonicalForm_eq, ← segmented_of_short hT (Nat.le_refl _) (h.resolve_left hfits)]
    exact nfdSegments_encodeAll hT hcps

theorem nfdLength_of_handled (hT : T.Unicode) (hcps : ∀ cp ∈ cps, Scalar cp) (h : Handled T cps) :
    nfdLength T (encodeAll cps) = (encodeAll (canonicalForm T cps)).length := by
  rw [nfdLength, nfd_of_handled hT hcps h]
  exact finish_emit.1

theorem output_of_handled (hT : T.Unicode) (hcps : ∀ cp ∈ cps, Scalar cp) (h : Handled T cps) :
    output T (encodeAll cps) = encodeAll (canonicalForm T cps) := by
  rw [output, nfd_of_handled hT hcps h, nfdLength_of_handled hT hcps h, finish_emit.2 (Nat.le_refl _)]

/-- **A text that is not handled** loses bytes. -/
theorem nfdLength_of_not_handled (hT : T.Unicode) (hcps : ∀ cp ∈ cps, Scalar cp) (h : ¬ Handled T cps) :
    nfdLength T (encodeAll cps) < (encodeAll (canonicalForm T cps)).length ∧
      (output T (encodeAll cps)).length = nfdLength T (encodeAll cps) := by
  obtain ⟨hfits, hshort⟩ := not_or.mp h
  have hnfd : ∀ dstCap, nfd T (encodeAll cps) dstCap =
      finish dstCap (emit dstCap (segmented T cps.length cps) ([], 0)) := by
    intro dstCap
    rw [nfd, (@nfdBuffer_encodeAll T cps dstCap hT hcps).2 hfits]
    exact nfdSegments_encodeAll hT hcps
  have hlen : nfdLength T (encodeAll cps) = (encodeAll (segmented T cps.length cps)).length := by
    rw [nfdLength, hnfd]
    exact finish_emit.1
  obtain ⟨hle, heq⟩ := length_segmented hT hcps (Nat.le_refl _)
  refine ⟨?_, ?_⟩
  · rw [hlen, length_canonicalForm]
    exact Nat.lt_of_le_of_ne hle fun hsame => hshort (heq hsame)
  · rw [output, hnfd, hlen, finish_emit.2 (Nat.le_refl _)]

theorem Normalizes.handled (h : Normalizes T cps) (hT : T.Unicode) (hcps : ∀ cp ∈ cps, Scalar cp) :
    Handled T cps := by
  by_contra hno
  obtain ⟨hlt, hlen⟩ := nfdLength_of_not_handled hT hcps hno
  rw [h.form] at hlen
  omega

/-! ### Normalising again -/

theorem canonicalForm_mem (hT : T.Unicode) (hcps : ∀ cp ∈ cps, Scalar cp) :
    ∀ d ∈ canonicalForm T cps, (T.decomp d = none ∧ ¬ IsHangul d) ∧ Scalar d := by
  intro d hd
  rw [canonicalForm_eq] at hd
  exact hT.full_decomposed hcps d (canonicalOrder_perm.mem_iff.mp hd)

/-- The form is its own. -/
theorem canonicalForm_self (hT : T.Unicode) (hcps : ∀ cp ∈ cps, Scalar cp) :
    canonicalForm T (canonicalForm T cps) = canonicalForm T cps := by
  have hself := decomposed_self fun d hd => (canonicalForm_mem hT hcps d hd).1
  rw [@canonicalForm_eq T (canonicalForm T cps), hself, canonicalForm_eq]
  exact canonicalOrder_ordered canonicalOrder_chain

/-- The form is handled as the decomposition is. -/
theorem handled_canonicalForm (hT : T.Unicode) (hcps : ∀ cp ∈ cps, Scalar cp) :
    Handled T (canonicalForm T cps) ↔ Handled T (decomposed T cps) := by
  have hform := fun d hd => (canonicalForm_mem hT hcps d hd).1
  have hdec := fun d hd => (hT.full_decomposed hcps d hd).1
  have hstarters : (canonicalForm T cps).map (starter T) = (decomposed T cps).map (starter T) := by
    rw [canonicalForm_eq, map_starter_canonicalOrder]
  rw [Handled, Handled, fits_iff_roomFor hT hform, fits_iff_roomFor hT hdec, short_iff_fewMarks hform,
    short_iff_fewMarks hdec, hstarters]

/-- **A text is normalised** exactly when it and its decomposition are handled; and the path of the
segments agrees with that of the buffer exactly when no segment is too long. -/
theorem normalizes_iff (hT : T.Unicode) (hcps : ∀ cp ∈ cps, Scalar cp) :
    (Normalizes T cps ↔ Handled T cps ∧ Handled T (decomposed T cps)) ∧
      ∀ dstCap result, nfdBuffer T (encodeAll cps) dstCap = some result →
        (nfdSegments T (encodeAll cps) dstCap = result ↔ Short T cps) := by
  have hscalar : ∀ d ∈ canonicalForm T cps, Scalar d := fun d hd => (canonicalForm_mem hT hcps d hd).2
  refine ⟨⟨fun h => ?_, ?_⟩, fun dstCap result hresult => ?_⟩
  · refine ⟨h.handled hT hcps, ?_⟩
    by_contra hno
    rw [← handled_canonicalForm hT hcps] at hno
    obtain ⟨hlt, hlen⟩ := nfdLength_of_not_handled hT hscalar hno
    have hagain := h.again
    rw [h.form] at hagain
    rw [canonicalForm_self hT hcps] at hlt
    rw [hagain] at hlen
    omega
  · rintro ⟨h, hdec⟩
    have hout := output_of_handled hT hcps h
    have hform := (handled_canonicalForm hT hcps).mpr hdec
    refine ⟨hout, fun dstCap hcap => ?_, ?_, ?_⟩
    · rw [nfdLength_of_handled hT hcps h] at hcap
      rw [nfd_of_handled hT hcps h, hout, finish_emit.2 hcap]
    · have hchain : (canonicalForm T cps).IsChain (Follows T) := by
        rw [canonicalForm_eq]
        exact canonicalOrder_chain
      rw [hout]
      exact isNfdFrom_encodeAll hT hscalar (fun d hd => (canonicalForm_mem hT hcps d hd).1) hchain
        (fun _ _ => .inr (Nat.zero_le _)) (Nat.le_refl _)
    · rw [hout, output_of_handled hT hscalar hform, canonicalForm_self hT hcps]
  · obtain ⟨hyes, hno⟩ := @nfdBuffer_encodeAll T cps dstCap hT hcps
    have hfits : Fits T cps := by
      by_contra hnot
      rw [hno hnot] at hresult
      cases hresult
    rw [hyes hfits] at hresult
    obtain rfl := Option.some.inj hresult
    rw [nfdSegments_encodeAll hT hcps]
    constructor
    · intro hsame
      have hlen := congrArg Result.outLen hsame
      rw [finish_emit.1, finish_emit.1, length_canonicalForm] at hlen
      exact (length_segmented hT hcps (Nat.le_refl _)).2 hlen
    · intro hshort
      rw [segmented_of_short hT (Nat.le_refl _) hshort, canonicalForm_eq]

/-- The tables as far as the acute accent and its é. -/
def accents : Tables where
  ccc cp := if cp = 0x301 then 230 else 0
  decomp cp := if cp = 0xE9 then some [0x65, 0x301] else none
  qc cp := cp == 0xE9

theorem mem_hangul {cp d : Nat} (hcp : IsHangul cp) (hd : d ∈ decomposeCp T cp) : 0x1100 ≤ d ∧ d < 0x11C3 := by
  obtain ⟨hlo, hhi⟩ := hcp
  rw [decomposeCp, if_pos ⟨hlo, hhi⟩] at hd
  dsimp only at hd
  simp only [sBase, sCount, nCount, tCount] at hlo hhi
  split_ifs at hd
  · simp only [List.mem_cons, List.not_mem_nil, or_false, sBase, nCount, tCount, lBase, vBase, tBase] at hd
    omega
  · simp only [List.mem_cons, List.not_mem_nil, or_false, sBase, nCount, tCount, lBase, vBase] at hd
    omega

theorem mem_accents {cp d : Nat} (hd : d ∈ decomposeCp accents cp) (hcp : ¬ IsHangul cp) :
    d = 0x65 ∨ d = 0x301 ∨ d = cp ∧ cp ≠ 0xE9 := by
  rw [decomposeCp, if_neg hcp] at hd
  simp only [accents] at hd
  split_ifs at hd with h
  · simp only [List.mem_cons, List.not_mem_nil, or_false] at hd
    tauto
  · exact .inr (.inr ⟨List.mem_singleton.mp hd, h⟩)

theorem accents_unicode : accents.Unicode where
  ascii cp h := ⟨if_neg (by omega), if_neg (by omega)⟩
  full cp _ d hd := by
    by_cases hcp : IsHangul cp
    · obtain ⟨hlo, hhi⟩ := mem_hangul hcp hd
      exact ⟨if_neg (by omega), by rw [IsHangul, sBase]; omega⟩
    · rcases mem_accents hd hcp with rfl | rfl | ⟨rfl, hne⟩
      · exact ⟨rfl, by decide⟩
      · exact ⟨rfl, by decide⟩
      · exact ⟨if_neg hne, hcp⟩
  scalar cp hs d hd := by
    by_cases hcp : IsHangul cp
    · obtain ⟨hlo, hhi⟩ := mem_hangul hcp hd
      exact ⟨by omega, by omega⟩
    · rcases mem_accents hd hcp with rfl | rfl | ⟨rfl, -⟩
      · decide
      · decide
      · exact hs
  nonempty cp := by
    rw [decomposeCp]
    split_ifs
    · dsimp only
      split_ifs <;> exact List.cons_ne_nil _ _
    · simp only [accents]
      split_ifs <;> exact List.cons_ne_nil _ _
  check cp _ := by
    simp only [accents, beq_iff_eq]
    split_ifs with h <;> simp [h]

/-- An é. -/
theorem normalizes_iff_acute :
    (Normalizes accents [0xE9] ↔ Handled accents [0xE9] ∧ Handled accents (decomposed accents [0xE9])) ∧
      ∀ dstCap result, nfdBuffer accents (encodeAll [0xE9]) dstCap = some result →
        (nfdSegments accents (encodeAll [0xE9]) dstCap = result ↔ Short accents [0xE9]) :=
  normalizes_iff accents_unicode (by decide)

/-- A letter with 300 accents loses some of them. -/
theorem not_normalizes : ¬ ∀ T cps, Tables.Unicode T → (∀ cp ∈ cps, Scalar cp) → Normalizes T cps := by
  intro h
  have hcps : ∀ cp ∈ (0x61 : Nat) :: List.replicate 300 0x301, Scalar cp ∧
      accents.decomp cp = none ∧ ¬ IsHangul cp := by
    intro cp hcp
    rcases List.mem_cons.mp hcp with rfl | hcp
    · exact ⟨by decide, rfl, by decide⟩
    · rw [List.eq_of_mem_replicate hcp]
      exact ⟨by decide, rfl, by decide⟩
  have hself := decomposed_self fun cp hcp => (hcps cp hcp).2
  rcases (h accents _ accents_unicode fun cp hcp => (hcps cp hcp).1).handled accents_unicode
    fun cp hcp => (hcps cp hcp).1 with hfits | hshort
  · have hlen := hfits.1
    rw [hself, List.length_cons, List.length_replicate] at hlen
    omega
  · have hlen := hshort [] 0x61 (List.replicate 300 0x301) [] (by rw [List.append_nil]; rfl) fun c hc => by
      rw [List.eq_of_mem_replicate hc]
      decide
    rw [hself, List.length_cons, List.length_replicate] at hlen
    omega

end Jacl.Nfd
