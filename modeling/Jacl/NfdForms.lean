import Jacl.NfdOrder

/-!
# What the normalisation makes

Both paths of `nfd` on the text of a sequence of codepoints: the buffer's makes the canonical
form where the text fits it, the segments' where no segment is cut short.
-/

namespace Jacl.Nfd
open Utf8

/-- The text fits the buffer: 255 codepoints, of which none of ASCII is the 240th or later. -/
def Fits (T : Tables) (cps : List Nat) : Prop :=
  (decomposed T cps).length < 256 ∧
    ∀ l cp r, cps = l ++ cp :: r → cp < 0x80 → (decomposed T l).length < 239

/-- A codepoint that goes with the segment before it. -/
def trailing (T : Tables) (cp : Nat) : Bool :=
  match decomposeCp T cp with
  | [] => true
  | first :: _ => T.ccc first != 0

/-- No segment has more than 128 codepoints. -/
def Short (T : Tables) (cps : List Nat) : Prop :=
  ∀ l cp w r, cps = l ++ cp :: (w ++ r) → (∀ c ∈ w, trailing T c = true) →
    (decomposed T (cp :: w)).length ≤ 128

/-- What the path of the segments makes of a text. -/
def segmented (T : Tables) : Nat → List Nat → List Nat
  | 0, _ => []
  | _, [] => []
  | fuel + 1, cp :: cps =>
    canonicalOrder T ((decomposed T (cp :: cps.takeWhile (trailing T))).take 128) ++
      segmented T fuel (cps.dropWhile (trailing T))

variable {T : Tables} {cps A B w l r : List Nat} {cp fuel n dstCap total lastCcc : Nat}
  {dst src : List Byte}

@[simp] theorem decomposed_nil : decomposed T [] = [] := rfl

@[simp] theorem decomposed_cons : decomposed T (cp :: cps) = decomposeCp T cp ++ decomposed T cps := rfl

@[simp] theorem decomposed_append : decomposed T (A ++ B) = decomposed T A ++ decomposed T B :=
  List.flatMap_append

theorem Tables.Unicode.decomposeCp_ascii (hT : T.Unicode) (h : cp < 0x80) : decomposeCp T cp = [cp] := by
  have hno : ¬ IsHangul cp := fun hh => absurd hh.1 (by rw [sBase]; omega)
  rw [decomposeCp, if_neg hno, (hT.ascii cp h).1]

/-- What has no decomposition is its own. -/
theorem decomposeCp_self (h : T.decomp cp = none ∧ ¬ IsHangul cp) : decomposeCp T cp = [cp] := by
  rw [decomposeCp, if_neg h.2, h.1]

theorem decomposed_self (h : ∀ cp ∈ cps, T.decomp cp = none ∧ ¬ IsHangul cp) : decomposed T cps = cps := by
  induction cps with
  | nil => rfl
  | cons cp cps ih =>
    rw [decomposed_cons, decomposeCp_self (h cp List.mem_cons_self),
      ih fun c hc => h c (List.mem_cons_of_mem _ hc)]
    rfl

theorem Tables.Unicode.full_decomposed (hT : T.Unicode) (hcps : ∀ cp ∈ cps, Scalar cp) :
    ∀ d ∈ decomposed T cps, (T.decomp d = none ∧ ¬ IsHangul d) ∧ Scalar d := by
  intro d hd
  obtain ⟨cp, hcp, hmem⟩ := List.mem_flatMap.mp hd
  exact ⟨hT.full cp (hcps cp hcp) d hmem, hT.scalar cp (hcps cp hcp) d hmem⟩

/-! ### Encoding -/

theorem encode_ascii (h : cp < 0x80) : encode cp = [BitVec.ofNat 8 cp] := if_pos h

theorem ofNat_ascii (h : cp < 0x80) : BitVec.ofNat 8 cp < 0x80#8 ∧ (BitVec.ofNat 8 cp).toNat = cp := by
  have hmod : cp % 2 ^ 8 = cp := Nat.mod_eq_of_lt (by omega)
  refine ⟨?_, by rw [BitVec.toNat_ofNat, hmod]⟩
  rw [BitVec.lt_def, BitVec.toNat_ofNat, hmod]
  exact h

/-- The first byte of what is not ASCII. -/
theorem encode_not_ascii (hs : Scalar cp) (h : ¬ cp < 0x80) :
    ∃ b tail, encode cp = b :: tail ∧ ¬ b < 0x80#8 := by
  obtain ⟨b, tail, hbt⟩ := List.exists_cons_of_length_pos (encode_length_pos hs)
  refine ⟨b, tail, hbt, fun hb => h ?_⟩
  have hdecode := @decode_encode cp [] hs
  have hlen : codepointLength b = 1 := if_pos hb
  rw [List.append_nil, hbt] at hdecode
  simp only [decode, hlen] at hdecode
  obtain ⟨rfl, -⟩ := Prod.mk.inj (Option.some.inj hdecode)
  exact hb

/-- The front of a text is its first codepoint. -/
theorem front_encodeAll (hs : Scalar cp) : front (encodeAll (cp :: cps)) = some (cp, (encode cp).length) := by
  by_cases h : cp < 0x80
  · obtain ⟨hb, hnat⟩ := ofNat_ascii h
    rw [encodeAll_cons, encode_ascii h, List.singleton_append, front, if_pos hb, hnat]
    rfl
  · obtain ⟨b, tail, hbt, hb⟩ := encode_not_ascii hs h
    have hdecode := @decode_encode cp (encodeAll cps) hs
    rw [hbt, List.cons_append] at hdecode
    rw [encodeAll_cons, hbt, List.cons_append, front, if_neg hb, hdecode]

theorem length_encodeAll_le (h : ∀ cp ∈ cps, Scalar cp) : cps.length ≤ (encodeAll cps).length := by
  induction cps with
  | nil => exact Nat.le_refl _
  | cons cp cps ih =>
    have hcp := encode_length_pos (h cp List.mem_cons_self)
    have hrest := ih fun c hc => h c (List.mem_cons_of_mem _ hc)
    rw [encodeAll_cons, List.length_append, List.length_cons]
    omega

theorem length_encodeAll_perm (h : A.Perm B) : (encodeAll A).length = (encodeAll B).length :=
  (h.flatMap_right encode).length_eq

theorem emit_append {out : List Byte × Nat} :
    emit dstCap (A ++ B) out = emit dstCap B (emit dstCap A out) := by
  induction A generalizing out with
  | nil => rfl
  | cons cp A ih => exact ih

theorem emit_snd : (emit dstCap cps (dst, total)).2 = total + (encodeAll cps).length := by
  induction cps generalizing dst total with
  | nil => rfl
  | cons cp cps ih =>
    rw [emit, ih, encodeAll_cons, List.length_append, Nat.add_assoc]

theorem emit_fst (h : total + (encodeAll cps).length ≤ dstCap) :
    (emit dstCap cps (dst, total)).1 = dst ++ encodeAll cps := by
  induction cps generalizing dst total with
  | nil => exact (List.append_nil dst).symm
  | cons cp cps ih =>
    rw [encodeAll_cons, List.length_append] at h
    rw [emit, if_pos (by omega), ih (by omega), encodeAll_cons, List.append_assoc]

/-- What is written where there is room, and the length that is given in any case. -/
theorem finish_emit : (finish dstCap (emit dstCap cps ([], 0))).outLen = (encodeAll cps).length ∧
    ((encodeAll cps).length ≤ dstCap → finish dstCap (emit dstCap cps ([], 0)) =
      ⟨0, encodeAll cps, (encodeAll cps).length⟩) := by
  have hsnd := @emit_snd cps dstCap 0 []
  rw [Nat.zero_add] at hsnd
  refine ⟨hsnd, fun h => ?_⟩
  rw [finish, hsnd, if_pos h, emit_fst (by omega)]
  rfl

/-! ### The single buffer -/

/-- The rest of a text fits after `n` codepoints. -/
def FitsAfter (T : Tables) (n : Nat) (cps : List Nat) : Prop :=
  n + (decomposed T cps).length < 256 ∧
    ∀ l cp r, cps = l ++ cp :: r → cp < 0x80 → n + (decomposed T l).length < 239

theorem fitsAfter_cons : FitsAfter T n (cp :: cps) ↔
    (cp < 0x80 → n < 239) ∧ FitsAfter T (n + (decomposeCp T cp).length) cps := by
  constructor
  · rintro ⟨hlen, hascii⟩
    rw [decomposed_cons, List.length_append] at hlen
    refine ⟨fun h => hascii [] cp cps rfl h, by omega, ?_⟩
    rintro l c r rfl hc
    have hrest := hascii (cp :: l) c r rfl hc
    rw [decomposed_cons, List.length_append] at hrest
    omega
  · rintro ⟨hfirst, hlen, hascii⟩
    refine ⟨by rw [decomposed_cons, List.length_append]; omega, ?_⟩
    rintro l c r h hc
    cases l with
    | nil =>
      obtain ⟨rfl, -⟩ := List.cons.inj h
      exact hfirst hc
    | cons d l =>
      obtain ⟨rfl, hrest⟩ := List.cons.inj h
      have hl := hascii l c r hrest hc
      rw [decomposed_cons, List.length_append]
      omega

/-- **The buffer** takes the decomposition of a text that fits, and overflows on any other. -/
theorem fillBuffer_encodeAll (hT : T.Unicode) {buf : List Nat} (hcps : ∀ cp ∈ cps, Scalar cp)
    (hfuel : (encodeAll cps).length ≤ fuel) (hbuf : buf.length < 256) :
    (FitsAfter T buf.length cps → fillBuffer T fuel (encodeAll cps) buf = some (buf ++ decomposed T cps)) ∧
      (¬ FitsAfter T buf.length cps → fillBuffer T fuel (encodeAll cps) buf = none) := by
  induction cps generalizing fuel buf with
  | nil =>
    have hfits : FitsAfter T buf.length [] := by
      refine ⟨hbuf, fun l cp r h => ?_⟩
      cases l <;> cases h
    have hfill : fillBuffer T fuel [] buf = some buf := by cases fuel <;> rfl
    refine ⟨fun _ => ?_, fun h => absurd hfits h⟩
    rw [encodeAll_nil, hfill, decomposed_nil, List.append_nil]
  | cons cp cps ih =>
    have hs : Scalar cp := hcps cp List.mem_cons_self
    have hpos := encode_length_pos hs
    rw [encodeAll_cons, List.length_append] at hfuel
    obtain ⟨fuel, rfl⟩ := Nat.exists_eq_succ_of_ne_zero (show fuel ≠ 0 by omega)
    have ih' := fun buf hbuf => @ih fuel buf (fun c hc => hcps c (List.mem_cons_of_mem _ hc)) (by omega) hbuf
    rw [fitsAfter_cons]
    by_cases h : cp < 0x80
    · obtain ⟨hb, hnat⟩ := ofNat_ascii h
      rw [hT.decomposeCp_ascii h, encodeAll_cons, encode_ascii h, List.singleton_append, fillBuffer, if_pos hb,
        hnat, decomposed_cons, hT.decomposeCp_ascii h, ← List.append_assoc]
      split_ifs with hfull
      · refine ⟨fun hfits => absurd (hfits.1 h) (by omega), fun _ => rfl⟩
      · obtain ⟨hyes, hno⟩ := ih' (buf ++ [cp]) (by rw [List.length_append, List.length_singleton]; omega)
        rw [List.length_append, List.length_singleton] at hyes hno
        refine ⟨fun hfits => hyes hfits.2, fun hfits => hno fun hrest => hfits ⟨fun _ => by omega, hrest⟩⟩
    · obtain ⟨b, tail, hbt, hb⟩ := encode_not_ascii hs h
      have hdecode := @decode_encode cp (encodeAll cps) hs
      have hdrop : (encode cp ++ encodeAll cps).drop (encode cp).length = encodeAll cps := List.drop_left
      rw [hbt, List.cons_append] at hdecode hdrop
      rw [encodeAll_cons, hbt, List.cons_append, fillBuffer, if_neg hb, hdecode]
      dsimp only
      rw [hdrop, decomposed_cons, ← List.append_assoc]
      split_ifs with hfull
      · refine ⟨fun hfits => absurd hfits.2.1 (by omega), fun _ => rfl⟩
      · obtain ⟨hyes, hno⟩ := ih' (buf ++ decomposeCp T cp) (by rw [List.length_append]; omega)
        rw [List.length_append] at hyes hno
        refine ⟨fun hfits => hyes hfits.2, fun hfits => hno fun hrest => hfits ⟨fun hc => absurd hc h, hrest⟩⟩

/-! ### The segments -/

theorem endsBefore_encodeAll (hT : T.Unicode) (hs : Scalar cp) :
    endsBefore T (encodeAll (cp :: cps)) = !trailing T cp := by
  by_cases h : cp < 0x80
  · obtain ⟨hb, -⟩ := ofNat_ascii h
    have hclass : trailing T cp = false := by
      rw [trailing, hT.decomposeCp_ascii h]
      show (T.ccc cp != 0) = false
      rw [(hT.ascii cp h).2]
      rfl
    rw [encodeAll_cons, encode_ascii h, List.singleton_append, endsBefore, if_pos hb, hclass]
    rfl
  · obtain ⟨b, tail, hbt, hb⟩ := encode_not_ascii hs h
    have hdecode := @decode_encode cp (encodeAll cps) hs
    rw [hbt, List.cons_append] at hdecode
    rw [encodeAll_cons, hbt, List.cons_append, endsBefore, if_neg hb, hdecode]
    dsimp only
    rw [trailing]
    cases decomposeCp T cp with
    | nil => rfl
    | cons first rest =>
      show (T.ccc first == 0) = !(T.ccc first != 0)
      rw [bne, Bool.not_not]

/-- One turn of the loop over a segment. -/
theorem collect_succ (hs : Scalar cp) {seg : List Nat} : collect T (fuel + 1) (encodeAll (cp :: cps)) seg =
    if endsBefore T (encodeAll cps) then ((seg ++ decomposeCp T cp).take 128, encodeAll cps)
    else collect T fuel (encodeAll cps) ((seg ++ decomposeCp T cp).take 128) := by
  obtain ⟨b, tail, hbt⟩ := List.exists_cons_of_length_pos (encode_length_pos hs)
  have hfront := @front_encodeAll cps cp hs
  have hdrop : (encodeAll (cp :: cps)).drop (encode cp).length = encodeAll cps := by
    rw [encodeAll_cons, List.drop_left]
  rw [encodeAll_cons, hbt, List.cons_append] at hfront hdrop ⊢
  rw [collect, hfront]
  dsimp only
  rw [hdrop]

/-- **One segment**: a codepoint and those that go with it. -/
theorem collect_encodeAll (hT : T.Unicode) {seg : List Nat} (hcps : ∀ c ∈ cp :: cps, Scalar c)
    (hfuel : (encodeAll (cp :: cps)).length ≤ fuel) :
    collect T fuel (encodeAll (cp :: cps)) seg =
      ((seg ++ decomposed T (cp :: cps.takeWhile (trailing T))).take 128,
        encodeAll (cps.dropWhile (trailing T))) := by
  induction cps generalizing fuel cp seg with
  | nil =>
    have hs : Scalar cp := hcps cp List.mem_cons_self
    have hpos := encode_length_pos hs
    rw [encodeAll_cons, List.length_append] at hfuel
    obtain ⟨fuel, rfl⟩ := Nat.exists_eq_succ_of_ne_zero (show fuel ≠ 0 by omega)
    have hsegment : decomposed T (cp :: [].takeWhile (trailing T)) = decomposeCp T cp := List.append_nil _
    rw [collect_succ hs, hsegment]
    rfl
  | cons c cps ih =>
    have hs : Scalar cp := hcps cp List.mem_cons_self
    have hpos := encode_length_pos hs
    rw [encodeAll_cons, List.length_append] at hfuel
    obtain ⟨fuel, rfl⟩ := Nat.exists_eq_succ_of_ne_zero (show fuel ≠ 0 by omega)
    have hrest : ∀ x ∈ c :: cps, Scalar x := fun x hx => hcps x (List.mem_cons_of_mem _ hx)
    rw [collect_succ hs, endsBefore_encodeAll hT (hrest c List.mem_cons_self)]
    rcases Bool.eq_false_or_eq_true (trailing T c) with hc | hc
    · rw [hc, Bool.not_true, if_neg (by decide), ih hrest (by omega), List.takeWhile_cons_of_pos hc,
        List.dropWhile_cons_of_pos hc, @decomposed_cons T _ cp, ← List.append_assoc]
      congr 1
      -- What a full segment drops, it drops again.
      generalize seg ++ decomposeCp T cp = L
      rw [List.take_append, List.take_append, List.take_take, Nat.min_self, List.length_take]
      congr 2
      omega
    · rw [hc, Bool.not_false, if_pos rfl, List.takeWhile_cons_of_neg (by rw [hc]; decide),
        List.dropWhile_cons_of_neg (by rw [hc]; decide), decomposed_cons, decomposed_nil, List.append_nil]

/-- **The loop over the segments** emits what they make. -/
theorem segments_encodeAll (hT : T.Unicode) {out : List Byte × Nat} {m : Nat} (hcps : ∀ c ∈ cps, Scalar c)
    (hfuel : (encodeAll cps).length ≤ fuel) (hm : cps.length ≤ m) :
    segments T dstCap fuel (encodeAll cps) out = emit dstCap (segmented T m cps) out := by
  induction m generalizing fuel cps out with
  | zero =>
    obtain rfl : cps = [] := List.length_eq_zero_iff.mp (Nat.le_zero.mp hm)
    cases fuel <;> rfl
  | succ m ih =>
    cases cps with
    | nil => cases fuel <;> rfl
    | cons cp cps =>
      have hpos := encode_length_pos (hcps cp List.mem_cons_self)
      have hlen : (encodeAll (cp :: cps)).length = (encode cp).length + (encodeAll cps).length :=
        List.length_append
      obtain ⟨fuel, rfl⟩ := Nat.exists_eq_succ_of_ne_zero (show fuel ≠ 0 by omega)
      obtain ⟨b, tail, hbt⟩ := List.exists_cons_of_length_pos (show 0 < (encodeAll (cp :: cps)).length by omega)
      have hrest : (encodeAll (cps.dropWhile (trailing T))).length ≤ (encodeAll cps).length := by
        have hsplit := congrArg (fun l => (encodeAll l).length) (List.takeWhile_append_dropWhile (p := trailing T) (l := cps))
        simp only [encodeAll_append, List.length_append] at hsplit
        omega
      have hshorter : (cps.dropWhile (trailing T)).length ≤ cps.length := (List.dropWhile_sublist _).length_le
      rw [List.length_cons] at hm
      rw [segmented, emit_append, ← @ih _ fuel _ (fun c hc => hcps c (List.mem_cons_of_mem _
        ((List.dropWhile_sublist _).subset hc))) (by omega) (by omega)]
      have hcollect := @collect_encodeAll T cps cp (encodeAll (cp :: cps)).length hT [] hcps (Nat.le_refl _)
      rw [List.nil_append] at hcollect
      rw [hbt] at hcollect ⊢
      rw [segments, hcollect]

/-! ### What segments lose -/

/-- Apart from the marks that are cut off, the segments make the canonical order. -/
theorem segmented_of_short (hT : T.Unicode) {m : Nat} (hm : cps.length ≤ m) (hshort : Short T cps) :
    segmented T m cps = canonicalOrder T (decomposed T cps) := by
  induction m generalizing cps with
  | zero =>
    obtain rfl : cps = [] := List.length_eq_zero_iff.mp (Nat.le_zero.mp hm)
    rfl
  | succ m ih =>
    cases cps with
    | nil => rfl
    | cons cp cps =>
      have hsplit := List.takeWhile_append_dropWhile (p := trailing T) (l := cps)
      have hlen : (decomposed T (cp :: cps.takeWhile (trailing T))).length ≤ 128 :=
        hshort [] cp _ (cps.dropWhile (trailing T)) (by rw [hsplit]; rfl)
          (List.all_eq_true.mp List.all_takeWhile)
      have hrest : Short T (cps.dropWhile (trailing T)) := by
        intro l c w r h hw
        refine hshort (cp :: cps.takeWhile (trailing T) ++ l) c w r ?_ hw
        rw [List.cons_append, List.cons_append, List.append_assoc, ← h, hsplit]
      have hshorter : (cps.dropWhile (trailing T)).length ≤ cps.length := (List.dropWhile_sublist _).length_le
      rw [List.length_cons] at hm
      have hwhole : decomposed T (cp :: cps) = decomposed T (cp :: cps.takeWhile (trailing T)) ++
          decomposed T (cps.dropWhile (trailing T)) := by
        rw [← decomposed_append, List.cons_append, hsplit]
      rw [segmented, List.take_of_length_le hlen, ih (by omega) hrest, hwhole]
      cases hdrop : cps.dropWhile (trailing T) with
      | nil => rw [decomposed_nil, List.append_nil]; exact List.append_nil _
      | cons c rest =>
        have hc : trailing T c = false := by
          have hhead := List.head?_dropWhile_not (trailing T) cps
          rw [hdrop] at hhead
          simpa using hhead
        rw [trailing] at hc
        cases hd : decomposeCp T c with
        | nil => exact absurd hd (hT.nonempty c)
        | cons first more =>
          rw [hd] at hc
          have hfirst : T.ccc first = 0 := by simpa using hc
          have hnext : decomposed T (c :: rest) = first :: (more ++ decomposed T rest) := by
            rw [decomposed_cons, hd, List.cons_append]
          rw [hnext, canonicalOrder_append hfirst, canonicalOrder_cons hfirst]

theorem Short.cons (hlen : (decomposed T (cp :: cps.takeWhile (trailing T))).length ≤ 128)
    (hrest : Short T (cps.dropWhile (trailing T))) : Short T (cp :: cps) := by
  intro l c w r h hw
  rw [← List.takeWhile_append_dropWhile (p := trailing T) (l := cps), ← List.cons_append] at h
  have hall := List.all_eq_true.mp (List.all_takeWhile (p := trailing T) (l := cps))
  have hhead : ∀ x, (cps.dropWhile (trailing T)).head? = some x → trailing T x = false := by
    intro x hx
    have hnot := List.head?_dropWhile_not (trailing T) cps
    rw [hx] at hnot
    simpa using hnot
  rcases List.append_eq_append_iff.mp h with ⟨m, hl, hm⟩ | ⟨m, hl, hm⟩
  · -- The part starts after the first segment.
    exact hrest m c w r hm hw
  · cases m with
    | nil =>
      rw [List.nil_append] at hm
      exact hrest [] c w r hm.symm hw
    | cons d m =>
      obtain ⟨rfl, hwr⟩ := List.cons.inj hm
      -- It starts in the first segment, and goes no further.
      have hinside : ∃ u, m = w ++ u := by
        rcases List.append_eq_append_iff.mp hwr with ⟨u, hu, -⟩ | ⟨u, hu, hdrop⟩
        · exact ⟨u, hu⟩
        · cases u with
          | nil => exact ⟨[], by rw [hu, List.append_nil, List.append_nil]⟩
          | cons x u =>
            have hx : trailing T x = true := hw x (by rw [hu]; simp)
            rw [hhead x (by rw [hdrop]; rfl)] at hx
            cases hx
      obtain ⟨u, rfl⟩ := hinside
      rw [hl, decomposed_append, ← List.cons_append, decomposed_append, List.length_append,
        List.length_append] at hlen
      omega

/-- **What a long segment loses** is missing in the bytes. -/
theorem length_segmented (hT : T.Unicode) {m : Nat} (hcps : ∀ c ∈ cps, Scalar c) (hm : cps.length ≤ m) :
    (encodeAll (segmented T m cps)).length ≤ (encodeAll (decomposed T cps)).length ∧
      ((encodeAll (segmented T m cps)).length = (encodeAll (decomposed T cps)).length → Short T cps) := by
  induction m generalizing cps with
  | zero =>
    obtain rfl : cps = [] := List.length_eq_zero_iff.mp (Nat.le_zero.mp hm)
    refine ⟨Nat.le_refl _, fun _ l c w r h => ?_⟩
    cases l <;> cases h
  | succ m ih =>
    cases cps with
    | nil =>
      refine ⟨Nat.le_refl _, fun _ l c w r h => ?_⟩
      cases l <;> cases h
    | cons cp cps =>
      have hsplit := List.takeWhile_append_dropWhile (p := trailing T) (l := cps)
      have hshorter : (cps.dropWhile (trailing T)).length ≤ cps.length := (List.dropWhile_sublist _).length_le
      rw [List.length_cons] at hm
      obtain ⟨hle, heq⟩ := @ih (cps.dropWhile (trailing T))
        (fun c hc => hcps c (List.mem_cons_of_mem _ ((List.dropWhile_sublist _).subset hc))) (by omega)
      have hwhole : decomposed T (cp :: cps) = decomposed T (cp :: cps.takeWhile (trailing T)) ++
          decomposed T (cps.dropWhile (trailing T)) := by
        rw [← decomposed_append, List.cons_append, hsplit]
      have hscalar : ∀ c ∈ cp :: cps.takeWhile (trailing T), Scalar c := by
        intro c hc
        refine hcps c ?_
        rcases List.mem_cons.mp hc with rfl | hc
        · exact List.mem_cons_self
        · exact List.mem_cons_of_mem _ ((List.takeWhile_sublist _).subset hc)
      generalize hseg : decomposed T (cp :: cps.takeWhile (trailing T)) = L at hwhole
      have hL : ∀ d ∈ L, Scalar d := fun d hd => (hT.full_decomposed hscalar d (hseg ▸ hd)).2
      have htake : (encodeAll (canonicalOrder T (L.take 128))).length = (encodeAll (L.take 128)).length :=
        length_encodeAll_perm canonicalOrder_perm
      have hcut : (encodeAll L).length = (encodeAll (L.take 128)).length + (encodeAll (L.drop 128)).length := by
        rw [← List.length_append, ← encodeAll_append, List.take_append_drop]
      have hdrop := @length_encodeAll_le (L.drop 128) fun d hd => hL d (List.mem_of_mem_drop hd)
      rw [segmented, hseg, hwhole, encodeAll_append, encodeAll_append, List.length_append, List.length_append,
        htake]
      refine ⟨by omega, fun hsame => Short.cons ?_ (heq (by omega))⟩
      rw [hseg]
      rw [List.length_drop] at hdrop
      omega

/-! ### The form again -/

/-- A list of full decompositions fits by the places of its starters. -/
def RoomFor (starters : List (Option Nat)) : Prop :=
  starters.length < 256 ∧ ∀ l x r, starters = l ++ some x :: r → x < 0x80 → l.length < 239

/-- No 128 marks in a row. -/
def FewMarks (starters : List (Option Nat)) : Prop :=
  ∀ l x w r, starters = l ++ x :: (w ++ r) → (∀ c ∈ w, c = none) → w.length < 128

theorem starter_eq_some {x : Nat} (h : starter T cp = some x) : cp = x ∧ T.ccc cp = 0 := by
  rw [starter] at h
  split_ifs at h with hcp
  exact ⟨Option.some.inj h, hcp⟩

theorem fits_iff_roomFor (hT : T.Unicode) (hfull : ∀ cp ∈ cps, T.decomp cp = none ∧ ¬ IsHangul cp) :
    Fits T cps ↔ RoomFor (cps.map (starter T)) := by
  rw [Fits, RoomFor, decomposed_self hfull, List.length_map]
  refine and_congr_right fun _ => ⟨fun h l x r hsplit hx => ?_, fun h l cp r hsplit hcp => ?_⟩
  · obtain ⟨l', r', rfl, rfl, hr⟩ := List.map_eq_append_iff.mp hsplit
    obtain ⟨cp, r'', rfl, hcp, -⟩ := List.map_eq_cons_iff.mp hr
    obtain ⟨rfl, -⟩ := starter_eq_some hcp
    have hl := h l' cp r'' rfl hx
    rw [decomposed_self fun c hc => hfull c (List.mem_append_left _ hc)] at hl
    rwa [List.length_map]
  · subst hsplit
    have hstart : starter T cp = some cp := if_pos (hT.ascii cp hcp).2
    have hl := h (l.map (starter T)) cp (r.map (starter T)) (by rw [List.map_append, List.map_cons, hstart]) hcp
    rw [List.length_map] at hl
    rwa [decomposed_self fun c hc => hfull c (List.mem_append_left _ hc)]

theorem short_iff_fewMarks (hfull : ∀ cp ∈ cps, T.decomp cp = none ∧ ¬ IsHangul cp) :
    Short T cps ↔ FewMarks (cps.map (starter T)) := by
  have htrail : ∀ c ∈ cps, (trailing T c = true ↔ starter T c = none) := by
    intro c hc
    rw [trailing, decomposeCp_self (hfull c hc), starter]
    show (T.ccc c != 0) = true ↔ _
    by_cases hzero : T.ccc c = 0 <;> simp [hzero]
  constructor
  · intro h l x w r hsplit hw
    obtain ⟨l', r', rfl, rfl, hr⟩ := List.map_eq_append_iff.mp hsplit
    obtain ⟨cp, r'', rfl, -, hr'⟩ := List.map_eq_cons_iff.mp hr
    obtain ⟨w', r₃, rfl, rfl, -⟩ := List.map_eq_append_iff.mp hr'
    have hlen := h l' cp w' r₃ rfl fun c hc =>
      (htrail c (by simp [hc])).mpr (hw _ (List.mem_map_of_mem hc))
    rw [decomposed_self fun c hc => hfull c (by simp only [List.mem_append, List.mem_cons] at hc ⊢; tauto),
      List.length_cons] at hlen
    rw [List.length_map]
    omega
  · rintro h l cp w r rfl hw
    have hlen := h (l.map (starter T)) (starter T cp) (w.map (starter T)) (r.map (starter T)) (by simp) ?_
    · rw [List.length_map] at hlen
      rw [decomposed_self fun c hc => hfull c (by simp only [List.mem_append, List.mem_cons] at hc ⊢; tauto),
        List.length_cons]
      omega
    · intro c hc
      obtain ⟨d, hd, rfl⟩ := List.mem_map.mp hc
      exact (htrail d (by simp [hd])).mp (hw d hd)

/-- **The quick check** accepts full decompositions in canonical order. -/
theorem isNfdFrom_encodeAll (hT : T.Unicode) (hcps : ∀ cp ∈ cps, Scalar cp)
    (hfull : ∀ cp ∈ cps, T.decomp cp = none ∧ ¬ IsHangul cp) (hchain : cps.IsChain (Follows T))
    (hlast : ∀ cp, cps.head? = some cp → T.ccc cp = 0 ∨ lastCcc ≤ T.ccc cp)
    (hfuel : (encodeAll cps).length ≤ fuel) : isNfdFrom T fuel (encodeAll cps) lastCcc = true := by
  induction cps generalizing fuel lastCcc with
  | nil => cases fuel <;> rfl
  | cons cp cps ih =>
    have hs : Scalar cp := hcps cp List.mem_cons_self
    have hpos := encode_length_pos hs
    rw [encodeAll_cons, List.length_append] at hfuel
    obtain ⟨fuel, rfl⟩ := Nat.exists_eq_succ_of_ne_zero (show fuel ≠ 0 by omega)
    obtain ⟨hdecomp, hhangul⟩ := hfull cp List.mem_cons_self
    have hnext : ∀ c, cps.head? = some c → T.ccc c = 0 ∨ T.ccc cp ≤ T.ccc c := by
      intro c hc
      cases cps with
      | nil => cases hc
      | cons d cps =>
        obtain rfl := Option.some.inj hc
        exact (List.isChain_cons_cons.mp hchain).1
    have hrest := @ih fuel (T.ccc cp) (fun c hc => hcps c (List.mem_cons_of_mem _ hc))
      (fun c hc => hfull c (List.mem_cons_of_mem _ hc)) hchain.tail hnext (by omega)
    by_cases h : cp < 0x80
    · obtain ⟨hb, -⟩ := ofNat_ascii h
      rw [encodeAll_cons, encode_ascii h, List.singleton_append, isNfdFrom, if_pos hb, ← (hT.ascii cp h).2]
      exact hrest
    · obtain ⟨b, tail, hbt, hb⟩ := encode_not_ascii hs h
      have hdecode := @decode_encode cp (encodeAll cps) hs
      have hdrop : (encode cp ++ encodeAll cps).drop (encode cp).length = encodeAll cps := List.drop_left
      have hqc : T.qc cp = false := by
        have hcheck := hT.check cp hhangul
        rw [hdecomp] at hcheck
        refine Bool.eq_false_iff.mpr fun hq => ?_
        cases hcheck.mp hq
      have hccc : ¬ (T.ccc cp ≠ 0 ∧ T.ccc cp < lastCcc) := by
        rintro ⟨hne, hlt⟩
        rcases hlast cp rfl with hzero | hle
        · exact hne hzero
        · omega
      rw [hbt, List.cons_append] at hdecode hdrop
      rw [encodeAll_cons, hbt, List.cons_append, isNfdFrom, if_neg hb, hdecode]
      dsimp only
      rw [if_neg hhangul, hqc, if_neg (by decide), if_neg hccc, hdrop]
      exact hrest

end Jacl.Nfd
