import Jacl.RegexFragments

/-!
# Repetitions and groups

Loops, optional copies, counted repetitions and groups.
-/

namespace Jacl.Regex

open FlowGraphs

variable {w : List Byte} {code code' C : Code} {R Q : Nat → Nat → Prop} {f : Frag} {lo hi : Nat}

/-! ### Loops -/

theorem loopSplit_op (greedy : Bool) (body : Nat) : (loopSplit greedy body).op = .split := by
  cases greedy <;> rfl

theorem loopSplit_enter (greedy : Bool) (body : Nat) :
    (loopSplit greedy body).target (!greedy) = body := by
  cases greedy <;> rfl

/-- A loop's split: out of it one gets by the patched edge, and into the body by the other. -/
theorem leads_loopSplit {D : Nat → Bool → Prop} {pc body : Nat} {greedy : Bool}
    (h : C[pc]? = some (loopSplit greedy body)) (hD : ∀ e, D pc e ↔ e = greedy) (i j : Nat) :
    (codeGraph w C).Leads D pc i j ↔ i = j ∨ (codeGraph w C).Leads D body i j := by
  cases greedy with
  | false =>
    rw [leads_split h]
    simp [hD]
  | true =>
    rw [leads_split h]
    simp [hD, or_comm]

/-- The head of a loop, with the places `T` from which one gets there. -/
theorem loopHead {D : Nat → Bool → Prop} {T : Nat → Prop} {head body : Nat} {greedy : Bool}
    (h : C[head]? = some (loopSplit greedy body)) (hD : ∀ e, D head e ↔ e = greedy) (hT : T head)
    (hrest : ∀ pc, T pc → pc ≠ head → C[pc]? = some ⟨.jmp, head, 0⟩) :
    LoopHead (codeGraph w C) D T head body where
  mem := hT
  stays := by
    intro pc e i j hpc hm
    by_cases heq : pc = head
    · subst heq
      obtain ⟨-, hmove⟩ := (codeGraph_moves h e i j).mp hm
      rw [loopSplit_op] at hmove
      refine ⟨hmove, ?_⟩
      by_cases he : e = greedy
      · exact .inl ((hD e).mpr he)
      · obtain rfl : e = !greedy := by cases e <;> cases greedy <;> simp_all
        rw [codeGraph_target h, loopSplit_enter]
        exact .inr (.inr rfl)
    · have hget := hrest pc hpc heq
      obtain ⟨hedge, hmove⟩ := (codeGraph_moves hget e i j).mp hm
      refine ⟨hmove, .inr (.inl ?_)⟩
      rw [codeGraph_target hget]
      cases e with
      | false => exact hT
      | true => cases hedge rfl
  exit := by
    refine ⟨greedy, (hD greedy).mpr rfl, fun i => (codeGraph_moves h _ _ _).mpr ⟨fun _ => ?_, ?_⟩⟩
    · exact loopSplit_op _ _
    · rw [loopSplit_op]
      rfl
  enter := by
    refine ⟨!greedy, fun h => ?_, ?_, fun i => (codeGraph_moves h _ _ _).mpr ⟨fun _ => ?_, ?_⟩⟩
    · exact absurd ((hD _).mp h) (by simp)
    · rw [codeGraph_target h, loopSplit_enter]
    · exact loopSplit_op _ _
    · rw [loopSplit_op]
      rfl

theorem realizes_star {body : Gen} (greedy : Bool) (hb : Gen.Realizes w body R) :
    Gen.Realizes w (starGen greedy body) (Star R) := by
  have hps : ∀ code, ∀ p ∈ (body code).1.patches, code.length ≤ p.1 :=
    fun code p hp => ((hb.frag code).patches p hp).1
  refine ⟨fun code => ((hb.grows code).trans (grows_append _ _)).patch (hps code), fun code => ?_⟩
  have hf := hb.frag code
  have hle := (hb.grows code).length
  have hC1 : ∀ pc, Within code.length (body code).2.length pc → (starGen greedy body code).2[pc]? =
      (body code).2[pc]?.map
        (Inst.retarget (body code).1.patches ((body code).2.length + 1) pc) := by
    intro pc hpc
    rw [← List.getElem?_append_left hpc.2]
    exact patch_getElem? _ _ _
  have hnew : ∀ pc, (body code).2.length ≤ pc → (starGen greedy body code).2[pc]? =
      ((body code).2 ++ [loopSplit greedy (body code).1.start,
        ⟨.jmp, (body code).2.length, 0⟩])[pc]? := by
    intro pc hpc
    refine patch_getElem?_of_not_mem fun e => hf.not_mem ?_ e
    rintro ⟨-, hlt⟩
    omega
  have hhead : (starGen greedy body code).2[(body code).2.length]? =
      some (loopSplit greedy (body code).1.start) := by
    rw [hnew _ (Nat.le_refl _)]
    simp
  have hjmp : (starGen greedy body code).2[(body code).2.length + 1]? =
      some ⟨.jmp, (body code).2.length, 0⟩ := by
    rw [hnew _ (Nat.le_succ _)]
    simp
  have hlen : (starGen greedy body code).2.length = (body code).2.length + 2 := by
    simp [starGen]
  have hD : ∀ e, ((body code).2.length, e) ∈ (starGen greedy body code).1.patches ↔ e = greedy := by
    intro e
    simp [starGen]
  have hD' : ∀ pc e, pc ≠ (body code).2.length → (pc, e) ∉ (starGen greedy body code).1.patches := by
    intro pc e hne hmem
    exact hne (Prod.mk.inj (List.mem_singleton.mp hmem)).1
  refine ⟨fun p hp => ?_, ⟨?_, ?_, fun i j => ?_⟩⟩
  · rw [List.mem_singleton.mp hp, hlen]
    exact ⟨hle, by dsimp only; omega⟩
  · rw [hlen]
    exact ⟨hle, by dsimp only [starGen]; omega⟩
  · rw [hlen]
    rintro pc e ⟨h1, h2⟩ he hp
    rcases Nat.lt_or_ge pc (body code).2.length with hlt | hge
    · rcases hf.realizes.closed_patched (extends_of_retarget hC1) (target_of_retarget hC1) pc e
        ⟨h1, hlt⟩ he with h | h
      · exact ⟨h.1, by have := h.2; omega⟩
      · rw [h]
        exact ⟨by omega, by omega⟩
    · obtain rfl | rfl : pc = (body code).2.length ∨ pc = (body code).2.length + 1 := by omega
      · have hne := fun h => hp ((hD e).mpr h)
        obtain rfl : e = !greedy := by cases e <;> cases greedy <;> simp_all
        rw [codeGraph_target hhead, loopSplit_enter]
        have := hf.realizes.mem
        exact ⟨this.1, by have := this.2; omega⟩
      · have hedge := edge_inv hjmp he
        rw [codeGraph_target hjmp]
        cases e with
        | false => exact ⟨hle, Nat.lt_add_of_pos_right (Nat.succ_pos 1)⟩
        | true => cases hedge rfl
  · refine hf.realizes.leads_loop (T := fun pc => pc = (body code).2.length ∨
      pc = (body code).2.length + 1) (extends_of_retarget hC1) (target_of_retarget hC1)
      (fun pc e hpc _ => hD' pc e (Nat.ne_of_lt hpc.2)) (loopHead hhead hD (.inl rfl) ?_) (.inr rfl)
      (fun i j hl => ?_) i j
    · rintro pc (rfl | rfl) hne
      · exact absurd rfl hne
      · exact hjmp
    · refine (leads_single hjmp (by simp) i j).mpr ⟨i, rfl, .inr ⟨?_, hl⟩⟩
      exact hD' _ _ (by omega)

theorem realizes_plus {body : Gen} (greedy : Bool) (hb : Gen.Realizes w body R) :
    Gen.Realizes w (plusGen greedy body) (fun i j => ∃ k, R i k ∧ Star R k j) := by
  have hps : ∀ code, ∀ p ∈ (body code).1.patches, code.length ≤ p.1 :=
    fun code p hp => ((hb.frag code).patches p hp).1
  refine ⟨fun code => ((hb.grows code).trans (grows_append _ _)).patch (hps code), fun code => ?_⟩
  have hf := hb.frag code
  have hle := (hb.grows code).length
  have hC1 : ∀ pc, Within code.length (body code).2.length pc → (plusGen greedy body code).2[pc]? =
      (body code).2[pc]?.map (Inst.retarget (body code).1.patches (body code).2.length pc) := by
    intro pc hpc
    rw [← List.getElem?_append_left hpc.2]
    exact patch_getElem? _ _ _
  have hhead : (plusGen greedy body code).2[(body code).2.length]? =
      some (loopSplit greedy (body code).1.start) := by
    change (patch _ _ _)[_]? = _
    rw [patch_getElem?_of_not_mem fun e => hf.not_mem (fun h => Nat.lt_irrefl _ h.2) e]
    simp
  have hlen : (plusGen greedy body code).2.length = (body code).2.length + 1 := by
    simp [plusGen]
  have hD : ∀ e, ((body code).2.length, e) ∈ (plusGen greedy body code).1.patches ↔ e = greedy := by
    intro e
    simp [plusGen]
  have hD' : ∀ pc e, pc ≠ (body code).2.length → (pc, e) ∉ (plusGen greedy body code).1.patches := by
    intro pc e hne hmem
    exact hne (Prod.mk.inj (List.mem_singleton.mp hmem)).1
  have hopen := fun pc e (hpc : Within code.length (body code).2.length pc)
    (_ : (codeGraph w (body code).2).edge pc e) => hD' pc e (Nat.ne_of_lt hpc.2)
  refine ⟨fun p hp => ?_, ⟨?_, ?_, fun i j => ?_⟩⟩
  · rw [List.mem_singleton.mp hp, hlen]
    exact ⟨hle, by dsimp only; omega⟩
  · rw [hlen]
    exact ⟨hf.realizes.mem.1, Nat.lt_succ_of_lt hf.realizes.mem.2⟩
  · rw [hlen]
    rintro pc e ⟨h1, h2⟩ he hp
    rcases Nat.lt_or_ge pc (body code).2.length with hlt | hge
    · rcases hf.realizes.closed_patched (extends_of_retarget hC1) (target_of_retarget hC1) pc e
        ⟨h1, hlt⟩ he with h | h
      · exact ⟨h.1, Nat.lt_succ_of_lt h.2⟩
      · rw [h]
        exact ⟨hle, Nat.lt_succ_self _⟩
    · obtain rfl : pc = (body code).2.length := by omega
      have hne := fun h => hp ((hD e).mpr h)
      obtain rfl : e = !greedy := by cases e <;> cases greedy <;> simp_all
      rw [codeGraph_target hhead, loopSplit_enter]
      exact ⟨hf.realizes.mem.1, Nat.lt_succ_of_lt hf.realizes.mem.2⟩
  · refine (hf.realizes.leads_patched (extends_of_retarget hC1) (target_of_retarget hC1) hopen
      i j).trans (exists_congr fun k => and_congr_right fun _ => ?_)
    refine hf.realizes.leads_loop (T := (· = (body code).2.length)) (extends_of_retarget hC1)
      (target_of_retarget hC1) hopen (loopHead hhead hD rfl ?_) rfl (fun _ _ hl => hl) k j
    rintro pc rfl hne
    exact absurd rfl hne

/-! ### Optional bodies -/

/-- A split to a fragment and past it, wherever the split is. -/
theorem FragAt.optional {s lo' hi' : Nat} {greedy : Bool} {ps : List PatchLoc}
    (h : FragAt w C lo hi f Q) (hs : C[s]? = some (loopSplit greedy f.start))
    (hout : ¬ Within lo hi s) (hall : ∀ pc, Within lo' hi' pc ↔ pc = s ∨ Within lo hi pc)
    (hps : ∀ p, p ∈ ps ↔ p = (s, greedy) ∨ p ∈ f.patches) :
    FragAt w C lo' hi' ⟨s, ps⟩ (fun i j => i = j ∨ Q i j) := by
  have hD : ∀ e, (s, e) ∈ ps ↔ e = greedy := by
    intro e
    rw [hps, or_iff_left (h.not_mem hout e), Prod.mk.injEq, and_iff_right rfl]
  have hopen : ∀ pc e, Within lo hi pc → ((pc, e) ∈ ps ↔ (pc, e) ∈ f.patches) := by
    intro pc e hpc
    rw [hps, or_iff_right]
    intro heq
    exact hout ((Prod.mk.inj heq).1 ▸ hpc)
  refine ⟨fun p hp => ?_, ⟨(hall s).mpr (.inl rfl), ?_, fun i j => ?_⟩⟩
  · rw [hall]
    rcases (hps p).mp hp with rfl | hp
    · exact .inl rfl
    · exact .inr (h.patches p hp)
  · intro pc e hpc he hp
    rw [hall]
    rcases (hall pc).mp hpc with rfl | hpc
    · have hne := fun h => hp ((hD e).mpr h)
      obtain rfl : e = !greedy := by cases e <;> cases greedy <;> simp_all
      rw [codeGraph_target hs, loopSplit_enter]
      exact .inr h.realizes.mem
    · exact .inr (h.realizes.closed pc e hpc he fun hmem => hp ((hopen pc e hpc).mpr hmem))
  · refine (leads_loopSplit hs hD i j).trans (or_congr_right ?_)
    exact h.realizes.leads_open (extends_of_same fun _ _ => rfl) hopen i j

theorem realizes_opt {body : Gen} (greedy : Bool) (hb : Gen.Realizes w body R) :
    Gen.Realizes w (optGen greedy body) (fun i j => i = j ∨ R i j) := by
  refine ⟨fun code => (hb.grows code).trans (grows_append _ _), fun code => ?_⟩
  have hf := hb.frag code
  have hle := (hb.grows code).length
  have hlen : (optGen greedy body code).2.length = (body code).2.length + 1 := by simp [optGen]
  have hbody : FragAt w (optGen greedy body code).2 code.length (body code).2.length
      (body code).1 R := hf.mono fun pc hpc => List.getElem?_append_left hpc.2
  have hhead : (optGen greedy body code).2[(body code).2.length]? =
      some (loopSplit greedy (body code).1.start) := by simp [optGen]
  refine hbody.optional hhead (fun h => Nat.lt_irrefl _ h.2) (fun pc => ?_) (fun p => ?_)
  · rw [hlen]
    constructor
    · rintro ⟨h1, h2⟩
      rcases Nat.lt_succ_iff_lt_or_eq.mp h2 with h | h
      · exact .inr ⟨h1, h⟩
      · exact .inl h
    · rintro (rfl | ⟨h1, h2⟩)
      · exact ⟨hle, Nat.lt_succ_self _⟩
      · exact ⟨h1, Nat.lt_succ_of_lt h2⟩
  · change p ∈ _ ++ [_] ↔ _
    rw [List.mem_append, List.mem_singleton, or_comm]

/-! ### Copies -/

def chainPatches (chain : Option Frag) : List PatchLoc := (chain.map Frag.patches).getD []

theorem optionalCopy_eq (greedy : Bool) (body : Gen) (chain : Option Frag) (exits : Frag) (code : Code) :
    optionalCopy greedy body chain exits code =
      ((body (code ++ [⟨.split, 0, 0⟩])).1,
        ⟨if chain.isSome then exits.start else code.length,
          exits.patches ++ [(code.length, greedy)]⟩,
        patch (patch (body (code ++ [⟨.split, 0, 0⟩])).2 [(code.length, !greedy)]
          (body (code ++ [⟨.split, 0, 0⟩])).1.start) (chainPatches chain) code.length) := by
  cases chain <;> rfl

/-- What one more copy does to the code. -/
structure CopyAt (w : List Byte) (greedy : Bool) (code C : Code) (ps : List PatchLoc) (f : Frag)
    (R : Nat → Nat → Prop) : Prop where
  before : ∀ pc < code.length, C[pc]? = code[pc]?.map (Inst.retarget ps code.length pc)
  head : C[code.length]? = some (loopSplit greedy f.start)
  body : FragAt w C (code.length + 1) C.length f R

theorem optionalCopy_copyAt {body : Gen} (greedy : Bool) (hb : Gen.Realizes w body R)
    (chain : Option Frag) (exits : Frag) (hchain : ∀ p ∈ chainPatches chain, p.1 < code.length) :
    ∃ f C, optionalCopy greedy body chain exits code =
        (f, ⟨if chain.isSome then exits.start else code.length,
          exits.patches ++ [(code.length, greedy)]⟩, C) ∧
      CopyAt w greedy code C (chainPatches chain) f R := by
  refine ⟨_, _, optionalCopy_eq greedy body chain exits code, ?_⟩
  have hgrows := hb.grows (code ++ [⟨.split, 0, 0⟩])
  have hf := hb.frag (code ++ [⟨.split, 0, 0⟩])
  have hlen0 : (code ++ [⟨.split, 0, 0⟩] : Code).length = code.length + 1 := by simp
  generalize body (code ++ [⟨.split, 0, 0⟩]) = r at hgrows hf ⊢
  obtain ⟨f, B⟩ := r
  dsimp only at hgrows hf ⊢
  rw [hlen0] at hf
  have hpast : ∀ pc, code.length ≤ pc → ∀ b, (pc, b) ∉ chainPatches chain := by
    intro pc hpc b hmem
    exact absurd (hchain _ hmem) (Nat.not_lt.mpr hpc)
  have hother : ∀ pc, pc ≠ code.length → ∀ b, (pc, b) ∉ [(code.length, !greedy)] := by
    intro pc hne b hmem
    exact hne (Prod.mk.inj (List.mem_singleton.mp hmem)).1
  refine ⟨fun pc hpc => ?_, ?_, ?_⟩
  · rw [patch_getElem?, patch_getElem?_of_not_mem (hother pc (Nat.ne_of_lt hpc)),
      hgrows.same pc (by omega), List.getElem?_append_left hpc]
  · rw [patch_getElem?_of_not_mem (hpast _ (Nat.le_refl _)), patch_getElem?,
      hgrows.same _ (by omega), List.getElem?_concat_length]
    cases greedy <;> simp [Inst.retarget, loopSplit]
  · rw [length_patch, length_patch]
    refine hf.mono fun pc hpc => ?_
    have hgt : code.length < pc := hpc.1
    rw [patch_getElem?_of_not_mem (hpast pc (Nat.le_of_lt hgt)),
      patch_getElem?_of_not_mem (hother pc (Nat.ne_of_gt hgt))]

/-- The copies follow what leads to them, make a fragment of their own, and leave the other exits
open. -/
structure CopiesAt (w : List Byte) (code C : Code) (chain : Option Frag) (exits f : Frag)
    (tail : List PatchLoc) (Q : Nat → Nat → Prop) : Prop where
  patches : f.patches = exits.patches ++ tail
  start : f.start = if chain.isSome then exits.start else code.length
  before : ∀ pc < code.length,
    C[pc]? = code[pc]?.map (Inst.retarget (chainPatches chain) code.length pc)
  frag : FragAt w C code.length C.length ⟨code.length, tail⟩ Q

theorem within_succ {pc : Nat} (h : lo < hi) : Within lo hi pc ↔ pc = lo ∨ Within (lo + 1) hi pc := by
  constructor
  · rintro ⟨h1, h2⟩
    rcases Nat.eq_or_lt_of_le h1 with heq | hlt
    · exact .inl heq.symm
    · exact .inr ⟨hlt, h2⟩
  · rintro (rfl | ⟨h1, h2⟩)
    · exact ⟨Nat.le_refl _, h⟩
    · exact ⟨Nat.le_of_succ_le h1, h2⟩

theorem optionalCopies_copiesAt {body : Gen} (greedy : Bool) (hb : Gen.Realizes w body R) (n : Nat)
    (chain : Option Frag) (exits : Frag) (hchain : ∀ p ∈ chainPatches chain, p.1 < code.length) :
    ∃ tail, CopiesAt w code (optionalCopies greedy body (n + 1) chain exits code).2 chain exits
      (optionalCopies greedy body (n + 1) chain exits code).1 tail (AtMost R (n + 1)) := by
  induction n generalizing code chain exits with
  | zero =>
    obtain ⟨f, C, heq, hcopy⟩ := optionalCopy_copyAt greedy hb chain exits hchain
    have hlt : code.length < C.length := (List.getElem?_eq_some_iff.mp hcopy.head).1
    rw [optionalCopies, heq]
    refine ⟨(code.length, greedy) :: f.patches, ?_, rfl, hcopy.before, ?_⟩
    · simp [optionalCopies]
    · have hfrag := hcopy.body.optional hcopy.head (not_within_of_lt (Nat.lt_succ_self _))
        (fun pc => within_succ hlt) (fun p => List.mem_cons)
      refine ⟨hfrag.patches, hfrag.realizes.congr fun i j => ?_⟩
      rw [atMost_succ]
      simp only [atMost_zero, exists_eq_right]
  | succ n ih =>
    obtain ⟨f, C, heq, hcopy⟩ := optionalCopy_copyAt greedy hb chain exits hchain
    have hlt : code.length < C.length := (List.getElem?_eq_some_iff.mp hcopy.head).1
    rw [optionalCopies, heq]
    obtain ⟨tail, hrest⟩ := @ih C (some f)
      ⟨if chain.isSome then exits.start else code.length, exits.patches ++ [(code.length, greedy)]⟩
      fun p hp => (hcopy.body.patches p hp).2
    dsimp only
    generalize optionalCopies greedy body (n + 1) (some f) _ C = r at hrest ⊢
    have hsame : ∀ pc < code.length + 1, r.2[pc]? = C[pc]? := by
      intro pc hpc
      rw [hrest.before pc (by omega)]
      have : ∀ b, (pc, b) ∉ f.patches := hcopy.body.not_mem (not_within_of_lt hpc)
      have : Inst.retarget f.patches C.length pc = id := by
        funext ins
        exact retarget_of_not_mem this ins
      change C[pc]?.map (Inst.retarget f.patches C.length pc) = _
      rw [this, Option.map_id]
      rfl
    have hchained := hcopy.body.chain hrest.frag fun pc hpc => hrest.before pc hpc.2
    have hlt' : code.length < r.2.length := Nat.lt_trans hlt
      (Nat.lt_of_le_of_lt hrest.frag.realizes.mem.1 hrest.frag.realizes.mem.2)
    have hhead : r.2[code.length]? = some (loopSplit greedy f.start) := by
      rw [hsame _ (Nat.lt_succ_self _), hcopy.head]
    have hfrag := hchained.optional hhead (not_within_of_lt (Nat.lt_succ_self _))
      (fun pc => within_succ hlt') (fun p => List.mem_cons)
    refine ⟨(code.length, greedy) :: tail, ?_, ?_, fun pc hpc => ?_, hfrag.patches,
      hfrag.realizes.congr fun i j => (atMost_succ (n + 1) i j).symm⟩
    · rw [hrest.patches, List.append_assoc]
      rfl
    · rw [hrest.start]
      rfl
    · rw [hsame pc (Nat.lt_succ_of_lt hpc), hcopy.before pc hpc]

/-! ### Counted repetitions -/

theorem seqRel_replicate (R : Nat → Nat → Prop) (n : Nat) : seqRel (List.replicate n R) = power R n := by
  induction n with
  | zero => rfl
  | succ n ih =>
    funext i j
    rw [List.replicate_succ, seqRel, ih]
    rfl

theorem realizes_copies {body : Gen} (hb : Gen.Realizes w body R) (n : Nat) :
    Gen.Realizes w ((List.replicate n body).foldl chainGen body) (power R (n + 1)) := by
  rw [← seqRel_replicate]
  change Gen.Realizes w (seqGen (List.replicate (n + 1) body)) _
  refine realizes_seq ?_
  rw [List.forall₂_iff_get]
  refine ⟨by simp, fun k h1 h2 => ?_⟩
  simpa using hb

/-- `n` copies that must be there, and then up to `opt + 1` more. -/
theorem realizes_counted {body : Gen} (greedy : Bool) (hb : Gen.Realizes w body R) (min opt : Nat) :
    Gen.Realizes w
      (fun code => optionalCopies greedy body (opt + 1) (mandatory body min code).1
        ⟨((mandatory body min code).1.map Frag.start).getD 0, []⟩ (mandatory body min code).2)
      (fun i j => ∃ k, power R min i k ∧ AtMost R (opt + 1) k j) := by
  cases min with
  | zero =>
    have hspec : ∀ code, ∃ tail,
        CopiesAt w code (optionalCopies greedy body (opt + 1) none ⟨0, []⟩ code).2 none ⟨0, []⟩
          (optionalCopies greedy body (opt + 1) none ⟨0, []⟩ code).1 tail (AtMost R (opt + 1)) :=
      fun code => optionalCopies_copiesAt greedy hb opt none ⟨0, []⟩ nofun
    refine ⟨fun code => ?_, fun code => ?_⟩
    · obtain ⟨tail, h⟩ := hspec code
      have hmem := h.frag.realizes.mem
      refine ⟨Nat.le_trans hmem.1 (Nat.le_of_lt hmem.2), fun pc hpc => ?_⟩
      refine (h.before pc hpc).trans ?_
      have : Inst.retarget (chainPatches none) code.length pc = id := by
        funext ins
        exact retarget_of_not_mem (fun _ => List.not_mem_nil) ins
      rw [this, Option.map_id]
      rfl
    · obtain ⟨tail, h⟩ := hspec code
      dsimp only [mandatory, Option.map_none, Option.getD_none]
      generalize optionalCopies greedy body (opt + 1) none ⟨0, []⟩ code = r at h ⊢
      obtain ⟨⟨start, patches⟩, C⟩ := r
      obtain rfl : patches = tail := h.patches
      obtain rfl : start = code.length := h.start
      refine ⟨h.frag.patches, h.frag.realizes.congr fun i j => ?_⟩
      simp only [power, exists_eq_left']
  | succ n =>
    have hm := realizes_copies hb n
    have hspec : ∀ code, _ := fun code =>
      optionalCopies_copiesAt greedy hb opt
        (some ((List.replicate n body).foldl chainGen body code).1)
        ⟨((List.replicate n body).foldl chainGen body code).1.start, []⟩
        (fun p hp => ((hm.frag code).patches p hp).2)
    refine ⟨fun code => ?_, fun code => ?_⟩
    · obtain ⟨tail, h⟩ := hspec code
      have hgrows := hm.grows code
      have hmem := h.frag.realizes.mem
      refine ⟨Nat.le_trans hgrows.length (Nat.le_trans hmem.1 (Nat.le_of_lt hmem.2)),
        fun pc hpc => ?_⟩
      refine (h.before pc (Nat.lt_of_lt_of_le hpc hgrows.length)).trans ?_
      rw [hgrows.same pc hpc]
      have : ∀ b, (pc, b) ∉ chainPatches (some ((List.replicate n body).foldl chainGen body code).1) :=
        (hm.frag code).not_mem (not_within_of_lt hpc)
      have : Inst.retarget (chainPatches (some ((List.replicate n body).foldl chainGen body code).1))
          ((List.replicate n body).foldl chainGen body code).2.length pc = id := by
        funext ins
        exact retarget_of_not_mem this ins
      rw [this, Option.map_id]
      rfl
    · obtain ⟨tail, h⟩ := hspec code
      dsimp only [mandatory, Option.map_some, Option.getD_some]
      generalize hr : optionalCopies greedy body (opt + 1) _ _ _ = r at h ⊢
      obtain ⟨⟨start, patches⟩, C⟩ := r
      obtain rfl : patches = tail := h.patches
      obtain rfl : start = _ := h.start
      exact (hm.frag code).chain h.frag fun pc hpc => h.before pc hpc.2

/-- How often a repetition repeats. -/
def Times (R : Nat → Nat → Prop) (min : Nat) (max : Option Nat) (i j : Nat) : Prop :=
  ∃ n, min ≤ n ∧ (∀ m ∈ max, n ≤ m) ∧ power R n i j

theorem times_none (min i j : Nat) :
    Times R min none i j ↔ ∃ k, power R min i k ∧ Star R k j := by
  constructor
  · rintro ⟨n, hn, -, h⟩
    obtain ⟨d, rfl⟩ := Nat.exists_eq_add_of_le hn
    obtain ⟨k, hk, h⟩ := (power_add min d i j).mp h
    exact ⟨k, hk, d, h⟩
  · rintro ⟨k, hk, d, h⟩
    exact ⟨min + d, Nat.le_add_right _ _, nofun, (power_add min d i j).mpr ⟨k, hk, h⟩⟩

theorem times_some {min max : Nat} (hle : min ≤ max) (i j : Nat) :
    Times R min (some max) i j ↔ ∃ k, power R min i k ∧ AtMost R (max - min) k j := by
  constructor
  · rintro ⟨n, hn, hmax, h⟩
    obtain ⟨d, rfl⟩ := Nat.exists_eq_add_of_le hn
    obtain ⟨k, hk, h⟩ := (power_add min d i j).mp h
    have := hmax max rfl
    exact ⟨k, hk, d, by omega, h⟩
  · rintro ⟨k, hk, d, hd, h⟩
    refine ⟨min + d, Nat.le_add_right _ _, fun m hm => ?_, (power_add min d i j).mpr ⟨k, hk, h⟩⟩
    obtain rfl := Option.some.inj hm
    omega

theorem times_star (i j : Nat) : Times R 0 none i j ↔ Star R i j := by
  rw [times_none]
  simp only [power, exists_eq_left']

theorem realizes_countedGen {body : Gen} {min : Nat} {max : Option Nat} (greedy : Bool)
    (hb : Gen.Realizes w body R) (hmax : ∀ m ∈ max, min ≤ m) :
    Gen.Realizes w (countedGen min max greedy body) (Times R min max) := by
  by_cases hzero : min = 0 ∧ max = some 0
  · have heq : countedGen min max greedy body = singleGen .jmp := by
      funext code
      rw [countedGen, if_pos hzero]
    obtain ⟨rfl, rfl⟩ := hzero
    rw [heq]
    have hjmp : Gen.Realizes w (singleGen .jmp) (Op.Moves w .jmp) := realizes_single (by simp)
    refine hjmp.congr fun i j => ?_
    rw [times_some (Nat.le_refl 0)]
    simp only [Nat.sub_self, power, exists_eq_left', atMost_zero]
    rfl
  cases max with
  | none =>
    have hstar := realizes_star greedy hb
    cases min with
    | zero =>
      have heq : countedGen 0 none greedy body = starGen greedy body := by
        funext code
        rw [countedGen, if_neg hzero]
        rfl
      rw [heq]
      exact hstar.congr fun i j => (times_star i j).symm
    | succ n =>
      have heq : countedGen (n + 1) none greedy body =
          chainGen ((List.replicate n body).foldl chainGen body) (starGen greedy body) := by
        funext code
        rw [countedGen, if_neg hzero]
        rfl
      rw [heq]
      exact (realizes_chain (realizes_copies hb n) hstar).congr fun i j => (times_none _ i j).symm
  | some m =>
    have hle := hmax m rfl
    by_cases hm : m = min
    · subst hm
      obtain ⟨n, rfl⟩ := Nat.exists_eq_succ_of_ne_zero fun h => hzero ⟨h, congrArg some h⟩
      have heq : countedGen (n + 1) (some (n + 1)) greedy body =
          (List.replicate n body).foldl chainGen body := by
        funext code
        rw [countedGen, if_neg hzero]
        simp [mandatory]
      rw [heq]
      refine (realizes_copies hb n).congr fun i j => ?_
      rw [times_some (Nat.le_refl _), Nat.sub_self]
      simp only [atMost_zero, exists_eq_right]
    · obtain ⟨opt, hopt⟩ := Nat.exists_eq_succ_of_ne_zero (n := m - min) (by omega)
      have heq : countedGen min (some m) greedy body = fun code =>
          optionalCopies greedy body (opt + 1) (mandatory body min code).1
            ⟨((mandatory body min code).1.map Frag.start).getD 0, []⟩ (mandatory body min code).2 := by
        funext code
        rw [countedGen, if_neg hzero]
        simp only [if_neg hm, hopt]
      rw [heq]
      refine (realizes_counted greedy hb min opt).congr fun i j => ?_
      rw [times_some hle, hopt]

theorem realizes_repeat {body : Gen} {min : Nat} {max : Option Nat} (greedy : Bool)
    (hb : Gen.Realizes w body R) (hmax : ∀ m ∈ max, min ≤ m) :
    Gen.Realizes w (repeatGen min max greedy body) (Times R min max) := by
  unfold repeatGen
  split_ifs with h1 h2 h3
  · obtain ⟨rfl, rfl⟩ := h1
    exact (realizes_star greedy hb).congr fun i j => (times_star i j).symm
  · obtain ⟨rfl, rfl⟩ := h2
    refine (realizes_plus greedy hb).congr fun i j => ?_
    simp only [times_none, power_one]
  · obtain ⟨rfl, rfl⟩ := h3
    refine (realizes_opt greedy hb).congr fun i j => ?_
    rw [times_some (Nat.zero_le 1), Nat.sub_zero]
    simp only [power, exists_eq_left', atMost_succ, atMost_zero, exists_eq_right]
  · exact realizes_countedGen greedy hb hmax

/-! ### Groups -/

theorem realizes_group {body : Gen} (index : Nat) (hb : Gen.Realizes w body R) :
    Gen.Realizes w (groupGen index body) R := by
  have hlen0 : ∀ code : Code,
      (code ++ [⟨.save (2 * index), 0, 0⟩] : Code).length = code.length + 1 := by simp
  refine ⟨fun code => ?_, fun code => ?_⟩
  · have hfirst : ∀ p ∈ [(code.length, false)], code.length ≤ p.1 := by
      intro p hp
      rw [List.mem_singleton.mp hp]
    refine (Grows.patch (((grows_append _ _).trans (hb.grows _)).trans (grows_append _ _))
      hfirst).patch fun p hp => ?_
    have := ((hb.frag (code ++ [⟨.save (2 * index), 0, 0⟩])).patches p hp).1
    rw [hlen0] at this
    omega
  · have hf := hb.frag (code ++ [⟨.save (2 * index), 0, 0⟩])
    have hgrows := hb.grows (code ++ [⟨.save (2 * index), 0, 0⟩])
    unfold groupGen
    generalize body (code ++ [⟨.save (2 * index), 0, 0⟩]) = r at hf hgrows ⊢
    obtain ⟨f, B⟩ := r
    dsimp only at hf hgrows ⊢
    have hle := hgrows.length
    rw [hlen0] at hf hle
    have hmodify : ∀ code' : Code, code'.modify code.length (·.setTarget false f.start) =
        patch code' [(code.length, false)] f.start := fun _ => rfl
    rw [hmodify, length_patch, length_patch, List.length_append]
    have hopen : ∀ pc, pc ≠ code.length → ∀ b, (pc, b) ∉ [(code.length, false)] := by
      intro pc hne b hmem
      exact hne (Prod.mk.inj (List.mem_singleton.mp hmem)).1
    generalize hC : patch (patch (B ++ [⟨.save (2 * index + 1), 0, 0⟩]) [(code.length, false)]
      f.start) f.patches B.length = C
    have hlast : C[B.length]? = some ⟨.save (2 * index + 1), 0, 0⟩ := by
      rw [← hC, patch_getElem?_of_not_mem (hf.not_mem fun h => Nat.lt_irrefl _ h.2),
        patch_getElem?_of_not_mem (hopen _ (by omega))]
      simp
    have hbody := hf.chain (fragAt_single hlast fun h => nomatch h) fun pc hpc => by
      have hgt : code.length < pc := hpc.1
      rw [← hC, patch_getElem?, patch_getElem?_of_not_mem (hopen pc (Nat.ne_of_gt hgt)),
        List.getElem?_append_left hpc.2]
    have hhead : (code ++ [⟨.save (2 * index), 0, 0⟩] : Code)[code.length]? =
        some ⟨.save (2 * index), 0, 0⟩ := by simp
    have hfirst : FragAt w _ code.length (code.length + 1) ⟨code.length, [(code.length, false)]⟩ _ :=
      fragAt_single hhead fun h => nomatch h
    have hall := hfirst.chain hbody fun pc hpc => by
      have hlt : pc < code.length + 1 := hpc.2
      rw [← hC, patch_getElem?_of_not_mem (hf.not_mem (not_within_of_lt hlt)), patch_getElem?,
        List.getElem?_append_left (by omega), hgrows.same pc (by rw [hlen0]; exact hlt)]
    refine ⟨hall.patches, hall.realizes.congr fun i j => ?_⟩
    simp only [Op.Moves, exists_eq_right, exists_eq_left']

end Jacl.Regex
