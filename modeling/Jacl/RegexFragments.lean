import Jacl.RegexMatches

/-!
# Fragments

Each way to put fragments together relates positions as the trees' matching does; a repetition is
a loop in the graph, or copies in a row.
-/

namespace Jacl.Regex

open FlowGraphs

variable {w : List Byte} {code code' C : Code} {R Q : Nat → Nat → Prop} {f : Frag} {lo hi : Nat}

/-! ### Patching -/

def Inst.retarget (ps : List PatchLoc) (t pc : Nat) (ins : Inst) : Inst :=
  ⟨ins.op, if (pc, false) ∈ ps then t else ins.out, if (pc, true) ∈ ps then t else ins.out1⟩

theorem setTarget_retarget (ps : List PatchLoc) (t pc : Nat) (which : Bool) (ins : Inst) :
    (ins.setTarget which t).retarget ps t pc = ins.retarget ((pc, which) :: ps) t pc := by
  cases which <;> simp [Inst.retarget, Inst.setTarget]

theorem patch_getElem? (ps : List PatchLoc) (t pc : Nat) :
    (patch code ps t)[pc]? = code[pc]?.map (Inst.retarget ps t pc) := by
  induction ps generalizing code with
  | nil =>
    have : Inst.retarget [] t pc = id := by
      funext ins
      simp [Inst.retarget]
    rw [this, Option.map_id]
    rfl
  | cons p ps ih =>
    obtain ⟨n, which⟩ := p
    change (patch (code.modify n (·.setTarget which t)) ps t)[pc]? = _
    rw [ih, List.getElem?_modify, Option.map_eq_map, Option.map_map]
    congr 1
    funext ins
    by_cases hn : n = pc
    · subst hn
      simp only [Function.comp, if_pos]
      exact setTarget_retarget ps t n which ins
    · have h1 : ∀ b, (pc, b) ≠ (n, which) := fun b h => hn (Prod.mk.inj h).1.symm
      simp [Function.comp, if_neg hn, Inst.retarget, h1]

@[simp] theorem length_patch (ps : List PatchLoc) (t : Nat) :
    (patch code ps t).length = code.length := by
  induction ps generalizing code with
  | nil => rfl
  | cons p ps ih =>
    change (patch (code.modify p.1 _) ps t).length = _
    rw [ih, List.length_modify]

theorem retarget_of_not_mem {ps : List PatchLoc} {t pc : Nat} (h : ∀ b, (pc, b) ∉ ps) (ins : Inst) :
    ins.retarget ps t pc = ins := by
  rw [Inst.retarget, if_neg (h false), if_neg (h true)]

theorem patch_getElem?_of_not_mem {ps : List PatchLoc} {t pc : Nat} (h : ∀ b, (pc, b) ∉ ps) :
    (patch code ps t)[pc]? = code[pc]? := by
  have : Inst.retarget ps t pc = id := by
    funext ins
    exact retarget_of_not_mem h ins
  rw [patch_getElem?, this, Option.map_id]
  rfl

/-! ### Code that grows -/

theorem Grows.refl (code : Code) : Grows code code := ⟨Nat.le_refl _, fun _ _ => rfl⟩

theorem Grows.trans (h : Grows code code') (h' : Grows code' C) : Grows code C :=
  ⟨Nat.le_trans h.length h'.length,
    fun pc hpc => (h'.same pc (Nat.lt_of_lt_of_le hpc h.length)).trans (h.same pc hpc)⟩

theorem grows_append (code code' : Code) : Grows code (code ++ code') :=
  ⟨by simp, fun _ hpc => List.getElem?_append_left hpc⟩

/-- Patches of what is new leave what was there. -/
theorem Grows.patch {ps : List PatchLoc} {t : Nat} (h : Grows code code')
    (hps : ∀ p ∈ ps, code.length ≤ p.1) : Grows code (patch code' ps t) := by
  refine ⟨by rw [length_patch]; exact h.length, fun pc hpc => ?_⟩
  rw [patch_getElem?_of_not_mem, h.same pc hpc]
  intro b hb
  exact absurd (hps _ hb) (Nat.not_le.mpr hpc)

/-! ### Graphs of codes that agree -/

theorem extends_of_same {S : Nat → Prop} {P : Nat → Bool → Prop}
    (h : ∀ pc, S pc → code'[pc]? = code[pc]?) : Extends (codeGraph w code) (codeGraph w code') S P where
  edge pc e hs := by simp only [codeGraph, h pc hs]
  moves pc e i j hs := by simp only [codeGraph, h pc hs]
  target pc e hs _ _ := by simp only [codeGraph, h pc hs]

theorem extends_of_retarget {S : Nat → Prop} {ps : List PatchLoc} {t : Nat}
    (h : ∀ pc, S pc → code'[pc]? = code[pc]?.map (Inst.retarget ps t pc)) :
    Extends (codeGraph w code) (codeGraph w code') S (fun pc e => (pc, e) ∈ ps) where
  edge pc e hs := by
    simp only [codeGraph, h pc hs, Option.map_eq_some_iff]
    constructor
    · rintro ⟨ins, ⟨ins', h1, rfl⟩, h2⟩
      exact ⟨ins', h1, h2⟩
    · rintro ⟨ins, h1, h2⟩
      exact ⟨_, ⟨ins, h1, rfl⟩, h2⟩
  moves pc e i j hs := by
    simp only [codeGraph, h pc hs, Option.map_eq_some_iff]
    constructor
    · rintro ⟨ins, ⟨ins', h1, rfl⟩, h2⟩
      exact ⟨ins', h1, h2⟩
    · rintro ⟨ins, h1, h2⟩
      exact ⟨_, ⟨ins, h1, rfl⟩, h2⟩
  target pc e hs he hp := by
    obtain ⟨ins, h1, -⟩ := he
    cases e <;> simp [codeGraph, h pc hs, h1, Inst.target, Inst.retarget, hp]

theorem target_of_retarget {S : Nat → Prop} {ps : List PatchLoc} {t : Nat}
    (h : ∀ pc, S pc → code'[pc]? = code[pc]?.map (Inst.retarget ps t pc)) :
    ∀ pc e, S pc → (codeGraph w code).edge pc e → (pc, e) ∈ ps →
      (codeGraph w code').target pc e = t := by
  rintro pc e hs ⟨ins, h1, -⟩ hp
  cases e <;> simp [codeGraph, h pc hs, h1, Inst.target, Inst.retarget, hp]

/-! ### One instruction -/

theorem codeGraph_moves {pc : Nat} {ins : Inst} (h : code[pc]? = some ins) (which : Bool) (i j : Nat) :
    (codeGraph w code).moves pc which i j ↔ ins.hasEdge which ∧ ins.op.Moves w i j := by
  simp only [codeGraph, h, Option.some.injEq, exists_eq_left']

theorem codeGraph_target {pc : Nat} {ins : Inst} (h : code[pc]? = some ins) (which : Bool) :
    (codeGraph w code).target pc which = ins.target which := by
  simp only [codeGraph, h, Option.map_some, Option.getD_some]

/-- From an instruction with a single target. -/
theorem leads_single {D : Nat → Bool → Prop} {pc : Nat} {ins : Inst} (h : code[pc]? = some ins)
    (hop : ins.op ≠ .split) (i j : Nat) : (codeGraph w code).Leads D pc i j ↔
      ∃ k, ins.op.Moves w i k ∧
        (D pc false ∧ k = j ∨ ¬ D pc false ∧ (codeGraph w code).Leads D ins.out k j) := by
  rw [Graph.leads_iff]
  constructor
  · rintro ⟨which, k, hm, hrest⟩
    rw [codeGraph_moves h] at hm
    rw [codeGraph_target h] at hrest
    cases which with
    | false => exact ⟨k, hm.2, hrest⟩
    | true => exact absurd (hm.1 rfl) hop
  · rintro ⟨k, hm, hrest⟩
    refine ⟨false, k, (codeGraph_moves h _ _ _).mpr ⟨nofun, hm⟩, ?_⟩
    rw [codeGraph_target h]
    exact hrest

/-- From a split. -/
theorem leads_split {D : Nat → Bool → Prop} {pc s t : Nat} (h : code[pc]? = some ⟨.split, s, t⟩)
    (i j : Nat) : (codeGraph w code).Leads D pc i j ↔
      (D pc false ∧ i = j ∨ ¬ D pc false ∧ (codeGraph w code).Leads D s i j) ∨
      (D pc true ∧ i = j ∨ ¬ D pc true ∧ (codeGraph w code).Leads D t i j) := by
  rw [Graph.leads_iff]
  constructor
  · rintro ⟨which, k, hm, hrest⟩
    obtain ⟨-, rfl : i = k⟩ := (codeGraph_moves h _ _ _).mp hm
    rw [codeGraph_target h] at hrest
    cases which with
    | false => exact .inl hrest
    | true => exact .inr hrest
  · have hm : ∀ which, (codeGraph w code).moves pc which i i :=
      fun which => (codeGraph_moves h _ _ _).mpr ⟨fun _ => rfl, rfl⟩
    rintro (hrest | hrest)
    · exact ⟨false, i, hm _, by rw [codeGraph_target h]; exact hrest⟩
    · exact ⟨true, i, hm _, by rw [codeGraph_target h]; exact hrest⟩

theorem edge_inv {pc : Nat} {ins : Inst} {e : Bool} (h : code[pc]? = some ins)
    (he : (codeGraph w code).edge pc e) : ins.hasEdge e := by
  obtain ⟨ins', h', he⟩ := he
  rw [h] at h'
  cases h'
  exact he

namespace Gen.Realizes

theorem congr {g : Gen} (h : Gen.Realizes w g R) (hR : ∀ i j, R i j ↔ Q i j) :
    Gen.Realizes w g Q :=
  ⟨h.grows, fun code => ⟨(h.frag code).patches, (h.frag code).realizes.congr hR⟩⟩

end Gen.Realizes

theorem fragAt_single {pc s t : Nat} {op : Op} (h : code[pc]? = some ⟨op, s, t⟩) (hop : op ≠ .split) :
    FragAt w code pc (pc + 1) ⟨pc, [(pc, false)]⟩ (op.Moves w) := by
  refine ⟨?_, ⟨⟨Nat.le_refl _, Nat.lt_succ_self _⟩, ?_, fun i j => ?_⟩⟩
  · rintro p hp
    rw [List.mem_singleton.mp hp]
    exact ⟨Nat.le_refl _, Nat.lt_succ_self _⟩
  · rintro pc' e ⟨hlo, hhi⟩ he hp
    obtain rfl : pc' = pc := by omega
    cases e with
    | false => exact absurd (List.mem_singleton.mpr rfl) hp
    | true => exact absurd (edge_inv h he rfl) hop
  · rw [leads_single h hop]
    simp

theorem realizes_single {op : Op} (hop : op ≠ .split) : Gen.Realizes w (singleGen op) (op.Moves w) := by
  refine ⟨fun code => grows_append _ _, fun code => ?_⟩
  have hlen : (singleGen op code).2.length = code.length + 1 := by simp [singleGen]
  rw [hlen]
  exact fragAt_single (s := 0) (t := 0) (by simp [singleGen]) hop

/-! ### One after the other -/

theorem not_within_of_lt {pc : Nat} (h : pc < lo) : ¬ Within lo hi pc := by
  rintro ⟨hle, -⟩
  omega

/-- Patches of a fragment change nothing outside of it. -/
theorem FragAt.not_mem {pc : Nat} (h : FragAt w code lo hi f R) (hpc : ¬ Within lo hi pc) (b : Bool) :
    (pc, b) ∉ f.patches := by
  intro hb
  exact hpc (h.patches _ hb)

theorem FragAt.mono (h : FragAt w code lo hi f R) (hC : ∀ pc, Within lo hi pc → C[pc]? = code[pc]?) :
    FragAt w C lo hi f R where
  patches := h.patches
  realizes := {
    mem := h.realizes.mem
    closed := h.realizes.closed_open (extends_of_same hC) fun _ _ _ => Iff.rfl
    leads := h.realizes.leads_open (extends_of_same hC) fun _ _ _ => Iff.rfl }

/-- The exits of a fragment are led to the one behind it. -/
theorem FragAt.chain {mid : Nat} {g : Frag} (hf : FragAt w code lo mid f R) (hg : FragAt w C mid hi g Q)
    (hC : ∀ pc, Within lo mid pc → C[pc]? = code[pc]?.map (Inst.retarget f.patches g.start pc)) :
    FragAt w C lo hi ⟨f.start, g.patches⟩ (fun i j => ∃ k, R i k ∧ Q k j) := by
  have hstart := hf.realizes.mem
  have hlo : lo ≤ mid := Nat.le_trans hstart.1 (Nat.le_of_lt hstart.2)
  have hmid : mid ≤ hi := Nat.le_trans hg.realizes.mem.1 (Nat.le_of_lt hg.realizes.mem.2)
  refine ⟨fun p hp => ?_, ⟨⟨hstart.1, Nat.lt_of_lt_of_le hstart.2 hmid⟩, ?_, fun i j => ?_⟩⟩
  · obtain ⟨h1, h2⟩ := hg.patches p hp
    exact ⟨Nat.le_trans hlo h1, h2⟩
  · rintro pc e ⟨h1, h2⟩ he hp
    rcases Nat.lt_or_ge pc mid with hlt | hge
    · rcases hf.realizes.closed_patched (extends_of_retarget hC) (target_of_retarget hC) pc e
        ⟨h1, hlt⟩ he with h | h
      · exact ⟨h.1, Nat.lt_of_lt_of_le h.2 hmid⟩
      · rw [h]
        exact ⟨Nat.le_trans hlo hg.realizes.mem.1, hg.realizes.mem.2⟩
    · have h := hg.realizes.closed pc e ⟨hge, h2⟩ he hp
      exact ⟨Nat.le_trans hlo h.1, h.2⟩
  · refine (hf.realizes.leads_patched (extends_of_retarget hC) (target_of_retarget hC)
      (fun pc e hpc _ => hg.not_mem (not_within_of_lt hpc.2) e) i j).trans ?_
    exact exists_congr fun k => and_congr_right fun _ => hg.realizes.leads k j

theorem realizes_chain {a b : Gen} (ha : Gen.Realizes w a R) (hb : Gen.Realizes w b Q) :
    Gen.Realizes w (chainGen a b) (fun i j => ∃ k, R i k ∧ Q k j) := by
  refine ⟨fun code => ?_, fun code => ?_⟩
  · refine ((ha.grows code).trans (hb.grows _)).patch fun p hp => ?_
    exact ((ha.frag code).patches p hp).1
  have hfa := ha.frag code
  have hfb := hb.frag (a code).2
  have hlen : (chainGen a b code).2.length = (b (a code).2).2.length := length_patch _ _
  rw [hlen]
  refine hfa.chain (hfb.mono fun pc hpc => ?_) fun pc hpc => ?_
  · exact patch_getElem?_of_not_mem (hfa.not_mem fun h => absurd h.2 (Nat.not_lt.mpr hpc.1))
  · rw [← (hb.grows (a code).2).same pc hpc.2]
    exact patch_getElem? _ _ _

theorem realizes_seq {gens : List Gen} {Rs : List (Nat → Nat → Prop)}
    (h : List.Forall₂ (Gen.Realizes w) gens Rs) : Gen.Realizes w (seqGen gens) (seqRel Rs) := by
  cases h with
  | nil => exact realizes_single (by simp)
  | @cons g R gens Rs hg hrest =>
    induction hrest generalizing g R with
    | nil =>
      refine hg.congr fun i j => ⟨fun h => ⟨j, h, rfl⟩, ?_⟩
      rintro ⟨k, h, rfl⟩
      exact h
    | @cons g' R' gens Rs hg' _ ih =>
      refine (ih (realizes_chain hg hg')).congr fun i j => ?_
      constructor
      · rintro ⟨k, ⟨l, h1, h2⟩, h3⟩
        exact ⟨l, h1, k, h2, h3⟩
      · rintro ⟨l, h1, k, h2, h3⟩
        exact ⟨k, ⟨l, h1, h2⟩, h3⟩

/-! ### Alternation -/

/-- Fragments in a row, from instruction `lo` up to `hi`. -/
inductive Laid (w : List Byte) (code : Code) (hi : Nat) :
    Nat → List Frag → List (Nat → Nat → Prop) → Prop
  | nil : Laid w code hi hi [] []
  | cons {lo mid f R fs Rs} (head : FragAt w code lo mid f R) (below : lo ≤ mid)
      (tail : Laid w code hi mid fs Rs) : Laid w code hi lo (f :: fs) (R :: Rs)

namespace Laid

variable {fs : List Frag} {Rs : List (Nat → Nat → Prop)}

theorem le (h : Laid w code hi lo fs Rs) : lo ≤ hi := by
  induction h with
  | nil => exact Nat.le_refl _
  | cons _ below _ ih => exact Nat.le_trans below ih

theorem patches (h : Laid w code hi lo fs Rs) : ∀ p ∈ fs.flatMap Frag.patches, Within lo hi p.1 := by
  induction h with
  | nil => exact nofun
  | cons head below tail ih =>
    intro p hp
    rw [List.flatMap_cons, List.mem_append] at hp
    rcases hp with hp | hp
    · exact ⟨(head.patches p hp).1, Nat.lt_of_lt_of_le (head.patches p hp).2 tail.le⟩
    · exact ⟨Nat.le_trans below (ih p hp).1, (ih p hp).2⟩

theorem starts (h : Laid w code hi lo fs Rs) : ∀ f ∈ fs, Within lo hi f.start := by
  induction h with
  | nil => exact nofun
  | cons head below tail ih =>
    intro f hf
    rcases List.mem_cons.mp hf with rfl | hf
    · exact ⟨head.realizes.mem.1, Nat.lt_of_lt_of_le head.realizes.mem.2 tail.le⟩
    · exact ⟨Nat.le_trans below (ih f hf).1, (ih f hf).2⟩

/-- Where each fragment leads, and that none leads anywhere else. -/
theorem leads (h : Laid w code hi lo fs Rs) {D : Nat → Bool → Prop}
    (hC : ∀ pc, Within lo hi pc → C[pc]? = code[pc]?)
    (hD : ∀ pc e, Within lo hi pc → (D pc e ↔ (pc, e) ∈ fs.flatMap Frag.patches)) :
    List.Forall₂ (fun f R => ∀ i j, (codeGraph w C).Leads D f.start i j ↔ R i j) fs Rs ∧
      ∀ pc e, Within lo hi pc → (codeGraph w C).edge pc e → ¬ D pc e →
        Within lo hi ((codeGraph w C).target pc e) := by
  induction h with
  | nil =>
    refine ⟨.nil, ?_⟩
    rintro pc e ⟨h1, h2⟩
    omega
  | @cons lo mid f R fs Rs head below tail ih =>
    have hle := tail.le
    have hC1 : ∀ pc, Within lo mid pc → C[pc]? = code[pc]? :=
      fun pc hpc => hC pc ⟨hpc.1, Nat.lt_of_lt_of_le hpc.2 hle⟩
    have hD1 : ∀ pc e, Within lo mid pc → (D pc e ↔ (pc, e) ∈ f.patches) := by
      intro pc e hpc
      rw [hD pc e ⟨hpc.1, Nat.lt_of_lt_of_le hpc.2 hle⟩, List.flatMap_cons, List.mem_append,
        or_iff_left]
      intro hmem
      exact absurd (tail.patches _ hmem).1 (Nat.not_le.mpr hpc.2)
    have hD2 : ∀ pc e, Within mid hi pc → (D pc e ↔ (pc, e) ∈ fs.flatMap Frag.patches) := by
      intro pc e hpc
      rw [hD pc e ⟨Nat.le_trans below hpc.1, hpc.2⟩, List.flatMap_cons, List.mem_append,
        or_iff_right]
      intro hmem
      exact absurd (head.patches _ hmem).2 (Nat.not_lt.mpr hpc.1)
    obtain ⟨hleads, hclosed⟩ :=
      ih (fun pc hpc => hC pc ⟨Nat.le_trans below hpc.1, hpc.2⟩) hD2
    refine ⟨.cons (head.realizes.leads_open (extends_of_same hC1) hD1) hleads, ?_⟩
    rintro pc e ⟨h1, h2⟩ he hp
    rcases Nat.lt_or_ge pc mid with hlt | hge
    · have h := head.realizes.closed_open (extends_of_same hC1) hD1 pc e ⟨h1, hlt⟩ he hp
      exact ⟨h.1, Nat.lt_of_lt_of_le h.2 hle⟩
    · have h := hclosed pc e ⟨hge, h2⟩ he hp
      exact ⟨Nat.le_trans below h.1, h.2⟩

theorem mono (h : Laid w code hi lo fs Rs) (hC : ∀ pc, Within lo hi pc → C[pc]? = code[pc]?) :
    Laid w C hi lo fs Rs := by
  induction h with
  | nil => exact .nil
  | cons head below tail ih =>
    refine .cons (head.mono fun pc hpc => ?_) below (ih fun pc hpc => ?_)
    · exact hC pc ⟨hpc.1, Nat.lt_of_lt_of_le hpc.2 tail.le⟩
    · exact hC pc ⟨Nat.le_trans below hpc.1, hpc.2⟩

end Laid

theorem compileEach_laid {gens : List Gen} {Rs : List (Nat → Nat → Prop)}
    (h : List.Forall₂ (Gen.Realizes w) gens Rs) (code : Code) :
    Grows code (compileEach gens code).2 ∧
      Laid w (compileEach gens code).2 (compileEach gens code).2.length code.length
        (compileEach gens code).1 Rs := by
  induction h generalizing code with
  | nil => exact ⟨.refl code, .nil⟩
  | @cons g R gens Rs hg _ ih =>
    obtain ⟨hgrows, hlaid⟩ := ih (g code).2
    refine ⟨(hg.grows code).trans hgrows, .cons ?_ (hg.grows code).length hlaid⟩
    exact (hg.frag code).mono fun pc hpc => hgrows.same pc hpc.2

/-- A split of the chain leads to fragments or to the next split. -/
theorem splitChain_target {n k : Nat} {fs : List Frag} {ins : Inst} (which : Bool)
    (h : (splitChain n fs)[k]? = some ins) :
    (∃ f ∈ fs, ins.target which = f.start) ∨
      ins.target which = n + k + 1 ∧ k + 1 < (splitChain n fs).length := by
  fun_induction splitChain n fs generalizing k with
  | case1 n f g h' fs ih =>
    cases k with
    | zero =>
      obtain rfl : _ = ins := Option.some.inj h
      cases which with
      | false => exact .inl ⟨f, List.mem_cons_self, rfl⟩
      | true =>
        refine .inr ⟨rfl, ?_⟩
        rcases fs with _ | ⟨_, _⟩ <;> simp [splitChain]
    | succ k =>
      rcases ih h with ⟨f', hf', heq⟩ | ⟨heq, hk⟩
      · exact .inl ⟨f', List.mem_cons_of_mem _ hf', heq⟩
      · refine .inr ⟨by omega, ?_⟩
        rw [List.length_cons]
        omega
  | case2 n f g =>
    cases k with
    | zero =>
      obtain rfl : _ = ins := Option.some.inj h
      cases which with
      | false => exact .inl ⟨f, List.mem_cons_self, rfl⟩
      | true => exact .inl ⟨g, List.mem_cons_of_mem _ List.mem_cons_self, rfl⟩
    | succ k => cases h
  | case3 => cases h

theorem splitChain_op {n k : Nat} {fs : List Frag} {ins : Inst}
    (h : (splitChain n fs)[k]? = some ins) : ins.op = .split := by
  fun_induction splitChain n fs generalizing k with
  | case1 n f g h' fs ih =>
    cases k with
    | zero => exact (congrArg Inst.op (Option.some.inj h)).symm
    | succ k => exact ih h
  | case2 n f g =>
    cases k with
    | zero => exact (congrArg Inst.op (Option.some.inj h)).symm
    | succ k => cases h
  | case3 => cases h

/-- The chain of splits leads to each of the fragments. -/
theorem leads_splitChain {n : Nat} {fs : List Frag} {Rs : List (Nat → Nat → Prop)}
    {D : Nat → Bool → Prop} (hlen : 2 ≤ fs.length)
    (hC : ∀ k < (splitChain n fs).length, C[n + k]? = (splitChain n fs)[k]?)
    (hD : ∀ pc e, n ≤ pc → ¬ D pc e)
    (h : List.Forall₂ (fun f R => ∀ i j, (codeGraph w C).Leads D f.start i j ↔ R i j) fs Rs)
    (i j : Nat) : (codeGraph w C).Leads D n i j ↔ ∃ R ∈ Rs, R i j := by
  fun_induction splitChain n fs generalizing Rs with
  | case1 n f g h' fs ih =>
    cases h with
    | @cons _ R _ Rs hf hrest =>
      have hget : C[n]? = some ⟨.split, f.start, n + 1⟩ := hC 0 (Nat.succ_pos _)
      have hnext : ∀ k < (splitChain (n + 1) (g :: h' :: fs)).length,
          C[n + 1 + k]? = (splitChain (n + 1) (g :: h' :: fs))[k]? := by
        intro k hk
        rw [Nat.add_assoc, Nat.add_comm 1 k]
        exact hC (k + 1) (Nat.succ_lt_succ hk)
      rw [leads_split hget, ih (by simp) hnext (fun pc e hpc => hD pc e (by omega)) hrest, hf]
      simp [hD n _ (Nat.le_refl n)]
  | case2 n f g =>
    obtain ⟨R, Rs, hf, hrest, rfl⟩ := List.forall₂_cons_left_iff.mp h
    obtain ⟨R', Rs', hg, hnil, rfl⟩ := List.forall₂_cons_left_iff.mp hrest
    obtain rfl := List.forall₂_nil_left_iff.mp hnil
    have hget : C[n]? = some ⟨.split, f.start, g.start⟩ := hC 0 (Nat.succ_pos _)
    rw [leads_split hget, hf, hg]
    simp [hD n _ (Nat.le_refl n)]
  | case3 fs n h1 h2 =>
    rcases fs with _ | ⟨f, _ | ⟨g, _ | ⟨h', fs⟩⟩⟩
    · cases hlen
    · simp at hlen
    · exact absurd rfl (h2 f g)
    · exact absurd rfl (h1 f g h' fs)

theorem compileEach_length (gens : List Gen) (code : Code) :
    (compileEach gens code).1.length = gens.length := by
  induction gens generalizing code with
  | nil => rfl
  | cons g gens ih => exact congrArg (· + 1) (ih _)

theorem realizes_alt {gens : List Gen} {Rs : List (Nat → Nat → Prop)} (hlen : 2 ≤ gens.length)
    (h : List.Forall₂ (Gen.Realizes w) gens Rs) :
    Gen.Realizes w (altGen gens) (fun i j => ∃ R ∈ Rs, R i j) := by
  have heq : ∀ code, altGen gens code =
      (⟨(compileEach gens code).2.length, (compileEach gens code).1.flatMap Frag.patches⟩,
        (compileEach gens code).2 ++
          splitChain (compileEach gens code).2.length (compileEach gens code).1) := by
    intro code
    rcases gens with _ | ⟨g, _ | ⟨g', gens⟩⟩
    · cases hlen
    · simp at hlen
    · rfl
  refine ⟨fun code => ?_, fun code => ?_⟩
  · rw [heq]
    exact (compileEach_laid h code).1.trans (grows_append _ _)
  · obtain ⟨hgrows, hlaid⟩ := compileEach_laid h code
    rw [heq]
    have hlen' := compileEach_length gens code
    generalize compileEach gens code = r at hgrows hlaid hlen' ⊢
    obtain ⟨fs, mid⟩ := r
    simp only at hgrows hlaid hlen' ⊢
    have hfs : 2 ≤ fs.length := hlen' ▸ hlen
    have hpos : 0 < (splitChain mid.length fs).length := by
      rcases fs with _ | ⟨f, _ | ⟨g, _ | ⟨h', fs⟩⟩⟩
      · cases hfs
      · simp at hfs
      · exact Nat.succ_pos _
      · exact Nat.succ_pos _
    have hle := hgrows.length
    have hC : ∀ pc, Within code.length mid.length pc → (mid ++ splitChain mid.length fs)[pc]? = mid[pc]? :=
      fun pc hpc => List.getElem?_append_left hpc.2
    obtain ⟨hleads, hclosed⟩ := hlaid.leads (D := fun pc e => (pc, e) ∈ fs.flatMap Frag.patches) hC
      fun _ _ _ => Iff.rfl
    have hD : ∀ pc e, mid.length ≤ pc → (pc, e) ∉ fs.flatMap Frag.patches := by
      intro pc e hpc hmem
      exact absurd (hlaid.patches _ hmem).2 (Nat.not_lt.mpr hpc)
    refine ⟨fun p hp => ?_, ⟨?_, ?_, fun i j => ?_⟩⟩
    · obtain ⟨h1, h2⟩ := hlaid.patches p hp
      rw [List.length_append]
      exact ⟨h1, by omega⟩
    · rw [List.length_append]
      exact ⟨hle, by dsimp only; omega⟩
    · rintro pc e ⟨h1, h2⟩ he hp
      rw [List.length_append] at h2 ⊢
      rcases Nat.lt_or_ge pc mid.length with hlt | hge
      · obtain ⟨h3, h4⟩ := hclosed pc e ⟨h1, hlt⟩ he hp
        exact ⟨h3, by omega⟩
      · obtain ⟨ins, hins, -⟩ := he
        rw [codeGraph_target hins]
        rw [List.getElem?_append_right hge] at hins
        rcases splitChain_target e hins with ⟨f, hf, heq⟩ | ⟨heq, hk⟩
        · obtain ⟨h3, h4⟩ := hlaid.starts f hf
          rw [heq]
          exact ⟨h3, by omega⟩
        · rw [heq]
          exact ⟨by omega, by omega⟩
    · refine leads_splitChain hfs (fun k hk => ?_) hD hleads i j
      rw [List.getElem?_append_right (Nat.le_add_right _ _), Nat.add_sub_cancel_left]

end Jacl.Regex
