import Jacl.RegexClasses
import Jacl.RegexRepeats

/-!
# The compiler keeps the meaning

What a tree compiles to leads from one position to another where the tree matches what lies
between.
-/

namespace Jacl.Regex

open FlowGraphs

variable {w : List Byte} {code C : Code} {R Q : Nat → Nat → Prop}

/-! ### Leaves -/

theorem oneByte_congr {P P' : Byte → Prop} (h : ∀ c, P c ↔ P' c) (i j : Nat) :
    OneByte w P i j ↔ OneByte w P' i j :=
  exists_congr fun c => and_congr_right fun _ => and_congr_left fun _ => h c

theorem oneByte_or {P P' : Byte → Prop} (i j : Nat) :
    OneByte w P i j ∨ OneByte w P' i j ↔ OneByte w (fun c => P c ∨ P' c) i j := by
  constructor
  · rintro (⟨c, h1, h2, h3⟩ | ⟨c, h1, h2, h3⟩)
    · exact ⟨c, h1, .inl h2, h3⟩
    · exact ⟨c, h1, .inr h2, h3⟩
  · rintro ⟨c, h1, h2 | h2, h3⟩
    · exact .inl ⟨c, h1, h2, h3⟩
    · exact .inr ⟨c, h1, h2, h3⟩

/-- An instruction that consumes a byte. -/
theorem realizes_oneByte {op : Op} {P : Byte → Prop}
    (hmoves : ∀ i j, op.Moves w i j ↔ OneByte w (fun c => op.admits c = true) i j)
    (hop : op ≠ .split) (hP : ∀ c, op.admits c = true ↔ P c) :
    Gen.Realizes w (singleGen op) (OneByte w P) :=
  (realizes_single hop).congr fun i j => (hmoves i j).trans (oneByte_congr hP i j)

theorem letter_bytes {b : Byte} (hb : isAlpha b = true) (c : Byte) :
    SameByte true b c ↔ Range.admits ⟨if ch 'a' ≤ b then b else b + 32,
        if ch 'a' ≤ b then b else b + 32⟩ c = true ∨
      Range.admits ⟨if b ≤ ch 'Z' then b else b - 32, if b ≤ ch 'Z' then b else b - 32⟩ c = true := by
  have ha : (ch 'a').toNat = 97 := rfl
  have hZ : (ch 'Z').toNat = 90 := rfl
  have hself : ∀ x : Byte, Range.admits ⟨x, x⟩ c = true ↔ c = x := by
    intro x
    rw [admits_iff, ← UInt8.toNat_inj]
    dsimp only
    omega
  rw [hself, hself]
  have halpha := (isAlpha_iff b).mp hb
  simp only [SameByte, hb, true_and, swapCase]
  by_cases h : ch 'a' ≤ b
  · have h' : ¬ b ≤ ch 'Z' := by
      rw [UInt8.le_iff_toNat_le] at h ⊢
      omega
    rw [if_pos h, if_pos h, if_neg h']
  · have h' : b ≤ ch 'Z' := by
      rw [UInt8.le_iff_toNat_le] at h ⊢
      omega
    rw [if_neg h, if_neg h, if_pos h', or_comm]

theorem realizes_letter {b : Byte} (hb : isAlpha b = true) :
    Gen.Realizes w (letterGen b) (OneByte w (SameByte true b)) := by
  refine ⟨fun code => grows_append _ _, fun code => ?_⟩
  have hlen : (letterGen b code).2.length = code.length + 3 := by simp [letterGen]
  have h0 : (letterGen b code).2[code.length]? =
      some ⟨.split, code.length + 1, code.length + 2⟩ := by simp [letterGen]
  have h1 : (letterGen b code).2[code.length + 1]? =
      some ⟨.range (if ch 'a' ≤ b then b else b + 32) (if ch 'a' ≤ b then b else b + 32), 0, 0⟩ := by
    simp [letterGen]
  have h2 : (letterGen b code).2[code.length + 2]? =
      some ⟨.range (if b ≤ ch 'Z' then b else b - 32) (if b ≤ ch 'Z' then b else b - 32), 0, 0⟩ := by
    simp [letterGen]
  have hp : ∀ pc e, (pc, e) ∈ (letterGen b code).1.patches ↔
      e = false ∧ (pc = code.length + 1 ∨ pc = code.length + 2) := by
    intro pc e
    simp [letterGen]
    tauto
  refine ⟨fun p hmem => ?_, ⟨?_, ?_, fun i j => ?_⟩⟩
  · obtain ⟨pc, e⟩ := p
    obtain ⟨-, h | h⟩ := (hp pc e).mp hmem
    all_goals
      rw [hlen]
      exact ⟨by dsimp only; omega, by dsimp only; omega⟩
  · rw [hlen]
    exact ⟨Nat.le_refl _, Nat.lt_add_of_pos_right (Nat.succ_pos 2)⟩
  · rw [hlen]
    rintro pc e ⟨hlo, hhi⟩ he hopen
    rw [hp] at hopen
    obtain rfl | rfl | rfl : pc = code.length ∨ pc = code.length + 1 ∨ pc = code.length + 2 := by
      omega
    · rw [codeGraph_target h0]
      cases e
      · exact ⟨Nat.le_succ _, Nat.lt_add_of_pos_right (Nat.succ_pos 1)⟩
      · exact ⟨Nat.le_add_right _ _, Nat.lt_succ_self _⟩
    · cases e with
      | false => exact absurd ⟨rfl, .inl rfl⟩ hopen
      | true => cases edge_inv h1 he rfl
    · cases e with
      | false => exact absurd ⟨rfl, .inr rfl⟩ hopen
      | true => cases edge_inv h2 he rfl
  · change (codeGraph w _).Leads _ code.length i j ↔ _
    have hclosed : ∀ e, (code.length, e) ∉ (letterGen b code).1.patches := by
      intro e
      rw [hp]
      omega
    have hopen1 : (code.length + 1, false) ∈ (letterGen b code).1.patches := (hp _ _).mpr ⟨rfl, .inl rfl⟩
    have hopen2 : (code.length + 2, false) ∈ (letterGen b code).1.patches := (hp _ _).mpr ⟨rfl, .inr rfl⟩
    rw [leads_split h0, leads_single h1 (fun h => nomatch h), leads_single h2 (fun h => nomatch h)]
    simp only [hclosed, hopen1, hopen2, not_true, false_and, not_false_eq_true, true_and, false_or,
      or_false, exists_eq_right]
    rw [oneByte_congr (letter_bytes hb)]
    exact oneByte_or i j

theorem realizes_byte (icase : Bool) (b : Byte) :
    Gen.Realizes w (byteGen icase b) (OneByte w (SameByte icase b)) := by
  unfold byteGen
  split_ifs with h
  · rw [Bool.and_eq_true] at h
    rw [h.1]
    exact realizes_letter h.2
  · refine realizes_oneByte (fun _ _ => Iff.rfl) (fun h => nomatch h) fun c => ?_
    change (c == b) = true ↔ _
    rw [beq_iff_eq]
    refine ⟨.inl, ?_⟩
    rintro (hc | ⟨h1, h2, -⟩)
    · exact hc
    · rw [h1, h2] at h
      exact absurd rfl h

theorem realizes_dot (dotAll : Bool) :
    Gen.Realizes w (singleGen (if dotAll then .anyAll else .any))
      (OneByte w fun c => dotAll = true ∨ c ≠ 10) := by
  cases dotAll with
  | false =>
    refine realizes_oneByte (fun _ _ => Iff.rfl) (fun h => nomatch h) fun c => ?_
    change (c != 10) = true ↔ _
    rw [bne_iff_ne, or_iff_right (fun h => nomatch h)]
  | true =>
    refine realizes_oneByte (fun _ _ => Iff.rfl) (fun h => nomatch h) fun c => ?_
    exact iff_of_true rfl (.inl rfl)

theorem inClass_iff (ranges : List Range) (icase : Bool) (c : Byte) :
    InClass ranges icase c ↔ (classRanges ranges icase).any (·.admits c) = true := by
  cases icase with
  | false =>
    rw [classRanges, if_neg (fun h => nomatch h), List.any_eq_true]
    refine exists_congr fun r => and_congr_right fun _ => ?_
    exact or_iff_left fun h => nomatch h.1
  | true =>
    rw [classRanges, if_pos rfl, any_icaseExpand]
    refine exists_congr fun r => and_congr_right fun _ => or_congr_right ?_
    exact and_iff_right rfl

theorem classOp_moves (ranges : List Range) (i j : Nat) :
    (classOp ranges).Moves w i j ↔ OneByte w (fun c => (classOp ranges).admits c = true) i j := by
  rcases ranges with _ | ⟨r, _ | ⟨s, ranges⟩⟩
  · exact Iff.rfl
  · exact Iff.rfl
  · exact Iff.rfl

theorem classOp_ne_split (ranges : List Range) : classOp ranges ≠ .split := by
  rcases ranges with _ | ⟨r, _ | ⟨s, ranges⟩⟩
  · exact fun h => nomatch h
  · exact fun h => nomatch h
  · exact fun h => nomatch h

theorem realizes_class {ranges : List Range} {negated icase : Bool}
    (h : negated = true → ComplementOk (classRanges ranges icase)) :
    Gen.Realizes w (compileNode (.charClass ranges negated icase))
      (OneByte w fun c => (InClass ranges icase c ↔ negated = false)) := by
  rw [compileNode]
  refine realizes_oneByte (classOp_moves _) (classOp_ne_split _) fun c => ?_
  rw [classOp_admits, inClass_iff]
  cases negated with
  | false =>
    rw [if_neg (fun h => nomatch h)]
    exact (iff_true_right rfl).symm
  | true =>
    rw [if_pos rfl, h rfl c, Bool.not_eq_true', ← Bool.not_eq_true]
    exact (iff_false_right fun h => nomatch h).symm

/-! ### Trees -/

theorem compileNodes_length (as : List Ast) : (compileNodes as).length = as.length := by
  induction as with
  | nil => rfl
  | cons a as ih => exact congrArg (· + 1) ih

mutual

/-- **A tree compiles to a fragment that leads where the tree matches.** -/
theorem compileNode_realizes : ∀ a : Ast, a.Built → a.NegatedIn ComplementOk →
    Gen.Realizes w (compileNode a) (a.Matches w)
  | .literal bytes icase, _, _ => by
    rw [compileNode, Ast.Matches]
    refine realizes_seq ?_
    rw [List.forall₂_map_left_iff, List.forall₂_map_right_iff]
    exact List.forall₂_same.mpr fun b _ => realizes_byte icase b
  | .dot dotAll, _, _ => by
    rw [compileNode, Ast.Matches]
    exact realizes_dot dotAll
  | .anchor kind, _, _ => by
    rw [compileNode, Ast.Matches]
    exact realizes_single fun h => nomatch h
  | .charClass ranges negated icase, _, hneg => by
    rw [Ast.NegatedIn] at hneg
    rw [Ast.Matches]
    exact realizes_class hneg
  | .concat children, hbuilt, hneg => by
    rw [Ast.Built] at hbuilt
    rw [Ast.NegatedIn] at hneg
    rw [compileNode, Ast.Matches]
    exact realizes_seq (compileNodes_realizes children hbuilt hneg)
  | .alt children, hbuilt, hneg => by
    rw [Ast.Built] at hbuilt
    rw [Ast.NegatedIn] at hneg
    rw [compileNode, Ast.Matches]
    refine realizes_alt ?_ (compileNodes_realizes children hbuilt.2 hneg)
    rw [compileNodes_length]
    exact hbuilt.1
  | .repeated child min max greedy, hbuilt, hneg => by
    rw [Ast.Built] at hbuilt
    rw [Ast.NegatedIn] at hneg
    rw [compileNode, Ast.Matches]
    exact realizes_repeat greedy (compileNode_realizes child hbuilt.2 hneg) hbuilt.1
  | .group child index, hbuilt, hneg => by
    rw [Ast.Built] at hbuilt
    rw [Ast.NegatedIn] at hneg
    rw [compileNode, Ast.Matches]
    exact realizes_group index (compileNode_realizes child hbuilt hneg)

theorem compileNodes_realizes : ∀ as : List Ast, builtAll as → negatedInAll ComplementOk as →
    List.Forall₂ (Gen.Realizes w) (compileNodes as) (matchesAll w as)
  | [], _, _ => .nil
  | a :: as, hbuilt, hneg =>
    .cons (compileNode_realizes a hbuilt.1 hneg.1) (compileNodes_realizes as hbuilt.2 hneg.2)

end

/-! ### No match but the last -/

def NoMatch (code : Code) : Prop := ∀ ins ∈ code, ins.op ≠ .matched

/-- What `g` appends holds no match. -/
def Gen.Plain (g : Gen) : Prop := ∀ code, NoMatch code → NoMatch (g code).2

theorem map_op_patch (ps : List PatchLoc) (t : Nat) :
    (patch code ps t).map Inst.op = code.map Inst.op := by
  refine List.ext_getElem? fun pc => ?_
  rw [List.getElem?_map, List.getElem?_map, patch_getElem?, Option.map_map]
  rfl

theorem noMatch_iff : NoMatch code ↔ Op.matched ∉ code.map Inst.op := by
  rw [List.mem_map]
  exact ⟨fun h ⟨ins, hmem, hop⟩ => h ins hmem hop, fun h ins hmem hop => h ⟨ins, hmem, hop⟩⟩

theorem NoMatch.patch (h : NoMatch code) (ps : List PatchLoc) (t : Nat) : NoMatch (patch code ps t) := by
  rw [noMatch_iff, map_op_patch]
  exact noMatch_iff.mp h

theorem NoMatch.append (h : NoMatch code) (hC : NoMatch C) : NoMatch (code ++ C) := by
  intro ins hins
  rcases List.mem_append.mp hins with hins | hins
  · exact h ins hins
  · exact hC ins hins

theorem noMatch_single {ins : Inst} (h : ins.op ≠ .matched) : NoMatch [ins] := by
  intro ins' hins
  rw [List.mem_singleton.mp hins]
  exact h

theorem noMatch_loopSplit (greedy : Bool) (body : Nat) : NoMatch [loopSplit greedy body] :=
  noMatch_single (by rw [loopSplit_op]; exact fun h => nomatch h)

theorem plain_single {op : Op} (h : op ≠ .matched) : (singleGen op).Plain :=
  fun _ hcode => hcode.append (noMatch_single h)

theorem plain_byte (icase : Bool) (b : Byte) : (byteGen icase b).Plain := by
  unfold byteGen
  split_ifs
  · refine fun code hcode => hcode.append fun ins hins => ?_
    simp only [List.mem_cons, List.not_mem_nil, or_false] at hins
    rcases hins with rfl | rfl | rfl
    all_goals exact fun h => nomatch h
  · exact plain_single fun h => nomatch h

theorem plain_chain {a b : Gen} (ha : a.Plain) (hb : b.Plain) : (chainGen a b).Plain :=
  fun code hcode => (hb _ (ha code hcode)).patch _ _

theorem plain_foldl {g : Gen} {gens : List Gen} (hg : g.Plain) (h : ∀ b ∈ gens, b.Plain) :
    (gens.foldl chainGen g).Plain := by
  induction gens generalizing g with
  | nil => exact hg
  | cons b gens ih =>
    obtain ⟨hb, hrest⟩ := List.forall_mem_cons.mp h
    exact ih (plain_chain hg hb) hrest

theorem plain_seq {gens : List Gen} (h : ∀ g ∈ gens, g.Plain) : (seqGen gens).Plain := by
  cases gens with
  | nil => exact plain_single fun h => nomatch h
  | cons g gens =>
    obtain ⟨hg, hrest⟩ := List.forall_mem_cons.mp h
    exact plain_foldl hg hrest

theorem plain_alt {gens : List Gen} (h : ∀ g ∈ gens, g.Plain) : (altGen gens).Plain := by
  have heach : ∀ (gens : List Gen), (∀ g ∈ gens, g.Plain) → ∀ code, NoMatch code →
      NoMatch (compileEach gens code).2 := by
    intro gens h
    induction gens with
    | nil => exact fun _ hcode => hcode
    | cons g gens ih =>
      obtain ⟨hg, hrest⟩ := List.forall_mem_cons.mp h
      exact fun code hcode => ih hrest _ (hg code hcode)
  rcases gens with _ | ⟨g, _ | ⟨g', gens⟩⟩
  · exact plain_single fun h => nomatch h
  · exact h g List.mem_cons_self
  · refine fun code hcode => (heach _ h code hcode).append fun ins hins => ?_
    obtain ⟨k, hk⟩ := List.mem_iff_getElem?.mp hins
    rw [splitChain_op hk]
    exact fun h => nomatch h

theorem plain_star {body : Gen} (greedy : Bool) (h : body.Plain) : (starGen greedy body).Plain :=
  fun code hcode => ((h code hcode).append ((noMatch_loopSplit greedy _).append
    (show NoMatch [⟨.jmp, (body code).2.length, 0⟩] from
      noMatch_single fun h => nomatch h))).patch _ _

theorem plain_copies {body : Gen} (greedy : Bool) (h : body.Plain) (opt : Nat) (chain : Option Frag)
    (exits : Frag) (hcode : NoMatch code) :
    NoMatch (optionalCopies greedy body opt chain exits code).2 := by
  induction opt generalizing chain exits code with
  | zero => exact hcode
  | succ opt ih =>
    rw [optionalCopies, optionalCopy_eq]
    refine ih _ _ (((h _ (hcode.append (noMatch_single ?_))).patch _ _).patch _ _)
    rintro ⟨⟩

theorem plain_mandatory {body : Gen} (h : body.Plain) (n : Nat) (hcode : NoMatch code) :
    NoMatch (mandatory body n code).2 := by
  cases n with
  | zero => exact hcode
  | succ n => exact plain_foldl h (fun b hb => List.eq_of_mem_replicate hb ▸ h) code hcode

theorem plain_repeat {body : Gen} (min : Nat) (max : Option Nat) (greedy : Bool) (h : body.Plain) :
    (repeatGen min max greedy body).Plain := by
  unfold repeatGen
  split_ifs with h1 h2 h3
  · exact plain_star greedy h
  · exact fun code hcode => ((h code hcode).append (noMatch_loopSplit greedy _)).patch _ _
  · exact fun code hcode => (h code hcode).append (noMatch_loopSplit greedy _)
  · intro code hcode
    have hmand := plain_mandatory h min hcode
    unfold countedGen
    split_ifs with hzero
    · exact plain_single (show Op.jmp ≠ .matched from fun h => nomatch h) code hcode
    · generalize mandatory body min code = r at hmand
      obtain ⟨mand, B⟩ := r
      cases max with
      | none =>
        cases mand with
        | none => exact plain_star greedy h B hmand
        | some m => exact (plain_star greedy h B hmand).patch _ _
      | some max =>
        dsimp only
        split_ifs
        · exact hmand
        · exact plain_copies greedy h _ _ _ hmand

theorem plain_group {body : Gen} (index : Nat) (h : body.Plain) : (groupGen index body).Plain := by
  intro code hcode
  have hsave : ∀ slot, NoMatch [⟨.save slot, 0, 0⟩] := fun slot => noMatch_single fun h => nomatch h
  exact (((h _ (hcode.append (hsave _))).append (hsave _)).patch [(code.length, false)] _).patch _ _

mutual

theorem compileNode_plain : ∀ a : Ast, (compileNode a).Plain
  | .literal bytes icase => by
    rw [compileNode]
    refine plain_seq fun g hg => ?_
    obtain ⟨b, -, rfl⟩ := List.mem_map.mp hg
    exact plain_byte icase b
  | .dot dotAll => by
    rw [compileNode]
    cases dotAll
    · exact plain_single fun h => nomatch h
    · exact plain_single fun h => nomatch h
  | .anchor kind => by
    rw [compileNode]
    exact plain_single fun h => nomatch h
  | .charClass ranges negated icase => by
    rw [compileNode]
    refine plain_single ?_
    generalize (if negated = true then _ else _) = ranges'
    rcases ranges' with _ | ⟨r, _ | ⟨s, ranges'⟩⟩
    all_goals exact fun h => nomatch h
  | .concat children => by
    rw [compileNode]
    exact plain_seq (compileNodes_plain children)
  | .alt children => by
    rw [compileNode]
    exact plain_alt (compileNodes_plain children)
  | .repeated child min max greedy => by
    rw [compileNode]
    exact plain_repeat min max greedy (compileNode_plain child)
  | .group child index => by
    rw [compileNode]
    exact plain_group index (compileNode_plain child)

theorem compileNodes_plain : ∀ as : List Ast, ∀ g ∈ compileNodes as, g.Plain
  | [] => nofun
  | a :: as => List.forall_mem_cons.mpr ⟨compileNode_plain a, compileNodes_plain as⟩

end

/-! ### Programs -/

/-- The edge out of a match. -/
def Program.Exit (p : Program) (pc : Nat) (e : Bool) : Prop :=
  e = false ∧ ∃ ins, p.code[pc]? = some ins ∧ ins.op = .matched

/-- What one needs to know of a program to run it: that its targets are instructions, and that
from the start one gets to the match as the tree matches. -/
structure Program.Sound (p : Program) (w : List Byte) (M : Nat → Nat → Prop) : Prop where
  start : p.start < p.code.length
  targets : ∀ pc e, (codeGraph w p.code).edge pc e → ¬ p.Exit pc e →
    (codeGraph w p.code).target pc e < p.code.length
  leads : ∀ i j, (codeGraph w p.code).Leads p.Exit p.start i j ↔ M i j

theorem nfaCompile_sound {ast : Ast} {M : Nat → Nat → Prop}
    (hreal : Gen.Realizes w (compileNode ast) M) : (nfaCompile ast).Sound w M := by
  have hf := hreal.frag []
  have hplain := compileNode_plain ast [] nofun
  have hcode : (nfaCompile ast).code = patch ((compileNode ast []).2 ++ [⟨.matched, 0, 0⟩])
    (compileNode ast []).1.patches (compileNode ast []).2.length := rfl
  have hstart : (nfaCompile ast).start = (compileNode ast []).1.start := rfl
  generalize nfaCompile ast = p at hcode hstart ⊢
  generalize compileNode ast [] = r at hf hplain hcode hstart
  obtain ⟨f, B⟩ := r
  dsimp only at hf hplain hcode hstart
  have hlen : p.code.length = B.length + 1 := by
    rw [hcode, length_patch, List.length_append]
    rfl
  have hbefore : ∀ pc < B.length,
      p.code[pc]? = B[pc]?.map (Inst.retarget f.patches B.length pc) := by
    intro pc hpc
    rw [hcode, patch_getElem?, List.getElem?_append_left hpc]
  have hlast : p.code[B.length]? = some ⟨.matched, 0, 0⟩ := by
    rw [hcode, patch_getElem?_of_not_mem (hf.not_mem fun h => Nat.lt_irrefl _ h.2)]
    simp
  have hall := hf.chain (fragAt_single hlast fun h => nomatch h) fun pc hpc => hbefore pc hpc.2
  have hexit : ∀ pc e, (pc, e) ∈ [(B.length, false)] ↔ p.Exit pc e := by
    intro pc e
    rw [List.mem_singleton, Prod.mk.injEq, and_comm, Program.Exit]
    refine and_congr_right fun _ => ⟨?_, ?_⟩
    · rintro rfl
      exact ⟨_, hlast, rfl⟩
    · rintro ⟨ins, hins, hop⟩
      have hlt := (List.getElem?_eq_some_iff.mp hins).1
      by_contra hne
      rw [hbefore pc (by omega)] at hins
      obtain ⟨ins', hins', rfl⟩ := Option.map_eq_some_iff.mp hins
      exact hplain ins' (List.mem_of_getElem? hins') hop
  have hexit' : (fun pc e => (pc, e) ∈ [(B.length, false)]) = p.Exit := by
    funext pc e
    exact propext (hexit pc e)
  have hreal := hall.realizes
  dsimp only at hreal
  rw [hexit', ← hstart] at hreal
  refine ⟨?_, fun pc e he hx => ?_, fun i j => (hreal.leads i j).trans ?_⟩
  · rw [hlen]
    exact hreal.mem.2
  · have hlt : pc < p.code.length := by
      obtain ⟨ins, hins, -⟩ := he
      exact (List.getElem?_eq_some_iff.mp hins).1
    rw [hlen] at hlt ⊢
    exact (hreal.closed pc e ⟨Nat.zero_le _, hlt⟩ he hx).2
  · exact ⟨fun ⟨k, hk, heq⟩ => heq ▸ hk, fun h => ⟨j, h, rfl⟩⟩

end Jacl.Regex
