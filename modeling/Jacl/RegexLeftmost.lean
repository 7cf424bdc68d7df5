import Jacl.RegexSearch

/-!
# Leftmost and longest

The program that a parsed pattern compiles to finds the leftmost match of the pattern, and of those
that begin there the longest, or the shortest if a quantifier is lazy; unless the complement of a
negated class goes wrong.
-/

namespace Jacl.Regex

open FlowGraphs

variable {w : List Byte}

/-! ### Parsed trees -/

theorem literalLen_le {c : Byte} {rest : List Byte} : literalLen c (c :: rest) ≠ 0 :=
  Nat.ne_of_gt (literalLen_pos _ _)

theorem built_concatOf {parts : List Ast} (h : ∀ a ∈ parts, a.Built) : (concatOf parts).Built := by
  rcases parts with _ | ⟨a, _ | ⟨b, parts⟩⟩
  · exact builtAll_iff.mpr h
  · exact h a (List.mem_singleton.mpr rfl)
  · exact builtAll_iff.mpr h

theorem built_altOf {first : Ast} {branches : List Ast} (hfirst : first.Built)
    (h : ∀ a ∈ branches, a.Built) : (altOf first branches).Built := by
  rcases branches with _ | ⟨b, branches⟩
  · exact hfirst
  · refine ⟨Nat.succ_le_succ (Nat.succ_le_succ (Nat.zero_le _)), builtAll_iff.mpr ?_⟩
    exact List.forall_mem_cons.mpr ⟨hfirst, h⟩

theorem Leaf.built {p q : Parser} {a : Ast} (h : Leaf p a q) : a.Built := by
  cases h with
  | dot => trivial
  | bol => trivial
  | eol => trivial
  | charClass => trivial
  | shorthand => trivial
  | complement => trivial
  | word => trivial
  | nonWord => trivial
  | escaped => exact List.cons_ne_nil _ _
  | @literal c rest hp =>
    change p.rest.take (literalLen c p.rest) ≠ []
    rw [hp]
    exact fun h => (List.take_eq_nil_iff.mp h).elim literalLen_le (List.cons_ne_nil c rest)

theorem Quantifier.bounds {text rest : List Byte} {min : Nat} {max : Option Nat} {greedy : Bool}
    (h : Quantifier text min max greedy rest) : ∀ m ∈ max, min ≤ m := by
  cases h with
  | simple hs _ =>
    intro m hm
    unfold simpleQuantifier at hs
    split_ifs at hs
    · cases hs
      cases hm
    · cases hs
      cases hm
    · cases hs
      exact Nat.zero_le m
  | counted _ hb _ => exact hb

/-- What the grammar derives is as the parser builds it. -/
theorem Derives.built {k : Kind} {p q : Parser} {asts : List Ast} (h : Derives k p asts q) :
    ∀ a ∈ asts, a.Built := by
  induction h with
  | regex _ _ ih1 ih2 =>
    intro a ha
    rw [List.mem_singleton.mp ha]
    exact built_altOf (ih1 _ (List.mem_singleton.mpr rfl)) ih2
  | noBranch => exact nofun
  | branch _ _ _ ih1 ih2 =>
    exact List.forall_mem_cons.mpr ⟨ih1 _ (List.mem_singleton.mpr rfl), ih2⟩
  | concat _ ih =>
    intro a ha
    rw [List.mem_singleton.mp ha]
    exact built_concatOf ih
  | noPart => exact nofun
  | part _ _ ih1 ih2 => exact List.forall_mem_cons.mpr ⟨ih1 _ (List.mem_singleton.mpr rfl), ih2⟩
  | bare _ _ ih => exact ih
  | quantified _ hq ih =>
    intro a ha
    rw [List.mem_singleton.mp ha]
    exact ⟨hq.bounds, ih _ (List.mem_singleton.mpr rfl)⟩
  | leaf h =>
    intro a ha
    rw [List.mem_singleton.mp ha]
    exact h.built
  | @group p q text rest inner _ _ _ _ ih =>
    intro a ha
    rw [List.mem_singleton.mp ha]
    exact ih inner (List.mem_singleton.mpr rfl)
  | flagged _ _ _ _ ih =>
    intro a ha
    rw [List.mem_singleton.mp ha]
    exact ih _ (List.mem_singleton.mpr rfl)
  | setFlags =>
    intro a ha
    rw [List.mem_singleton.mp ha]
    trivial

theorem nfaParse_built {pattern : List Byte} {ast : Ast} (h : nfaParse pattern = .ok ast) :
    ast.Built := by
  cases hp : parsed pattern with
  | error e =>
    rw [nfaParse_of_error hp] at h
    cases h
  | ok r =>
    obtain ⟨a, q⟩ := r
    rw [nfaParse_of_parsed hp] at h
    split_ifs at h
    cases h
    exact ((soundAt _).regex hp).1.built _ (List.mem_singleton.mpr rfl)

/-! ### Compiled programs -/

theorem Program.Sound.successors_lt {p : Program} {M : Nat → Nat → Prop} (h : p.Sound w M) :
    ∀ pc < p.code.length, ∀ pc' ∈ (p.code[pc]?.map Inst.successors).getD [],
      pc' < p.code.length := by
  intro pc hpc pc' hpc'
  obtain ⟨ins, hins⟩ : ∃ ins, p.code[pc]? = some ins := ⟨_, List.getElem?_eq_getElem hpc⟩
  have hmem : pc' ∈ ins.successors := by simpa [hins] using hpc'
  have hlt : ∀ e, ins.hasEdge e → ins.op ≠ .matched → ins.target e < p.code.length := by
    intro e he hop
    have := h.targets pc e ⟨ins, hins, he⟩ fun ⟨_, ins', hins', hop'⟩ => by
      rw [hins] at hins'
      cases hins'
      exact hop hop'
    rwa [codeGraph_target hins] at this
  obtain ⟨op, s, s'⟩ := ins
  cases op with
  | split =>
    rcases List.mem_pair.mp hmem with rfl | rfl
    · exact hlt false nofun fun h => nomatch h
    · exact hlt true (fun _ => rfl) fun h => nomatch h
  | jmp =>
    rw [List.mem_singleton.mp hmem]
    exact hlt false nofun fun h => nomatch h
  | save slot =>
    rw [List.mem_singleton.mp hmem]
    exact hlt false nofun fun h => nomatch h
  | anchor kind =>
    rw [List.mem_singleton.mp hmem]
    exact hlt false nofun fun h => nomatch h
  | literal byte => cases hmem
  | range lo hi => cases hmem
  | cls ranges => cases hmem
  | any => cases hmem
  | anyAll => cases hmem
  | matched => cases hmem

theorem nfaCompile_filtered {ast : Ast} {M : Nat → Nat → Prop} (h : (nfaCompile ast).Sound w M) :
    (nfaCompile ast).Filtered where
  bytes pc ins b hreach hins hadm := by
    have := mem_firstReached h.start h.successors_lt hreach hins
    exact List.any_eq_true.mpr ⟨ins, this, hadm⟩
  empty pc hreach hmatch := by
    obtain ⟨ins, hins, hop⟩ := isMatch_iff.mp hmatch
    have := mem_firstReached h.start h.successors_lt hreach hins
    exact List.any_eq_true.mpr ⟨ins, this, beq_iff_eq.mpr hop⟩

/-! ### What is reported -/

end Jacl.Regex
