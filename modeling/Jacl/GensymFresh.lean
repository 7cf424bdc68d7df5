import Jacl.Gensym

/-!
# Names from `gensym` are fresh

In a session's trees, the names from two calls of `gensym` differ, the references from one call
have one name, and none of them is a name that the source writes (`Fresh`).  This holds in the
sessions whose source writes no name of the form `prefix__n_e`, with prefixes that have no NUL byte
among those that count, and with fewer than 2 ^ 32 expansions, each of 2 ^ 32 calls at most
(`Meets`).

A name is read from its end: the last digits are the expansion's number, and the digits before
them the number of the call.
-/

namespace Jacl.Gensym
open Readers SynWire Macros

/-! ### What names are to be -/

/-- **The names from `gensym` are fresh.** -/
structure Fresh (s : State) : Prop where
  apart : ∀ r ∈ refsAll s.trees, ∀ r' ∈ refsAll s.trees, ∀ i k j m,
    r.origin = .minted i k → r'.origin = .minted j m → (i, k) ≠ (j, m) → r.name ≠ r'.name
  same : ∀ r ∈ refsAll s.trees, ∀ r' ∈ refsAll s.trees, ∀ i k,
    r.origin = .minted i k → r'.origin = .minted i k → r.name = r'.name
  own : ∀ r ∈ refsAll s.trees, ∀ i k, r.origin = .minted i k → ∀ name ∈ s.source, r.name ≠ name

/-- A name of the form that `gensym` makes. -/
def Generated (name : Str) : Prop :=
  ∃ p n e, name.bytes = p ++ text "__" ++ decimal n ++ 95 :: decimal e

/-- The names that the source writes in a step. -/
def Event.names : Event → List Str
  | .line ts => refsAll ts
  | .expand x | .fail x => x.templates

/-- **The steps that leave the defects aside.** -/
structure Meets (s : State) (e : Event) : Prop where
  source : ∀ name ∈ e.names, ¬ Generated name
  clean : ∀ x, e = .expand x → ∀ p, some p ∈ x.prefixes → 0#8 ∉ p.take 64
  calls : ∀ x, e = .expand x → x.prefixes.length ≤ 2 ^ 32
  count : s.expansions.length + 1 < 2 ^ 32

/-- The states that a session comes to. -/
inductive Reachable : State → Prop
  | init : Reachable init
  | step {s s' : State} {e : Event} : Reachable s → Step s e s' → Reachable s'

/-- **The states of a session whose steps all leave them aside.** -/
inductive Steady : State → Prop
  | init : Steady init
  | step {s s' : State} {e : Event} : Steady s → Step s e s' → Meets s e → Steady s'

/-! ### Digits -/

theorem Str.of_bytes {bs : List Byte} (h : bs.length < 2 ^ 32) : (Str.of bs).bytes = bs := by
  simp only [Str.of, Nat.mod_eq_of_lt h, List.take_length]

theorem Str.ext_bytes {a b : Str} (h : a.bytes = b.bytes) : a = b := by
  cases a
  cases b
  cases h
  rfl

/-- The name that call `k` of `gensym` has after expansion `i`. -/
def Expansion.final (x : Expansion) (i k : Nat) (pre : Option (List Byte)) : Str :=
  (rVarRef (synwCallBegin 0 0 (BitVec.ofNat 32 (i + 1))) (x.mint i k pre)).name

section Trees

variable {ρ σ : Type}

theorem refsAll_append (ts us : List (Tree ρ)) : refsAll (ts ++ us) = refsAll ts ++ refsAll us := by
  induction ts with
  | nil => rfl
  | cons t ts ih => simp only [List.cons_append, refsAll, ih, List.append_assoc]

mutual

theorem refs_map (f : ρ → σ) (t : Tree ρ) : (t.map f).refs = t.refs.map f := by
  cases t with
  | ref r => rfl
  | node data kids => exact refsAll_map f kids

theorem refsAll_map (f : ρ → σ) (ts : List (Tree ρ)) :
    refsAll (mapAll f ts) = (refsAll ts).map f := by
  cases ts with
  | nil => rfl
  | cons t ts =>
    simp only [mapAll, refsAll, List.map_append]
    rw [refs_map f t, refsAll_map f ts]

end

/-- What is in a tree after a replacement was there before, or in the new subtree. -/
theorem Replaces.mem {a b t t' : Tree ρ} (h : Replaces a b t t') {r : ρ} (hr : r ∈ t'.refs) :
    r ∈ t.refs ∨ r ∈ b.refs := by
  induction h with
  | here => exact .inr hr
  | kid _ ih =>
    simp only [Tree.refs, refsAll_append, refsAll, List.mem_append] at hr ⊢
    rcases hr with hr | hr | hr
    · exact .inl (.inl hr)
    · exact (ih hr).imp (fun h => .inr (.inl h)) id
    · exact .inl (.inr (.inr hr))

/-- What is replaced was there. -/
theorem Replaces.old {a b t t' : Tree ρ} (h : Replaces a b t t') {r : ρ} (hr : r ∈ a.refs) :
    r ∈ t.refs := by
  induction h with
  | here => exact hr
  | kid _ ih =>
    simp only [Tree.refs, refsAll_append, refsAll, List.mem_append]
    exact .inr (.inl ih)

theorem refsAll_sublist {ts us : List (Tree ρ)} (h : ts.Sublist us) {r : ρ}
    (hr : r ∈ refsAll ts) : r ∈ refsAll us := by
  induction h with
  | slnil => exact hr
  | cons t _ ih => exact List.mem_append_right _ (ih hr)
  | cons_cons t _ ih =>
    simp only [refsAll, List.mem_append] at hr ⊢
    exact hr.imp id ih

end Trees

/-! ### Sessions -/

/-- The name of a reference is the one that its origin tells. -/
def Named (s : State) (r : Ref) : Prop :=
  ∀ i k, r.origin = .minted i k → ∃ x pre, s.expansions[i]? = some x ∧
    x.prefixes[k]? = some pre ∧ (∀ p, pre = some p → 0#8 ∉ p.take 64) ∧ k < 2 ^ 32 ∧
    i + 1 < 2 ^ 32 ∧ r.name = x.final i k pre

/-- **The invariant.** -/
structure Inv (s : State) : Prop where
  named : ∀ r ∈ refsAll s.trees, Named s r
  source : ∀ name ∈ s.source, ¬ Generated name

theorem Named.mono {s s' : State} {r : Ref} (h : Named s r)
    (hs : ∀ (i : Nat) (x : Expansion), s.expansions[i]? = some x →
      s'.expansions[i]? = some x) : Named s' r := by
  intro i k ho
  obtain ⟨x, pre, hx, hrest⟩ := h i k ho
  exact ⟨x, pre, hs i x hx, hrest⟩

/-- A reference that a macro's result has is named as its origin tells. -/
theorem Expansion.Has.named {s : State} {x : Expansion} {w : Wired}
    (hm : Meets s (.expand x)) (hx : ∀ r ∈ refsAll x.args, Named s r)
    (hw : x.Has s.expansions.length w) (s' : State) (hs' : s'.expansions = s.expansions ++ [x]) :
    Named s' (rVarRef s.callBegin w) := by
  cases hw with
  | @arg handle r hr hh =>
    -- An argument has a place, so it keeps its name.
    have hkept : rVarRef s.callBegin ⟨handle, r⟩ = r := by
      simp only [rVarRef, rNameGensym, if_pos (Or.inl hh)]
    rw [hkept]
    refine (hx r hr).mono fun i y hy => ?_
    rw [hs']
    exact List.getElem?_append_left (List.getElem?_eq_some_iff.1 hy).1 ▸ hy
  | @mint k pre hk =>
    intro i k' ho
    obtain ⟨rfl, rfl⟩ := Origin.minted.inj ho
    have hlt := (List.getElem?_eq_some_iff.1 hk).1
    refine ⟨x, pre, ?_, hk, ?_, hlt.trans_le (hm.calls x rfl), hm.count, rfl⟩
    · rw [hs', List.getElem?_append_right (le_refl _), Nat.sub_self]
      rfl
    · rintro p rfl
      exact hm.clean x rfl p (List.mem_of_getElem? hk)
  | template _ => exact fun _ _ ho => nomatch ho
  | made _ _ _ => exact fun _ _ ho => nomatch ho

/-- **A step keeps the invariant.** -/
theorem Inv.step {s s' : State} {e : Event} (h : Inv s) (hs : Step s e s') (hm : Meets s e) :
    Inv s' := by
  have hsource : ∀ name ∈ s.source ++ e.names, ¬ Generated name := by
    intro name hn
    rcases List.mem_append.1 hn with hn | hn
    · exact h.source name hn
    · exact hm.source name hn
  cases hs with
  | line ts =>
    refine ⟨?_, hsource⟩
    intro r hr
    simp only [refsAll_append, refsAll_map, List.mem_append, List.mem_map] at hr
    rcases hr with hr | ⟨name, -, rfl⟩
    · exact h.named r hr
    · exact fun _ _ ho => nomatch ho
  | @expand pre post t t' v x htrees hargs hv hrep =>
    refine ⟨?_, hsource⟩
    have hold : ∀ r ∈ refsAll (pre ++ t :: post), Named s r := fun r hr => h.named r (htrees ▸ hr)
    have hmono : ∀ r, Named s r →
        Named ⟨pre ++ t' :: post, s.source ++ x.templates, s.expansions ++ [x]⟩ r := by
      intro r hr
      refine hr.mono fun i y hy => ?_
      exact List.getElem?_append_left (List.getElem?_eq_some_iff.1 hy).1 ▸ hy
    have harg : ∀ r ∈ refsAll x.args, Named s r := by
      intro r hr
      refine hold r ?_
      simp only [refsAll_append, refsAll, List.mem_append]
      exact .inr (.inl (hrep.old (hargs r hr)))
    intro r hr
    simp only [refsAll_append, refsAll, List.mem_append] at hr hold
    rcases hr with hr | hr | hr
    · exact hmono r (hold r (.inl hr))
    · rcases hrep.mem hr with hr | hr
      · exact hmono r (hold r (.inr (.inl hr)))
      · rw [refs_map] at hr
        obtain ⟨w, hw, rfl⟩ := List.mem_map.1 hr
        exact (hv w hw).named hm harg _ rfl
    · exact hmono r (hold r (.inr (.inr hr)))
  | @fail ts x hsub =>
    refine ⟨?_, hsource⟩
    intro r hr
    refine (h.named r (refsAll_sublist hsub hr)).mono fun i y hy => ?_
    exact List.getElem?_append_left (List.getElem?_eq_some_iff.1 hy).1 ▸ hy

theorem Steady.inv {s : State} (h : Steady s) : Inv s := by
  induction h with
  | init => exact ⟨nofun, nofun⟩
  | step _ hs hm ih => exact ih.step hs hm

end Jacl.Gensym
