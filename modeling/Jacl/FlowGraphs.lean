import Mathlib.Logic.Relation
import Mathlib.Tactic

/-!
# Flow graphs with open ends

A graph has places, edges out of them (named by `ε`), and for each edge a relation on states: the
moves along it.  Some edges are open: they lead nowhere yet.  `Leads D pc i j`: from `pc` in the
state `i` there is a path whose last edge is the first open one, and it arrives there in `j`.

`Realizes g S P start R`: the places `S` make a fragment of `g` that is entered at `start`, is
left by the open edges `P` only, and relates states as `R` does.  A fragment may be put into a
larger graph, where its open edges are led to one place or stay open.
-/

namespace Jacl.FlowGraphs

structure Graph (ι ε σ : Type*) where
  edge : ι → ε → Prop
  target : ι → ε → ι
  moves : ι → ε → σ → σ → Prop
  edge_of_moves : ∀ {pc e i j}, moves pc e i j → edge pc e

variable {ι ε σ : Type*}

inductive Graph.Leads (g : Graph ι ε σ) (D : ι → ε → Prop) : ι → σ → σ → Prop
  | exit {pc : ι} {e : ε} {i j : σ} : g.moves pc e i j → D pc e → Leads g D pc i j
  | step {pc : ι} {e : ε} {i k j : σ} : g.moves pc e i k → ¬ D pc e →
      Leads g D (g.target pc e) k j → Leads g D pc i j

structure Realizes (g : Graph ι ε σ) (S : ι → Prop) (P : ι → ε → Prop) (start : ι)
    (R : σ → σ → Prop) : Prop where
  mem : S start
  closed : ∀ pc e, S pc → g.edge pc e → ¬ P pc e → S (g.target pc e)
  leads : ∀ i j, g.Leads P start i j ↔ R i j

/-- On `S` the graph `g'` has the edges and moves of `g`, and the targets of those not in `P`. -/
structure Extends (g g' : Graph ι ε σ) (S : ι → Prop) (P : ι → ε → Prop) : Prop where
  edge : ∀ pc e, S pc → (g'.edge pc e ↔ g.edge pc e)
  moves : ∀ pc e i j, S pc → (g'.moves pc e i j ↔ g.moves pc e i j)
  target : ∀ pc e, S pc → g.edge pc e → ¬ P pc e → g'.target pc e = g.target pc e

variable {g g' : Graph ι ε σ} {S : ι → Prop} {P D : ι → ε → Prop} {start : ι}
  {R : σ → σ → Prop}

theorem Graph.leads_iff {pc : ι} {i j : σ} : g.Leads D pc i j ↔
    ∃ e k, g.moves pc e i k ∧ (D pc e ∧ k = j ∨ ¬ D pc e ∧ g.Leads D (g.target pc e) k j) := by
  constructor
  · intro h
    cases h with
    | exit hm hd => exact ⟨_, _, hm, .inl ⟨hd, rfl⟩⟩
    | step hm hd hl => exact ⟨_, _, hm, .inr ⟨hd, hl⟩⟩
  · rintro ⟨e, k, hm, ⟨hd, rfl⟩ | ⟨hd, hl⟩⟩
    · exact .exit hm hd
    · exact .step hm hd hl

/-! ### Paths -/

/-- One move along an edge that is not open. -/
def Graph.Step (g : Graph ι ε σ) (D : ι → ε → Prop) (c c' : ι × σ) : Prop :=
  ∃ e, g.moves c.1 e c.2 c'.2 ∧ ¬ D c.1 e ∧ c'.1 = g.target c.1 e

namespace Realizes

/-- Open edges that stay open. -/
theorem leads_open (h : Realizes g S P start R) (hext : Extends g g' S P)
    (hD : ∀ pc e, S pc → (D pc e ↔ P pc e)) (i j : σ) : g'.Leads D start i j ↔ R i j := by
  rw [← h.leads]
  have forth : ∀ {pc i j}, g'.Leads D pc i j → S pc → g.Leads P pc i j := by
    intro pc i j hl
    induction hl with
    | exit hm hd => exact fun hs => .exit ((hext.moves _ _ _ _ hs).mp hm) ((hD _ _ hs).mp hd)
    | step hm hd _ ih =>
      intro hs
      have hm' := (hext.moves _ _ _ _ hs).mp hm
      have hp := fun hp => hd ((hD _ _ hs).mpr hp)
      have he := g.edge_of_moves hm'
      rw [hext.target _ _ hs he hp] at ih
      exact .step hm' hp (ih (h.closed _ _ hs he hp))
  have back : ∀ {pc i j}, g.Leads P pc i j → S pc → g'.Leads D pc i j := by
    intro pc i j hl
    induction hl with
    | exit hm hd => exact fun hs => .exit ((hext.moves _ _ _ _ hs).mpr hm) ((hD _ _ hs).mpr hd)
    | step hm hd _ ih =>
      intro hs
      have he := g.edge_of_moves hm
      refine .step ((hext.moves _ _ _ _ hs).mpr hm) (fun h => hd ((hD _ _ hs).mp h)) ?_
      rw [hext.target _ _ hs he hd]
      exact ih (h.closed _ _ hs he hd)
  exact ⟨fun hl => forth hl h.mem, fun hl => back hl h.mem⟩

/-- Open edges that are led to `t`, wherever that is. -/
theorem leads_patched {t : ι} (h : Realizes g S P start R) (hext : Extends g g' S P)
    (hP : ∀ pc e, S pc → g.edge pc e → P pc e → g'.target pc e = t)
    (hD : ∀ pc e, S pc → g.edge pc e → ¬ D pc e) (i j : σ) :
    g'.Leads D start i j ↔ ∃ k, R i k ∧ g'.Leads D t k j := by
  have forth : ∀ {pc i j}, g'.Leads D pc i j → S pc →
      ∃ k, g.Leads P pc i k ∧ g'.Leads D t k j := by
    intro pc i j hl
    induction hl with
    | exit hm hd =>
      intro hs
      have he := g.edge_of_moves ((hext.moves _ _ _ _ hs).mp hm)
      exact absurd hd (hD _ _ hs he)
    | @step pc e i k j hm hd hrest ih =>
      intro hs
      have hm' := (hext.moves _ _ _ _ hs).mp hm
      have he := g.edge_of_moves hm'
      by_cases hp : P pc e
      · rw [hP _ _ hs he hp] at hrest
        exact ⟨_, .exit hm' hp, hrest⟩
      · rw [hext.target _ _ hs he hp] at ih
        obtain ⟨k, hk, hrest⟩ := ih (h.closed _ _ hs he hp)
        exact ⟨k, .step hm' hp hk, hrest⟩
  have back : ∀ {pc i k}, g.Leads P pc i k → S pc → g'.Leads D t k j → g'.Leads D pc i j := by
    intro pc i k hl
    induction hl with
    | exit hm hp =>
      intro hs hrest
      have he := g.edge_of_moves hm
      refine .step ((hext.moves _ _ _ _ hs).mpr hm) (hD _ _ hs he) ?_
      rw [hP _ _ hs he hp]
      exact hrest
    | step hm hp _ ih =>
      intro hs hrest
      have he := g.edge_of_moves hm
      refine .step ((hext.moves _ _ _ _ hs).mpr hm) (hD _ _ hs he) ?_
      rw [hext.target _ _ hs he hp]
      exact ih (h.closed _ _ hs he hp) hrest
  constructor
  · intro hl
    obtain ⟨k, hk, hrest⟩ := forth hl h.mem
    exact ⟨k, (h.leads _ _).mp hk, hrest⟩
  · rintro ⟨k, hk, hrest⟩
    exact back ((h.leads _ _).mpr hk) h.mem hrest

theorem closed_open (h : Realizes g S P start R) (hext : Extends g g' S P)
    (hD : ∀ pc e, S pc → (D pc e ↔ P pc e)) :
    ∀ pc e, S pc → g'.edge pc e → ¬ D pc e → S (g'.target pc e) := by
  intro pc e hs he hd
  have he' := (hext.edge pc e hs).mp he
  have hp := fun hp => hd ((hD pc e hs).mpr hp)
  rw [hext.target pc e hs he' hp]
  exact h.closed pc e hs he' hp

theorem closed_patched {t : ι} (h : Realizes g S P start R) (hext : Extends g g' S P)
    (hP : ∀ pc e, S pc → g.edge pc e → P pc e → g'.target pc e = t) :
    ∀ pc e, S pc → g'.edge pc e → S (g'.target pc e) ∨ g'.target pc e = t := by
  intro pc e hs he
  have he' := (hext.edge pc e hs).mp he
  by_cases hp : P pc e
  · exact .inr (hP pc e hs he' hp)
  · rw [hext.target pc e hs he' hp]
    exact .inl (h.closed pc e hs he' hp)

theorem congr {R' : σ → σ → Prop} (h : Realizes g S P start R) (hR : ∀ i j, R i j ↔ R' i j) :
    Realizes g S P start R' :=
  ⟨h.mem, h.closed, fun i j => (h.leads i j).trans (hR i j)⟩

end Realizes

/-! ### Repetition -/

/-- `R`, `n` times over. -/
def power (R : σ → σ → Prop) : Nat → σ → σ → Prop
  | 0, i, j => i = j
  | n + 1, i, j => ∃ k, R i k ∧ power R n k j

theorem power_one (i j : σ) : power R 1 i j ↔ R i j :=
  ⟨fun ⟨_, hk, heq⟩ => heq ▸ hk, fun h => ⟨j, h, rfl⟩⟩

theorem power_add (m n : Nat) (i j : σ) :
    power R (m + n) i j ↔ ∃ k, power R m i k ∧ power R n k j := by
  induction m generalizing i with
  | zero => simp [power]
  | succ m ih =>
    rw [Nat.succ_add]
    constructor
    · rintro ⟨k, hk, hrest⟩
      obtain ⟨l, hl, hrest⟩ := (ih k).mp hrest
      exact ⟨l, ⟨k, hk, hl⟩, hrest⟩
    · rintro ⟨l, ⟨k, hk, hl⟩, hrest⟩
      exact ⟨k, hk, (ih k).mpr ⟨l, hl, hrest⟩⟩

theorem power_succ' (n : Nat) (i j : σ) :
    power R (n + 1) i j ↔ ∃ k, power R n i k ∧ R k j := by
  rw [power_add]
  simp only [power_one]

/-- As often as one likes. -/
def Star (R : σ → σ → Prop) (i j : σ) : Prop := ∃ n, power R n i j

theorem star_iff (i j : σ) : Star R i j ↔ i = j ∨ ∃ k, R i k ∧ Star R k j := by
  constructor
  · rintro ⟨_ | n, h⟩
    · exact .inl h
    · obtain ⟨k, hk, h⟩ := h
      exact .inr ⟨k, hk, n, h⟩
  · rintro (h | ⟨k, hk, n, h⟩)
    · exact ⟨0, h⟩
    · exact ⟨n + 1, k, hk, h⟩

/-- Up to `n` times. -/
def AtMost (R : σ → σ → Prop) (n : Nat) (i j : σ) : Prop := ∃ m ≤ n, power R m i j

theorem atMost_zero (i j : σ) : AtMost R 0 i j ↔ i = j := by
  constructor
  · rintro ⟨m, hm, h⟩
    obtain rfl := Nat.le_zero.mp hm
    exact h
  · exact fun h => ⟨0, Nat.le_refl _, h⟩

theorem atMost_succ (n : Nat) (i j : σ) :
    AtMost R (n + 1) i j ↔ i = j ∨ ∃ k, R i k ∧ AtMost R n k j := by
  constructor
  · rintro ⟨_ | m, hm, h⟩
    · exact .inl h
    · obtain ⟨k, hk, h⟩ := h
      exact .inr ⟨k, hk, m, Nat.le_of_succ_le_succ hm, h⟩
  · rintro (h | ⟨k, hk, m, hm, h⟩)
    · exact ⟨0, Nat.zero_le _, h⟩
    · exact ⟨m + 1, Nat.succ_le_succ hm, k, hk, h⟩

/-- The places around a loop's head: from them one gets to the body, out, or to another. -/
structure LoopHead (g' : Graph ι ε σ) (D : ι → ε → Prop) (T : ι → Prop) (head start : ι) :
    Prop where
  mem : T head
  stays : ∀ {pc e i j}, T pc → g'.moves pc e i j →
    i = j ∧ (D pc e ∨ T (g'.target pc e) ∨ g'.target pc e = start)
  exit : ∃ e, D head e ∧ ∀ i, g'.moves head e i i
  enter : ∃ e, ¬ D head e ∧ g'.target head e = start ∧ ∀ i, g'.moves head e i i

/-- **A body whose open edges are led back to a loop's head repeats.** -/
theorem Realizes.leads_loop {T : ι → Prop} {t head : ι} (h : Realizes g S P start R)
    (hext : Extends g g' S P) (hP : ∀ pc e, S pc → g.edge pc e → P pc e → g'.target pc e = t)
    (hD : ∀ pc e, S pc → g.edge pc e → ¬ D pc e) (hT : LoopHead g' D T head start) (ht : T t)
    (hback : ∀ i j, g'.Leads D head i j → g'.Leads D t i j) (i j : σ) :
    g'.Leads D head i j ↔ Star R i j := by
  have forth : ∀ {pc i j}, g'.Leads D pc i j → (T pc → Star R i j) ∧
      (S pc → ∃ k, g.Leads P pc i k ∧ Star R k j) := by
    intro pc i j hl
    induction hl with
    | exit hm hd =>
      refine ⟨fun hs => ⟨0, (hT.stays hs hm).1⟩, fun hs => ?_⟩
      exact absurd hd (hD _ _ hs (g.edge_of_moves ((hext.moves _ _ _ _ hs).mp hm)))
    | @step pc e i k j hm hd hrest ih =>
      refine ⟨fun hs => ?_, fun hs => ?_⟩
      · obtain ⟨rfl, hd' | hnext | hnext⟩ := hT.stays hs hm
        · exact absurd hd' hd
        · exact ih.1 hnext
        · rw [hnext] at ih
          obtain ⟨k, hk, hstar⟩ := ih.2 h.mem
          exact (star_iff _ _).mpr (.inr ⟨k, (h.leads _ _).mp hk, hstar⟩)
      · have hm' := (hext.moves _ _ _ _ hs).mp hm
        have he := g.edge_of_moves hm'
        by_cases hp : P pc e
        · rw [hP _ _ hs he hp] at ih
          exact ⟨_, .exit hm' hp, ih.1 ht⟩
        · rw [hext.target _ _ hs he hp] at ih
          obtain ⟨l, hl, hstar⟩ := ih.2 (h.closed _ _ hs he hp)
          exact ⟨l, .step hm' hp hl, hstar⟩
  refine ⟨fun hl => (forth hl).1 hT.mem, ?_⟩
  rintro ⟨n, hn⟩
  induction n generalizing i with
  | zero =>
    obtain ⟨e, hd, hm⟩ := hT.exit
    obtain rfl : i = j := hn
    exact .exit (hm i) hd
  | succ n ih =>
    obtain ⟨k, hk, hn⟩ := hn
    obtain ⟨e, hd, htarget, hm⟩ := hT.enter
    refine .step (hm i) hd ?_
    rw [htarget]
    exact (h.leads_patched hext hP hD i j).mpr ⟨k, hk, hback _ _ (ih k hn)⟩

end Jacl.FlowGraphs
