import Mathlib.Data.Nat.Find
import Mathlib.Order.Monotone.Basic
import Mathlib.Tactic.Common

/-!
# Runs as sequences of states

A trace takes a step of the system at each time, or none, so that a run that has come to an
end is one as well.  What grows with each step grows along a trace; where a property has come
to its end there is a step that ended it; and a rank that never grows and goes down again and
again reaches zero.
-/

namespace Jacl.Traces

variable {σ : Type} {step : σ → σ → Prop} {r : ℕ → σ} {n m : ℕ}

/-- **A run**: at each time a step is taken, or none. -/
def Trace (step : σ → σ → Prop) (r : ℕ → σ) : Prop :=
  ∀ n, r (n + 1) = r n ∨ step (r n) (r (n + 1))

/-- What grows with each step grows along a trace. -/
theorem Trace.grows {R : σ → σ → Prop} (h : Trace step r) (hrefl : ∀ s, R s s)
    (htrans : ∀ a b c, R a b → R b c → R a c)
    (hR : ∀ k, step (r k) (r (k + 1)) → R (r k) (r (k + 1))) (hnm : n ≤ m) : R (r n) (r m) := by
  induction m, hnm using Nat.le_induction with
  | base => exact hrefl _
  | succ m hnm ih =>
    rcases h m with heq | hs
    · rw [heq]
      exact ih
    · exact htrans _ _ _ ih (hR m hs)

/-- A trace that has come to rest may take one more step. -/
theorem Trace.extend {s s' : σ} (h : Trace step r) (hs : ∀ m, n ≤ m → r m = s) (hstep : step s s') :
    ∃ r', Trace step r' ∧ r' 0 = r 0 ∧ ∀ m, n + 1 ≤ m → r' m = s' := by
  refine ⟨fun m => if m ≤ n then r m else s', fun m => ?_, if_pos (Nat.zero_le n), fun m hm =>
    if_neg (Nat.not_le_of_lt hm)⟩
  dsimp only
  rcases Nat.lt_trichotomy m n with hlt | rfl | hgt
  · rw [if_pos hlt.le, if_pos (Nat.succ_le_of_lt hlt)]
    exact h m
  · rw [if_pos le_rfl, if_neg (Nat.not_succ_le_self m), hs m le_rfl]
    exact .inr hstep
  · rw [if_neg (Nat.not_le_of_lt hgt), if_neg (by omega)]
    exact .inl rfl

/-- **The step that ends a property**: it has held up to there. -/
theorem exists_end {Q : ℕ → Prop} (hn : Q n) (hnm : n ≤ m) (hm : ¬Q m) :
    ∃ k, n ≤ k ∧ k < m ∧ (∀ i, n ≤ i → i ≤ k → Q i) ∧ ¬Q (k + 1) := by
  classical
  have hex : ∃ i, n ≤ i ∧ ¬Q i := ⟨m, hnm, hm⟩
  obtain ⟨hle, hend⟩ := Nat.find_spec hex
  obtain ⟨k, hk⟩ : ∃ k, Nat.find hex = k + 1 := by
    refine Nat.exists_eq_succ_of_ne_zero fun hz => hend ?_
    rw [hz, ← Nat.le_zero.mp (hz ▸ hle)]
    exact hn
  rw [hk] at hle hend
  have hnk : n ≤ k := by
    rcases Nat.lt_or_eq_of_le hle with hlt | heq
    · exact Nat.lt_succ_iff.mp hlt
    · rw [heq] at hn
      exact absurd hn hend
  refine ⟨k, hnk, ?_, fun i hni hik => ?_, hend⟩
  · have := Nat.find_min' hex ⟨hnm, hm⟩
    omega
  · by_contra hQ
    have := Nat.find_min' hex ⟨hni, hQ⟩
    omega

/-- **A rank that goes down again and again reaches zero.** -/
theorem exists_rank_zero (μ : ℕ → ℕ) (hmono : ∀ n, μ (n + 1) ≤ μ n)
    (hdown : ∀ n, ∃ m, n ≤ m ∧ (0 < μ m → μ (m + 1) < μ m)) (n : ℕ) : ∃ m, n ≤ m ∧ μ m = 0 := by
  have hanti : Antitone μ := antitone_nat_of_succ_le hmono
  induction hk : μ n using Nat.strong_induction_on generalizing n with
  | _ k ih =>
    obtain ⟨m, hnm, hlt⟩ := hdown n
    rcases Nat.eq_zero_or_pos (μ m) with hz | hpos
    · exact ⟨m, hnm, hz⟩
    · have hle := hanti hnm
      have hlt := hlt hpos
      obtain ⟨N, hN, hz⟩ := ih (μ (m + 1)) (by omega) (m + 1) rfl
      exact ⟨N, by omega, hz⟩

end Jacl.Traces
