import Mathlib

/-!
# Open addresses

A table of `cap` slots, each with a thing or free.  A thing is looked for from its hash on, slot by
slot and round the end, up to the first free slot; a new one goes there.  Nothing is taken out.
-/

namespace Jacl.Probing
open Function

variable {α : Type} [DecidableEq α]

/-- Where the loop over the slots ends. -/
inductive Found
  | hit (i : Nat)
  | free (i : Nat)
  | full
deriving DecidableEq

/-- At most `n` slots, from `i` on. -/
def probe (cap : Nat) (slots : Nat → Option α) (x : α) : Nat → Nat → Found
  | 0, _ => .full
  | n + 1, i =>
      match slots i with
      | none => .free i
      | some y => if y = x then .hit i else probe cap slots x n ((i + 1) % cap)

variable {cap : Nat} {hash : α → Nat} {slots : Nat → Option α} {x y : α} {i j n : Nat}

/-- **A table that things have only been put into.** -/
structure Sound (cap : Nat) (hash : α → Nat) (slots : Nat → Option α) : Prop where
  unique : ∀ i j x, i < cap → j < cap → slots i = some x → slots j = some x → i = j
  /-- From the hash of a thing there is no free slot up to its own. -/
  reach : ∀ i x, i < cap → slots i = some x →
    ∃ d < cap, (hash x + d) % cap = i ∧ ∀ e < d, slots ((hash x + e) % cap) ≠ none

omit [DecidableEq α] in
theorem sound_empty : Sound cap hash (fun _ => (none : Option α)) where
  unique i j x _ _ h := by cases h
  reach i x _ h := by cases h

theorem next_slot (a d : Nat) : ((a + d) % cap + 1) % cap = (a + (d + 1)) % cap := by
  rw [Nat.mod_add_mod, Nat.add_assoc]

/-- What the loop has passed by, and where it is. -/
theorem probe_from (hn : n ≤ cap) (a : Nat)
    (hpast : ∀ e < cap - n, ∃ y, slots ((a + e) % cap) = some y ∧ y ≠ x) :
    (∃ d < cap, probe cap slots x n ((a + (cap - n)) % cap) = .hit ((a + d) % cap) ∧
      slots ((a + d) % cap) = some x) ∨
    (∃ d < cap, probe cap slots x n ((a + (cap - n)) % cap) = .free ((a + d) % cap) ∧
      slots ((a + d) % cap) = none ∧ ∀ e < d, ∃ y, slots ((a + e) % cap) = some y ∧ y ≠ x) ∨
    probe cap slots x n ((a + (cap - n)) % cap) = .full ∧
      ∀ e < cap, ∃ y, slots ((a + e) % cap) = some y ∧ y ≠ x := by
  induction n with
  | zero => exact .inr (.inr ⟨rfl, hpast⟩)
  | succ n ih =>
    have hstep : cap - n = cap - (n + 1) + 1 := by omega
    rw [probe]
    split
    · rename_i hnone
      exact .inr (.inl ⟨cap - (n + 1), by omega, rfl, hnone, hpast⟩)
    · rename_i y hsome
      split
      · rename_i heq
        exact .inl ⟨cap - (n + 1), by omega, rfl, heq ▸ hsome⟩
      · rename_i hne
        rw [next_slot, ← hstep]
        refine ih (by omega) fun e he => ?_
        rcases Nat.lt_or_ge e (cap - (n + 1)) with hlt | hge
        · exact hpast e hlt
        · obtain rfl : e = cap - (n + 1) := by omega
          exact ⟨y, hsome, hne⟩

/-- Some distance leads to each slot. -/
theorem exists_distance (a : Nat) (hi : i < cap) : ∃ d < cap, (a + d) % cap = i := by
  have hpos : 0 < cap := Nat.zero_lt_of_lt hi
  have hmod := Nat.mod_lt a hpos
  refine ⟨(i + (cap - a % cap)) % cap, Nat.mod_lt _ hpos, ?_⟩
  have hsum : a % cap + (i + (cap - a % cap)) = i + cap := by omega
  rw [Nat.add_mod_mod, ← Nat.mod_add_mod, hsum, Nat.add_mod_right, Nat.mod_eq_of_lt hi]

omit [DecidableEq α] in
/-- A free slot before which `x` is not: it is nowhere. -/
theorem Sound.not_mem (hs : Sound cap hash slots) {d : Nat} (hd : d < cap)
    (hfree : slots ((hash x + d) % cap) = none)
    (hbefore : ∀ e < d, ∃ y, slots ((hash x + e) % cap) = some y ∧ y ≠ x) (hj : j < cap) :
    slots j ≠ some x := by
  intro hx
  obtain ⟨e, -, heq, hall⟩ := hs.reach j x hj hx
  rcases Nat.lt_trichotomy e d with hlt | rfl | hgt
  · obtain ⟨y, hy, hne⟩ := hbefore e hlt
    rw [heq, hx] at hy
    exact hne (Option.some.inj hy).symm
  · rw [heq, hx] at hfree
    cases hfree
  · exact hall d hgt hfree

/-- **Looking for a thing** finds its slot, or the first free one if it is not there, or none. -/
theorem Sound.probe_cases (hs : Sound cap hash slots) (x : α) :
    (∃ i < cap, probe cap slots x cap (hash x % cap) = .hit i ∧ slots i = some x) ∨
    (∃ i < cap, probe cap slots x cap (hash x % cap) = .free i ∧ slots i = none ∧
      (∀ j < cap, slots j ≠ some x) ∧ Sound cap hash (update slots i (some x))) ∨
    probe cap slots x cap (hash x % cap) = .full ∧
      ∀ j < cap, slots j ≠ none ∧ slots j ≠ some x := by
  have hfrom := @probe_from α _ cap slots x cap (Nat.le_refl cap) (hash x)
    fun e he => absurd he (by omega)
  rw [Nat.sub_self, Nat.add_zero] at hfrom
  rcases hfrom with ⟨d, hd, hp, hx⟩ | ⟨d, hd, hp, hfree, hbefore⟩ | ⟨hp, hall⟩
  · exact .inl ⟨_, Nat.mod_lt _ (Nat.zero_lt_of_lt hd), hp, hx⟩
  · have hin : (hash x + d) % cap < cap := Nat.mod_lt _ (Nat.zero_lt_of_lt hd)
    have hnot : ∀ j < cap, slots j ≠ some x := fun j hj => hs.not_mem hd hfree hbefore hj
    refine .inr (.inl ⟨_, hin, hp, hfree, hnot, ?_, ?_⟩)
    · intro i j y hi hj hyi hyj
      by_cases h1 : i = (hash x + d) % cap <;> by_cases h2 : j = (hash x + d) % cap
      · rw [h1, h2]
      · rw [h1, update_self] at hyi
        rw [update_of_ne h2, ← hyi] at hyj
        exact absurd hyj (hnot j hj)
      · rw [h2, update_self] at hyj
        rw [update_of_ne h1, ← hyj] at hyi
        exact absurd hyi (hnot i hi)
      · rw [update_of_ne h1] at hyi
        rw [update_of_ne h2] at hyj
        exact hs.unique i j y hi hj hyi hyj
    · intro i y hi hy
      by_cases h1 : i = (hash x + d) % cap
      · rw [h1, update_self] at hy
        obtain rfl : x = y := Option.some.inj hy
        refine ⟨d, hd, h1.symm, fun e he hnone => ?_⟩
        obtain ⟨z, hz, -⟩ := hbefore e he
        by_cases h2 : (hash x + e) % cap = (hash x + d) % cap
        · rw [h2, update_self] at hnone
          cases hnone
        · rw [update_of_ne h2, hz] at hnone
          cases hnone
      · rw [update_of_ne h1] at hy
        obtain ⟨e, he, heq, hall⟩ := hs.reach i y hi hy
        refine ⟨e, he, heq, fun k hk hnone => ?_⟩
        by_cases h2 : (hash y + k) % cap = (hash x + d) % cap
        · rw [h2, update_self] at hnone
          cases hnone
        · rw [update_of_ne h2] at hnone
          exact hall k hk hnone
  · refine .inr (.inr ⟨hp, fun j hj => ?_⟩)
    obtain ⟨e, he, rfl⟩ := exists_distance (hash x) hj
    obtain ⟨y, hy, hne⟩ := hall e he
    rw [hy]
    exact ⟨by rintro ⟨⟩, fun h => hne (Option.some.inj h)⟩

end Jacl.Probing
