import Mathlib.Data.List.Basic
import Mathlib.Tactic

/-!
# Open addresses with tombstones

A table whose things can be taken out.  A slot that held one keeps a tombstone, which a search
passes by and which a new thing may take.  A search ends at the first free slot, so it ends if
there is one; every thing is found if there is none before it.
-/

namespace Jacl.Tombstones

inductive Slot (α : Type)
  | empty | tombstone | live (a : α)
  deriving DecidableEq

def Slot.isLive {α : Type} : Slot α → Bool
  | .live _ => true
  | _ => false

def Slot.isTombstone {α : Type} : Slot α → Bool
  | .tombstone => true
  | _ => false

def Slot.thing? {α : Type} : Slot α → Option α
  | .live a => some a
  | _ => none

variable {α κ : Type} (key : α → κ) (hash : κ → Nat)

/-- At most `n` slots, from `i` on: the thing's own, else the first tombstone, else the free
slot that ends the search. -/
def find [DecidableEq κ] (slots : List (Slot α)) (k : κ) : Nat → Nat → Option Nat → Option Nat
  | 0, _, _ => none
  | n + 1, i, first =>
    match slots[i]? with
    | none => none
    | some .empty => some (first.getD i)
    | some .tombstone => find slots k n ((i + 1) % slots.length) (first.or (some i))
    | some (.live a) => if key a = k then some i else find slots k n ((i + 1) % slots.length) first

/-- **A table that a search can be trusted on.** -/
structure Sound (slots : List (Slot α)) : Prop where
  unique : ∀ (i j : Nat) (a b : α), slots[i]? = some (.live a) → slots[j]? = some (.live b) → key a = key b → i = j
  /-- From the hash of a thing there is no free slot up to its own. -/
  reach : ∀ (i : Nat) (a : α), slots[i]? = some (.live a) → ∃ d < slots.length,
    (hash (key a) + d) % slots.length = i ∧
      ∀ e < d, slots[(hash (key a) + e) % slots.length]? ≠ some .empty

/-- A search for `k` goes on at the slot. -/
def Passes (slots : List (Slot α)) (k : κ) (i : Nat) : Prop :=
  slots[i]? = some .tombstone ∨ ∃ a, slots[i]? = some (.live a) ∧ key a ≠ k

/-- The first tombstone that a search from `a` has seen before the distance `d`. -/
def FirstSeen (slots : List (Slot α)) (a d : Nat) : Option Nat → Prop
  | none => True
  | some j => ∃ e < d, j = (a + e) % slots.length ∧ slots[j]? = some .tombstone

variable {key hash} {slots : List (Slot α)} {k : κ} {a : α} {i j n d : Nat} {first : Option Nat}

theorem sound_replicate : Sound key hash (List.replicate n (.empty : Slot α)) where
  unique i j a b h := by
    have hmem := List.eq_of_mem_replicate (List.mem_of_getElem? h)
    cases hmem
  reach i a h := by
    have hmem := List.eq_of_mem_replicate (List.mem_of_getElem? h)
    cases hmem

theorem next_slot (a d len : Nat) : ((a + d) % len + 1) % len = (a + (d + 1)) % len := by
  rw [Nat.mod_add_mod, Nat.add_assoc]

theorem FirstSeen.mono {m : Nat} (h : FirstSeen slots n d first) (hd : d ≤ m) :
    FirstSeen slots n m first := by
  cases first with
  | none => trivial
  | some j =>
    obtain ⟨e, he, hj⟩ := h
    exact ⟨e, Nat.lt_of_lt_of_le he hd, hj⟩

theorem FirstSeen.or (h : FirstSeen slots n d first)
    (ht : slots[(n + d) % slots.length]? = some .tombstone) :
    FirstSeen slots n (d + 1) (first.or (some ((n + d) % slots.length))) := by
  cases first with
  | none => exact ⟨d, Nat.lt_succ_self _, rfl, ht⟩
  | some j => exact h.mono (Nat.le_succ _)

/-- How a search ends that has come to the distance `d` from `a`. -/
theorem find_from [DecidableEq κ] (hn : n + d = slots.length) (a : Nat)
    (hpast : ∀ e < d, Passes key slots k ((a + e) % slots.length)) (hfirst : FirstSeen slots a d first) :
    (∃ i x, find key slots k n ((a + d) % slots.length) first = some i ∧ slots[i]? = some (.live x) ∧
      key x = k) ∨
    (∃ f e, find key slots k n ((a + d) % slots.length) first = some ((a + e) % slots.length) ∧
      f < slots.length ∧ slots[(a + f) % slots.length]? = some .empty ∧
      (∀ e < f, Passes key slots k ((a + e) % slots.length)) ∧ e ≤ f ∧
      (e = f ∨ slots[(a + e) % slots.length]? = some .tombstone)) ∨
    ∀ e < slots.length, Passes key slots k ((a + e) % slots.length) := by
  induction n generalizing d first with
  | zero =>
    rw [Nat.zero_add] at hn
    exact .inr (.inr fun e he => hpast e (hn ▸ he))
  | succ n ih =>
    have hin : (a + d) % slots.length < slots.length := Nat.mod_lt _ (by omega)
    have hstep (h : Passes key slots k ((a + d) % slots.length)) :
        ∀ e < d + 1, Passes key slots k ((a + e) % slots.length) := by
      intro e he
      rcases Nat.lt_succ_iff_lt_or_eq.mp he with hlt | rfl
      · exact hpast e hlt
      · exact h
    rw [find, List.getElem?_eq_getElem hin]
    cases hslot : slots[(a + d) % slots.length] with
    | empty =>
      have hempty : slots[(a + d) % slots.length]? = some .empty := by
        rw [List.getElem?_eq_getElem hin, hslot]
      cases first with
      | none => exact .inr (.inl ⟨d, d, rfl, by omega, hempty, hpast, Nat.le_refl _, .inl rfl⟩)
      | some j =>
        obtain ⟨e, he, rfl, ht⟩ := hfirst
        exact .inr (.inl ⟨d, e, rfl, by omega, hempty, hpast, Nat.le_of_lt he, .inr ht⟩)
    | tombstone =>
      have ht : slots[(a + d) % slots.length]? = some .tombstone := by
        rw [List.getElem?_eq_getElem hin, hslot]
      dsimp only
      rw [next_slot]
      exact ih (by omega) (hstep (.inl ht)) (hfirst.or ht)
    | live x =>
      have hx : slots[(a + d) % slots.length]? = some (.live x) := by
        rw [List.getElem?_eq_getElem hin, hslot]
      dsimp only
      split_ifs with hkey
      · exact .inl ⟨_, x, rfl, hx, hkey⟩
      · rw [next_slot]
        exact ih (by omega) (hstep (.inr ⟨x, hx, hkey⟩)) (hfirst.mono (Nat.le_succ _))

/-- Some distance leads to each slot. -/
theorem exists_distance {len : Nat} (a : Nat) (hi : i < len) : ∃ d < len, (a + d) % len = i := by
  have hpos : 0 < len := Nat.zero_lt_of_lt hi
  have hmod := Nat.mod_lt a hpos
  refine ⟨(i + (len - a % len)) % len, Nat.mod_lt _ hpos, ?_⟩
  have hsum : a % len + (i + (len - a % len)) = i + len := by omega
  rw [Nat.add_mod_mod, ← Nat.mod_add_mod, hsum, Nat.add_mod_right, Nat.mod_eq_of_lt hi]

/-- A free slot before which `k` is not: it is nowhere. -/
theorem Sound.not_mem (hs : Sound key hash slots) {f : Nat}
    (hfree : slots[(hash k + f) % slots.length]? = some .empty)
    (hbefore : ∀ e < f, Passes key slots k ((hash k + e) % slots.length))
    (hj : slots[j]? = some (.live a)) : key a ≠ k := by
  rintro rfl
  obtain ⟨d, -, rfl, hall⟩ := hs.reach j a hj
  rcases Nat.lt_trichotomy d f with hlt | rfl | hgt
  · rcases hbefore d hlt with ht | ⟨b, hb, hne⟩
    · rw [hj] at ht
      cases ht
    · rw [hj] at hb
      obtain rfl := Slot.live.inj (Option.some.inj hb)
      exact hne rfl
  · rw [hj] at hfree
    cases hfree
  · exact hall f hgt hfree

/-- **Putting a new thing** where the way to it has no free slot. -/
theorem Sound.put (hs : Sound key hash slots) (hnew : ∀ (j : Nat) (b : α), slots[j]? = some (.live b) → key b ≠ key a)
    (hd : d < slots.length) (hway : ∀ e < d, slots[(hash (key a) + e) % slots.length]? ≠ some .empty) :
    Sound key hash (slots.set ((hash (key a) + d) % slots.length) (.live a)) where
  unique i j x y hx hy hkey := by
    rw [List.getElem?_set] at hx hy
    split_ifs at hx hy with h1 h2 h3 h4
    · exact h1.symm.trans h3
    · obtain rfl := Slot.live.inj (Option.some.inj hx)
      exact absurd hkey.symm (hnew j y hy)
    · obtain rfl := Slot.live.inj (Option.some.inj hy)
      exact absurd hkey (hnew i x hx)
    · exact hs.unique i j x y hx hy hkey
  reach i x hx := by
    rw [List.length_set]
    rw [List.getElem?_set] at hx
    split_ifs at hx with h1 h2
    · obtain rfl := Slot.live.inj (Option.some.inj hx)
      refine ⟨d, hd, h1, fun e he => ?_⟩
      rw [List.getElem?_set]
      split_ifs
      · rintro ⟨⟩
      · exact hway e he
    · obtain ⟨c, hc, hi, hall⟩ := hs.reach i x hx
      refine ⟨c, hc, hi, fun e he => ?_⟩
      rw [List.getElem?_set]
      split_ifs with h3 h4
      · rintro ⟨⟩
      · rintro ⟨⟩
      · exact hall e he

/-- **Looking for a thing** ends where it is, or where it may be put. -/
theorem Sound.find_cases [DecidableEq κ] (hs : Sound key hash slots) (hempty : .empty ∈ slots) (k : κ) :
    (∃ i a, find key slots k slots.length (hash k % slots.length) none = some i ∧
      slots[i]? = some (.live a) ∧ key a = k) ∨
    (∃ i, find key slots k slots.length (hash k % slots.length) none = some i ∧
      (slots[i]? = some .empty ∨ slots[i]? = some .tombstone) ∧
      (∀ (j : Nat) (a : α), slots[j]? = some (.live a) → key a ≠ k) ∧
      ∀ a, key a = k → Sound key hash (slots.set i (.live a))) := by
  have hfrom := @find_from α κ key slots k slots.length 0 none _ rfl (hash k)
    (fun e he => absurd he (Nat.not_lt_zero _)) trivial
  rw [Nat.add_zero] at hfrom
  rcases hfrom with ⟨i, a, hi, ha, hk⟩ | ⟨f, e, hi, hf, hfree, hbefore, hle, hslot⟩ | hall
  · exact .inl ⟨i, a, hi, ha, hk⟩
  · have hnot : ∀ (j : Nat) (a : α), slots[j]? = some (.live a) → key a ≠ k := fun j a hj => hs.not_mem hfree hbefore hj
    refine .inr ⟨_, hi, ?_, hnot, ?_⟩
    · rcases hslot with rfl | ht
      · exact .inl hfree
      · exact .inr ht
    · rintro a rfl
      refine hs.put hnot (Nat.lt_of_le_of_lt hle hf) fun c hc hnone => ?_
      rcases hbefore c (Nat.lt_of_lt_of_le hc hle) with ht | ⟨b, hb, -⟩
      · rw [ht] at hnone
        cases hnone
      · rw [hb] at hnone
        cases hnone
  · obtain ⟨i, hi⟩ := List.mem_iff_getElem?.mp hempty
    obtain ⟨hlt, -⟩ := List.getElem?_eq_some_iff.mp hi
    obtain ⟨e, he, rfl⟩ := exists_distance (hash k) hlt
    rcases hall e he with ht | ⟨b, hb, -⟩
    · rw [ht] at hi
      cases hi
    · rw [hb] at hi
      cases hi

theorem live_of_bury (h : (slots.set i .tombstone)[j]? = some (.live a)) :
    i ≠ j ∧ slots[j]? = some (.live a) := by
  rw [List.getElem?_set] at h
  split_ifs at h with h1 h2
  · cases h
  · exact ⟨h1, h⟩

/-- **Taking a thing out** leaves its slot in the way of the others. -/
theorem Sound.bury (hs : Sound key hash slots) : Sound key hash (slots.set i .tombstone) where
  unique j k x y hx hy hkey := hs.unique j k x y (live_of_bury hx).2 (live_of_bury hy).2 hkey
  reach j x hx := by
    obtain ⟨c, hc, hj, hall⟩ := hs.reach j x (live_of_bury hx).2
    rw [List.length_set]
    refine ⟨c, hc, hj, fun e he => ?_⟩
    rw [List.getElem?_set]
    split_ifs with h1 h2
    · rintro ⟨⟩
    · rintro ⟨⟩
    · exact hall e he

/-! ### What is in the table -/

theorem live_mem_put (hi : i < slots.length) (hfree : ∀ b, slots[i]? ≠ some (.live b)) {x : α} :
    .live x ∈ slots.set i (.live a) ↔ x = a ∨ .live x ∈ slots := by
  rw [List.mem_iff_getElem?, List.mem_iff_getElem?]
  constructor
  · rintro ⟨j, hj⟩
    rw [List.getElem?_set] at hj
    split_ifs at hj with h1
    · exact .inl (Slot.live.inj (Option.some.inj hj)).symm
    · exact .inr ⟨j, hj⟩
  · rintro (rfl | ⟨j, hj⟩)
    · exact ⟨i, by rw [List.getElem?_set_self hi]⟩
    · refine ⟨j, ?_⟩
      rw [List.getElem?_set_ne, hj]
      rintro rfl
      exact hfree x hj

theorem countP_isLive_put {s : Slot α} (hi : slots[i]? = some s) (hs : s.isLive = false) :
    (slots.set i (.live a)).countP Slot.isLive = slots.countP Slot.isLive + 1 := by
  obtain ⟨hlt, heq⟩ := List.getElem?_eq_some_iff.mp hi
  rw [List.countP_set hlt, heq, hs]
  rfl

theorem countP_isTombstone_put {s : Slot α} (hi : slots[i]? = some s) :
    (slots.set i (.live a)).countP Slot.isTombstone =
      slots.countP Slot.isTombstone - if s.isTombstone then 1 else 0 := by
  obtain ⟨hlt, heq⟩ := List.getElem?_eq_some_iff.mp hi
  rw [List.countP_set hlt, heq]
  rfl

theorem countP_isLive_bury (hi : slots[i]? = some (.live a)) :
    (slots.set i .tombstone).countP Slot.isLive + 1 = slots.countP Slot.isLive := by
  obtain ⟨hlt, heq⟩ := List.getElem?_eq_some_iff.mp hi
  have hpos : 0 < slots.countP Slot.isLive :=
    List.countP_pos_iff.mpr ⟨.live a, List.mem_of_getElem? hi, rfl⟩
  rw [List.countP_set hlt, heq]
  show slots.countP Slot.isLive - 1 + 0 + 1 = _
  omega

theorem countP_isTombstone_bury (hi : slots[i]? = some (.live a)) :
    (slots.set i .tombstone).countP Slot.isTombstone = slots.countP Slot.isTombstone + 1 := by
  obtain ⟨hlt, heq⟩ := List.getElem?_eq_some_iff.mp hi
  rw [List.countP_set hlt, heq]
  rfl

/-! ### How many slots are free -/

theorem countP_le : slots.countP Slot.isLive + slots.countP Slot.isTombstone ≤ slots.length := by
  induction slots with
  | nil => exact Nat.le_refl _
  | cons s slots ih =>
    cases s <;>
      simp only [List.countP_cons, Slot.isLive, Slot.isTombstone, List.length_cons, if_true,
        Bool.false_eq_true, if_false] <;> omega

/-- A slot is free if the things and the tombstones leave one. -/
theorem empty_mem (h : slots.countP Slot.isLive + slots.countP Slot.isTombstone < slots.length) :
    .empty ∈ slots := by
  induction slots with
  | nil => exact absurd h (Nat.not_lt_zero _)
  | cons s slots ih =>
    cases s with
    | empty => exact List.mem_cons_self
    | tombstone =>
      simp only [List.countP_cons, Slot.isLive, Slot.isTombstone, List.length_cons, if_true,
        Bool.false_eq_true, if_false] at h
      exact List.mem_cons_of_mem _ (ih (by omega))
    | live a =>
      simp only [List.countP_cons, Slot.isLive, Slot.isTombstone, List.length_cons, if_true,
        Bool.false_eq_true, if_false] at h
      exact List.mem_cons_of_mem _ (ih (by omega))

/-- Things that are told apart by what each has of finitely many leave no more slots taken. -/
theorem countP_isLive_le {β : Type} [Fintype β] {f : α → β}
    (hf : ∀ (i j : Nat) (a b : α), slots[i]? = some (.live a) → slots[j]? = some (.live b) → f a = f b → i = j) :
    slots.countP Slot.isLive ≤ Fintype.card β := by
  have hlen : (slots.filterMap Slot.thing?).length = slots.countP Slot.isLive := by
    clear hf
    induction slots with
    | nil => rfl
    | cons s slots ih => cases s <;> simp [List.filterMap_cons, List.countP_cons, Slot.thing?, Slot.isLive, ih]
  have hnodup : ((slots.filterMap Slot.thing?).map f).Nodup := by
    clear hlen
    induction slots with
    | nil => exact List.nodup_nil
    | cons s slots ih =>
      have hrest := ih fun i j a b ha hb hab => Nat.succ_injective (hf (i + 1) (j + 1) a b ha hb hab)
      cases s with
      | empty => exact hrest
      | tombstone => exact hrest
      | live a =>
        refine List.nodup_cons.mpr ⟨fun hmem => ?_, hrest⟩
        obtain ⟨b, hb, hab⟩ := List.mem_map.mp hmem
        obtain ⟨s, hs, hsb⟩ := List.mem_filterMap.mp hb
        obtain ⟨j, hj⟩ := List.mem_iff_getElem?.mp hs
        cases s with
        | empty => cases hsb
        | tombstone => cases hsb
        | live c =>
          obtain rfl := Option.some.inj hsb
          exact absurd (hf 0 (j + 1) a c rfl hj hab.symm) (Nat.zero_ne_add_one j)
  have hcard := hnodup.length_le_card
  rwa [List.length_map, hlen] at hcard

end Jacl.Tombstones
