import Mathlib

/-!
# Interning

A table of distinct things, in the order in which they were first seen, and an index of open
addresses over it: a slot holds the number of a thing, plus one, or nothing.  A thing is looked
for from its hash on, up to the first free slot, while the table is less than three quarters of
the index; from then on all of the table is scanned, and what is new is not put in the index any
more.

`Sound` is what every operation keeps.  By it the loop over the slots ends, a thing that was seen
before has the number of its first time, and a new one has the next.
-/

namespace Jacl.Interning

variable {α : Type}

/-- The things seen so far, each once, in the order of their first time. -/
def add [DecidableEq α] (x : α) (seen : List α) : List α := if x ∈ seen then seen else seen ++ [x]

/-- The number of a thing: how many were seen before its first time. -/
def place [DecidableEq α] (x : α) (seen : List α) : Nat := seen.idxOf x

structure Table (α : Type) where
  entries : List α
  ix : List Nat

def Table.empty (cap : Nat) : Table α := ⟨[], List.replicate cap 0⟩

variable (cap : Nat) (hash : α → Nat)

/-- The loop over the slots: it ends at the number of `x`, or at a free slot, or never. -/
def Table.probe [DecidableEq α] (t : Table α) (x : α) : Nat → Nat → Option (Nat ⊕ Nat)
  | 0, _ => none
  | n + 1, h =>
    let slot := t.ix.getD h 0
    if slot = 0 then some (.inr h)
    else if t.entries[slot - 1]? = some x then some (.inl (slot - 1))
    else t.probe x n ((h + 1) % cap)

def Table.hashed (t : Table α) : Bool := t.entries.length * 4 < cap * 3

/-- The number of `x`, and the table with it. -/
def Table.intern [DecidableEq α] (t : Table α) (x : α) : Option (Nat × Table α) :=
  if t.hashed cap then
    match t.probe cap x cap (hash x % cap) with
    | some (.inl i) => some (i, t)
    | some (.inr h) =>
      some (t.entries.length, ⟨t.entries ++ [x], t.ix.set h (t.entries.length + 1)⟩)
    | none => none
  else if x ∈ t.entries then some (place x t.entries, t)
  else some (t.entries.length, { t with entries := t.entries ++ [x] })

/-- The slot at distance `d` from the hash of `x`. -/
def Table.slot (t : Table α) (x : α) (d : Nat) : Nat := t.ix.getD ((hash x + d) % cap) 0

structure Table.Sound (t : Table α) : Prop where
  nodup : t.entries.Nodup
  length : t.ix.length = cap
  /-- What is in a slot is the number of a thing. -/
  filled : ∀ h, t.ix.getD h 0 ≤ t.entries.length
  /-- From the hash of what went into the index there is no free slot up to its own. -/
  reach : ∀ (i : Nat) (x : α), t.entries[i]? = some x → i * 4 < cap * 3 →
    ∃ d < cap, t.slot cap hash x d = i + 1 ∧ ∀ d' < d, t.slot cap hash x d' ≠ 0
  free : cap ≤ t.ix.count 0 + t.entries.length

variable {cap : Nat} {hash : α → Nat} {t : Table α} {x : α}

theorem Table.sound_empty : (Table.empty cap : Table α).Sound cap hash where
  nodup := List.nodup_nil
  length := List.length_replicate
  filled h := by
    simp only [empty, List.getD_eq_getElem?_getD, List.getElem?_replicate]
    split <;> exact Nat.zero_le _
  reach i x hx := by simp [empty] at hx
  free := by simp [empty]

namespace Table.Sound

/-- While the index is used there is a free slot, at some distance from every hash. -/
theorem exists_free (ht : t.Sound cap hash) (hh : t.hashed cap) (x : α) :
    ∃ d < cap, t.slot cap hash x d = 0 := by
  have hlt : t.entries.length * 4 < cap * 3 := of_decide_eq_true hh
  have hpos : 0 < t.ix.count 0 := by
    have := ht.free
    omega
  obtain ⟨h, hlen, h0⟩ := List.mem_iff_getElem.mp (List.count_pos_iff.mp hpos)
  rw [ht.length] at hlen
  have hmod := Nat.mod_lt (hash x) (Nat.zero_lt_of_lt hlen)
  refine ⟨(h + (cap - hash x % cap)) % cap, Nat.mod_lt _ (Nat.zero_lt_of_lt hlen), ?_⟩
  have hat : (hash x + (h + (cap - hash x % cap)) % cap) % cap = h := by
    have hsum : hash x % cap + (h + (cap - hash x % cap)) = h + cap := by omega
    rw [Nat.add_mod_mod, ← Nat.mod_add_mod, hsum, Nat.add_mod_right, Nat.mod_eq_of_lt hlen]
  rw [slot, hat, List.getD_eq_getElem _ _ (by rw [ht.length]; exact hlen), h0]

theorem pos_of_hashed (hh : t.hashed cap) : 0 < cap := by
  have : t.entries.length * 4 < cap * 3 := of_decide_eq_true hh
  omega

/-- A new thing goes into the index at the free slot that the loop came to. -/
theorem put (ht : t.Sound cap hash) (hh : t.hashed cap) (hx : x ∉ t.entries) {d : Nat}
    (hd : d < cap) (hzero : t.slot cap hash x d = 0)
    (hbefore : ∀ d' < d, t.slot cap hash x d' ≠ 0) :
    Sound cap hash ⟨t.entries ++ [x],
      t.ix.set ((hash x + d) % cap) (t.entries.length + 1)⟩ := by
  have hpos := pos_of_hashed hh
  have hset : ∀ h, (t.ix.set ((hash x + d) % cap) (t.entries.length + 1)).getD h 0 =
      if h = (hash x + d) % cap then t.entries.length + 1 else t.ix.getD h 0 := by
    intro h
    have hin : (hash x + d) % cap < t.ix.length := by
      rw [ht.length]
      exact Nat.mod_lt _ hpos
    simp only [List.getD_eq_getElem?_getD, List.getElem?_set, hin]
    by_cases heq : h = (hash x + d) % cap
    · simp [heq]
    · simp [heq, Ne.symm heq]
  -- a slot that was not free is as it was
  have hkeep : ∀ h, t.ix.getD h 0 ≠ 0 →
      (t.ix.set ((hash x + d) % cap) (t.entries.length + 1)).getD h 0 = t.ix.getD h 0 := by
    intro h hne
    rw [hset, if_neg]
    rintro rfl
    exact hne hzero
  refine ⟨?_, ?_, ?_, ?_, ?_⟩
  · exact List.nodup_append.mpr ⟨ht.nodup, List.nodup_singleton x, by
      rintro a ha b hb rfl
      exact hx (List.mem_singleton.mp hb ▸ ha)⟩
  · rw [List.length_set]
    exact ht.length
  · intro h
    have := ht.filled h
    simp only [hset, List.length_append, List.length_singleton]
    split <;> omega
  · intro i y hy hi
    simp only [slot]
    rw [List.getElem?_append] at hy
    split at hy
    · obtain ⟨e, he, hslot, hprev⟩ := ht.reach i y hy hi
      simp only [slot] at hslot hprev
      refine ⟨e, he, ?_, fun e' he' => ?_⟩
      · rw [hkeep _ (by rw [hslot]; exact Nat.succ_ne_zero i), hslot]
      · rw [hkeep _ (hprev e' he')]
        exact hprev e' he'
    · obtain ⟨hi0, rfl⟩ : i = t.entries.length ∧ x = y := by
        have h0 := (List.getElem?_eq_some_iff.mp hy).1
        have hi0 : i = t.entries.length := by
          simp only [List.length_singleton] at h0
          omega
        rw [hi0, Nat.sub_self] at hy
        exact ⟨hi0, Option.some.inj hy⟩
      refine ⟨d, hd, ?_, fun e' he' => ?_⟩
      · rw [hset, if_pos rfl, hi0]
      · have hne := hbefore e' he'
        simp only [slot] at hne
        rw [hkeep _ hne]
        exact hne
  · have hin : (hash x + d) % cap < t.ix.length := by
      rw [ht.length]
      exact Nat.mod_lt _ hpos
    have hfree := ht.free
    have hz : t.ix[(hash x + d) % cap] = 0 := by
      rw [← List.getD_eq_getElem t.ix 0 hin]
      exact hzero
    have hcount : 0 < t.ix.count 0 := List.count_pos_iff.mpr (hz ▸ List.getElem_mem hin)
    simp only [List.count_set hin, hz, List.length_append, List.length_singleton]
    simp
    omega

/-- A new thing that does not go into the index any more. -/
theorem push (ht : t.Sound cap hash) (hh : ¬ t.hashed cap) (hx : x ∉ t.entries) :
    Sound cap hash { t with entries := t.entries ++ [x] } := by
  have hge : cap * 3 ≤ t.entries.length * 4 := by
    rw [hashed, decide_eq_true_iff] at hh
    omega
  refine ⟨?_, ht.length, ?_, ?_, ?_⟩
  · exact List.nodup_append.mpr ⟨ht.nodup, List.nodup_singleton x, by
      rintro a ha b hb rfl
      exact hx (List.mem_singleton.mp hb ▸ ha)⟩
  · intro h
    have := ht.filled h
    change t.ix.getD h 0 ≤ (t.entries ++ [x]).length
    rw [List.length_append]
    omega
  · intro i y hy hi
    rw [List.getElem?_append] at hy
    split at hy
    · exact ht.reach i y hy hi
    · omega
  · have := ht.free
    change cap ≤ t.ix.count 0 + (t.entries ++ [x]).length
    rw [List.length_append]
    omega

end Table.Sound

variable [DecidableEq α]

theorem mem_add (x : α) (seen : List α) : x ∈ add x seen := by
  rw [add]
  split <;> simp [*]

theorem subset_add (x : α) (seen : List α) : seen <+: add x seen := by
  rw [add]
  split
  · exact List.prefix_rfl
  · exact List.prefix_append seen [x]

theorem place_kept {xs ys : List α} (h : xs <+: ys) (hx : x ∈ xs) :
    place x ys = place x xs := by
  obtain ⟨zs, rfl⟩ := h
  exact List.idxOf_append_of_mem hx

/-- The number of a thing stands for it. -/
theorem getD_place {xs : List α} (h : x ∈ xs) (d : α) : xs.getD (place x xs) d = x := by
  rw [place, List.getD_eq_getElem?_getD, List.getElem?_idxOf h, Option.getD_some]

theorem place_append {xs : List α} (h : x ∉ xs) : place x (xs ++ [x]) = xs.length := by
  rw [place, List.idxOf_append_of_notMem h, List.idxOf_cons_self, Nat.add_zero]

theorem add_of_mem {seen : List α} (h : x ∈ seen) : add x seen = seen := if_pos h

/-- Slots that are not free and do not hold `x` are passed over. -/
theorem Table.probe_passes {n d : Nat} (hd : d ≤ n) (h : Nat)
    (hpass : ∀ k < d, t.ix.getD ((h + k) % cap) 0 ≠ 0 ∧
      t.entries[t.ix.getD ((h + k) % cap) 0 - 1]? ≠ some x) :
    t.probe cap x n (h % cap) = t.probe cap x (n - d) ((h + d) % cap) := by
  induction d with
  | zero => rfl
  | succ d ih =>
    rw [ih (by omega) fun k hk => hpass k (by omega)]
    obtain ⟨m, hm⟩ : ∃ m, n - d = m + 1 := ⟨n - (d + 1), by omega⟩
    obtain ⟨h0, hx⟩ := hpass d (by omega)
    have hnext : n - (d + 1) = m := by omega
    rw [hm, hnext, probe]
    simp only [h0, hx, if_false, Nat.mod_add_mod]
    rfl

/-- The loop ends at a slot that holds the number of `x`. -/
theorem Table.probe_inl {n h i : Nat} (hp : t.probe cap x n h = some (.inl i)) :
    ∃ h', t.ix.getD h' 0 = i + 1 ∧ t.entries[i]? = some x := by
  induction n generalizing h with
  | zero => contradiction
  | succ n ih =>
    rw [probe] at hp
    split at hp
    · exact absurd (Option.some.inj hp) Sum.inr_ne_inl
    · rename_i hne
      split at hp
      · rename_i hx
        obtain rfl : t.ix.getD h 0 - 1 = i := Sum.inl.inj (Option.some.inj hp)
        exact ⟨h, by omega, hx⟩
      · exact ih hp

namespace Table.Sound

/-- What went into the index is found, with its number. -/
theorem probe_placed (ht : t.Sound cap hash) (hx : x ∈ t.entries)
    (hlt : place x t.entries * 4 < cap * 3) :
    t.probe cap x cap (hash x % cap) = some (.inl (place x t.entries)) := by
  have hat : t.entries[place x t.entries]? = some x := List.getElem?_idxOf hx
  obtain ⟨d, hd, hslot, hbefore⟩ := ht.reach _ x hat hlt
  -- the first slot on the way that holds `x`
  have hex : ∃ d, t.entries[t.slot cap hash x d - 1]? = some x := ⟨d, by rw [hslot]; exact hat⟩
  classical
  have hle : Nat.find hex ≤ d := Nat.find_min' hex (by rw [hslot]; exact hat)
  have hfound : t.entries[t.slot cap hash x (Nat.find hex) - 1]? = some x := Nat.find_spec hex
  have hne : t.slot cap hash x (Nat.find hex) ≠ 0 := by
    obtain hlt | heq := Nat.lt_or_eq_of_le hle
    · exact hbefore _ hlt
    · rw [heq, hslot]
      exact Nat.succ_ne_zero _
  have hnum : t.slot cap hash x (Nat.find hex) - 1 = place x t.entries := by
    have hi := (List.getElem?_eq_some_iff.mp hfound).1
    exact (List.getElem?_inj hi ht.nodup).mp (hfound.trans hat.symm)
  rw [probe_passes (Nat.le_of_lt (Nat.lt_of_le_of_lt hle hd)) (hash x) fun k hk =>
    ⟨hbefore k (Nat.lt_of_lt_of_le hk hle), Nat.find_min hex hk⟩]
  obtain ⟨m, hm⟩ : ∃ m, cap - Nat.find hex = m + 1 := ⟨cap - Nat.find hex - 1, by omega⟩
  rw [hm, probe]
  change (if t.slot cap hash x (Nat.find hex) = 0 then _ else if
    t.entries[t.slot cap hash x (Nat.find hex) - 1]? = some x then _ else _) = _
  rw [if_neg hne, if_pos hfound]
  exact congrArg (fun i => some (Sum.inl i)) hnum

/-- **A thing that was seen before is found**, with its number. -/
theorem probe_mem (ht : t.Sound cap hash) (hh : t.hashed cap) (hx : x ∈ t.entries) :
    t.probe cap x cap (hash x % cap) = some (.inl (place x t.entries)) := by
  have hlt : t.entries.length * 4 < cap * 3 := of_decide_eq_true hh
  have hidx : place x t.entries < t.entries.length := List.idxOf_lt_length_of_mem hx
  exact ht.probe_placed hx (by omega)

/-- **A new thing is not found**, and the loop ends at a free slot. -/
theorem probe_not_mem (ht : t.Sound cap hash) (hh : t.hashed cap) (hx : x ∉ t.entries) :
    ∃ d < cap, t.probe cap x cap (hash x % cap) = some (.inr ((hash x + d) % cap)) ∧
      t.slot cap hash x d = 0 ∧ ∀ d' < d, t.slot cap hash x d' ≠ 0 := by
  obtain ⟨e, he, hfree⟩ := ht.exists_free hh x
  have hex : ∃ d, t.slot cap hash x d = 0 := ⟨e, hfree⟩
  have hle : Nat.find hex ≤ e := Nat.find_min' hex hfree
  have hzero : t.slot cap hash x (Nat.find hex) = 0 := Nat.find_spec hex
  refine ⟨Nat.find hex, Nat.lt_of_le_of_lt hle he, ?_, hzero, fun d' hd' => Nat.find_min hex hd'⟩
  rw [probe_passes (Nat.le_of_lt (Nat.lt_of_le_of_lt hle he)) (hash x) fun k hk =>
    ⟨Nat.find_min hex hk, fun h => hx (List.mem_of_getElem? h)⟩]
  obtain ⟨m, hm⟩ : ∃ m, cap - Nat.find hex = m + 1 := ⟨cap - Nat.find hex - 1, by omega⟩
  rw [hm, probe]
  change (if t.slot cap hash x (Nat.find hex) = 0 then _ else _) = _
  rw [if_pos hzero]

/-- **Interning**: it always returns; the table has the thing, once; and its number is its place
in the order of first times. -/
theorem intern (ht : t.Sound cap hash) (x : α) :
    ∃ t' : Table α, t.intern cap hash x = some (place x t'.entries, t') ∧ t'.Sound cap hash ∧
      t'.entries = add x t.entries := by
  rw [Table.intern]
  by_cases hx : x ∈ t.entries
  · refine ⟨t, ?_, ht, (add_of_mem hx).symm⟩
    by_cases hh : t.hashed cap
    · rw [if_pos hh, ht.probe_mem hh hx]
    · rw [if_neg hh, if_pos hx]
  · have hnew : place x (t.entries ++ [x]) = t.entries.length := place_append hx
    have hadd : t.entries ++ [x] = add x t.entries := (if_neg hx).symm
    by_cases hh : t.hashed cap
    · obtain ⟨d, hd, hprobe, hzero, hbefore⟩ := ht.probe_not_mem hh hx
      refine ⟨_, ?_, ht.put hh hx hd hzero hbefore, hadd⟩
      rw [if_pos hh, hprobe]
      exact congrArg (fun i => some (i, _)) hnew.symm
    · refine ⟨_, ?_, ht.push hh hx, hadd⟩
      rw [if_neg hh, if_neg hx]
      exact congrArg (fun i => some (i, _)) hnew.symm

end Table.Sound

end Jacl.Interning
