import Jacl.ReplUnits

/-!
# The table, the units and the records

What holds of them at every step (`Core`): a slot belongs to one unit, a unit that may still run
has all of its slots, a slot that a closure is kept for is one of them, and a record that is taken
is its unit's.  Where the compiler is does not matter here.
-/

namespace Jacl.ReplUnits
open Function

variable {s s' : St} {u : UnitId} {x : Slot} {i : Nat} {p : Phase}

/-! ### Phases -/

/-- All the slots of the unit are its own. -/
def Phase.Live : Phase → Prop
  | .built | .installed | .ready | .entering _ | .running | .returned | .left => True
  | _ => False

/-- The line has been called, so a closure of the unit may be kept. -/
def Phase.Used : Phase → Prop
  | .entering _ | .running | .returned | .left => True
  | _ => False

/-- A unit that has a record has it still. -/
def Phase.Recorded : Phase → Prop
  | .ready | .entering _ | .running | .returned | .left | .freeing => True
  | _ => False

/-- The line no longer counts as running. -/
def Phase.ended : Phase → Bool
  | .left | .freeing => true
  | _ => false

/-- How many of `n` slots the entry has handed over. -/
def Phase.count (n : Nat) : Phase → Nat
  | .ready => 0
  | .entering k => k
  | _ => n

theorem Phase.Called.used : ∀ {p : Phase}, p.Called → p.Used
  | .entering _, _ | .running, _ => trivial

theorem Phase.Used.live : ∀ {p : Phase}, p.Used → p.Live
  | .entering _, _ | .running, _ | .returned, _ | .left, _ => trivial

theorem Phase.ended_iff : ∀ {p : Phase}, p.ended = true ↔ p = .left ∨ p = .freeing
  | .unmade | .built | .installed | .ready | .entering _ | .running | .returned | .freed
  | .dropped => by simp [ended]
  | .left | .freeing => by simp [ended]

/-! ### The table, the units and the records -/

/-- What a taken record says of its unit. -/
structure RecordOk (r : ReplUnit) (c : CompiledUnit) (i : Nat) : Prop where
  index : i < maxUnits
  unit : c.unit = i + 1
  slot : c.slot = some r.install
  leaf : c.leaf = false
  phase : c.phase.Recorded
  running : r.running = if c.phase.ended then 0 else 1
  slots : r.isPartial = false → r.slots = c.fns.take (c.phase.count c.fns.length)

/-- A unit that got a record has it still or is uninstalled; or its line is not called. -/
def CompiledUnit.Kept (c : CompiledUnit) : Prop :=
  c.phase.Recorded ∨ c.phase = .freed ∨ c.phase = .dropped ∧ c.slot = some 0

structure Core (s : St) : Prop where
  unmade : ∀ u, s.made ≤ u → s.units u = noUnit
  nodup : ∀ u, (s.units u).slots.Nodup
  live : ∀ u x, (s.units u).phase.Live → x ∈ (s.units u).slots → s.table x = some u
  owns : ∀ x u, s.table x = some u → x ∈ (s.units u).slots ∧ (s.units u).phase ≠ .freed
  held : ∀ x, s.held x = true →
    ∃ u, s.table x = some u ∧ x ∈ (s.units u).fns ∧ (s.units u).phase.Used
  leaf : ∀ u, (s.units u).leaf = true → (s.units u).fns = []
  record : ∀ i, (s.records i).install ≠ 0 →
    RecordOk (s.records i) (s.units (s.records i).owner) i
  owner : ∀ u i, (s.units u).unit = i + 1 → (s.units u).phase.Recorded →
    (s.records i).install ≠ 0 ∧ (s.records i).owner = u
  unrecorded : ∀ u, (s.units u).phase = .built ∨ (s.units u).phase = .installed ∨
    (s.units u).isMacro = true → (s.units u).unit = 0
  built : ∀ u, (s.units u).phase = .built → (s.units u).slot = none
  line : ∀ u, (s.units u).phase = .installed → (s.units u).isMacro = false
  kept : ∀ u, (s.units u).unit ≠ 0 → (s.units u).Kept

theorem core_init : Core init where
  unmade _ _ := rfl
  nodup _ := .nil
  live _ _ h := h.elim
  owns _ _ h := nomatch h
  held _ h := nomatch h
  leaf _ h := nomatch h
  record _ h := absurd rfl h
  owner _ _ h := nomatch h
  unrecorded _ _ := rfl
  built _ _ := rfl
  line _ _ := rfl
  kept _ h := absurd rfl h

/-- The compiler is no part of it. -/
theorem Core.compiler (h : Core s) (c : Compiler) : Core { s with compiler := c } :=
  ⟨h.unmade, h.nodup, h.live, h.owns, h.held, h.leaf, h.record, h.owner, h.unrecorded,
    h.built, h.line, h.kept⟩

theorem Core.made_of_slot (h : Core s) (hx : x ∈ (s.units u).slots) : u < s.made := by
  refine Nat.lt_of_not_le fun hu => ?_
  rw [h.unmade u hu] at hx
  cases hx

theorem Core.made_of_phase (h : Core s) (hp : (s.units u).phase ≠ .unmade) : u < s.made := by
  refine Nat.lt_of_not_le fun hu => hp ?_
  rw [h.unmade u hu]
  rfl

/-- No two units share a slot. -/
theorem Core.unheld (h : Core s) (hp : ¬ (s.units u).phase.Used) (hx : s.table x = some u) :
    s.held x = false := by
  by_contra hh
  obtain ⟨v, hv, -, hused⟩ := h.held x (by simpa using hh)
  obtain rfl := Option.some.inj (hx.symm.trans hv)
  exact hp hused

/-- The slots of functions that a record is complete for. -/
theorem RecordOk.all {r : ReplUnit} {c : CompiledUnit} (h : RecordOk r c i)
    (hp : r.isPartial = false) (ho : c.phase.ended = true) : r.slots = c.fns := by
  rw [h.slots hp]
  obtain hl | hf := Phase.ended_iff.mp ho
  · rw [hl]
    exact List.take_length
  · rw [hf]
    exact List.take_length

@[simp] theorem setPhase_table : (s.setPhase u p).table = s.table := rfl
@[simp] theorem setPhase_held : (s.setPhase u p).held = s.held := rfl
@[simp] theorem setPhase_made : (s.setPhase u p).made = s.made := rfl
@[simp] theorem setPhase_records : (s.setPhase u p).records = s.records := rfl
@[simp] theorem setPhase_compiler : (s.setPhase u p).compiler = s.compiler := rfl

theorem setPhase_self : (s.setPhase u p).units u = { s.units u with phase := p } := update_self ..

theorem setPhase_of_ne {v : UnitId} (h : v ≠ u) : (s.setPhase u p).units v = s.units v :=
  update_of_ne h ..

/-- What a new phase leaves as it is. -/
theorem setPhase_fields (v : UnitId) : ((s.setPhase u p).units v).fns = (s.units v).fns ∧
    ((s.setPhase u p).units v).slot = (s.units v).slot ∧
    ((s.setPhase u p).units v).leaf = (s.units v).leaf ∧
    ((s.setPhase u p).units v).isMacro = (s.units v).isMacro ∧
    ((s.setPhase u p).units v).unit = (s.units v).unit := by
  by_cases hv : v = u
  · subst hv
    rw [setPhase_self]
    exact ⟨rfl, rfl, rfl, rfl, rfl⟩
  · rw [setPhase_of_ne hv]
    exact ⟨rfl, rfl, rfl, rfl, rfl⟩

theorem setPhase_slots (v : UnitId) :
    ((s.setPhase u p).units v).slots = (s.units v).slots := by
  obtain ⟨hf, hs, -⟩ := setPhase_fields (s := s) (u := u) (p := p) v
  rw [CompiledUnit.slots, CompiledUnit.slots, hf, hs]

/-- **A unit goes on to a phase in which it has the slots it had**, and its record follows it. -/
theorem Core.goes (h : Core s) {R : Nat → ReplUnit} (hm : (s.units u).phase ≠ .unmade)
    (hlive : p.Live → (s.units u).phase.Live)
    (hused : (s.units u).phase.Used → p.Used ∨ ∀ x, s.table x = some u → s.held x = false)
    (hfreed : p ≠ .freed) (hnew : p ≠ .built ∧ p ≠ .installed)
    (hsame : ∀ i, (R i).install = (s.records i).install ∧ (R i).owner = (s.records i).owner)
    (hother : ∀ i, (s.records i).owner ≠ u → R i = s.records i)
    (hrec : ∀ i, (s.units u).unit = i + 1 → (p.Recorded ∧ (s.units u).phase.Recorded) ∧
      (RecordOk (s.records i) (s.units u) i → RecordOk (R i) { s.units u with phase := p } i)) :
    Core ({ s with records := R }.setPhase u p) where
  unmade v hv := by
    have hne : v ≠ u := Nat.ne_of_gt (Nat.lt_of_lt_of_le (h.made_of_phase hm) hv)
    rw [setPhase_of_ne hne]
    exact h.unmade v hv
  nodup v := by
    rw [setPhase_slots]
    exact h.nodup v
  live v x hl hx := by
    rw [setPhase_slots] at hx
    by_cases hv : v = u
    · subst hv
      rw [setPhase_self] at hl
      exact h.live v x (hlive hl) hx
    · rw [setPhase_of_ne hv] at hl
      exact h.live v x hl hx
  owns x v hx := by
    obtain ⟨hs, hf⟩ := h.owns x v hx
    refine ⟨by rw [setPhase_slots]; exact hs, ?_⟩
    by_cases hv : v = u
    · subst hv
      rw [setPhase_self]
      exact hfreed
    · rw [setPhase_of_ne hv]
      exact hf
  held x hx := by
    obtain ⟨v, ht, hf, hu⟩ := h.held x hx
    refine ⟨v, ht, by rw [(setPhase_fields v).1]; exact hf, ?_⟩
    by_cases hv : v = u
    · subst hv
      rw [setPhase_self]
      obtain hp | hn := hused hu
      · exact hp
      · rw [setPhase_held, hn x ht] at hx
        cases hx
    · rw [setPhase_of_ne hv]
      exact hu
  leaf v hl := by
    rw [(setPhase_fields v).2.2.1] at hl
    rw [(setPhase_fields v).1]
    exact h.leaf v hl
  record i hi := by
    change (R i).install ≠ 0 at hi
    change RecordOk (R i) (({ s with records := R }.setPhase u p).units (R i).owner) i
    rw [(hsame i).1] at hi
    rw [(hsame i).2]
    have hr := h.record i hi
    by_cases hv : (s.records i).owner = u
    · rw [hv] at hr ⊢
      rw [setPhase_self]
      exact (hrec i hr.unit).2 hr
    · rw [setPhase_of_ne hv, hother i hv]
      exact hr
  owner v i hv hp := by
    change (R i).install ≠ 0 ∧ (R i).owner = v
    rw [(hsame i).1, (hsame i).2]
    rw [(setPhase_fields v).2.2.2.2] at hv
    by_cases hne : v = u
    · subst hne
      rw [setPhase_self] at hp
      exact h.owner v i hv (hrec i hv).1.2
    · rw [setPhase_of_ne hne] at hp
      exact h.owner v i hv hp
  unrecorded v hv := by
    rw [(setPhase_fields v).2.2.2.2]
    rw [(setPhase_fields v).2.2.2.1] at hv
    by_cases hne : v = u
    · subst hne
      rw [setPhase_self] at hv
      obtain hb | hi | hm := hv
      · exact absurd hb hnew.1
      · exact absurd hi hnew.2
      · exact h.unrecorded v (.inr (.inr hm))
    · rw [setPhase_of_ne hne] at hv
      exact h.unrecorded v hv
  built v hv := by
    rw [(setPhase_fields v).2.1]
    by_cases hne : v = u
    · subst hne
      rw [setPhase_self] at hv
      exact absurd hv hnew.1
    · rw [setPhase_of_ne hne] at hv
      exact h.built v hv
  line v hv := by
    rw [(setPhase_fields v).2.2.2.1]
    by_cases hne : v = u
    · subst hne
      rw [setPhase_self] at hv
      exact absurd hv hnew.2
    · rw [setPhase_of_ne hne] at hv
      exact h.line v hv
  kept v hv := by
    rw [(setPhase_fields v).2.2.2.2] at hv
    by_cases hne : v = u
    · subst hne
      obtain ⟨i, hi⟩ := Nat.exists_eq_succ_of_ne_zero hv
      rw [setPhase_self]
      exact .inl (hrec i hi).1.1
    · rw [setPhase_of_ne hne]
      exact h.kept v hv

/-- What the records know of a unit's phase. -/
structure SameForRecord (p q : Phase) (n : Nat) : Prop where
  recorded : p.Recorded ∧ q.Recorded
  ended : p.ended = q.ended
  count : p.count n = q.count n

theorem SameForRecord.recordOk {r : ReplUnit} {c : CompiledUnit}
    (h : SameForRecord p c.phase c.fns.length) (hr : RecordOk r c i) :
    RecordOk r { c with phase := p } i where
  index := hr.index
  unit := hr.unit
  slot := hr.slot
  leaf := hr.leaf
  phase := h.recorded.1
  running := by rw [hr.running, h.ended]
  slots hp := by rw [hr.slots hp, h.count]

/-- The records know nothing of the new phase. -/
theorem Core.setPhase (h : Core s) (hm : (s.units u).phase ≠ .unmade)
    (hlive : p.Live → (s.units u).phase.Live)
    (hused : (s.units u).phase.Used → p.Used ∨ ∀ x, s.table x = some u → s.held x = false)
    (hfreed : p ≠ .freed) (hnew : p ≠ .built ∧ p ≠ .installed)
    (hrec : ∀ i, (s.units u).unit = i + 1 →
      SameForRecord p (s.units u).phase (s.units u).fns.length) : Core (s.setPhase u p) :=
  h.goes hm hlive hused hfreed hnew (fun _ => ⟨rfl, rfl⟩) (fun _ _ => rfl)
    fun i hi => ⟨(hrec i hi).recorded, (hrec i hi).recordOk⟩

theorem unitSlot_fields (r : ReplUnit) (x : Slot) (grows : Bool) :
    (unitSlot r x grows).install = r.install ∧ (unitSlot r x grows).owner = r.owner ∧
    (unitSlot r x grows).running = r.running ∧
    (unitSlot r x grows).candidate = r.candidate ∧
    ((unitSlot r x grows).isPartial = false →
      r.isPartial = false ∧ (unitSlot r x grows).slots = r.slots ++ [x]) := by
  unfold unitSlot
  by_cases hc : r.slots.length = r.cap
  · rw [if_pos hc]
    cases grows with
    | false => exact ⟨rfl, rfl, rfl, rfl, nofun⟩
    | true => exact ⟨rfl, rfl, rfl, rfl, fun h => ⟨h, rfl⟩⟩
  · rw [if_neg hc]
    exact ⟨rfl, rfl, rfl, rfl, fun h => ⟨h, rfl⟩⟩

/-- The records after the entry's call of `reg`. -/
theorem register_spec (h : Core s) {k : Nat} (x : Slot) (grows : Bool) (hp : (s.units u).phase = .entering k) :
    ∃ R, s.register u x grows = { s with records := R } ∧
      (∀ i, (s.units u).unit = i + 1 → R i = unitSlot (s.records i) x grows) ∧
      ∀ i, (s.records i).owner ≠ u ∨ (s.units u).unit ≠ i + 1 → R i = s.records i := by
  cases hu : (s.units u).unit with
  | zero => exact ⟨s.records, by rw [St.register, hu], nofun, fun _ _ => rfl⟩
  | succ i =>
    refine ⟨update s.records i (unitSlot (s.records i) x grows), by rw [St.register, hu],
      fun j hj => ?_, fun j hj => update_of_ne ?_ ..⟩
    · obtain rfl : j = i := by omega
      exact update_self ..
    · rintro rfl
      obtain ⟨-, hown⟩ := h.owner u j hu (by rw [hp]; trivial)
      exact hj.elim (absurd hown) (absurd rfl)

/-- `register_spec` for the `running` count. -/
theorem settle_spec (h : Core s) (hp : (s.units u).phase = .returned) :
    ∃ R, s.settle u = { s with records := R } ∧
      (∀ i, (s.units u).unit = i + 1 →
        R i = { s.records i with running := (s.records i).running - 1 }) ∧
      ∀ i, (s.records i).owner ≠ u ∨ (s.units u).unit ≠ i + 1 → R i = s.records i := by
  cases hu : (s.units u).unit with
  | zero => exact ⟨s.records, by rw [St.settle, hu], nofun, fun _ _ => rfl⟩
  | succ i =>
    refine ⟨_, by rw [St.settle, hu], fun j hj => ?_, fun j hj => update_of_ne ?_ ..⟩
    · obtain rfl : j = i := by omega
      exact update_self ..
    · rintro rfl
      obtain ⟨-, hown⟩ := h.owner u j hu (by rw [hp]; trivial)
      exact hj.elim (absurd hown) (absurd rfl)

theorem Core.reg (h : Core s) {k : Nat} {grows : Bool} (hp : (s.units u).phase = .entering k)
    (hx : (s.units u).fns[k]? = some x) :
    Core ((s.register u x grows).setPhase u (.entering (k + 1))) := by
  obtain ⟨R, hR, hself, hother⟩ := register_spec h x grows hp
  rw [hR]
  have hfields (i : Nat) : (R i).install = (s.records i).install ∧
      (R i).owner = (s.records i).owner := by
    by_cases hi : (s.units u).unit = i + 1
    · rw [hself i hi]
      obtain ⟨h₁, h₂, -⟩ := unitSlot_fields (s.records i) x grows
      exact ⟨h₁, h₂⟩
    · rw [hother i (.inr hi)]
      exact ⟨rfl, rfl⟩
  refine h.goes (by rw [hp]; nofun) (fun _ => by rw [hp]; trivial) (fun _ => .inl trivial) nofun
    ⟨nofun, nofun⟩ hfields (fun i hi => hother i (.inl hi)) fun i hi =>
    ⟨⟨trivial, by rw [hp]; trivial⟩, fun hr => ?_⟩
  obtain ⟨hinst, -, hrun, -, hslots⟩ := unitSlot_fields (s.records i) x grows
  rw [hself i hi]
  refine ⟨hr.index, hr.unit, hr.slot.trans (by rw [hinst]), hr.leaf, trivial, ?_, fun hq => ?_⟩
  · rw [hrun, hr.running, hp]
    rfl
  · obtain ⟨hwhole, hs⟩ := hslots hq
    obtain ⟨hk, rfl⟩ := List.getElem?_eq_some_iff.mp hx
    rw [hs, hr.slots hwhole, hp]
    exact List.take_concat_get' _ k hk

theorem Core.leave (h : Core s) (hp : (s.units u).phase = .returned) :
    Core ((s.settle u).setPhase u .left) := by
  obtain ⟨R, hR, hself, hother⟩ := settle_spec h hp
  rw [hR]
  have hfields (i : Nat) : (R i).install = (s.records i).install ∧
      (R i).owner = (s.records i).owner := by
    by_cases hi : (s.units u).unit = i + 1
    · rw [hself i hi]
      exact ⟨rfl, rfl⟩
    · rw [hother i (.inr hi)]
      exact ⟨rfl, rfl⟩
  refine h.goes (by rw [hp]; nofun) (fun _ => by rw [hp]; trivial) (fun _ => .inl trivial) nofun
    ⟨nofun, nofun⟩ hfields (fun i hi => hother i (.inl hi)) fun i hi =>
    ⟨⟨trivial, by rw [hp]; trivial⟩, fun hr => ?_⟩
  rw [hself i hi]
  refine ⟨hr.index, hr.unit, hr.slot, hr.leaf, trivial, ?_, fun hq => ?_⟩
  · change (s.records i).running - 1 = 0
    rw [hr.running, hp]
    rfl
  · exact (hr.slots hq).trans (by rw [hp]; rfl)

/-! ### New units -/

theorem Core.build (h : Core s) {isMacro leaf : Bool} {fns : List Slot}
    (hl : leaf = true → fns = []) (hf : Fresh s fns) : Core (s.build isMacro leaf fns) := by
  have hself : (s.build isMacro leaf fns).units s.made = ⟨isMacro, leaf, fns, none, 0, .built⟩ :=
    update_self ..
  have hne {v : UnitId} (hv : v ≠ s.made) : (s.build isMacro leaf fns).units v = s.units v :=
    update_of_ne hv ..
  have htable {y : Slot} {v : UnitId} (hy : s.table y = some v) :
      (s.build isMacro leaf fns).table y = some v := by
    change s.take s.made fns y = some v
    rw [St.take, if_neg, hy]
    intro hin
    rw [hf.2 y hin] at hy
    cases hy
  have hold {v : UnitId} (hv : (s.units v).slots ≠ []) : v ≠ s.made := by
    rintro rfl
    exact hv (by rw [h.unmade _ (Nat.le_refl _)]; rfl)
  refine ⟨fun v hv => ?_, fun v => ?_, fun v y hp hy => ?_, fun y v hy => ?_, fun y hy => ?_,
    fun v hv => ?_, fun i hi => ?_, fun v i hv hp => ?_, fun v hv => ?_, fun v hv => ?_,
    fun v hv => ?_, fun v hv => ?_⟩
  · rw [hne (Nat.ne_of_gt hv)]
    exact h.unmade v (Nat.le_of_succ_le hv)
  · by_cases hv : v = s.made
    · rw [hv, hself]
      simpa [CompiledUnit.slots] using hf.1
    · rw [hne hv]
      exact h.nodup v
  · by_cases hv : v = s.made
    · rw [hv, hself] at hy
      have hin : y ∈ fns := by simpa [CompiledUnit.slots] using hy
      rw [hv]
      exact if_pos hin
    · rw [hne hv] at hp hy
      exact htable (h.live v y hp hy)
  · change s.take s.made fns y = some v at hy
    unfold St.take at hy
    split_ifs at hy with hin
    · obtain rfl := Option.some.inj hy
      rw [hself]
      exact ⟨List.mem_append_left _ hin, nofun⟩
    · obtain ⟨hs, hph⟩ := h.owns y v hy
      rw [hne (hold (List.ne_nil_of_mem hs))]
      exact ⟨hs, hph⟩
  · obtain ⟨v, hv, hmem, hu⟩ := h.held y hy
    refine ⟨v, htable hv, ?_⟩
    rw [hne (hold (List.ne_nil_of_mem (h.owns y v hv).1))]
    exact ⟨hmem, hu⟩
  · by_cases hm : v = s.made
    · rw [hm, hself] at hv ⊢
      exact hl hv
    · rw [hne hm] at hv ⊢
      exact h.leaf v hv
  · have hr := h.record i hi
    have hm : (s.records i).owner ≠ s.made := by
      refine Nat.ne_of_lt (h.made_of_phase fun hu => ?_)
      have := hr.phase
      rw [hu] at this
      exact this
    change RecordOk (s.records i) ((s.build isMacro leaf fns).units (s.records i).owner) i
    rw [hne hm]
    exact hr
  · by_cases hm : v = s.made
    · rw [hm, hself] at hv
      cases hv
    · rw [hne hm] at hv hp
      exact h.owner v i hv hp
  · by_cases hm : v = s.made
    · rw [hm, hself]
    · rw [hne hm] at hv ⊢
      exact h.unrecorded v hv
  · by_cases hm : v = s.made
    · rw [hm, hself]
    · rw [hne hm] at hv ⊢
      exact h.built v hv
  · by_cases hm : v = s.made
    · rw [hm, hself] at hv
      cases hv
    · rw [hne hm] at hv ⊢
      exact h.line v hv
  · by_cases hm : v = s.made
    · rw [hm, hself] at hv
      exact absurd rfl hv
    · rw [hne hm] at hv ⊢
      exact h.kept v hv

/-- A unit that the Jit compiled gets the slot of its install. -/
theorem Core.install (h : Core s) (hb : (s.units u).phase = .built) (hf : Fresh s [x])
    (hp : p = .installed ∧ (s.units u).isMacro = false ∨ p = .running) :
    Core (s.install u x p) := by
  have hself : (s.install u x p).units u = { s.units u with slot := some x, phase := p } :=
    update_self ..
  have hne {v : UnitId} (hv : v ≠ u) : (s.install u x p).units v = s.units v :=
    update_of_ne hv ..
  have hfree : s.table x = none := hf.2 x (List.mem_singleton_self x)
  have hslots : (s.units u).slots = (s.units u).fns := by
    rw [CompiledUnit.slots, h.built u hb]
    exact List.append_nil _
  have hx : x ∉ (s.units u).fns := by
    intro hin
    have := h.live u x (by rw [hb]; trivial) (by rw [hslots]; exact hin)
    rw [hfree] at this
    cases this
  have htable {y : Slot} {v : UnitId} (hy : s.table y = some v) :
      (s.install u x p).table y = some v := by
    change s.take u [x] y = some v
    rw [St.take, if_neg, hy]
    intro hin
    rw [List.mem_singleton.mp hin, hfree] at hy
    cases hy
  have hu : (s.units u).unit = 0 := h.unrecorded u (.inl hb)
  have hmade : u < s.made := h.made_of_phase (by rw [hb]; nofun)
  refine ⟨fun v hv => ?_, fun v => ?_, fun v y hl hy => ?_, fun y v hy => ?_, fun y hy => ?_,
    fun v hv => ?_, fun i hi => ?_, fun v i hv hq => ?_, fun v hv => ?_, fun v hv => ?_,
    fun v hv => ?_, fun v hv => ?_⟩
  · rw [hne (Nat.ne_of_gt (Nat.lt_of_lt_of_le hmade hv))]
    exact h.unmade v hv
  · by_cases hv : v = u
    · rw [hv, hself]
      refine List.Nodup.append (hslots ▸ h.nodup u) (List.nodup_singleton x) ?_
      simpa using hx
    · rw [hne hv]
      exact h.nodup v
  · by_cases hv : v = u
    · subst hv
      rw [hself] at hy
      obtain hin | hin := List.mem_append.mp hy
      · exact htable (h.live v y (by rw [hb]; trivial) (by rw [hslots]; exact hin))
      · exact if_pos hin
    · rw [hne hv] at hl hy
      exact htable (h.live v y hl hy)
  · change s.take u [x] y = some v at hy
    unfold St.take at hy
    split_ifs at hy with hin
    · obtain rfl := Option.some.inj hy
      rw [hself]
      exact ⟨List.mem_append_right _ hin, by rintro rfl; simp at hp⟩
    · obtain ⟨hs, hph⟩ := h.owns y v hy
      by_cases hv : v = u
      · subst hv
        rw [hself]
        exact ⟨List.mem_append_left _ (hslots ▸ hs), by rintro rfl; simp at hp⟩
      · rw [hne hv]
        exact ⟨hs, hph⟩
  · obtain ⟨v, hv, hmem, hused⟩ := h.held y hy
    have hvu : v ≠ u := by
      rintro rfl
      rw [hb] at hused
      exact hused
    refine ⟨v, htable hv, ?_⟩
    rw [hne hvu]
    exact ⟨hmem, hused⟩
  · by_cases hm : v = u
    · rw [hm, hself] at hv ⊢
      exact h.leaf u hv
    · rw [hne hm] at hv ⊢
      exact h.leaf v hv
  · have hr := h.record i hi
    have hm : (s.records i).owner ≠ u := by
      intro ho
      have := hr.unit
      rw [ho, hu] at this
      omega
    change RecordOk (s.records i) ((s.install u x p).units (s.records i).owner) i
    rw [hne hm]
    exact hr
  · by_cases hm : v = u
    · rw [hm, hself] at hv
      change (s.units u).unit = i + 1 at hv
      omega
    · rw [hne hm] at hv hq
      exact h.owner v i hv hq
  · by_cases hm : v = u
    · rw [hm, hself]
      exact hu
    · rw [hne hm] at hv ⊢
      exact h.unrecorded v hv
  · by_cases hm : v = u
    · rw [hm, hself] at hv
      change p = .built at hv
      rw [hv] at hp
      simp at hp
    · rw [hne hm] at hv ⊢
      exact h.built v hv
  · by_cases hm : v = u
    · rw [hm, hself] at hv ⊢
      change p = .installed at hv
      rw [hv] at hp
      simpa using hp
    · rw [hne hm] at hv ⊢
      exact h.line v hv
  · by_cases hm : v = u
    · rw [hm, hself] at hv
      exact absurd hu hv
    · rw [hne hm] at hv ⊢
      exact h.kept v hv

theorem unitNew_spec {records : Nat → ReplUnit} (h : unitNew records = some i) :
    i < maxUnits ∧ (records i).install = 0 := by
  rw [unitNew] at h
  have hin : i ∈ List.range maxUnits := List.mem_of_find?_eq_some h
  have hfree : ((records i).install == 0) = true :=
    List.find?_some (p := fun i => (records i).install == 0) h
  exact ⟨List.mem_range.mp hin, beq_iff_eq.mp hfree⟩

/-- `repl_unit_new` takes a record that is nobody's. -/
theorem Core.recorded (h : Core s) (hp : (s.units u).phase = .installed)
    (hx : (s.units u).slot = some x) (hl : (s.units u).leaf = false)
    (hi : unitNew s.records = some i) : Core (s.record u x i) := by
  obtain ⟨hlt, hfree⟩ := unitNew_spec hi
  set q : Phase := if x = 0 then .dropped else .ready with hq
  have hself : (s.record u x i).units u = { s.units u with unit := i + 1, phase := q } :=
    update_self ..
  have hne {v : UnitId} (hv : v ≠ u) : (s.record u x i).units v = s.units v :=
    update_of_ne hv ..
  have hrec : (s.record u x i).records i = { s.records i with
      install := x, slots := [], running := 1, isPartial := false, owner := u } := update_self ..
  have hrecs {j : Nat} (hj : j ≠ i) : (s.record u x i).records j = s.records j :=
    update_of_ne hj ..
  have hu : (s.units u).unit = 0 := h.unrecorded u (.inr (.inl hp))
  have hqc : q = .dropped ∧ x = 0 ∨ q = .ready ∧ x ≠ 0 := by
    by_cases h0 : x = 0
    · exact .inl ⟨by rw [hq, if_pos h0], h0⟩
    · exact .inr ⟨by rw [hq, if_neg h0], h0⟩
  refine ⟨fun v hv => ?_, fun v => ?_, fun v y hlv hy => ?_, fun y v hy => ?_, fun y hy => ?_,
    fun v hv => ?_, fun j hj => ?_, fun v j hv hpv => ?_, fun v hv => ?_, fun v hv => ?_,
    fun v hv => ?_, fun v hv => ?_⟩
  · have hmade : u < s.made := h.made_of_phase (by rw [hp]; nofun)
    rw [hne (Nat.ne_of_gt (Nat.lt_of_lt_of_le hmade hv))]
    exact h.unmade v hv
  · by_cases hv : v = u
    · rw [hv, hself]
      exact h.nodup u
    · rw [hne hv]
      exact h.nodup v
  · by_cases hv : v = u
    · subst hv
      rw [hself] at hy
      exact h.live v y (by rw [hp]; trivial) hy
    · rw [hne hv] at hlv hy
      exact h.live v y hlv hy
  · obtain ⟨hs, hf⟩ := h.owns y v hy
    by_cases hv : v = u
    · subst hv
      rw [hself]
      refine ⟨hs, fun (hqf : q = .freed) => ?_⟩
      obtain ⟨h₁, -⟩ | ⟨h₁, -⟩ := hqc <;> cases h₁.symm.trans hqf
    · rw [hne hv]
      exact ⟨hs, hf⟩
  · obtain ⟨v, hv, hmem, hused⟩ := h.held y hy
    have hvu : v ≠ u := by
      rintro rfl
      rw [hp] at hused
      exact hused
    refine ⟨v, hv, ?_⟩
    rw [hne hvu]
    exact ⟨hmem, hused⟩
  · by_cases hm : v = u
    · rw [hm, hself] at hv ⊢
      exact h.leaf u hv
    · rw [hne hm] at hv ⊢
      exact h.leaf v hv
  · by_cases hji : j = i
    · subst hji
      rw [hrec] at hj ⊢
      obtain ⟨-, h0⟩ | ⟨hready, -⟩ := hqc
      · exact absurd h0 hj
      · rw [hself, hready]
        exact ⟨hlt, rfl, hx, hl, trivial, rfl, fun _ => rfl⟩
    · rw [hrecs hji] at hj ⊢
      have hr := h.record j hj
      have hm : (s.records j).owner ≠ u := by
        intro ho
        have := hr.unit
        rw [ho, hu] at this
        omega
      rw [hne hm]
      exact hr
  · by_cases hm : v = u
    · subst hm
      rw [hself] at hv hpv
      obtain rfl : i = j := Nat.succ.inj hv
      rw [hrec]
      obtain ⟨hd, -⟩ | ⟨-, h0⟩ := hqc
      · rw [hd] at hpv
        exact hpv.elim
      · exact ⟨h0, rfl⟩
    · rw [hne hm] at hv hpv
      obtain ⟨hin, ho⟩ := h.owner v j hv hpv
      have hji : j ≠ i := by
        rintro rfl
        exact hin hfree
      rw [hrecs hji]
      exact ⟨hin, ho⟩
  · by_cases hm : v = u
    · subst hm
      rw [hself] at hv ⊢
      obtain hb | hi' | hmac := hv
      · obtain ⟨h₁, -⟩ | ⟨h₁, -⟩ := hqc <;> cases h₁.symm.trans hb
      · obtain ⟨h₁, -⟩ | ⟨h₁, -⟩ := hqc <;> cases h₁.symm.trans hi'
      · cases (h.line v hp).symm.trans hmac
    · rw [hne hm] at hv ⊢
      exact h.unrecorded v hv
  · by_cases hm : v = u
    · rw [hm, hself] at hv
      obtain ⟨h₁, -⟩ | ⟨h₁, -⟩ := hqc <;> cases h₁.symm.trans hv
    · rw [hne hm] at hv ⊢
      exact h.built v hv
  · by_cases hm : v = u
    · rw [hm, hself] at hv
      obtain ⟨h₁, -⟩ | ⟨h₁, -⟩ := hqc <;> cases h₁.symm.trans hv
    · rw [hne hm] at hv ⊢
      exact h.line v hv
  · by_cases hm : v = u
    · subst hm
      rw [hself]
      obtain ⟨hd, h0⟩ | ⟨hready, -⟩ := hqc
      · exact .inr (.inr ⟨hd, hx.trans (congrArg some h0)⟩)
      · rw [hready]
        exact .inl trivial
    · rw [hne hm] at hv ⊢
      exact h.kept v hv

/-! ### Slots that go back -/

/-- A slot of a unit that cannot run any more is uninstalled. -/
theorem Core.uninstall (h : Core s) (hx : s.table x = some u) (hp : ¬ (s.units u).phase.Live)
    (hh : s.held x = false) : Core (s.uninstall x) := by
  have hne {y : Slot} (hy : y ≠ x) : (s.uninstall x).table y = s.table y := update_of_ne hy ..
  refine { h with live := fun v y hl hy => ?_, owns := fun y v hy => ?_, held := fun y hy => ?_ }
  · have ht := h.live v y hl hy
    rw [hne, ht]
    rintro rfl
    obtain rfl := Option.some.inj (hx.symm.trans ht)
    exact hp hl
  · have hyx : y ≠ x := by
      rintro rfl
      have : (s.uninstall y).table y = none := update_self ..
      rw [this] at hy
      cases hy
    rw [hne hyx] at hy
    exact h.owns y v hy
  · have hyx : y ≠ x := by
      rintro rfl
      cases hh.symm.trans hy
    rw [hne hyx]
    exact h.held y hy

/-- A leaf whose line has returned gives its slot back. -/
theorem Core.leaveLeaf (h : Core s) (hp : (s.units u).phase = .returned)
    (hl : (s.units u).leaf = true) (hx : (s.units u).slot = some x) :
    Core ((s.uninstall x).setPhase u .freed) := by
  have hslots : (s.units u).slots = [x] := by
    rw [CompiledUnit.slots, h.leaf u hl, hx]
    rfl
  have hxu : s.table x = some u := h.live u x (by rw [hp]; trivial) (by rw [hslots]; exact .head _)
  have hunits {v : UnitId} (hv : v ≠ u) :
      ((s.uninstall x).setPhase u .freed).units v = s.units v := setPhase_of_ne hv
  have hself : ((s.uninstall x).setPhase u .freed).units u =
      { s.units u with phase := .freed } := setPhase_self
  have htable {y : Slot} (hy : y ≠ x) :
      ((s.uninstall x).setPhase u .freed).table y = s.table y := update_of_ne hy ..
  have hgone : ((s.uninstall x).setPhase u .freed).table x = none := update_self ..
  have hother {y : Slot} {v : UnitId}
      (hy : ((s.uninstall x).setPhase u .freed).table y = some v) : s.table y = some v ∧ v ≠ u := by
    have hyx : y ≠ x := by
      rintro rfl
      rw [hgone] at hy
      cases hy
    rw [htable hyx] at hy
    refine ⟨hy, ?_⟩
    rintro rfl
    have := (h.owns y v hy).1
    rw [hslots] at this
    exact hyx (List.mem_singleton.mp this)
  refine ⟨fun v hv => ?_, fun v => ?_, fun v y hlv hy => ?_, fun y v hy => ?_, fun y hy => ?_,
    fun v hv => ?_, fun i hi => ?_, fun v i hv hq => ?_, fun v hv => ?_, fun v hv => ?_,
    fun v hv => ?_, fun v hv => ?_⟩
  · have hmade : u < s.made := h.made_of_phase (by rw [hp]; nofun)
    rw [hunits (Nat.ne_of_gt (Nat.lt_of_lt_of_le hmade hv))]
    exact h.unmade v hv
  · rw [setPhase_slots]
    exact h.nodup v
  · have hv : v ≠ u := by
      rintro rfl
      rw [hself] at hlv
      exact hlv
    rw [hunits hv] at hlv hy
    have ht := h.live v y hlv hy
    rw [htable, ht]
    rintro rfl
    exact hv (Option.some.inj (ht.symm.trans hxu))
  · obtain ⟨ht, hv⟩ := hother hy
    rw [hunits hv]
    exact h.owns y v ht
  · obtain ⟨v, ht, hmem, hused⟩ := h.held y hy
    have hv : v ≠ u := by
      rintro rfl
      rw [h.leaf v hl] at hmem
      cases hmem
    have hyx : y ≠ x := by
      rintro rfl
      exact hv (Option.some.inj (ht.symm.trans hxu))
    refine ⟨v, by rw [htable hyx]; exact ht, ?_⟩
    rw [hunits hv]
    exact ⟨hmem, hused⟩
  · rw [(setPhase_fields v).2.2.1] at hv
    rw [(setPhase_fields v).1]
    exact h.leaf v hv
  · have hr := h.record i hi
    have hm : (s.records i).owner ≠ u := by
      intro ho
      have := hr.leaf
      rw [ho, hl] at this
      cases this
    change RecordOk (s.records i) (((s.uninstall x).setPhase u .freed).units (s.records i).owner) i
    rw [hunits hm]
    exact hr
  · have hm : v ≠ u := by
      rintro rfl
      rw [hself] at hq
      exact hq
    rw [hunits hm] at hv hq
    exact h.owner v i hv hq
  · rw [(setPhase_fields v).2.2.2.2]
    rw [(setPhase_fields v).2.2.2.1] at hv
    by_cases hm : v = u
    · subst hm
      rw [hself] at hv
      obtain hb | hi | hmac := hv
      · cases hb
      · cases hi
      · exact h.unrecorded v (.inr (.inr hmac))
    · rw [hunits hm] at hv
      exact h.unrecorded v hv
  · have hm : v ≠ u := by
      rintro rfl
      rw [hself] at hv
      cases hv
    rw [hunits hm] at hv ⊢
    exact h.built v hv
  · have hm : v ≠ u := by
      rintro rfl
      rw [hself] at hv
      cases hv
    rw [hunits hm] at hv ⊢
    exact h.line v hv
  · by_cases hm : v = u
    · rw [hm, hself]
      exact .inr (.inl rfl)
    · rw [hunits hm] at hv ⊢
      exact h.kept v hv

/-- The last slot of a unit is gone, and its record is free. -/
theorem Core.freed (h : Core s) (hp : (s.units u).phase = .freeing)
    (hgone : ∀ x, s.table x ≠ some u) (ho : (s.records i).owner = u)
    (hi : (s.records i).install ≠ 0) :
    Core { s.setPhase u .freed with
      records := update s.records i { s.records i with install := 0 } } := by
  set s' : St := { s.setPhase u .freed with
    records := update s.records i { s.records i with install := 0 } } with hs'
  have hunits {v : UnitId} (hv : v ≠ u) : s'.units v = s.units v := setPhase_of_ne hv
  have hself : s'.units u = { s.units u with phase := .freed } := setPhase_self
  have hrec : s'.records i = { s.records i with install := 0 } := update_self ..
  have hrecs {j : Nat} (hj : j ≠ i) : s'.records j = s.records j := update_of_ne hj ..
  refine ⟨fun v hv => ?_, fun v => ?_, fun v y hlv hy => ?_, fun y v hy => ?_, fun y hy => ?_,
    fun v hv => ?_, fun j hj => ?_, fun v j hv hq => ?_, fun v hv => ?_, fun v hv => ?_,
    fun v hv => ?_, fun v hv => ?_⟩
  · have hmade : u < s.made := h.made_of_phase (by rw [hp]; nofun)
    rw [hunits (Nat.ne_of_gt (Nat.lt_of_lt_of_le hmade hv))]
    exact h.unmade v hv
  · by_cases hv : v = u
    · rw [hv, hself]
      exact h.nodup u
    · rw [hunits hv]
      exact h.nodup v
  · have hv : v ≠ u := by
      rintro rfl
      rw [hself] at hlv
      exact hlv
    rw [hunits hv] at hlv hy
    exact h.live v y hlv hy
  · have hv : v ≠ u := by
      rintro rfl
      exact hgone y hy
    rw [hunits hv]
    exact h.owns y v hy
  · obtain ⟨v, ht, hmem, hused⟩ := h.held y hy
    have hv : v ≠ u := by
      rintro rfl
      exact hgone y ht
    refine ⟨v, ht, ?_⟩
    rw [hunits hv]
    exact ⟨hmem, hused⟩
  · by_cases hm : v = u
    · rw [hm, hself] at hv ⊢
      exact h.leaf u hv
    · rw [hunits hm] at hv ⊢
      exact h.leaf v hv
  · have hji : j ≠ i := by
      rintro rfl
      rw [hrec] at hj
      exact hj rfl
    rw [hrecs hji] at hj ⊢
    have hr := h.record j hj
    have hm : (s.records j).owner ≠ u := by
      intro hoj
      have h₁ := (h.record i hi).unit
      have h₂ := hr.unit
      rw [ho] at h₁
      rw [hoj] at h₂
      omega
    rw [hunits hm]
    exact hr
  · have hm : v ≠ u := by
      rintro rfl
      rw [hself] at hq
      exact hq
    rw [hunits hm] at hv hq
    have hvo := h.owner v j hv hq
    have hji : j ≠ i := by
      rintro rfl
      exact hm (hvo.2.symm.trans ho)
    rw [hrecs hji]
    exact hvo
  · by_cases hm : v = u
    · subst hm
      rw [hself] at hv ⊢
      obtain hb | hi' | hmac := hv
      · cases hb
      · cases hi'
      · exact h.unrecorded v (.inr (.inr hmac))
    · rw [hunits hm] at hv ⊢
      exact h.unrecorded v hv
  · have hm : v ≠ u := by
      rintro rfl
      rw [hself] at hv
      cases hv
    rw [hunits hm] at hv ⊢
    exact h.built v hv
  · have hm : v ≠ u := by
      rintro rfl
      rw [hself] at hv
      cases hv
    rw [hunits hm] at hv ⊢
    exact h.line v hv
  · by_cases hm : v = u
    · rw [hm, hself]
      exact .inr (.inl rfl)
    · rw [hunits hm] at hv ⊢
      exact h.kept v hv

/-! ### What is made and dropped -/

theorem Core.hold (h : Core s) (hx : s.table x = some u) (hf : x ∈ (s.units u).fns)
    (hu : (s.units u).phase.Called ∨ ∃ t, s.table t = some u ∧ s.held t = true) :
    Core { s with held := update s.held x true } := by
  refine { h with held := fun y hy => ?_ }
  by_cases hyx : y = x
  · subst hyx
    refine ⟨u, hx, hf, ?_⟩
    obtain hc | ⟨t, ht, hheld⟩ := hu
    · exact hc.used
    · obtain ⟨v, hv, -, hused⟩ := h.held t hheld
      obtain rfl := Option.some.inj (ht.symm.trans hv)
      exact hused
  · refine h.held y ?_
    have : update s.held x true y = s.held y := update_of_ne hyx ..
    exact this.symm.trans hy

theorem Core.drop (h : Core s) : Core { s with held := update s.held x false } := by
  refine { h with held := fun y hy => h.held y ?_ }
  have hyx : y ≠ x := by
    rintro rfl
    have : update s.held y false y = false := update_self ..
    cases this.symm.trans hy
  have : update s.held x false y = s.held y := update_of_ne hyx ..
  exact this.symm.trans hy

theorem Core.release (h : Core s) (hp : (s.units u).phase = .dropped) :
    Core { s with table := fun x => if s.table x = some u then none else s.table x } := by
  have hkeep {y : Slot} {v : UnitId} (hv : v ≠ u) (hy : s.table y = some v) :
      (if s.table y = some u then none else s.table y) = some v := by
    rw [if_neg, hy]
    rw [hy]
    exact fun he => hv (Option.some.inj he)
  refine { h with live := fun v y hl hy => ?_, owns := fun y v hy => ?_, held := fun y hy => ?_ }
  · refine hkeep ?_ (h.live v y hl hy)
    rintro rfl
    rw [hp] at hl
    exact hl
  · refine h.owns y v ?_
    change (if s.table y = some u then none else s.table y) = some v at hy
    split_ifs at hy
    exact hy
  · obtain ⟨v, hv, hmem, hused⟩ := h.held y hy
    refine ⟨v, hkeep ?_ hv, hmem, hused⟩
    rintro rfl
    rw [hp] at hused
    exact hused

/-- The first loop of a reclaim only marks candidates. -/
theorem Core.scan (h : Core s) :
    Core { s with records := update s.records i (s.records i).scanned } := by
  have hrec (j : Nat) : ∃ b, update s.records i (s.records i).scanned j =
      { s.records j with candidate := b } := by
    by_cases hj : j = i
    · subst hj
      exact ⟨_, update_self ..⟩
    · exact ⟨_, update_of_ne hj ..⟩
  refine { h with record := fun j hj => ?_, owner := fun v j hv hp => ?_ }
  · obtain ⟨b, hb⟩ := hrec j
    change (update s.records i (s.records i).scanned j).install ≠ 0 at hj
    change RecordOk (update s.records i (s.records i).scanned j)
      (s.units (update s.records i (s.records i).scanned j).owner) j
    rw [hb] at hj ⊢
    have hr := h.record j hj
    exact ⟨hr.index, hr.unit, hr.slot, hr.leaf, hr.phase, hr.running, hr.slots⟩
  · obtain ⟨b, hb⟩ := hrec j
    change (update s.records i (s.records i).scanned j).install ≠ 0 ∧
      (update s.records i (s.records i).scanned j).owner = v
    rw [hb]
    exact h.owner v j hv hp

end Jacl.ReplUnits
