import Jacl.Quiesce

/-!
# Nothing moves while the world is stopped

At most one worker has the collection, from its CAS of `lock` to the release, also while it is
handed to the worker's own loop.  Between the request and `done`, a worker that is in its park, or
on its way there with nothing but loads before it, can only come to wait for this epoch (`Quiet`);
the barrier lets a worker pass only when it is quiet, and one that registers later is.
-/

namespace Jacl.Quiesce
open Function

/-- Whether the worker is in a task. -/
def Origin.isTask : Origin → Bool
  | .task | .taskAlloc => true
  | _ => false

/-- What `in_task` is at a place. -/
def Place.TaskOk (b : Bool) : Place → Prop
  | .runs o | .safe o | .safeEpoch o _ | .safeAsked o => b = o.isTask
  | .safeInTask o => b = o.isTask ∧ b = true
  | .locked o | .elected o | .asked o => b = o.isTask
  | .quiesce o | .barrier o .. | .barrierParked o .. => b = o.isTask ∧ b = false
  | .sweeping o _ | .swept o _ | .resigned o _ | .published o => b = o.isTask ∧ b = false
  | .suspended | .ended | .handing => b = true
  | .parkInTask => True
  | _ => b = false

/-- From the CAS of `lock` to its release, but for a handoff. -/
def Place.holds : Place → Bool
  | .locked _ | .elected _ | .asked _ | .handing | .quiesce _ => true
  | .barrier .. | .barrierParked .. | .sweeping .. | .swept .. | .resigned .. | .published _ => true
  | _ => false

/-- The worker has the collection. -/
def Worker.holds (x : Worker) : Bool := x.place.holds || x.handoff

/-- From a handoff to its being consumed. -/
def Place.handed : Place → Bool
  | .suspended | .parkInTask | .parkHandoff | .consume => true
  | _ => false

/-- **Out of the way** of the collection for epoch `e`: the worker is not in the set, or it waits for
the end of `e`, or it can only come to do so. -/
def Worker.Quiet (x : Worker) (e : Nat) : Prop :=
  match x.place with
  | .out | .registering | .registered => True
  | .parkInTask => x.inTask = false
  | .parkHandoff | .parkCollector | .parkEpoch => True
  | .parkDone e' | .parkStore e' | .parked e' => e' = e
  | _ => False

/-- The epoch that a worker is going to wait for is the one under way or the last. -/
def Worker.Waits (x : Worker) (epoch done : Nat) : Prop :=
  match x.place with
  | .parkDone e | .parkStore e => done ≤ e ∧ e ≤ epoch
  | .parked e => done ≤ e ∧ e ≤ epoch ∧ x.parked = e
  | _ => True

/-- A worker's words agree with where it is. -/
structure Worker.Ok (x : Worker) (epoch done : Nat) : Prop where
  active : x.active = false ↔ x.place = .out ∨ x.place = .registering
  task : x.place.TaskOk x.inTask
  consume : x.place = .consume → x.handoff = true
  pending : x.handoff = true → x.place.handed = true ∧ (x.place = .parkInTask → x.inTask = false)
  parked_le : x.parked ≤ epoch
  parked : epoch ≠ done → x.parked = epoch → x.place = .parked epoch
  waits : x.Waits epoch done

namespace State
variable (s : State)

/-- Where the collection of worker `w`, at place `p`, has come to. -/
def Stage (w : Nat) : Place → Prop
  | .locked _ => s.epoch = s.done
  | .elected _ => s.epoch = s.done ∧ s.collector = some w
  | .barrier _ e i =>
    s.epoch = s.done + 1 ∧ s.collector = some w ∧ e = s.epoch ∧
      ∀ k < i, k ≠ w → (s.workers k).Quiet s.epoch
  | .barrierParked _ e i =>
    s.epoch = s.done + 1 ∧ s.collector = some w ∧ e = s.epoch ∧
      (∀ k < i, k ≠ w → (s.workers k).Quiet s.epoch) ∧ i < maxWorkers
  | .sweeping _ e | .swept _ e =>
    s.epoch = s.done + 1 ∧ s.collector = some w ∧ e = s.epoch ∧
      ∀ k, k ≠ w → (s.workers k).Quiet s.epoch
  | .resigned _ e =>
    s.epoch = s.done + 1 ∧ s.collector = none ∧ e = s.epoch ∧
      ∀ k, k ≠ w → (s.workers k).Quiet s.epoch
  | .published _ => s.epoch = s.done ∧ s.collector = none
  | _ => s.epoch = s.done + 1 ∧ s.collector = some w

/-- **What holds in every reachable state.** -/
structure Inv : Prop where
  ok : ∀ w, (s.workers w).Ok s.epoch s.done
  bound : ∀ w, maxWorkers ≤ w → (s.workers w).place = .out ∧ (s.workers w).handoff = false
  lock : ∀ w, (s.workers w).holds = true → s.lock = true
  sole : ∀ w w', (s.workers w).holds = true → (s.workers w').holds = true → w = w'
  collector : ∀ w, s.collector = some w → (s.workers w).holds = true
  stage : ∀ w, (s.workers w).holds = true → s.Stage w (s.workers w).place
  idle : (∀ w, (s.workers w).holds = false) → s.epoch = s.done
  stopped : s.stopped = true ↔ ∃ w o e, (s.workers w).place = .sweeping o e

end State

section Steps
variable {s s' : State} {w k e : Nat} {x x' : Worker} {p : Place} {o : Origin}

@[simp] theorem set_epoch : (s.set w x).epoch = s.epoch := rfl
@[simp] theorem set_done : (s.set w x).done = s.done := rfl
@[simp] theorem set_lock : (s.set w x).lock = s.lock := rfl
@[simp] theorem set_collector : (s.set w x).collector = s.collector := rfl
@[simp] theorem set_stopped : (s.set w x).stopped = s.stopped := rfl
@[simp] theorem set_self : (s.set w x).workers w = x := update_self _ _ _

theorem set_of_ne (hne : k ≠ w) : (s.set w x).workers k = s.workers k := update_of_ne hne _ _

/-- A stage looks at the other workers only. -/
theorem State.Stage.congr (h : s.Stage w p) (hepoch : s'.epoch = s.epoch) (hdone : s'.done = s.done)
    (hcol : s'.collector = s.collector)
    (hquiet : s.epoch = s.done + 1 → ∀ k, k ≠ w → (s.workers k).Quiet s.epoch → (s'.workers k).Quiet s.epoch) :
    s'.Stage w p := by
  unfold State.Stage at h ⊢
  rw [hepoch, hdone, hcol]
  cases p <;> dsimp only at h ⊢
  case barrier => exact ⟨h.1, h.2.1, h.2.2.1, fun k hk hne => hquiet h.1 k hne (h.2.2.2 k hk hne)⟩
  case barrierParked =>
    exact ⟨h.1, h.2.1, h.2.2.1, fun k hk hne => hquiet h.1 k hne (h.2.2.2.1 k hk hne), h.2.2.2.2⟩
  case sweeping => exact ⟨h.1, h.2.1, h.2.2.1, fun k hne => hquiet h.1 k hne (h.2.2.2 k hne)⟩
  case swept => exact ⟨h.1, h.2.1, h.2.2.1, fun k hne => hquiet h.1 k hne (h.2.2.2 k hne)⟩
  case resigned => exact ⟨h.1, h.2.1, h.2.2.1, fun k hne => hquiet h.1 k hne (h.2.2.2 k hne)⟩
  all_goals exact h

/-- A worker that has not the collection moves, and leaves what is shared alone. -/
theorem State.Inv.move (h : s.Inv) (hw : w < maxWorkers) (hx : (s.workers w).holds = false)
    (hx' : x'.holds = false) (hok : x'.Ok s.epoch s.done)
    (hquiet : s.epoch = s.done + 1 → s.collector ≠ some w → (s.workers w).Quiet s.epoch →
      x'.Quiet s.epoch) : (s.set w x').Inv := by
  have hold : ∀ k, ((s.set w x').workers k).holds = true → k ≠ w ∧ (s.workers k).holds = true := by
    intro k hk
    by_cases hkw : k = w
    · subst hkw
      rw [set_self, hx'] at hk
      cases hk
    · rw [set_of_ne hkw] at hk
      exact ⟨hkw, hk⟩
  have hcol : s.collector ≠ some w := fun hc => by
    rw [h.collector w hc] at hx
    cases hx
  have hsweep : ∀ {x : Worker} {o e}, x.holds = false → x.place ≠ .sweeping o e := by
    intro x o e hx hp
    rw [Worker.holds, hp] at hx
    cases hx
  refine ⟨fun k => ?_, fun k hk => ?_, fun k hk => h.lock k (hold k hk).2,
    fun k k' hk hk' => h.sole k k' (hold k hk).2 (hold k' hk').2, fun k hk => ?_, fun k hk => ?_,
    fun hno => h.idle fun k => ?_, ?_⟩
  · by_cases hkw : k = w
    · subst hkw
      rw [set_self]
      exact hok
    · rw [set_of_ne hkw]
      exact h.ok k
  · rw [set_of_ne (by omega)]
    exact h.bound k hk
  · have hkw : k ≠ w := fun heq => hcol (heq ▸ hk)
    rw [set_of_ne hkw]
    exact h.collector k hk
  · obtain ⟨hkw, hk⟩ := hold k hk
    rw [set_of_ne hkw]
    refine (h.stage k hk).congr rfl rfl rfl fun he j _ hj => ?_
    by_cases hjw : j = w
    · subst hjw
      rw [set_self]
      exact hquiet he hcol hj
    · rwa [set_of_ne hjw]
  · by_cases hkw : k = w
    · exact hkw ▸ hx
    · have := hno k
      rwa [set_of_ne hkw] at this
  · rw [set_stopped, h.stopped]
    constructor
    · rintro ⟨k, o, e, hk⟩
      refine ⟨k, o, e, ?_⟩
      rw [set_of_ne fun heq => hsweep hx (heq ▸ hk)]
      exact hk
    · rintro ⟨k, o, e, hk⟩
      refine ⟨k, o, e, ?_⟩
      rwa [set_of_ne] at hk
      rintro rfl
      rw [set_self] at hk
      exact hsweep hx' hk

/-- The worker that has the collection, or that takes it while no one has it, moves. -/
theorem State.Inv.lead (h : s.Inv) (hw : w < maxWorkers) (halone : ∀ k, k ≠ w → (s.workers k).holds = false)
    (hworkers : s'.workers = update s.workers w x') (hok : x'.Ok s'.epoch s'.done)
    (hoks : ∀ k, k ≠ w → (s.workers k).Ok s.epoch s.done → (s.workers k).Ok s'.epoch s'.done)
    (hlock : x'.holds = true → s'.lock = true)
    (hcol : ∀ k, s'.collector = some k → k = w ∧ x'.holds = true)
    (hstage : x'.holds = true → s'.Stage w x'.place)
    (hidle : x'.holds = false → s'.epoch = s'.done)
    (hstop : s'.stopped = true ↔ ∃ o e, x'.place = .sweeping o e) : s'.Inv := by
  have hself : s'.workers w = x' := by rw [hworkers, update_self]
  have hother : ∀ {k}, k ≠ w → s'.workers k = s.workers k := fun hk => by rw [hworkers, update_of_ne hk]
  have hold : ∀ k, (s'.workers k).holds = true → k = w := by
    intro k hk
    by_contra hkw
    rw [hother hkw, halone k hkw] at hk
    cases hk
  refine ⟨fun k => ?_, fun k hk => ?_, fun k hk => ?_, fun k k' hk hk' => (hold k hk).trans (hold k' hk').symm,
    fun k hk => ?_, fun k hk => ?_, fun hno => hidle (hself ▸ hno w), ?_⟩
  · by_cases hkw : k = w
    · rw [hkw, hself]
      exact hok
    · rw [hother hkw]
      exact hoks k hkw (h.ok k)
  · rw [hother (by omega)]
    exact h.bound k hk
  · have := hold k hk
    subst this
    exact hlock (hself ▸ hk)
  · obtain ⟨rfl, hx'⟩ := hcol k hk
    rwa [hself]
  · have := hold k hk
    subst this
    rw [hself] at hk ⊢
    exact hstage hk
  · rw [hstop]
    constructor
    · rintro ⟨o, e, hp⟩
      exact ⟨w, o, e, by rw [hself]; exact hp⟩
    · rintro ⟨k, o, e, hp⟩
      have hk : k = w := hold k (by rw [Worker.holds, hp]; rfl)
      subst hk
      rw [hself] at hp
      exact ⟨o, e, hp⟩

theorem State.Inv.alone (h : s.Inv) (hx : (s.workers w).holds = true) :
    ∀ k, k ≠ w → (s.workers k).holds = false := by
  intro k hk
  by_contra hne
  exact hk (h.sole k w (Bool.not_eq_false _ ▸ hne) hx)

theorem State.Inv.lt (h : s.Inv) (hp : (s.workers w).place ≠ .out) : w < maxWorkers := by
  by_contra hle
  exact hp (h.bound w (Nat.not_lt.mp hle)).1

theorem State.Inv.not_sweeping (h : s.Inv) (hx : (s.workers w).holds = true)
    (hp : ∀ o e, (s.workers w).place ≠ .sweeping o e) : s.stopped = false := by
  by_contra hst
  obtain ⟨k, o, e, hk⟩ := h.stopped.mp (Bool.not_eq_false _ ▸ hst)
  have hkw : k = w := h.sole k w (by rw [Worker.holds, hk]; rfl) hx
  subst hkw
  exact hp o e hk

theorem running (hst : s.stopped = false) (hp : ∀ o e, p ≠ .sweeping o e) :
    s.stopped = true ↔ ∃ o e, (x.goTo p).place = .sweeping o e := by
  rw [hst]
  exact iff_of_false Bool.false_ne_true fun ⟨o, e, he⟩ => hp o e he

/-- The worker that has the collection moves, and leaves what is shared alone. -/
theorem State.Inv.own (h : s.Inv) (hw : w < maxWorkers) (hx : (s.workers w).holds = true)
    (hx' : x'.holds = true) (hp : ∀ o e, (s.workers w).place ≠ .sweeping o e)
    (hp' : ∀ o e, x'.place ≠ .sweeping o e) (hok : x'.Ok s.epoch s.done)
    (hstage : s.Stage w (s.workers w).place → s.Stage w x'.place) : (s.set w x').Inv := by
  refine h.lead hw (h.alone hx) rfl hok (fun _ _ hk => hk) (fun _ => h.lock w hx) (fun k hk => ?_)
    (fun _ => ?_) (fun hno => by rw [hx'] at hno; cases hno) ?_
  · exact ⟨h.sole k w (h.collector k hk) hx, hx'⟩
  · refine (hstage (h.stage w hx)).congr rfl rfl rfl fun _ k hk hq => ?_
    rwa [set_of_ne hk]
  · rw [set_stopped, h.not_sweeping hx hp]
    exact iff_of_false Bool.false_ne_true fun ⟨o, e, he⟩ => hp' o e he

theorem State.stage_of_not_holds (hp : p.holds = false) :
    s.Stage w p ↔ s.epoch = s.done + 1 ∧ s.collector = some w := by
  cases p <;> first | rfl | cases hp

theorem Worker.holds_of_place (hp : x.place.holds = false) : x.holds = x.handoff := by
  rw [Worker.holds, hp, Bool.false_or]

/-- A worker that is not in a collection of its own moves, perhaps with a handoff waiting. -/
theorem State.Inv.go (h : s.Inv) (hw : w < maxWorkers) (hp : (s.workers w).place.holds = false)
    (hp' : x'.place.holds = false) (hh : x'.handoff = (s.workers w).handoff)
    (hok : x'.Ok s.epoch s.done)
    (hquiet : s.epoch = s.done + 1 → s.collector ≠ some w → (s.workers w).handoff = false →
      (s.workers w).Quiet s.epoch → x'.Quiet s.epoch) : (s.set w x').Inv := by
  have hx := Worker.holds_of_place hp
  have hx' := Worker.holds_of_place hp'
  cases hho : (s.workers w).handoff with
  | false =>
    rw [hho] at hx hh
    exact h.move hw hx (hx'.trans hh) hok fun he hc => hquiet he hc hho
  | true =>
    rw [hho] at hx hh
    refine h.own hw hx (hx'.trans hh) (fun o e he => ?_) (fun o e he => ?_) hok fun hst => ?_
    · rw [he] at hp
      cases hp
    · rw [he] at hp'
      cases hp'
    · rw [stage_of_not_holds hp] at hst
      exact (stage_of_not_holds hp').mpr hst

/-- A worker goes on within the set, to a place where it has not parked. -/
theorem Worker.Ok.goTo {epoch done : Nat} (hok : x.Ok epoch done) (hpk : ∀ e, x.place ≠ .parked e)
    (hact : x.place ≠ .out ∧ x.place ≠ .registering) (hact' : p ≠ .out ∧ p ≠ .registering)
    (htask : p.TaskOk x.inTask) (hcons : p = .consume → x.handoff = true)
    (hpend : x.handoff = true → p.handed = true ∧ (p = .parkInTask → x.inTask = false))
    (hwaits : (x.goTo p).Waits epoch done) : (x.goTo p).Ok epoch done where
  active := by
    refine (hok.active.trans (iff_of_false ?_ ?_))
    · exact not_or.mpr hact
    · exact not_or.mpr hact'
  task := htask
  consume := hcons
  pending := hpend
  parked_le := hok.parked_le
  parked := fun hne heq => absurd (hok.parked hne heq) (hpk _)
  waits := hwaits

/-- The same, with its own words as they are. -/
theorem State.Inv.goTo {q : Place} (h : s.Inv) (hp : (s.workers w).place = q)
    (hq : q.holds = false ∧ q ≠ .out ∧ q ≠ .registering ∧ ∀ e, q ≠ .parked e)
    (hp' : p.holds = false ∧ p ≠ .out ∧ p ≠ .registering) (htask : p.TaskOk (s.workers w).inTask)
    (hcons : p = .consume → (s.workers w).handoff = true)
    (hpend : (s.workers w).handoff = true →
      p.handed = true ∧ (p = .parkInTask → (s.workers w).inTask = false))
    (hwaits : ((s.workers w).goTo p).Waits s.epoch s.done)
    (hquiet : s.epoch = s.done + 1 → s.collector ≠ some w → (s.workers w).handoff = false →
      (s.workers w).Quiet s.epoch → ((s.workers w).goTo p).Quiet s.epoch) :
    (s.set w ((s.workers w).goTo p)).Inv := by
  subst hp
  exact h.go (h.lt hq.2.1) hq.1 hp'.1 rfl
    ((h.ok w).goTo hq.2.2.2 ⟨hq.2.1, hq.2.2.1⟩ hp'.2 htask hcons hpend hwaits) hquiet

/-- From one place outside the collection to another, neither of them in the park. -/
theorem State.Inv.busy {q : Place} (h : s.Inv) (hp : (s.workers w).place = q)
    (hq : q.holds = false ∧ q.handed = false ∧ q ≠ .out ∧ q ≠ .registering ∧ ∀ e, q ≠ .parked e)
    (hp' : p.holds = false ∧ p ≠ .out ∧ p ≠ .registering ∧ p ≠ .consume)
    (htask : p.TaskOk (s.workers w).inTask) (hwaits : ((s.workers w).goTo p).Waits s.epoch s.done)
    (hquiet : ∀ e, (s.workers w).Quiet e → False) : (s.set w ((s.workers w).goTo p)).Inv := by
  refine h.goTo hp ⟨hq.1, hq.2.2⟩ ⟨hp'.1, hp'.2.1, hp'.2.2.1⟩ htask (fun heq => absurd heq hp'.2.2.2)
    (fun hho => ?_) hwaits fun _ _ _ hqu => (hquiet _ hqu).elim
  have := ((h.ok w).pending hho).1
  rw [hp, hq.2.1] at this
  cases this

theorem State.Inv.done_le (h : s.Inv) : s.done ≤ s.epoch ∧ s.epoch ≤ s.done + 1 := by
  by_cases hno : ∀ w, (s.workers w).holds = false
  · have := h.idle hno
    omega
  · push Not at hno
    obtain ⟨w, hw⟩ := hno
    have hst := h.stage w (by simpa using hw)
    unfold State.Stage at hst
    split at hst <;> omega

/-- A step before the request, or outside the collection. -/
theorem State.Inv.stepOut (h : s.Inv) (hp : (s.workers w).place = p) (hout : p.holds = false)
    (hs : s.step w = some s') : s'.Inv := by
  have hok := h.ok w
  have htask := hok.task
  have hwaits := hok.waits
  rw [hp] at htask
  unfold Worker.Waits at hwaits
  rw [hp] at hwaits
  unfold State.step at hs
  simp only [hp] at hs
  cases p <;> dsimp only at hs <;> first | (simp [Place.holds] at hout; done) | cases hs
  case registering =>
    refine h.go (h.lt (by simp [hp])) (by simp [hp, Place.holds]) rfl rfl ?_ fun _ _ _ _ => trivial
    exact
      { active := by simp
        task := htask
        consume := by simp
        pending := fun hho => absurd (hok.pending hho).1 (by simp [hp, Place.handed])
        parked_le := hok.parked_le
        parked := fun hne heq => by
          have := hok.parked hne heq
          simp [hp] at this
        waits := trivial }
  case registered =>
    exact h.goTo hp (by simp [Place.holds]) (by simp [Place.holds]) trivial (by simp)
      (fun hho => absurd (hok.pending hho).1 (by simp [hp, Place.handed])) trivial fun _ _ _ _ => htask
  case safe o =>
    exact h.busy hp (by simp [Place.holds, Place.handed]) (by simp [Place.holds]) htask trivial
      fun e hq => by simp [Worker.Quiet, hp] at hq
  case safeEpoch o e =>
    split <;> exact h.busy hp (by simp [Place.holds, Place.handed]) (by simp [Place.holds]) htask trivial
      fun e hq => by simp [Worker.Quiet, hp] at hq
  case safeAsked o =>
    split
    · rename_i hin
      exact h.busy hp (by simp [Place.holds, Place.handed]) (by simp [Place.holds]) ⟨htask, hin⟩ trivial
        fun e hq => by simp [Worker.Quiet, hp] at hq
    · exact h.busy hp (by simp [Place.holds, Place.handed]) (by simp [Place.holds]) htask trivial
        fun e hq => by simp [Worker.Quiet, hp] at hq
  case safeInTask o =>
    split
    · exact h.busy hp (by simp [Place.holds, Place.handed]) (by simp [Place.holds]) htask.1 trivial
        fun e hq => by simp [Worker.Quiet, hp] at hq
    · exact h.busy hp (by simp [Place.holds, Place.handed]) (by simp [Place.holds]) htask.2 trivial
        fun e hq => by simp [Worker.Quiet, hp] at hq
  case suspended =>
    refine h.go (h.lt (by simp [hp])) (by simp [hp, Place.holds]) rfl rfl ?_ fun _ _ _ hq => by
      simp [Worker.Quiet, hp] at hq
    exact
      { active := by simpa [hp] using hok.active
        task := trivial
        consume := by simp
        pending := fun _ => ⟨rfl, fun _ => rfl⟩
        parked_le := hok.parked_le
        parked := fun hne heq => by
          have := hok.parked hne heq
          simp [hp] at this
        waits := trivial }
  case ended =>
    refine h.go (h.lt (by simp [hp])) (by simp [hp, Place.holds]) rfl rfl ?_ fun _ _ _ hq => by
      simp [Worker.Quiet, hp] at hq
    exact
      { active := by simpa [hp] using hok.active
        task := rfl
        consume := by simp
        pending := fun hho => absurd (hok.pending hho).1 (by simp [hp, Place.handed])
        parked_le := hok.parked_le
        parked := fun hne heq => by
          have := hok.parked hne heq
          simp [hp] at this
        waits := trivial }
  case parkInTask =>
    split
    · rename_i hin
      refine h.goTo hp (by simp [Place.holds]) (by simp [Place.holds]) hin (by simp) (fun hho => ?_) trivial
        fun _ _ _ hq => by simp [Worker.Quiet, hp, hin] at hq
      have := (hok.pending hho).2 hp
      simp [hin] at this
    · rename_i hin
      exact h.goTo hp (by simp [Place.holds]) (by simp [Place.holds]) (Bool.eq_false_of_not_eq_true hin)
        (by simp) (fun _ => by simp [Place.handed]) trivial fun _ _ _ _ => trivial
  case parkHandoff =>
    split
    · rename_i hho
      exact h.goTo hp (by simp [Place.holds]) (by simp [Place.holds]) htask
        (fun _ => hho) (fun _ => by simp [Place.handed]) trivial fun _ _ hno => by simp [hno] at hho
    · rename_i hho
      exact h.goTo hp (by simp [Place.holds]) (by simp [Place.holds]) htask (by simp)
        (fun hyes => absurd hyes hho) trivial fun _ _ _ _ => trivial
  case parkCollector =>
    have hpend : ∀ {P : Prop}, (s.workers w).handoff = true → P := fun hho =>
      absurd (hok.pending hho).1 (by simp [hp, Place.handed])
    split
    · rename_i hc
      exact h.goTo hp (by simp [Place.holds]) (by simp [Place.holds]) htask (by simp) hpend trivial
        fun _ hno => absurd hc hno
    · exact h.goTo hp (by simp [Place.holds]) (by simp [Place.holds]) htask (by simp) hpend trivial
        fun _ _ _ _ => trivial
  case parkEpoch =>
    exact h.goTo hp (by simp [Place.holds]) (by simp [Place.holds]) htask (by simp)
      (fun hho => absurd (hok.pending hho).1 (by simp [hp, Place.handed])) ⟨h.done_le.1, le_rfl⟩
      fun _ _ _ _ => rfl
  case parkDone e =>
    have hpend : ∀ {P : Prop}, (s.workers w).handoff = true → P := fun hho =>
      absurd (hok.pending hho).1 (by simp [hp, Place.handed])
    split
    · rename_i he
      refine h.goTo hp (by simp [Place.holds]) (by simp [Place.holds]) htask (by simp) hpend trivial
        fun hep _ _ hq => ?_
      have hq : e = s.epoch := by simpa [Worker.Quiet, hp] using hq
      omega
    · exact h.goTo hp (by simp [Place.holds]) (by simp [Place.holds]) htask (by simp) hpend
        hwaits fun _ _ _ hq => by simpa [Worker.Quiet, Worker.goTo, hp] using hq
  case parkStore e =>
    refine h.go (h.lt (by simp [hp])) (by simp [hp, Place.holds]) rfl rfl ?_ fun _ _ _ hq => ?_
    · exact
        { active := by simpa [hp] using hok.active
          task := htask
          consume := by simp
          pending := fun hho => absurd (hok.pending hho).1 (by simp [hp, Place.handed])
          parked_le := hwaits.2
          parked := fun _ heq => congrArg Place.parked heq
          waits := ⟨hwaits.1, hwaits.2, rfl⟩ }
    · simpa [Worker.Quiet, hp] using hq
  case parked e =>
    split
    · rename_i he
      refine h.go (h.lt (by simp [hp])) (by simp [hp, Place.holds]) rfl rfl ?_ fun hep _ _ hq => ?_
      · exact
          { active := by simpa [hp, Worker.goTo] using hok.active
            task := htask
            consume := by simp [Worker.goTo]
            pending := fun hho => absurd (hok.pending hho).1 (by simp [hp, Place.handed])
            parked_le := hok.parked_le
            parked := fun hne heq => absurd ((hwaits.2.2.symm.trans heq).symm.trans he.symm) hne
            waits := trivial }
      · have hq : e = s.epoch := by simpa [Worker.Quiet, hp] using hq
        omega
    · have hsame : (s.workers w).goTo (.parked e) = s.workers w := by rw [← hp]; rfl
      rw [hsame]
      have hset : s.set w (s.workers w) = s := by rw [State.set, update_eq_self]
      rwa [hset]
  case consume =>
    have hho := hok.consume hp
    have hx : (s.workers w).holds = true := by simp [Worker.holds, hho]
    refine h.own (h.lt (by simp [hp])) hx rfl (by simp [hp]) (by simp) ?_ fun hst => ?_
    · exact
        { active := by simpa [hp] using hok.active
          task := ⟨htask, htask⟩
          consume := by simp
          pending := fun hno => by cases hno
          parked_le := hok.parked_le
          parked := fun hne heq => by
            have := hok.parked hne heq
            simp [hp] at this
          waits := trivial }
    · rw [hp] at hst
      exact hst

theorem Place.ne_of_holds (hp : p.holds = true) :
    p ≠ .out ∧ p ≠ .registering ∧ p ≠ .consume ∧ ∀ e, p ≠ .parked e := by
  cases p <;> simp [Place.holds] at hp ⊢

/-- A worker goes on within its collection. -/
theorem Worker.Ok.inCollect {epoch done : Nat} (hok : x.Ok epoch done) (hx : x.place.holds = true)
    (hp : p.holds = true) (htask : p.TaskOk x.inTask) : (x.goTo p).Ok epoch done where
  active := by
    obtain ⟨h1, h2, -, -⟩ := Place.ne_of_holds hx
    obtain ⟨h3, h4, -, -⟩ := Place.ne_of_holds hp
    exact hok.active.trans (iff_of_false (not_or.mpr ⟨h1, h2⟩) (not_or.mpr ⟨h3, h4⟩))
  task := htask
  consume := fun heq => absurd heq (Place.ne_of_holds hp).2.2.1
  pending := fun hho => by
    have := (hok.pending hho).1
    cases hxp : x.place <;> simp_all [Place.holds, Place.handed]
  parked_le := hok.parked_le
  parked := fun hne heq => absurd (hok.parked hne heq) ((Place.ne_of_holds hx).2.2.2 _)
  waits := by cases p <;> trivial

/-- The request: every worker's words bear it. -/
theorem Worker.Ok.ask {epoch done : Nat} (hok : x.Ok epoch done) : x.Ok (epoch + 1) done where
  active := hok.active
  task := hok.task
  consume := hok.consume
  pending := hok.pending
  parked_le := Nat.le_succ_of_le hok.parked_le
  parked := fun _ heq => by
    have := hok.parked_le
    omega
  waits := by
    have := hok.waits
    unfold Worker.Waits at this ⊢
    split <;> simp_all <;> omega

/-- The end of a collection. -/
theorem Worker.Ok.finish {epoch done : Nat} (hok : x.Ok epoch done) (hq : x.Quiet epoch) : x.Ok epoch epoch where
  active := hok.active
  task := hok.task
  consume := hok.consume
  pending := hok.pending
  parked_le := hok.parked_le
  parked := fun hne => absurd rfl hne
  waits := by
    have := hok.waits
    unfold Worker.Waits Worker.Quiet at *
    split <;> simp_all

theorem Worker.Ok.no_handoff {epoch done : Nat} (hok : x.Ok epoch done) (hx : x.place.holds = true) :
    x.handoff = false := by
  by_contra hho
  have := (hok.pending (Bool.not_eq_false _ ▸ hho)).1
  cases hxp : x.place <;> simp_all [Place.holds, Place.handed]

/-- **A step of the collection.** -/
theorem State.Inv.stepIn (h : s.Inv) (hp : (s.workers w).place = p) (hin : p.holds = true)
    (hs : s.step w = some s') : s'.Inv := by
  have hok := h.ok w
  have htask := hok.task
  have hpl : (s.workers w).place.holds = true := by rw [hp]; exact hin
  have hx : (s.workers w).holds = true := by rw [Worker.holds, hpl, Bool.true_or]
  have hst := h.stage w hx
  have hlt := h.lt (Place.ne_of_holds hpl).1
  have hno := hok.no_handoff hpl
  have hlock := h.lock w hx
  have hcol : ∀ k, s.collector = some k → k = w := fun k hk => h.sole k w (h.collector k hk) hx
  rw [hp] at htask hst
  unfold State.step at hs
  simp only [hp] at hs
  cases p <;> dsimp only at hs <;> first | (simp [Place.holds] at hin; done) | cases hs | skip
  case locked o =>
    refine h.lead hlt (h.alone hx) rfl (hok.inCollect hpl rfl htask) (fun _ _ hk => hk) (fun _ => hlock)
      (fun k hk => ⟨(Option.some.inj hk).symm, rfl⟩) (fun _ => ⟨hst, rfl⟩)
      (fun hf => by simp [Worker.holds, Worker.goTo, Place.holds] at hf) ?_
    exact running (h.not_sweeping hx (by simp [hp])) (by simp)
  case elected o =>
    refine h.lead hlt (h.alone hx) rfl (hok.inCollect (p := .asked o) hpl rfl htask).ask (fun _ _ hk => hk.ask)
      (fun _ => hlock) (fun k hk => ⟨hcol k hk, rfl⟩) (fun _ => ⟨congrArg (· + 1) hst.1, hst.2⟩)
      (fun hf => by simp [Worker.holds, Worker.goTo, Place.holds] at hf) ?_
    exact running (h.not_sweeping hx (by simp [hp])) (by simp)
  case asked o =>
    split
    · rename_i hit
      exact h.own hlt hx rfl (by simp [hp]) (by simp [Worker.goTo]) (hok.inCollect hpl rfl hit)
        fun hst => by rw [hp] at hst; exact hst
    · rename_i hit
      exact h.own hlt hx rfl (by simp [hp]) (by simp [Worker.goTo])
        (hok.inCollect hpl rfl ⟨htask, Bool.eq_false_of_not_eq_true hit⟩)
        fun hst => by rw [hp] at hst; exact hst
  case handing =>
    refine h.own hlt hx rfl (by simp [hp]) (by simp) ?_ fun hst => by rw [hp] at hst; exact hst
    exact
      { active := by simpa [hp] using hok.active
        task := htask
        consume := by simp
        pending := fun _ => ⟨rfl, by simp⟩
        parked_le := hok.parked_le
        parked := fun hne heq => by
          have := hok.parked hne heq
          simp [hp] at this
        waits := trivial }
  case quiesce o =>
    refine h.own hlt hx rfl (by simp [hp]) (by simp [Worker.goTo]) (hok.inCollect hpl rfl htask)
      fun _ => ⟨hst.1, hst.2, rfl, fun k hk => absurd hk (Nat.not_lt_zero k)⟩
  case barrier o e i =>
    obtain ⟨hep, hc, rfl, hquiet⟩ := hst
    have hnext : (i ≠ w → (s.workers i).Quiet s.epoch) →
        (s.set w ((s.workers w).goTo (.barrier o s.epoch (i + 1)))).Inv := by
      intro hi
      refine h.own hlt hx rfl (by simp [hp]) (by simp [Worker.goTo]) (hok.inCollect hpl rfl htask)
        fun _ => ⟨hep, hc, rfl, fun k hk hkw => ?_⟩
      rcases Nat.lt_succ_iff_lt_or_eq.mp hk with hlt | rfl
      · exact hquiet k hlt hkw
      · exact hi hkw
    split at hs
    · rename_i hi
      split at hs <;> cases hs
      · exact hnext fun hne => absurd ‹_› hne
      · split
        · exact h.own hlt hx rfl (by simp [hp]) (by simp [Worker.goTo]) (hok.inCollect hpl rfl htask)
            fun _ => ⟨hep, hc, rfl, hquiet, hi⟩
        · rename_i hact
          refine hnext fun _ => ?_
          unfold Worker.Quiet
          rcases (h.ok i).active.mp (Bool.eq_false_of_not_eq_true hact) with heq | heq <;> simp [heq]
    · rename_i hle
      cases hs
      refine h.lead hlt (h.alone hx) rfl (hok.inCollect hpl rfl htask) (fun _ _ hk => hk) (fun _ => hlock)
        (fun k hk => ⟨hcol k hk, rfl⟩) (fun _ => ⟨hep, hc, rfl, fun k hk => ?_⟩)
        (fun hf => by simp [Worker.holds, Worker.goTo, Place.holds] at hf) ?_
      · show (update s.workers w _ k).Quiet s.epoch
        rw [update_of_ne hk]
        by_cases hki : k < i
        · exact hquiet k hki hk
        · unfold Worker.Quiet
          simp [(h.bound k (by omega)).1]
      · simp [Worker.goTo]
  case barrierParked o e i =>
    obtain ⟨hep, hc, rfl, hquiet, -⟩ := hst
    split
    · rename_i hle
      refine h.own hlt hx rfl (by simp [hp]) (by simp [Worker.goTo]) (hok.inCollect hpl rfl htask)
        fun _ => ⟨hep, hc, rfl, fun k hk hkw => ?_⟩
      rcases Nat.lt_succ_iff_lt_or_eq.mp hk with hlt | rfl
      · exact hquiet k hlt hkw
      · have hpk := (h.ok k).parked (by omega) (Nat.le_antisymm (h.ok k).parked_le hle)
        unfold Worker.Quiet
        simp [hpk]
    · exact h.own hlt hx rfl (by simp [hp]) (by simp [Worker.goTo]) (hok.inCollect hpl rfl htask)
        fun _ => ⟨hep, hc, rfl, hquiet⟩
  case sweeping o e =>
    obtain ⟨hep, hc, rfl, hquiet⟩ := hst
    refine h.lead hlt (h.alone hx) rfl (hok.inCollect hpl rfl htask) (fun _ _ hk => hk) (fun _ => hlock)
      (fun k hk => ⟨hcol k hk, rfl⟩) (fun _ => ⟨hep, hc, rfl, fun k hk => ?_⟩)
      (fun hf => by simp [Worker.holds, Worker.goTo, Place.holds] at hf) (by simp [Worker.goTo])
    show (update s.workers w _ k).Quiet s.epoch
    rw [update_of_ne hk]
    exact hquiet k hk
  case swept o e =>
    obtain ⟨hep, hc, rfl, hquiet⟩ := hst
    refine h.lead hlt (h.alone hx) rfl (hok.inCollect hpl rfl htask) (fun _ _ hk => hk) (fun _ => hlock)
      (fun k hk => by cases hk) (fun _ => ⟨hep, rfl, rfl, fun k hk => ?_⟩)
      (fun hf => by simp [Worker.holds, Worker.goTo, Place.holds] at hf) ?_
    · show (update s.workers w _ k).Quiet s.epoch
      rw [update_of_ne hk]
      exact hquiet k hk
    · exact running (h.not_sweeping hx (by simp [hp])) (by simp)
  case resigned o e =>
    obtain ⟨hep, hcn, rfl, hquiet⟩ := hst
    refine h.lead hlt (h.alone hx) rfl ?_ (fun k hk hok => hok.finish (hquiet k hk)) (fun _ => hlock)
      (fun k hk => ⟨hcol k hk, rfl⟩) (fun _ => ⟨rfl, hcn⟩)
      (fun hf => by simp [Worker.holds, Worker.goTo, Place.holds] at hf) ?_
    · have hok' := hok.inCollect (p := .published o) hpl rfl htask
      exact
        { active := hok'.active
          task := hok'.task
          consume := hok'.consume
          pending := hok'.pending
          parked_le := hok'.parked_le
          parked := fun hne => absurd rfl hne
          waits := trivial }
    · exact running (h.not_sweeping hx (by simp [hp])) (by simp)
  case published o =>
    refine h.lead hlt (h.alone hx) rfl ?_ (fun _ _ hk => hk)
      (fun ht => by simp [Worker.holds, Worker.goTo, Place.holds, hno] at ht)
      (fun k hk => absurd (hst.2.symm.trans hk) (by simp))
      (fun ht => by simp [Worker.holds, Worker.goTo, Place.holds, hno] at ht)
      (fun _ => hst.1) ?_
    · refine hok.goTo ?_ ?_ (by simp) htask.1 (by simp) (fun hyes => by rw [hno] at hyes; cases hyes) trivial
      all_goals simp [hp]
    · exact running (h.not_sweeping hx (by simp [hp])) (by simp)

/-- What a worker that is not on its way to a park begins is its own affair. -/
theorem State.Inv.begin (h : s.Inv) (hw : w < maxWorkers) (hp : (s.workers w).place.holds = false)
    (hpk : ∀ e, (s.workers w).place ≠ .parked e) (hhand : (s.workers w).place.handed = false)
    (hp' : x'.place.holds = false ∧ x'.place ≠ .consume) (hh : x'.handoff = (s.workers w).handoff)
    (hpe : x'.parked = (s.workers w).parked) (hact : x'.active = false ↔ x'.place = .out ∨ x'.place = .registering)
    (htask : x'.place.TaskOk x'.inTask) (hwaits : x'.Waits s.epoch s.done)
    (hquiet : s.epoch = s.done + 1 → (s.workers w).Quiet s.epoch → x'.Quiet s.epoch) :
    (s.set w x').Inv := by
  have hok := h.ok w
  have hno : x'.handoff = true → False := fun hho => by
    have := (hok.pending (hh ▸ hho)).1
    rw [hhand] at this
    cases this
  refine h.go hw hp hp'.1 hh ?_ fun he _ _ hq => hquiet he hq
  exact
    { active := hact
      task := htask
      consume := fun heq => absurd heq hp'.2
      pending := fun hho => (hno hho).elim
      parked_le := hpe ▸ hok.parked_le
      parked := fun hne heq => absurd (hok.parked hne (hpe ▸ heq)) (hpk _)
      waits := hwaits }

/-- **What a worker begins.** -/
theorem State.Inv.call {c : State.Call} (h : s.Inv) (hs : s.call w c = some s') : s'.Inv := by
  have hok := h.ok w
  have htask := hok.task
  unfold State.call at hs
  dsimp only at hs
  split at hs
  case h_1 hp =>
    split at hs <;> cases hs
    rename_i hw
    exact h.begin hw (by simp [hp, Place.holds]) (by simp [hp]) (by simp [hp, Place.handed])
      (by simp [Place.holds]) rfl rfl (by simpa [hp] using hok.active) rfl trivial fun _ _ => trivial
  case h_2 hp =>
    split at hs <;> cases hs
    rename_i hall
    have hidle : s.epoch = s.done := h.idle fun k => by
      have hk : (s.workers k).place = .out := by
        by_cases hlt : k < maxWorkers
        · exact hall.2 k hlt
        · exact (h.bound k (Nat.not_lt.mp hlt)).1
      have hho : (s.workers k).handoff = false := by
        by_contra hho
        have := ((h.ok k).pending (Bool.not_eq_false _ ▸ hho)).1
        simp [hk, Place.handed] at this
      simp [Worker.holds, hk, hho, Place.holds]
    exact h.begin hall.1 (by simp [hp, Place.holds]) (by simp [hp]) (by simp [hp, Place.handed])
      (by simp [Place.holds]) rfl rfl (by simp) rfl trivial fun he => by omega
  all_goals rename_i hp
  case h_15 =>
    rw [hp] at htask
    split at hs <;> cases hs
    · exact h.busy hp (by simp [Place.holds, Place.handed]) (by simp [Place.holds]) htask trivial
        fun e hq => by simp [Worker.Quiet, hp] at hq
    · rename_i hlock
      have hno : ∀ k, (s.workers k).holds = false := fun k => by
        by_contra hk
        exact hlock (h.lock k (Bool.not_eq_false _ ▸ hk))
      have hho := hno w
      have hidle := h.idle hno
      rw [Worker.holds, hp, show (Place.runs _).holds = false from rfl, Bool.false_or] at hho
      refine h.lead (h.lt (by simp [hp])) (fun k _ => hno k) rfl ?_ (fun _ _ hk => hk) (fun _ => rfl)
        (fun k hk => ?_) (fun _ => hidle) (fun _ => hidle) ?_
      · exact hok.goTo (by simp [hp]) (by simp [hp]) (by simp) htask (by simp)
          (fun hyes => by rw [hho] at hyes; cases hyes) trivial
      · have := h.collector k hk
        rw [hno k] at this
        cases this
      · refine running ?_ (by simp)
        by_contra hst
        obtain ⟨k, o, e, hk⟩ := h.stopped.mp (Bool.not_eq_false _ ▸ hst)
        have := hno k
        simp [Worker.holds, hk, Place.holds] at this
  case h_16 => cases hs
  all_goals
    cases hs
    rw [hp] at htask
  case h_3 =>
    exact h.begin (h.lt (by simp [hp])) (by simp [hp, Place.holds]) (by simp [hp]) (by simp [hp, Place.handed])
      (by simp [Place.holds]) rfl rfl (by simp) htask trivial fun _ _ => trivial
  case h_4 | h_5 =>
    exact h.begin (h.lt (by simp [hp])) (by simp [hp, Place.holds]) (by simp [hp]) (by simp [hp, Place.handed])
      (by simp [Place.holds]) rfl rfl (by simpa [hp] using hok.active) rfl trivial fun _ hq => by
        simp [Worker.Quiet, hp] at hq
  -- what stays in the set, with its words as they are
  all_goals
    exact h.busy hp (by simp [Place.holds, Place.handed]) (by simp [Place.holds])
      (by first | exact htask | trivial) trivial fun e hq => by simp [Worker.Quiet, hp] at hq

end Steps

theorem inv_init : State.init.Inv := by
  have hother : ∀ k, k ≠ 0 → State.init.workers k = ⟨false, 0, false, false, .out⟩ :=
    fun k hk => by simp [State.init, hk]
  have hno : ∀ k, (State.init.workers k).holds = false := fun k => by
    by_cases hk : k = 0
    · subst hk
      rfl
    · rw [hother k hk]
      rfl
  have hyes : ∀ {P : Prop} k, (State.init.workers k).holds = true → P := fun k hk => by
    rw [hno k] at hk
    cases hk
  refine ⟨fun k => ?_, fun k hk => ?_, fun k => hyes k, fun k _ => hyes k, fun k hk => (by cases hk),
    fun k => hyes k, fun _ => rfl, ?_⟩
  · have hok : ∀ b p, (b = false ∧ p = .out) ∨ (b = true ∧ p = .runs .loop) →
        (Worker.mk b 0 false false p).Ok 0 0 := by
      rintro b p (⟨rfl, rfl⟩ | ⟨rfl, rfl⟩) <;>
        exact ⟨by simp, rfl, by simp, by simp, le_rfl, fun hne => absurd rfl hne, trivial⟩
    by_cases hk : k = 0
    · subst hk
      exact hok _ _ (.inr ⟨rfl, rfl⟩)
    · rw [hother k hk]
      exact hok _ _ (.inl ⟨rfl, rfl⟩)
  · rw [hother k (by unfold maxWorkers at hk; omega)]
    exact ⟨rfl, rfl⟩
  · refine iff_of_false Bool.false_ne_true fun ⟨k, o, e, hk⟩ => hyes k ?_
    rw [Worker.holds, hk]
    rfl

theorem State.Inv.step {s s' : State} {w : Nat} (h : s.Inv) (hs : s.step w = some s') : s'.Inv := by
  cases hin : (s.workers w).place.holds
  · exact h.stepOut rfl hin hs
  · exact h.stepIn rfl hin hs

theorem Reachable.inv {s : State} (h : Reachable s) : s.Inv := by
  induction h with
  | init => exact inv_init
  | @next s s' e _ hs ih =>
    cases e with
    | call w c => exact ih.call hs
    | step w => exact ih.step hs

/-- The events of a run are those of a reachable state. -/
theorem Reachable.run {s s' : State} {es : List Event} (h : Reachable s) (hr : s.run es = some s') :
    Reachable s' := by
  induction es generalizing s with
  | nil =>
    cases hr
    exact h
  | cons e es ih =>
    rw [State.run] at hr
    cases hs : s.next e with
    | none => simp [hs] at hr
    | some s₁ =>
      rw [hs, Option.bind_some] at hr
      exact ih (h.next hs) hr

theorem Worker.Quiet.inTask {x : Worker} {epoch done e : Nat} (hok : x.Ok epoch done) (hq : x.Quiet e) :
    x.inTask = false := by
  have htask := hok.task
  unfold Worker.Quiet at hq
  split at hq <;> simp_all [Place.TaskOk]

/-- How many steps a collection has still to take, once the others have parked.  At worker `i`, which
has parked for `parked`, the barrier looks at `active` again unless that is enough. -/
def Place.left (parked : Nat → Nat) : Place → Nat
  | .asked _ => 2 * maxWorkers + 14
  | .handing => 2 * maxWorkers + 13
  | .suspended => 2 * maxWorkers + 12
  | .parkInTask => 2 * maxWorkers + 11
  | .parkHandoff => 2 * maxWorkers + 10
  | .consume => 2 * maxWorkers + 9
  | .quiesce _ => 2 * maxWorkers + 8
  | .barrier _ _ i => 2 * (maxWorkers - i) + 6
  | .barrierParked _ e i => 2 * (maxWorkers - i) + if e ≤ parked i then 5 else 7
  | .sweeping .. => 4
  | .swept .. => 3
  | .resigned .. => 2
  | .published _ => 1
  | _ => 0

section Ends
variable {s s' : State} {w : Nat} {p : Place} {x : Worker}

/-- Every other worker is out of the set or has parked for this epoch. -/
def State.Parked (s : State) (w : Nat) : Prop :=
  ∀ k, k ≠ w → (s.workers k).active = false ∨ s.epoch ≤ (s.workers k).parked

/-- The epoch asked for is not over, or its end has just been published. -/
def State.Under (s : State) (w : Nat) : Prop :=
  s.epoch ≠ s.done ∨ ∃ o, (s.workers w).place = .published o

/-- The steps that worker `w` has still to take. -/
def State.left (s : State) (w : Nat) : Nat :=
  (s.workers w).place.left fun i => (s.workers i).parked

/-- What `w` does brings its collection closer to the end. -/
structure State.Closer (s s' : State) (w : Nat) : Prop where
  less : s'.left w < s.left w
  holds : (s'.workers w).holds = true
  under : s'.Under w
  epoch : s'.epoch = s.epoch
  other : ∀ k, k ≠ w → s'.workers k = s.workers k

theorem State.Closer.intro (hp : (s.workers w).place = p) (hs' : s'.workers = update s.workers w x)
    (hless : x.place.left (fun i => (s'.workers i).parked) < p.left fun i => (s.workers i).parked)
    (hx : x.holds = true) (hepoch : s'.epoch = s.epoch)
    (hreq : s'.epoch ≠ s'.done ∨ ∃ o, x.place = .published o) : s.Closer s' w where
  less := by
    rw [State.left, State.left, hp, congrFun hs' w, update_self]
    exact hless
  holds := by rwa [congrFun hs' w, update_self]
  under := by rwa [State.Under, congrFun hs' w, update_self]
  epoch := hepoch
  other := fun k hk => by rw [congrFun hs' k, update_of_ne hk]

theorem State.Inv.closer (h : s.Inv) (hp : (s.workers w).place = p) (hx : (s.workers w).holds = true)
    (hreq : s.epoch ≠ s.done) (hpark : s.Parked w) : ∃ s', s.step w = some s' ∧ s.Closer s' w := by
  have hok := h.ok w
  have hst := h.stage w hx
  have hhand : p.holds = false → (s.workers w).handoff = true := fun hno => by
    rwa [Worker.holds, hp, hno, Bool.false_or] at hx
  rw [hp] at hst
  unfold State.step
  simp only [hp]
  cases p with
  | locked o => exact absurd hst hreq
  | elected o => exact absurd hst.1 hreq
  | published o => exact absurd hst.1 hreq
  | asked o =>
    refine ⟨_, rfl, .intro hp rfl ?_ ?_ rfl (.inl hreq)⟩ <;> split <;>
      simp [Worker.holds, Worker.goTo, Place.holds, Place.left]
  | handing => exact ⟨_, rfl, .intro hp rfl (by simp [Place.left]) rfl rfl (.inl hreq)⟩
  | suspended =>
    refine ⟨_, rfl, .intro hp rfl (by simp [Place.left]) ?_ rfl (.inl hreq)⟩
    simp [Worker.holds, hhand rfl]
  | parkInTask =>
    have hin := (hok.pending (hhand rfl)).2 hp
    refine ⟨_, rfl, .intro hp rfl ?_ ?_ rfl (.inl hreq)⟩ <;>
      simp [hin, hhand rfl, Worker.holds, Worker.goTo, Place.left]
  | parkHandoff =>
    refine ⟨_, rfl, .intro hp rfl ?_ ?_ rfl (.inl hreq)⟩ <;>
      simp [hhand rfl, Worker.holds, Worker.goTo, Place.left]
  | consume => exact ⟨_, rfl, .intro hp rfl (by simp [Place.left]) rfl rfl (.inl hreq)⟩
  | quiesce o =>
    exact ⟨_, rfl, .intro hp rfl (by simp [Worker.goTo, Place.left]) rfl rfl (.inl hreq)⟩
  | barrier o e i =>
    obtain ⟨-, -, he, -⟩ := hst
    dsimp only
    by_cases hi : i < maxWorkers
    · by_cases hiw : i = w
      · rw [if_pos hi, if_pos hiw]
        refine ⟨_, rfl, .intro hp rfl ?_ rfl rfl (.inl hreq)⟩
        simp only [Worker.goTo, Place.left]
        omega
      · rw [if_pos hi, if_neg hiw]
        refine ⟨_, rfl, .intro hp rfl ?_ ?_ rfl (.inl hreq)⟩
        · dsimp only [Worker.goTo]
          split
          · rename_i hact
            -- it is in the set, so it has parked
            have hpk : e ≤ (s.workers i).parked := by
              rcases hpark i hiw with hno | hpk
              · simp [hno] at hact
              · exact he ▸ hpk
            simp only [Place.left, set_of_ne hiw, if_pos hpk]
            omega
          · simp only [Place.left]
            omega
        · split <;> rfl
    · rw [if_neg hi]
      exact ⟨_, rfl, .intro hp rfl (by simp [Worker.goTo, Place.left]) rfl rfl (.inl hreq)⟩
  | barrierParked o e i =>
    have hi := hst.2.2.2.2
    refine ⟨_, rfl, .intro hp rfl ?_ ?_ rfl (.inl hreq)⟩
    · dsimp only [Worker.goTo]
      split
      · rename_i hle
        simp only [Place.left, if_pos hle]
        omega
      · rename_i hlt
        simp only [Place.left, if_neg hlt]
        omega
    · split <;> rfl
  | sweeping o e =>
    exact ⟨_, rfl, .intro hp rfl (by simp [Worker.goTo, Place.left]) rfl rfl (.inl hreq)⟩
  | swept o e =>
    exact ⟨_, rfl, .intro hp rfl (by simp [Worker.goTo, Place.left]) rfl rfl (.inl hreq)⟩
  | resigned o e =>
    exact ⟨_, rfl, .intro hp rfl (by simp [Worker.goTo, Place.left]) rfl rfl (.inr ⟨o, rfl⟩)⟩
  | _ =>
    -- not a place of a worker that has the collection
    have := (hok.pending (hhand rfl)).1
    simp [hp, Place.handed] at this

/-- By induction on the steps left: `w` gives the lock back. -/
theorem State.Inv.ends (n : Nat) : ∀ {s : State}, s.Inv → (s.workers w).holds = true → s.Under w →
    s.Parked w → s.left w < n →
    ∃ m s', s.run (List.replicate m (.step w)) = some s' ∧ s'.done = s.epoch ∧ s'.lock = false := by
  induction n with
  | zero => exact fun _ _ _ _ hn => absurd hn (Nat.not_lt_zero _)
  | succ n ih =>
    intro s h hx hu hpark hn
    by_cases hreq : s.epoch = s.done
    · obtain ⟨o, hp⟩ := hu.resolve_left (not_not.mpr hreq)
      refine ⟨1, { s.set w ((s.workers w).goTo (.runs o)) with lock := false }, ?_, hreq.symm, rfl⟩
      simp [State.run, State.next, State.step, hp]
    · obtain ⟨s', hs, hc⟩ := h.closer rfl hx hreq hpark
      have hpark' : s'.Parked w := fun k hk => by
        rw [hc.other k hk, hc.epoch]
        exact hpark k hk
      obtain ⟨m, s'', hrun, hdone, hlock⟩ := ih (h.step hs) hc.holds hc.under hpark' (by have := hc.less; omega)
      refine ⟨m + 1, s'', ?_, hdone.trans hc.epoch, hlock⟩
      rw [List.replicate_succ, State.run, State.next, hs, Option.bind_some, hrun]

end Ends

end Jacl.Quiesce
