import Jacl.SchedWakeups
import Jacl.Traces

/-!
# Every task is popped and every wake-up arrives

What the steps keep (`Jacl.SchedWakeups`) is put together along a run.  In a run in which no
push is refused, what is passed to a queue is popped if its owner keeps coming back to the
top of its loop; a parked job is pushed once, when the job it awaits is done; and its fiber
goes on with the result of that job and with nothing else (`NothingLost`).
-/

namespace Jacl.Sched
open LinkLists Function JaclVal Traces

variable {s s' : State} {i j t : JobId} {w o : Nat}

/-! ### Fibers that have begun -/

/-- The stages of a job that has a fiber. -/
def Stage.begun : Stage → Prop
  | .enter => False
  | .claimed => False
  | _ => True

/-- A job that is resumed, or that awaits another, has a fiber. -/
structure Begun (s : State) : Prop where
  busy : ∀ w j src st, s.pc w = .busy j src st → st.begun → s.fiber j = true
  awaits : ∀ j t, s.target j = some t → s.fiber j = true

theorem Settles.fiber (h : Settles s i s') : s'.fiber = s.fiber := by
  cases h <;> rfl

/-- A section parks its own job only. -/
theorem Settles.target (h : Settles s i s') (ht : s'.target j = some t) :
    s.target j = some t ∨ j = i ∧ s' = parked s i t := by
  cases h with
  | @finish ws v hw =>
    rw [completed_target] at ht
    dsimp only at ht
    split_ifs at ht
    exact .inl ht
  | @cancel ws hc hw =>
    rw [cancelled, completed_target] at ht
    dsimp only at ht
    split_ifs at ht
    exact .inl ht
  | hold hsus => exact .inl ht
  | push => exact .inl ((congrFun (push_target ..) j).symm.trans ht)
  | @park t' ht' hd hne =>
    rw [show (parked s i t').target = update s.target i (some t') from rfl] at ht
    by_cases hji : j = i
    · subst hji
      obtain rfl : t' = t := by simpa using ht
      exact .inr ⟨rfl, rfl⟩
    · exact .inl (by simpa [hji] using ht)

/-- A job that awaits nothing, or that is done, has not been parked. -/
theorem Loose.not_parked (hl : Loose s.toLinks i) (h : s'.target i = none ∨ s'.done i = true) :
    s' ≠ parked s i t := by
  rintro rfl
  rcases h with ht | hd
  · simp [parked] at ht
  · exact absurd (hl.not_done.symm.trans hd) (by simp)

theorem Settles.begun (hset : Settles s i s') (h : Begun s)
    (hi : ∀ t, s' = parked s i t → s.fiber i = true) : Begun s' := by
  have hf := hset.fiber
  refine ⟨fun w j src st hpc hst => ?_, fun j t ht => ?_⟩
  · rw [settles_pc hset] at hpc
    rw [hf]
    exact h.busy w j src st hpc hst
  · rw [hf]
    rcases hset.target ht with ht | ⟨rfl, heq⟩
    · exact h.awaits j t ht
    · exact hi t heq

theorem Begun.congr (h : Begun s) (hpc : s'.pc = s.pc) (hf : s'.fiber = s.fiber)
    (ht : ∀ j t, s'.target j = some t → s.target j = some t) : Begun s' :=
  ⟨fun w j src st => by rw [hpc, hf]; exact h.busy w j src st,
    fun j t hj => by rw [hf]; exact h.awaits j t (ht j t hj)⟩

theorem Begun.takes (h : Begun s) (hsteps : Relation.ReflTransGen (Takes w) s s') : Begun s' := by
  induction hsteps with
  | refl => exact h
  | tail hsteps htake ih =>
    obtain ⟨i, l, hp, hl, hset, -, hi⟩ := htake
    obtain ⟨rest, -, rfl⟩ := pop_cases hp
    refine hset.begun (ih.congr rfl rfl fun _ _ => id) fun t heq => absurd heq ?_
    refine Loose.not_parked hl ?_
    rcases hi with ⟨-, hd⟩ | rfl
    · exact .inr hd
    · exact .inl hl.target_eq_none

/-- A worker goes on, with a job that has a fiber if it has begun. -/
theorem Begun.moved {q : Pc} (h : Begun s) (he : s'.pc = update s.pc w q)
    (hf : ∀ x, s.fiber x = true → s'.fiber x = true)
    (hq : ∀ j src st, q = .busy j src st → st.begun → s'.fiber j = true)
    (ht : s'.target = s.target) : Begun s' := by
  refine ⟨fun w' j src st hpc hst => ?_, fun j t hj => ?_⟩
  · rw [he] at hpc
    by_cases hw : w' = w
    · subst hw
      rw [update_self] at hpc
      exact hq j src st hpc hst
    · rw [update_of_ne hw] at hpc
      exact hf j (h.busy w' j src st hpc hst)
  · rw [ht] at hj
    exact hf j (h.awaits j t hj)

theorem Begun.finishes {q : Pc} {src : Src} {out : Outcome} (h : Begun s)
    (hpc : s.pc w = .busy i src (.back out)) (hq : ∀ j src st, q ≠ .busy j src st)
    (hfin : Finishes s w q i out s') : Begun s' := by
  obtain ⟨-, -, a, hset, -⟩ := hfin
  refine hset.begun (h.moved (w := w) (q := q) rfl (fun _ => id)
    (fun j src st hj => absurd hj (hq j src st)) rfl) fun t _ => ?_
  exact h.busy w i src _ hpc trivial

theorem Begun.step (h : Begun s) (hinv : Inv s.toLinks) (hstep : StepBy w s s') : Begun s' := by
  cases hstep with
  | turn hpc hw hpop =>
    obtain ⟨s₁, hsteps, -, ⟨rfl, heq, -⟩ | ⟨i, l, rfl, hp, rfl, -⟩⟩ := turn_cases hinv hpop
    · rw [heq]
      have h₁ := h.takes hsteps
      unfold afterPop
      dsimp only
      split_ifs
      · exact h₁.congr rfl rfl fun _ _ => id
      · exact h₁.moved (w := w) rfl (fun _ => id) (fun j src st hj => by cases hj) rfl
    · obtain ⟨rest, -, rfl⟩ := pop_cases hp
      exact (h.takes hsteps).moved (w := w) (q := .busy i .queue .enter) rfl (fun _ => id)
        (fun j src st hj hst => by cases hj; exact hst.elim) rfl
  | stop hpc hd => exact h.moved rfl (fun _ => id) (fun j src st hj => by cases hj) rfl
  | poll hpc =>
    exact h.moved rfl (fun _ => id) (fun j src st hj hst => by cases hj; exact hst.elim) rfl
  | polled idle hpc => exact h.moved rfl (fun _ => id) (fun j src st hj => by cases hj) rfl
  | @claim i src hpc =>
    split_ifs with hres
    · rw [hinv.not_resuming (by rw [hpc]; exact busy_has ..) (by rw [hpc]; rfl)] at hres
      cases hres
    · exact h.moved rfl (fun _ => id) (fun j src st hj hst => by cases hj; exact hst.elim) rfl
  | @start i src hpc hf =>
    have hfib : ∀ x, s.fiber x = true → update s.fiber i true x = true := by
      intro x hx
      by_cases hxi : x = i
      · rw [hxi, update_self]
      · rw [update_of_ne hxi, hx]
    exact h.moved (w := w) (q := .busy i src (.ready (s.prime i))) rfl hfib
      (fun j src st hj hst => by cases hj; exact update_self ..) rfl
  | again hpc hf =>
    exact h.moved rfl (fun _ => id) (fun j src st hj hst => by cases hj; exact hf) rfl
  | @install i src arg hpc =>
    refine h.moved (w := w) (q := .busy i src (.slice s.ctxCur)) rfl (fun _ => id)
      (fun j src st hj hst => ?_) rfl
    cases hj
    exact h.busy w i _ _ hpc trivial
  | spawn closure hpc =>
    have hsp : Begun (made s closure) := by
      refine ⟨fun w' j src st hpc' hst => ?_, fun j t hj => ?_⟩
      · have hne : j ≠ s.count := (hinv.busy (s := s) hpc').1.ne
        exact (update_of_ne hne ..).trans (h.busy w' j src st hpc' hst)
      · by_cases hne : j = s.count
        · subst hne
          exact absurd ((update_self ..).symm.trans hj) (by simp)
        · have ht : s.target j = some t := by
            rw [← hj]
            exact (update_of_ne hne ..).symm
          exact (update_of_ne hne ..).trans (h.awaits j t ht)
    have hl : Loose (made s closure).toLinks s.count := hinv.make _
    have hpush : Settles (made s closure) s.count ((made s closure).push s.count) := .push
    refine (hpush.begun hsp fun t heq => absurd heq (hl.not_parked (.inl ?_))).congr rfl rfl
      fun _ _ => id
    exact (congrFun (push_target ..) s.count).trans hl.target_eq_none
  | request i bit err hpc hi hreq =>
    obtain ⟨s'', heq, hr, -⟩ := jobRequest_spec hinv bit err
    rw [hreq] at heq
    obtain rfl := Option.some.inj heq
    cases hr with
    | noted => exact h.congr rfl rfl fun _ _ => id
    | unhold hh hd ho hc hl hset hhow =>
      refine hset.begun (h.congr rfl rfl fun _ _ => id) fun t heq => absurd heq ?_
      refine Loose.not_parked hl ?_
      rcases hhow with ⟨-, hd⟩ | rfl
      · exact .inr hd
      · exact .inl ((congrFun (push_target ..) i).trans hl.target_eq_none)
    | @unpark t' c u e next head _ ht hj ho hl hset hdi =>
      refine hset.begun (h.congr rfl rfl fun x t hx => ?_) fun t heq => h.awaits i t' ht
      by_cases hxi : x = i
      · subst hxi
        exact absurd ((update_self ..).symm.trans hx) (by simp)
      · exact (update_of_ne hxi none s.target).symm.trans hx
  | taskEnd v hpc =>
    unfold taskEnd
    split
    · exact h
    · exact h.congr rfl rfl fun _ _ => id
  | setCtx c hpc => exact h.congr rfl rfl fun _ _ => id
  | @yield i src saved out hpc hawait hskip =>
    refine h.moved (w := w) (q := .busy i src (.back out)) rfl (fun _ => id)
      (fun j src st hj hst => ?_) rfl
    cases hj
    exact h.busy w i _ _ hpc trivial
  | block hpc => exact h.moved rfl (fun _ => id) (fun j src st hj => by cases hj) rfl
  | stay hpc => exact h.moved rfl (fun _ => id) (fun j src st hj => by cases hj) rfl
  | @unlink i prev next out hpc hout =>
    refine h.moved (w := w) (q := .busy i (.polled prev next) (.back out)) rfl (fun _ => id)
      (fun j src st hj hst => ?_) rfl
    cases hj
    exact h.busy w i _ _ hpc trivial
  | finish hpc hfin =>
    refine h.finishes hpc (fun j src st => ?_) (finish_queue_cases hinv hpc hfin)
    unfold afterJob
    split
    · split_ifs <;> simp
    · simp
  | finishPolled hpc hfin =>
    exact h.finishes hpc (by simp) (finish_polled_cases hinv hpc hfin)

theorem Reachable.begun {workers : Nat} (h : Reachable workers s) : Begun s := by
  induction h with
  | init =>
    refine ⟨fun w j src st hpc hst => ?_, fun j t ht => ?_⟩
    · rw [show (Sched.init workers).pc = fun _ => Pc.top from push_pc ..] at hpc
      cases hpc
    · rw [show (Sched.init workers).target = update (fun _ => none) 0 none from push_target ..] at ht
      simp at ht
  | step hs hstep ih =>
    obtain ⟨w, hstep⟩ := hstep
    exact ih.step hs.inv hstep

/-! ### Results stay -/

/-- What has ended keeps its result. -/
def Keeping (s s' : State) : Prop := ∀ t, s.done t = true → s'.done t = true ∧ s'.result t = s.result t

theorem Keeping.refl (s : State) : Keeping s s := fun _ h => ⟨h, rfl⟩

theorem Keeping.trans {s'' : State} (h : Keeping s s') (h' : Keeping s' s'') : Keeping s s'' :=
  fun t hd => ⟨(h' t (h t hd).1).1, ((h' t (h t hd).1).2).trans (h t hd).2⟩

theorem Keeping.of_eq (hd : s'.done = s.done) (hr : s'.result = s.result) : Keeping s s' :=
  fun t ht => by rw [hd, hr]; exact ⟨ht, rfl⟩

theorem Settles.keeping (hset : Settles s i s') (hl : Loose s.toLinks i) (hroom : s'.dropped = []) :
    Keeping s s' := by
  intro t ht
  have hti : t ≠ i := by
    rintro rfl
    rw [hl.not_done] at ht
    cases ht
  exact (hset.spares hl hroom hti).results t ht

theorem Keeping.takes (hsteps : Relation.ReflTransGen (Takes w) s s') (hroom : s'.dropped = []) :
    Keeping s s' := by
  induction hsteps using Relation.ReflTransGen.head_induction_on with
  | refl => exact .refl _
  | head htake hrest ih =>
    have hroom₁ := (Takes.grows hrest).dropped
    rw [hroom] at hroom₁
    obtain ⟨i, l, hp, hl, hset, -, hi⟩ := htake
    obtain ⟨rest, -, rfl⟩ := pop_cases hp
    refine Keeping.trans ?_ ((hset.keeping hl (List.prefix_nil.mp hroom₁)).trans ih)
    exact .of_eq rfl rfl

theorem StepBy.keeping (hinv : Inv s.toLinks) (hstep : StepBy w s s') (hroom : s'.dropped = []) :
    Keeping s s' := by
  cases hstep with
  | turn hpc hw hpop =>
    obtain ⟨s₁, hsteps, -, ⟨rfl, rfl, -⟩ | ⟨i, l, rfl, hp, rfl, -⟩⟩ := turn_cases hinv hpop
    · refine (Keeping.takes hsteps
        ((afterPop_frame (·.dropped) (fun _ _ _ => rfl) _ w none).symm.trans hroom)).trans ?_
      exact .of_eq (afterPop_frame (·.done) (fun _ _ _ => rfl) _ w none)
        (afterPop_frame (·.result) (fun _ _ _ => rfl) _ w none)
    · obtain ⟨rest, -, rfl⟩ := pop_cases hp
      exact (Keeping.takes hsteps hroom).trans (.of_eq rfl rfl)
  | claim hpc => split_ifs <;> exact .of_eq rfl rfl
  | spawn closure hpc =>
    intro t ht
    have hlt := hinv.lt_count (.inl ht)
    have e := (spawn_spares hinv hlt closure hroom).results t ((update_of_ne hlt.ne ..).trans ht)
    exact ⟨e.1, e.2.trans (update_of_ne hlt.ne ..)⟩
  | request i bit err hpc hi hreq =>
    obtain ⟨s'', heq, hr, -⟩ := jobRequest_spec hinv bit err
    rw [hreq] at heq
    obtain rfl := Option.some.inj heq
    cases hr with
    | noted => exact .of_eq rfl rfl
    | unhold hh hd ho hc hl hset _ =>
      refine Keeping.trans ?_ (hset.keeping hl hroom)
      exact .of_eq rfl rfl
    | unpark ht hj ho hl hset _ =>
      refine Keeping.trans ?_ (hset.keeping hl hroom)
      exact .of_eq rfl rfl
  | taskEnd v hpc =>
    unfold Sched.taskEnd
    split <;> exact .of_eq rfl rfl
  | finish hpc hfin =>
    obtain ⟨hl, -, a, hset, -⟩ := finish_queue_cases hinv hpc hfin
    refine Keeping.trans ?_ (hset.keeping hl hroom)
    exact .of_eq rfl rfl
  | finishPolled hpc hfin =>
    obtain ⟨hl, -, a, hset, -⟩ := finish_polled_cases hinv hpc hfin
    refine Keeping.trans ?_ (hset.keeping hl hroom)
    exact .of_eq rfl rfl
  | _ => exact .of_eq rfl rfl

/-! ### From the queue to the fiber -/

/-- Worker `w` is in the section at the top of its loop. -/
def Turns (s : State) (w : Nat) (s' : State) : Prop :=
  s.pc w = .top ∧ ∃ x s₁, popReady (s.count + 1) s w = some (x, s₁) ∧ s' = afterPop s₁ w x

/-- **A turn pops a job** if one is queued. -/
theorem Turns.popped_lt (h : Turns s w s') (hinv : Inv s.toLinks) (hfifo : Fifo s.toLinks)
    (hq : s.rq w ≠ []) : (s.popped w).length < (s'.popped w).length := by
  obtain ⟨-, x, s₁, hpop, rfl⟩ := h
  rw [afterPop_frame (·.popped) (fun _ _ _ => rfl)]
  obtain ⟨s₂, hsteps, hinv₂, ⟨rfl, rfl, hrq⟩ | ⟨i, l, rfl, hp, rfl, -⟩⟩ := turn_cases hinv hpop
  · -- the queue was emptied
    have hg := Takes.grows hsteps
    have hlen := (hg.pushed w).length_le
    rw [hfifo w, hg.fifo hfifo w, hrq, List.append_nil, List.length_append] at hlen
    exact lt_of_lt_of_le (Nat.lt_add_of_pos_right (List.length_pos_of_ne_nil hq)) hlen
  · obtain ⟨rest, -, rfl⟩ := pop_cases hp
    have hlen := ((Takes.grows hsteps).popped w).length_le
    simp only [update_self, List.length_append, List.length_singleton]
    exact Nat.lt_succ_of_le hlen

/-- A job that was taken in the section at the top of the loop: suspended, or ended by a
cancel. -/
def Taken (s : State) (j : JobId) : Prop := s.held j = true ∨ s.done j = true ∧ s.cancel j = true

/-- Since `s₀` the job has rested in the queue of worker `o`. -/
def Rests (s₀ s : State) (o : Nat) (j : JobId) : Prop :=
  j ∈ s.rq o ∧ s.owner j = s₀.owner j ∧ pushes s j = pushes s₀ j

theorem Spares.rests {s₀ : State} (e : Spares s i j s') (h : Rests s₀ s o j)
    (ht : s.target j = none) : Rests s₀ s' o j := by
  obtain ⟨hj, ho, hp⟩ := h
  rcases e.woken with ⟨hti, -⟩ | ⟨-, -, -, hp', hq⟩
  · rw [ht] at hti
    cases hti
  · exact ⟨(hq o).mp hj, by rw [e.owner, ho], hp'.trans hp⟩

theorem Spares.taken (e : Spares s i j s') (h : Taken s j) : Taken s' j := by
  rw [Taken, e.held, e.done, e.cancel]
  exact h

theorem Inv.target_of_queued (h : Inv s.toLinks) (hj : j ∈ s.rq o) : s.target j = none :=
  (h.sits j).target_eq_none (.inl ⟨o, hj⟩)

/-- A queued job is in one queue. -/
theorem Inv.queue_eq (h : Inv s.toLinks) (hj : j ∈ s.rq o) (hj' : j ∈ s.rq w) : o = w := by
  obtain ⟨L, place, h, -⟩ := h
  have hq := (h.at_place j).queued
  exact ((hq o).mp hj).2.symm.trans ((hq w).mp hj').2

/-- The jobs taken at the top of the loop: another one leaves the job where it is. -/
theorem Rests.takes {s₀ : State} (h : Rests s₀ s o j ∨ w = o ∧ Taken s j) (hinv : Inv s.toLinks)
    (htake : Takes w s s') (hroom : s'.dropped = []) : Rests s₀ s' o j ∨ w = o ∧ Taken s' j := by
  obtain ⟨i, l, hp, hl, hset, hinv', hi⟩ := htake
  obtain ⟨rest, hrq, rfl⟩ := pop_cases hp
  have hmem : i ∈ s.rq w := by rw [hrq]; exact List.mem_cons_self
  by_cases hji : j = i
  · subst hji
    rcases h with ⟨hj, -, -⟩ | ⟨-, hh | ⟨hd, -⟩⟩
    · refine .inr ⟨hinv.queue_eq hmem hj, ?_⟩
      rcases hi with ⟨hc, hd⟩ | rfl
      · obtain ⟨v, ws, hw, e⟩ := hset.ends hl hroom hd
        exact .inr ⟨hd, by rw [e.cancel]; exact hc⟩
      · exact .inl (update_self ..)
    · -- it is queued, so it is not suspended
      obtain ⟨L, place, hpl, -⟩ := hinv
      have hat := hpl.at_place j
      have hq := ((hat.queued w).mp hmem).1
      exact absurd ((hat.held (by simp [hq]) (by simp [hq])).mp hh) (by simp [hq])
    · exact absurd hd (by simp [(hinv.queued hmem).2])
  · have e := hset.spares hl hroom hji
    rcases h with h | ⟨how, h⟩
    · refine .inl (e.rests ⟨?_, h.2.1, h.2.2⟩ (hinv.target_of_queued h.1))
      by_cases how : o = w
      · subst how
        have hj := h.1
        rw [hrq] at hj
        simpa [hji] using hj
      · simpa [how] using h.1
    · exact .inr ⟨how, e.taken h⟩

theorem Rests.takes_all {s₀ : State} (h : Rests s₀ s o j ∨ w = o ∧ Taken s j) (hinv : Inv s.toLinks)
    (hsteps : Relation.ReflTransGen (Takes w) s s') (hroom : s'.dropped = []) :
    Rests s₀ s' o j ∨ w = o ∧ Taken s' j := by
  induction hsteps using Relation.ReflTransGen.head_induction_on with
  | refl => exact h
  | head htake hrest ih =>
    have hroom₁ := (Takes.grows hrest).dropped
    rw [hroom] at hroom₁
    exact ih (Rests.takes h hinv htake (List.prefix_nil.mp hroom₁)) htake.inv

/-- What is read of a state to say that a job rests. -/
theorem Rests.congr {s₀ : State} (h : Rests s₀ s o j) (hrq : s'.rq o = s.rq o)
    (hown : s'.owner j = s.owner j) (hp : pushes s' j = pushes s j) : Rests s₀ s' o j := by
  rw [Rests, hrq, hown, hp]
  exact h

/-- **A queued job rests** through a step, or its owner's turn takes it, or goes on with it. -/
theorem StepBy.rests (hinv : Inv s.toLinks) (hstep : StepBy w s s') (hroom : s'.dropped = [])
    (hj : j ∈ s.rq o) : Rests s s' o j ∨ w = o ∧ (Taken s' j ∨ s'.pc o = .busy j .queue .enter) := by
  have h : Rests s s o j := ⟨hj, rfl, rfl⟩
  have htar := hinv.target_of_queued hj
  have hbusy : ∀ {w' i src st}, s.pc w' = .busy i src st → j ≠ i := by
    rintro w' i src st hpc rfl
    exact (hinv.busy_only hpc).1 o hj
  cases hstep with
  | turn hpc hw hpop =>
    obtain ⟨s₁, hsteps, hinv₁, ⟨rfl, rfl, -⟩ | ⟨i, l, rfl, hp, rfl, -⟩⟩ := turn_cases hinv hpop
    · have hroom₁ := (afterPop_frame (·.dropped) (fun _ _ _ => rfl) _ w none).symm.trans hroom
      rcases Rests.takes_all (.inl h) hinv hsteps hroom₁ with h₁ | ⟨how, h₁⟩
      · left
        unfold afterPop
        dsimp only
        split_ifs <;> exact h₁.congr rfl rfl rfl
      · refine .inr ⟨how, .inl ?_⟩
        unfold afterPop
        dsimp only
        split_ifs <;> exact h₁
    · obtain ⟨rest, hrq, rfl⟩ := pop_cases hp
      rcases Rests.takes_all (.inl h) hinv hsteps hroom with h₁ | ⟨how, h₁⟩
      · by_cases hji : j = i
        · subst hji
          have hmem : j ∈ s₁.rq w := by rw [hrq]; exact List.mem_cons_self
          obtain rfl := hinv₁.queue_eq hmem h₁.1
          exact .inr ⟨rfl, .inr (update_self ..)⟩
        · refine .inl ⟨?_, h₁.2.1, h₁.2.2⟩
          by_cases how : o = w
          · subst how
            have hj₁ := h₁.1
            rw [hrq] at hj₁
            simpa [afterPop, goTo, hji] using hj₁
          · simpa [afterPop, goTo, how] using h₁.1
      · exact .inr ⟨how, .inl h₁⟩
  | claim hpc => split_ifs <;> exact .inl (h.congr rfl rfl rfl)
  | spawn closure hpc =>
    have hlt := (hinv.queued hj).1
    have hmade : Rests s (made s closure) o j := by
      have hown : (made s closure).owner j = s.owner j := update_of_ne hlt.ne ..
      exact h.congr rfl hown (by rw [pushes, hown]; rfl)
    have hs := (spawn_spares hinv hlt closure hroom).rests hmade
      ((update_of_ne hlt.ne ..).trans htar)
    exact .inl (hs.congr rfl rfl rfl)
  | request i bit err hpc hi hreq =>
    obtain ⟨s'', heq, hr, -⟩ := jobRequest_spec hinv bit err
    rw [hreq] at heq
    obtain rfl := Option.some.inj heq
    cases hr with
    | noted => exact .inl (h.congr rfl rfl rfl)
    | @unhold c u e next head b _ hh hd ho hc hl hset _ =>
      have hji : j ≠ i := by
        rintro rfl
        obtain ⟨L, place, hpl, -⟩ := hinv
        have hat := hpl.at_place j
        have hq := ((hat.queued o).mp hj).1
        exact absurd ((hat.held (by simp [hq]) (by simp [hq])).mp hh) (by simp [hq])
      left
      refine (hset.spares hl hroom hji).rests ?_ htar
      exact h.congr rfl rfl rfl
    | @unpark t' c u e next head _ ht hc ho hl hset hdi =>
      have hji : j ≠ i := by
        rintro rfl
        rw [htar] at ht
        cases ht
      left
      refine (hset.spares hl hroom hji).rests ?_ ((update_of_ne hji ..).trans htar)
      exact h.congr rfl rfl rfl
  | taskEnd v hpc =>
    unfold Sched.taskEnd
    split <;> exact .inl (h.congr rfl rfl rfl)
  | finish hpc hfin =>
    obtain ⟨hl, -, a, hset, -⟩ := finish_queue_cases hinv hpc hfin
    left
    refine (hset.spares hl hroom (hbusy hpc)).rests ?_ htar
    exact h.congr rfl rfl rfl
  | finishPolled hpc hfin =>
    obtain ⟨hl, -, a, hset, -⟩ := finish_polled_cases hinv hpc hfin
    left
    refine (hset.spares hl hroom (hbusy hpc)).rests ?_ htar
    exact h.congr rfl rfl rfl
  | _ => exact .inl (h.congr rfl rfl rfl)

/-- The stages of a job whose fiber has not gone on yet. -/
def Stage.early : Stage → Prop
  | .slice _ => False
  | .back _ => False
  | _ => True

/-- A step moves its own worker only. -/
theorem StepBy.pc_eq (hinv : Inv s.toLinks) (hstep : StepBy w s s') : ∃ q, s'.pc = update s.pc w q := by
  have hself : ∀ {s' : State}, s'.pc = s.pc → ∃ q, s'.pc = update s.pc w q :=
    fun h => ⟨s.pc w, by rw [h, update_eq_self]⟩
  cases hstep with
  | turn hpc hw hpop =>
    obtain ⟨s₁, hsteps, -, ⟨rfl, rfl, -⟩ | ⟨i, l, rfl, hp, rfl, -⟩⟩ := turn_cases hinv hpop
    · have hpc₁ := Takes.pc hsteps
      unfold afterPop
      dsimp only
      split_ifs with hb
      · exact hself hpc₁
      · exact ⟨_, by rw [← hpc₁]; rfl⟩
    · exact ⟨_, by rw [← Takes.pc hsteps, ← pop_pc hp]; rfl⟩
  | claim hpc => split_ifs <;> exact ⟨_, rfl⟩
  | spawn closure hpc => exact hself (push_pc ..)
  | request i bit err hpc hi hreq =>
    obtain ⟨s'', heq, hr, -⟩ := jobRequest_spec hinv bit err
    rw [hreq] at heq
    obtain rfl := Option.some.inj heq
    cases hr with
    | noted => exact hself rfl
    | unhold hh hd ho hc hl hset _ =>
      have h := settles_pc hset
      exact hself h
    | unpark ht hj ho hl hset _ =>
      have h := settles_pc hset
      exact hself h
  | taskEnd v hpc =>
    unfold Sched.taskEnd
    split <;> exact hself rfl
  | setCtx c hpc => exact hself rfl
  | finish hpc hfin =>
    obtain ⟨-, -, a, hset, -⟩ := finish_queue_cases hinv hpc hfin
    exact ⟨_, settles_pc hset⟩
  | finishPolled hpc hfin =>
    obtain ⟨-, -, a, hset, -⟩ := finish_polled_cases hinv hpc hfin
    exact ⟨_, settles_pc hset⟩
  | _ => exact ⟨_, rfl⟩

/-- **A worker goes on with the job it has** until it resumes the fiber. -/
theorem StepBy.early {src : Src} {st : Stage} (hinv : Inv s.toLinks) (hstep : StepBy w s s')
    (hpc : s.pc o = .busy j src st) (hst : st.early) :
    (∃ src' st', st'.early ∧ s'.pc o = .busy j src' st') ∨ ∃ a, Resumes s j a s' := by
  by_cases how : o = w
  · subst how
    have hbusy : ∀ {i src' st'}, s.pc o = .busy i src' st' → i = j ∧ src' = src ∧ st' = st := by
      intro i src' st' hpc'
      rw [hpc] at hpc'
      cases hpc'
      exact ⟨rfl, rfl, rfl⟩
    cases hstep with
    | turn hpc' hw hpop | stop hpc' hd | poll hpc' | polled idle hpc' =>
      rw [hpc] at hpc'
      cases hpc'
    | claim hpc' =>
      obtain ⟨rfl, rfl, rfl⟩ := hbusy hpc'
      rw [if_neg (by simp [hinv.not_resuming (by rw [hpc]; exact busy_has ..) (by rw [hpc]; rfl)])]
      exact .inl ⟨_, .claimed, trivial, update_self ..⟩
    | start hpc' hf =>
      obtain ⟨rfl, rfl, rfl⟩ := hbusy hpc'
      exact .inl ⟨_, .ready _, trivial, update_self ..⟩
    | again hpc' hf =>
      obtain ⟨rfl, rfl, rfl⟩ := hbusy hpc'
      exact .inl ⟨_, .ready _, trivial, update_self ..⟩
    | install hpc' =>
      obtain ⟨rfl, rfl, rfl⟩ := hbusy hpc'
      exact .inr ⟨_, o, _, s.ctxCur, hpc, update_self ..⟩
    | spawn closure hpc' | request i bit err hpc' hi hreq | taskEnd v hpc' | setCtx c hpc'
    | yield hpc' hawait hskip | block hpc' | stay hpc' | unlink hpc' hout | finish hpc' hfin
    | finishPolled hpc' hfin =>
      obtain ⟨rfl, rfl, rfl⟩ := hbusy hpc'
      exact hst.elim
  · obtain ⟨q, hq⟩ := hstep.pc_eq hinv
    exact .inl ⟨src, st, hst, by rw [hq, update_of_ne how, hpc]⟩

/-! ### Runs -/

/-- **A run of the pool.** -/
structure Run (workers : Nat) (r : ℕ → State) : Prop where
  start : r 0 = init workers
  trace : Trace Step r

/-- Worker `o` comes back to the top of its loop again and again. -/
def Returns (r : ℕ → State) (o : Nat) : Prop := ∀ n, ∃ m, n ≤ m ∧ Turns (r m) o (r (m + 1))

/-- The job is on the waiter list of `t`. -/
def Parked (s : State) (j t : JobId) : Prop := s.target j = some t ∧ s.done t = false

/-- The fiber of job `j` came back to await `t`, and has not been looked after yet, or the job
is parked. -/
def Awaits (s : State) (j t : JobId) : Prop :=
  Parked s j t ∨ t ≠ j ∧ ∃ w src, s.pc w = .busy j src (.back (.await t))

/-- The fiber of the job is not resumed from `n` up to `m`. -/
def Quiet (r : ℕ → State) (j : JobId) (n m : ℕ) : Prop :=
  ∀ k a, n ≤ k → k < m → ¬Resumes (r k) j a (r (k + 1))

section
variable {workers : Nat} {r : ℕ → State} {n m : ℕ}

theorem Run.reachable (hr : Run workers r) (n : ℕ) : Reachable workers (r n) := by
  induction n with
  | zero =>
    rw [hr.start]
    exact .init
  | succ n ih =>
    rcases hr.trace n with heq | hs
    · rw [heq]
      exact ih
    · exact ih.step hs

theorem Run.inv (hr : Run workers r) (n : ℕ) : Inv (r n).toLinks := (hr.reachable n).inv

theorem Run.grows (hr : Run workers r) (hnm : n ≤ m) : Grows (r n).toLinks (r m).toLinks := by
  refine hr.trace.grows (R := fun s s' : State => Grows s.toLinks s'.toLinks) (fun s => .refl _)
    (fun _ _ _ => .trans) (fun k hs => ?_) hnm
  obtain ⟨w, hs⟩ := hs
  exact hs.grows (hr.inv k)

theorem Run.fifo (hr : Run workers r) (n : ℕ) : Fifo (r n).toLinks := by
  have h₀ : Fifo (makeJob (empty workers) nil true 0).toLinks := fun _ => rfl
  refine (hr.grows (Nat.zero_le n)).fifo ?_
  rw [hr.start]
  exact h₀.push 0

/-- **A queue is drained** by the turns of its owner. -/
theorem Run.popped (hr : Run workers r) (ho : Returns r o) (n : ℕ) :
    ∃ m, n ≤ m ∧ (r n).pushed o <+: (r m).popped o := by
  have hpop : ∀ {a b : ℕ}, a ≤ b → ((r a).popped o).length ≤ ((r b).popped o).length :=
    fun hab => ((hr.grows hab).popped o).length_le
  obtain ⟨m, hnm, hz⟩ := exists_rank_zero
    (fun m => ((r n).pushed o).length - ((r m).popped o).length)
    (fun m => Nat.sub_le_sub_left (hpop (Nat.le_succ m)) _) (fun m => by
      obtain ⟨k, hk, hturn⟩ := ho (max m n)
      refine ⟨k, le_of_max_le_left hk, fun hpos => ?_⟩
      have hlen := ((hr.grows (le_of_max_le_right hk)).pushed o).length_le
      have hlt := hturn.popped_lt (hr.inv k) (hr.fifo k) (fun hnil => by
        rw [hr.fifo k o, hnil, List.append_nil] at hlen
        omega)
      omega) n
  refine ⟨m, hnm, List.prefix_of_prefix_length_le ((hr.grows hnm).pushed o) ?_ (by omega)⟩
  exact ⟨_, (hr.fifo m o).symm⟩

variable (hr : Run workers r) (hroom : ∀ n, (r n).dropped = [])
include hr hroom

/-- **A queued job is taken, or its owner goes on with it.** -/
theorem Run.leaves (ho : Returns r o) (hj : j ∈ (r n).rq o) :
    ∃ k, n ≤ k ∧ (∀ i, n ≤ i → i ≤ k → j ∈ (r i).rq o) ∧
      (Taken (r (k + 1)) j ∨ (r (k + 1)).pc o = .busy j .queue .enter) := by
  obtain ⟨m, hnm, hpre⟩ := hr.popped ho n
  have hend : ¬Rests (r n) (r m) o j := by
    -- what was pushed up to `n` is popped at `m`, and the job is not pushed in between
    rintro ⟨hjm, hown, hp⟩
    obtain ⟨L, place, hpl, -⟩ := hr.inv n
    have hon : (r n).owner j = o := (((hpl.at_place j).queued o).mp hj).2
    rw [pushes, pushes, hown, hon, hr.fifo m o, List.count_append] at hp
    have hle := hpre.sublist.count_le j
    have hpos := List.count_pos_iff.mpr hjm
    omega
  obtain ⟨k, hnk, hkm, hk, hk'⟩ :=
    exists_end (Q := fun i => Rests (r n) (r i) o j) ⟨hj, rfl, rfl⟩ hnm hend
  refine ⟨k, hnk, fun i hni hik => (hk i hni hik).1, ?_⟩
  have hkk := hk k hnk le_rfl
  rcases hr.trace k with heq | ⟨w, hs⟩
  · rw [heq] at hk'
    exact absurd hkk hk'
  · rcases hs.rests (hr.inv k) (hroom _) hkk.1 with hrest | ⟨-, h⟩
    · exact absurd ⟨hrest.1, hrest.2.1.trans hkk.2.1, hrest.2.2.trans hkk.2.2⟩ hk'
    · exact h

/-- What a fiber awaits it is owed until it is resumed. -/
theorem Run.owed (haw : Awaits (r n) j t) (hnm : n ≤ m) (hq : Quiet r j n m) : Owed (r m) t j := by
  induction m, hnm using Nat.le_induction with
  | base =>
    have hb := (hr.reachable n).begun
    rcases haw with ⟨ht, -⟩ | ⟨hne, w, src, hpc⟩
    · exact .parked ht (hb.awaits j t ht)
    · exact .awaits hpc hne (hb.busy w j src _ hpc trivial)
  | succ m hnm ih =>
    have hm := ih fun k a hnk hkm => hq k a hnk (hkm.trans (Nat.lt_succ_self m))
    rcases hr.trace m with heq | ⟨w, hs⟩
    · rw [heq]
      exact hm
    · exact (hm.step (hr.inv m) hs (hroom _)).resolve_right fun h =>
        hq m _ hnm (Nat.lt_succ_self m) h.2

/-- **A fiber goes on with the result of the job it awaits.** -/
theorem Run.value {a : JaclVal} (haw : Awaits (r n) j t) (hnm : n ≤ m) (hq : Quiet r j n m)
    (hres : Resumes (r m) j a (r (m + 1))) : (r m).done t = true ∧ a = (r m).result t := by
  obtain ⟨w, src, saved, hpc, -⟩ := hres
  obtain ⟨-, ⟨hst, -⟩ | ⟨hd, -, hgo⟩⟩ := (hr.owed hroom haw hnm hq).busy (hr.inv m) hpc
  · cases hst
  · exact ⟨hd, hgo⟩

/-- **A parked job is woken once.** -/
theorem Run.woken (hnm : n ≤ m) (hp : Parked (r n) j t) :
    Parked (r m) j t ∧ pushes (r m) j = pushes (r n) j ∨
    ∃ k, n ≤ k ∧ k < m ∧ Parked (r k) j t ∧ pushes (r k) j = pushes (r n) j ∧
      ((r (k + 1)).done t = true ∧ (r (k + 1)).target j = none ∧
          pushes (r (k + 1)) j = pushes (r n) j + 1 ∨
        (r (k + 1)).done t = false ∧ (r (k + 1)).done j = true ∧ (r (k + 1)).cancel j = true) := by
  by_cases hend : Parked (r m) j t ∧ pushes (r m) j = pushes (r n) j
  · exact .inl hend
  · obtain ⟨k, hnk, hkm, hk, hk'⟩ := exists_end
      (Q := fun i => Parked (r i) j t ∧ pushes (r i) j = pushes (r n) j) ⟨hp, rfl⟩ hnm hend
    obtain ⟨hpk, hpu⟩ := hk k hnk le_rfl
    refine .inr ⟨k, hnk, hkm, hpk, hpu, ?_⟩
    rcases hr.trace k with heq | ⟨w, hs⟩
    · rw [heq] at hk'
      exact absurd ⟨hpk, hpu⟩ hk'
    · rcases hs.tracked (hr.inv k) (hroom _) hpk.1 with (⟨ht, hd, hp'⟩ | ⟨hd, ht, -, hp'⟩) | ⟨hdj, hc, hd⟩
      · exact absurd ⟨⟨ht, hd⟩, hp'.trans hpu⟩ hk'
      · exact .inl ⟨hd, ht, by rw [hp', hpu]⟩
      · exact .inr ⟨hd, hdj, hc⟩

end

/-- A state that is reached is reached in a run. -/
theorem Reachable.run {workers : Nat} (h : Reachable workers s) :
    ∃ r n, Run workers r ∧ ∀ m, n ≤ m → r m = s := by
  induction h with
  | init => exact ⟨fun _ => Sched.init workers, 0, ⟨rfl, fun _ => .inl rfl⟩, fun _ _ => rfl⟩
  | step hs hstep ih =>
    obtain ⟨r, n, hr, hrest⟩ := ih
    obtain ⟨r', htrace, h₀, hrest'⟩ := hr.trace.extend hrest hstep
    exact ⟨r', n + 1, ⟨h₀.trans hr.start, htrace⟩, hrest'⟩

end Jacl.Sched
