import Jacl.SchedRuns

/-!
# No job and no wake-up is lost while the queues have room

A ready queue is first in, first out: what was pushed is what was popped and what is queued.
A job that awaits another is on its list until that one is done, and is then pushed once,
with the result as the argument for its fiber; the argument stays with it through the queue
and the suspended list (`Owed`).  All of this as long as no queue is full: `rq_push` drops a
job when 1024 are queued.
-/

namespace Jacl.Sched
open LinkLists Function JaclVal

variable {s s' : State} {i j t : JobId} {w : Nat}

/-! ### Queues -/

/-- **First in, first out.** -/
def Fifo (s : Links) : Prop := ∀ o, s.pushed o = s.popped o ++ s.rq o

theorem Fifo.push {l : Links} (h : Fifo l) (j : JobId) : Fifo (l.push j) := by
  intro o
  have ho := h o
  unfold Links.push
  dsimp only
  split_ifs
  · exact ho
  · by_cases hoj : o = l.owner j
    · subst hoj
      simp [ho]
    · simp [hoj, ho]
  · exact ho

theorem Fifo.pop {l l' : Links} (h : Fifo l) (hp : l.pop w = some (j, l')) : Fifo l' := by
  obtain ⟨rest, hrq, rfl⟩ := pop_cases hp
  intro o
  have ho := h o
  by_cases how : o = w
  · subst how
    simp [ho, hrq]
  · simp [how, ho]

theorem Fifo.pushAll {l : Links} {ws : List JobId} (h : Fifo l) : Fifo (l.pushAll ws) := by
  induction ws generalizing l with
  | nil => exact h
  | cons x ws ih => exact ih (h.push x)

/-- What is pushed and popped stays so. -/
structure Grows (l l' : Links) : Prop where
  fifo : Fifo l → Fifo l'
  pushed : ∀ o, l.pushed o <+: l'.pushed o
  popped : ∀ o, l.popped o <+: l'.popped o
  dropped : l.dropped <+: l'.dropped

theorem Grows.refl (l : Links) : Grows l l :=
  ⟨id, fun _ => List.prefix_rfl, fun _ => List.prefix_rfl, List.prefix_rfl⟩

theorem Grows.trans {l l' l'' : Links} (h : Grows l l') (h' : Grows l' l'') : Grows l l'' :=
  ⟨fun hf => h'.fifo (h.fifo hf), fun o => (h.pushed o).trans (h'.pushed o),
    fun o => (h.popped o).trans (h'.popped o), h.dropped.trans h'.dropped⟩

theorem Grows.of_eq {l l' : Links} (hr : l'.rq = l.rq) (hpu : l'.pushed = l.pushed)
    (hpo : l'.popped = l.popped) (hd : l'.dropped = l.dropped) : Grows l l' :=
  ⟨fun hf o => by rw [hpu, hpo, hr, hf o], fun o => by rw [hpu], fun o => by rw [hpo], by rw [hd]⟩

theorem Grows.push (l : Links) (j : JobId) : Grows l (l.push j) := by
  refine ⟨fun hf => hf.push j, fun o => ?_, fun o => by rw [push_popped], dropped_prefix_push l j⟩
  unfold Links.push
  dsimp only
  split_ifs
  · exact List.prefix_rfl
  · by_cases hoj : o = l.owner j
    · subst hoj
      simp
    · simp [hoj]
  · exact List.prefix_rfl

theorem Grows.pushAll {l : Links} {ws : List JobId} : Grows l (l.pushAll ws) := by
  induction ws generalizing l with
  | nil => exact .refl l
  | cons x ws ih => exact (Grows.push l x).trans ih

theorem Grows.pop {l l' : Links} (hp : l.pop w = some (j, l')) : Grows l l' := by
  have hfifo : Fifo l → Fifo l' := fun hf => hf.pop hp
  obtain ⟨rest, hrq, rfl⟩ := pop_cases hp
  refine ⟨hfifo, fun _ => List.prefix_rfl, fun o => ?_, List.prefix_rfl⟩
  by_cases how : o = w
  · subst how
    simp
  · simp [how]

theorem Settles.grows (h : Settles s j s') : Grows s.toLinks s'.toLinks := by
  cases h with
  | finish v hw =>
    refine Grows.trans ?_ Grows.pushAll
    exact .of_eq rfl rfl rfl rfl
  | cancel hc hw =>
    refine Grows.trans ?_ Grows.pushAll
    exact .of_eq rfl rfl rfl rfl
  | hold hsus => exact .of_eq rfl rfl rfl rfl
  | push => exact .push s.toLinks j
  | park ht hd hne => exact .of_eq rfl rfl rfl rfl

theorem Takes.grows (h : Relation.ReflTransGen (Takes w) s s') : Grows s.toLinks s'.toLinks := by
  induction h with
  | refl => exact .refl s.toLinks
  | tail hsteps htake ih =>
    obtain ⟨j, l, hp, hl, hset, -, -⟩ := htake
    exact ih.trans ((Grows.pop hp).trans hset.grows)

theorem StepBy.grows (hinv : Inv s.toLinks) (hstep : StepBy w s s') :
    Grows s.toLinks s'.toLinks := by
  cases hstep with
  | turn hpc hw hpop =>
    obtain ⟨s₁, hsteps, -, ⟨rfl, heq, -⟩ | ⟨j, l, rfl, hp, rfl, -⟩⟩ := turn_cases hinv hpop
    · refine (Takes.grows hsteps).trans ?_
      rw [heq]
      unfold afterPop
      dsimp only
      split_ifs <;> exact .of_eq rfl rfl rfl rfl
    · refine (Takes.grows hsteps).trans ((Grows.pop hp).trans ?_)
      exact .of_eq rfl rfl rfl rfl
  | claim hpc => split_ifs <;> exact .of_eq rfl rfl rfl rfl
  | spawn closure hpc =>
    refine Grows.trans ?_ (Grows.push _ _)
    exact .of_eq rfl rfl rfl rfl
  | request i bit err hpc hi hreq =>
    obtain ⟨s'', heq, hr, -⟩ := jobRequest_spec hinv bit err
    rw [hreq] at heq
    obtain rfl := Option.some.inj heq
    cases hr with
    | noted => exact .of_eq rfl rfl rfl rfl
    | unhold hh hd ho hc hl hset _ =>
      refine Grows.trans ?_ hset.grows
      exact .of_eq rfl rfl rfl rfl
    | unpark ht hj ho hl hset _ =>
      refine Grows.trans ?_ hset.grows
      exact .of_eq rfl rfl rfl rfl
  | taskEnd v hpc =>
    unfold Sched.taskEnd
    split <;> exact .of_eq rfl rfl rfl rfl
  | finish hpc hfin =>
    obtain ⟨-, -, a, hset, -⟩ := finish_queue_cases hinv hpc hfin
    refine Grows.trans ?_ hset.grows
    exact .of_eq rfl rfl rfl rfl
  | finishPolled hpc hfin =>
    obtain ⟨-, -, a, hset, -⟩ := finish_polled_cases hinv hpc hfin
    refine Grows.trans ?_ hset.grows
    exact .of_eq rfl rfl rfl rfl
  | _ => exact .of_eq rfl rfl rfl rfl

/-! ### Pushes that find room -/

/-- **A push that is not refused** puts the job at the end of its owner's queue. -/
theorem push_room {l : Links} (hin : l.inRq j = false) (hroom : (l.push j).dropped = []) :
    ∀ o, (l.push j).rq o = l.rq o ++ [j].filter (l.owner · = o) ∧
      (l.push j).pushed o = l.pushed o ++ [j].filter (l.owner · = o) := by
  intro o
  unfold Links.push at hroom ⊢
  by_cases hlen : (l.rq (l.owner j)).length < rqCap
  · by_cases ho : o = l.owner j
    · subst ho
      simp [hin, hlen]
    · simp [hin, hlen, ho, Ne.symm ho]
  · simp [hin, hlen] at hroom

theorem push_inRq_of_ne {l : Links} {x : JobId} (hx : x ≠ j) : (l.push j).inRq x = l.inRq x := by
  unfold Links.push
  dsimp only
  split_ifs
  · rfl
  · exact update_of_ne hx ..
  · rfl

/-- **The pushes of `complete_job`**, when none is refused. -/
theorem pushAll_room {l : Links} {ws : List JobId} (hnd : ws.Nodup)
    (hin : ∀ x ∈ ws, l.inRq x = false) (hroom : (l.pushAll ws).dropped = []) :
    ∀ o, (l.pushAll ws).rq o = l.rq o ++ ws.filter (l.owner · = o) ∧
      (l.pushAll ws).pushed o = l.pushed o ++ ws.filter (l.owner · = o) := by
  induction ws generalizing l with
  | nil => intro o; simp [Links.pushAll]
  | cons x ws ih =>
    intro o
    obtain ⟨hx, hnd⟩ := List.nodup_cons.mp hnd
    have hroom₁ : (l.push x).dropped = [] := by
      have := (@Grows.pushAll (l.push x) ws).dropped
      rw [show ((l.push x).pushAll ws).dropped = [] from hroom] at this
      exact List.prefix_nil.mp this
    obtain ⟨hrq, hpu⟩ := push_room (hin x List.mem_cons_self) hroom₁ o
    obtain ⟨hrq', hpu'⟩ := ih (l := l.push x) hnd (fun y hy => by
      rw [push_inRq_of_ne (by rintro rfl; exact hx hy)]
      exact hin y (List.mem_cons_of_mem _ hy)) hroom o
    constructor
    · rw [show (l.pushAll (x :: ws)).rq o = ((l.push x).pushAll ws).rq o from rfl, hrq', hrq,
        push_owner, List.append_assoc, ← List.filter_append]
      rfl
    · rw [show (l.pushAll (x :: ws)).pushed o = ((l.push x).pushAll ws).pushed o from rfl, hpu', hpu,
        push_owner, List.append_assoc, ← List.filter_append]
      rfl

/-! ### The jobs a section is not about -/

/-- A job that has its place, in or between sections. -/
def Sits (s : Links) (j : JobId) : Prop := ∃ L place, Placed s L place ∧ place j ≠ .moving

theorem Inv.sits {l : Links} (h : Inv l) (j : JobId) : Sits l j := by
  obtain ⟨L, place, h, hall⟩ := h
  exact ⟨L, place, h, hall j⟩

theorem Loose.sits {l : Links} (h : Loose l i) (hne : j ≠ i) : Sits l j := by
  obtain ⟨L, place, h, hi, hrest, ht⟩ := h
  exact ⟨L, place, h, hrest j hne⟩

/-- A job that awaits another is on its list, and nowhere else. -/
theorem Sits.awaits {l : Links} (h : Sits l j) (ht : l.target j = some t) :
    t < l.count ∧ j < l.count ∧ l.done t = false ∧ t ≠ j ∧ l.done j = false ∧ l.inRq j = false ∧
      l.held j = false ∧ (∀ o, j ∉ l.rq o) ∧ ∀ w src st, l.pc w ≠ .busy j src st := by
  obtain ⟨L, place, h, hj⟩ := h
  have hat := h.at_place j
  have hp : place j = .listed (.waiters t) := (hat.target hj t).mp ht
  rw [hp] at hat
  obtain ⟨hlt, hd, hne⟩ := hat.live t rfl
  have hheld := hat.held (by simp) (by simp)
  have hdone := hat.done
  have hinrq := hat.inRq
  have hun := hat.unborn
  refine ⟨hlt, by simpa using hun, hd, hne, by simpa using hdone, by simpa using hinrq, by simpa using hheld,
    fun o ho => ?_, fun w src st hpc => ?_⟩
  · simpa using (hat.queued o).mp ho
  · have hhas := busy_has (j := j) src st
    rw [← hpc] at hhas
    rw [hat.runs, hat.polls] at hhas
    simp at hhas

/-- A job that is queued, suspended or with a worker awaits nothing. -/
theorem Sits.target_eq_none {l : Links} (h : Sits l j) (hj : (∃ o, j ∈ l.rq o) ∨ l.held j = true ∨
    ∃ w src st, l.pc w = .busy j src st) : l.target j = none := by
  by_contra hne
  obtain ⟨t, ht⟩ := Option.ne_none_iff_exists'.mp hne
  obtain ⟨-, -, -, -, -, -, hheld, hrq, hpc⟩ := h.awaits ht
  rcases hj with ⟨o, ho⟩ | hh | ⟨w, src, st, hb⟩
  · exact hrq o ho
  · simp [hheld] at hh
  · exact hpc w src st hb

/-- How often a job was pushed to its owner's queue. -/
def pushes (s : State) (j : JobId) : Nat := (s.pushed (s.owner j)).count j

/-- **What a section does to a job it is not about**: it wakes the job if it ends the one that
is awaited, and otherwise leaves it alone. -/
structure Spares (s : State) (i j : JobId) (s' : State) : Prop where
  fiber : s'.fiber j = s.fiber j
  pc : s'.pc = s.pc
  owner : s'.owner = s.owner
  cancel : s'.cancel j = s.cancel j
  held : s'.held j = s.held j
  done : s'.done j = s.done j
  dones : ∀ t, t ≠ i → s'.done t = s.done t
  results : ∀ t, s.done t = true → s'.done t = true ∧ s'.result t = s.result t
  woken : s.target j = some i ∧ s'.done i = true ∧ s'.target j = none ∧
      s'.resumeArg j = s'.result i ∧ pushes s' j = pushes s j + 1 ∧ j ∈ s'.rq (s'.owner j) ∨
    (s.target j = some i → s'.done i = false) ∧ s'.target j = s.target j ∧
      s'.resumeArg j = s.resumeArg j ∧ pushes s' j = pushes s j ∧
      ∀ o, j ∈ s.rq o ↔ j ∈ s'.rq o

theorem Loose.target_eq_none {l : Links} (h : Loose l i) : l.target i = none := by
  obtain ⟨L, place, h, hi, hrest, ht⟩ := h
  exact ht

theorem Loose.inRq_eq_false {l : Links} (h : Loose l i) : l.inRq i = false := by
  obtain ⟨L, place, h, hi, hrest, ht⟩ := h
  have := (h.at_place i).inRq
  simpa [hi] using this

theorem count_filter_owner {ws : List JobId} {o : JobId → Nat} (hnd : ws.Nodup) :
    (ws.filter (o · = o j)).count j = if j ∈ ws then 1 else 0 := by
  rw [List.count_filter (by simp)]
  split_ifs with hj
  · exact List.count_eq_one_of_mem hnd hj
  · exact List.count_eq_zero.mpr hj

/-- **The end of job `i`** with the value `v`, which wakes the waiters `ws`. -/
structure Ends (s : State) (i : JobId) (v : JaclVal) (ws : List JobId) (s' : State) : Prop where
  fiber : s'.fiber = s.fiber
  pc : s'.pc = s.pc
  owner : s'.owner = s.owner
  cancel : s'.cancel = s.cancel
  held : s'.held = s.held
  done : s'.done = update s.done i true
  result : s'.result = update s.result i v
  target : ∀ x, s'.target x = if x ∈ ws then none else s.target x
  resumeArg : ∀ x, s'.resumeArg x = if x ∈ ws then v else s.resumeArg x
  pushes : ∀ x, pushes s' x = pushes s x + if x ∈ ws then 1 else 0
  queued : ∀ x o, x ∈ s'.rq o ↔ x ∈ s.rq o ∨ x ∈ ws ∧ s.owner x = o

theorem Ends.of_completed {v : JaclVal} {ws : List JobId} (hl : Loose s.toLinks i)
    (hw : Waiters s.toLinks i ws) (hlinks : s'.toLinks = (s.toLinks.detach i ws).pushAll ws)
    (hres : s'.result = update s.result i v)
    (harg : s'.resumeArg = fun x => if x ∈ ws then v else s.resumeArg x)
    (hfib : s'.fiber = s.fiber) (hcan : s'.cancel = s.cancel) (hroom : s'.dropped = []) :
    Ends s i v ws s' := by
  have hin : ∀ x ∈ ws, (s.toLinks.detach i ws).inRq x = false := by
    intro x hx
    have ht := (hw.2 x).mp hx
    have hne : x ≠ i := by
      rintro rfl
      rw [hl.target_eq_none] at ht
      cases ht
    obtain ⟨-, -, -, -, -, hin, -⟩ := (hl.sits hne).awaits ht
    exact hin
  have hpush := pushAll_room hw.1 hin (by rw [← hlinks]; exact hroom)
  have howner : s'.owner = s.owner := by
    rw [hlinks]
    exact pushAll_frame Links.owner push_owner ws
  refine ⟨hfib, ?_, howner, hcan, ?_, ?_, hres, fun x => ?_, congrFun harg, fun x => ?_,
    fun x o => ?_⟩
  · rw [hlinks]
    exact pushAll_frame Links.pc push_pc ws
  · rw [hlinks]
    exact pushAll_frame Links.held push_held ws
  · rw [hlinks]
    exact pushAll_frame Links.done push_done ws
  · rw [hlinks]
    exact congrFun (pushAll_frame Links.target push_target ws) x
  · rw [Sched.pushes, howner, hlinks, (hpush _).2, List.count_append]
    exact congrArg (Sched.pushes s x + ·) (count_filter_owner (o := s.owner) hw.1)
  · rw [hlinks, (hpush o).1, List.mem_append, List.mem_filter]
    exact or_congr_right (and_congr_right fun _ => decide_eq_true_iff)

/-- A job that a section ends is ended with its waiters woken. -/
theorem Settles.ends (hset : Settles s i s') (hl : Loose s.toLinks i) (hroom : s'.dropped = [])
    (hd : s'.done i = true) : ∃ v ws, Waiters s.toLinks i ws ∧ Ends s i v ws s' := by
  have hnd := hl.not_done
  have hpush : (s.push i).done i = s.done i := congrFun (push_done ..) i
  cases hset with
  | finish v hw => exact ⟨v, _, hw, .of_completed hl hw rfl rfl rfl rfl rfl hroom⟩
  | cancel hc hw => exact ⟨_, _, hw, .of_completed hl hw rfl rfl rfl rfl rfl hroom⟩
  | hold hsus => simp [suspended, hnd] at hd
  | push => simp [hpush, hnd] at hd
  | park ht hdt hne => simp [parked, hnd] at hd

/-- **What a section makes of its job** when no push is refused: it ends it, or the other jobs
notice nothing but its push. -/
theorem Settles.cases_room (hset : Settles s i s') (hl : Loose s.toLinks i)
    (hroom : s'.dropped = []) : (∃ v ws, Waiters s.toLinks i ws ∧ Ends s i v ws s') ∨
    s' = suspended s i ∨ s' = s.push i ∨ ∃ t, s' = parked s i t ∧ s.done t = false ∧ t ≠ i := by
  cases hset with
  | finish v hw => exact .inl ⟨v, _, hw, .of_completed hl hw rfl rfl rfl rfl rfl hroom⟩
  | cancel hc hw => exact .inl ⟨_, _, hw, .of_completed hl hw rfl rfl rfl rfl rfl hroom⟩
  | hold hsus => exact .inr (.inl rfl)
  | push => exact .inr (.inr (.inl rfl))
  | park ht hd hne => exact .inr (.inr (.inr ⟨_, rfl, hd, hne⟩))

/-- The waiters of a job are other jobs. -/
theorem Waiters.not_mem {ws : List JobId} (hw : Waiters s.toLinks i ws) (hl : Loose s.toLinks i) :
    i ∉ ws := by
  rw [hw.2, hl.target_eq_none]
  simp

/-- **A section spares the jobs it is not about.** -/
theorem Settles.spares (hset : Settles s i s') (hl : Loose s.toLinks i) (hroom : s'.dropped = [])
    (hji : j ≠ i) : Spares s i j s' := by
  rcases hset.cases_room hl hroom with ⟨v, ws, hw, e⟩ | rfl | rfl | ⟨t, rfl, -, -⟩
  · refine ⟨by rw [e.fiber], e.pc, e.owner, by rw [e.cancel], by rw [e.held],
      by rw [e.done, update_of_ne hji], fun t ht => by rw [e.done, update_of_ne ht],
      fun t ht => ?_, ?_⟩
    · have hti : t ≠ i := by
        rintro rfl
        rw [hl.not_done] at ht
        cases ht
      rw [e.done, e.result, update_of_ne hti, update_of_ne hti]
      exact ⟨ht, rfl⟩
    · by_cases hj : j ∈ ws
      · refine .inl ⟨(hw.2 j).mp hj, by rw [e.done, update_self], by rw [e.target, if_pos hj], ?_,
          by rw [e.pushes, if_pos hj], ?_⟩
        · rw [e.resumeArg, e.result, update_self, if_pos hj]
        · rw [e.queued, e.owner]
          exact .inr ⟨hj, rfl⟩
      · refine .inr ⟨fun ht => absurd ((hw.2 j).mpr ht) hj, by rw [e.target, if_neg hj],
          by rw [e.resumeArg, if_neg hj], by rw [e.pushes, if_neg hj, Nat.add_zero], fun o => ?_⟩
        simp [e.queued, hj]
  · exact ⟨rfl, rfl, rfl, rfl, update_of_ne hji .., rfl, fun _ _ => rfl, fun _ ht => ⟨ht, rfl⟩,
      .inr ⟨fun _ => hl.not_done, rfl, rfl, rfl, fun _ => Iff.rfl⟩⟩
  · have hpush := push_room hl.inRq_eq_false hroom
    refine ⟨rfl, push_pc .., push_owner .., rfl, congrFun (push_held ..) j,
      congrFun (push_done ..) j, fun t _ => congrFun (push_done ..) t,
      fun t ht => ⟨(congrFun (push_done ..) t).trans ht, rfl⟩,
      .inr ⟨fun _ => (congrFun (push_done ..) i).trans hl.not_done, congrFun (push_target ..) j, rfl,
        ?_, fun o => ?_⟩⟩
    · rw [pushes, show (s.push i).owner = s.owner from push_owner .., State.push, (hpush _).2,
        List.count_append]
      have hz : ([i].filter (s.owner · = s.owner j)).count j = 0 :=
        List.count_eq_zero.mpr fun hj => hji (by simpa using (List.mem_filter.mp hj).1)
      rw [hz]
      rfl
    · rw [State.push, (hpush o).1, List.mem_append]
      simp [hji]
  · exact ⟨rfl, rfl, rfl, rfl, rfl, rfl, fun _ _ => rfl, fun _ ht => ⟨ht, rfl⟩,
      .inr ⟨fun _ => hl.not_done, update_of_ne hji .., rfl, rfl, fun _ => Iff.rfl⟩⟩

/-! ### A completion wakes its waiters once -/

/-- Since `s₀`, where the job awaited `t`, it still does, or `t` is done and has woken it, by
one push and with the result. -/
def Tracked (s₀ s : State) (t j : JobId) : Prop :=
  s.target j = some t ∧ s.done t = false ∧ pushes s j = pushes s₀ j ∨
  s.done t = true ∧ s.target j = none ∧ s.resumeArg j = s.result t ∧
    pushes s j = pushes s₀ j + 1

theorem Tracked.spares {s₀ : State} (h : Tracked s₀ s t j) (e : Spares s i j s') :
    Tracked s₀ s' t j := by
  rcases h with ⟨ht, hd, hp⟩ | ⟨hd, ht, ha, hp⟩
  · rcases e.woken with ⟨hti, hdi, ht', ha', hp', -⟩ | ⟨hdi, ht', ha', hp', -⟩
    · obtain rfl : t = i := Option.some.inj (ht.symm.trans hti)
      exact .inr ⟨hdi, ht', ha', by rw [hp', hp]⟩
    · refine .inl ⟨ht'.trans ht, ?_, hp'.trans hp⟩
      by_cases hti : t = i
      · subst hti
        exact hdi ht
      · rw [e.dones t hti, hd]
  · obtain ⟨hd', hr'⟩ := e.results t hd
    rcases e.woken with ⟨hti, -⟩ | ⟨hdi, ht', ha', hp', -⟩
    · rw [ht] at hti
      cases hti
    · exact .inr ⟨hd', ht'.trans ht, by rw [ha', hr', ha], hp'.trans hp⟩

/-- What is read of a state to track a job. -/
theorem Tracked.congr {s₀ : State} (h : Tracked s₀ s t j) (ht : s'.target j = s.target j)
    (hd : s'.done t = s.done t) (ha : s'.resumeArg j = s.resumeArg j)
    (hr : s'.result t = s.result t) (hp : pushes s' j = pushes s j) : Tracked s₀ s' t j := by
  rw [Tracked, ht, hd, ha, hr, hp]
  exact h

theorem Tracked.takes {s₀ : State} (h : Tracked s₀ s t j) (hinv : Inv s.toLinks)
    (htake : Takes w s s') (hroom : s'.dropped = []) : Tracked s₀ s' t j := by
  obtain ⟨i, l, hp, hl, hset, hinv', hi⟩ := htake
  obtain ⟨rest, hrq, rfl⟩ := pop_cases hp
  have h₁ : Tracked s₀ { s with
      rq := update s.rq w rest
      inRq := update s.inRq i false
      popped := update s.popped w (s.popped w ++ [i]) } t j := h.congr rfl rfl rfl rfl rfl
  by_cases hji : j = i
  · subst hji
    -- the job itself is taken: it was queued, so it had been woken
    have htn : s.target j = none :=
      (hinv.sits j).target_eq_none (.inl ⟨w, by rw [hrq]; exact List.mem_cons_self⟩)
    rcases h with ⟨ht, -⟩ | ⟨hd, -, ha, hpu⟩
    · rw [htn] at ht
      cases ht
    · rcases hi with ⟨-, hdj⟩ | rfl
      · obtain ⟨v, ws, hw, e⟩ := hset.ends hl hroom hdj
        have hj := hw.not_mem hl
        have htj : t ≠ j := by
          rintro rfl
          have := hl.not_done
          rw [show s.done t = true from hd] at this
          cases this
        refine .inr ⟨?_, ?_, ?_, ?_⟩
        · rw [e.done, update_of_ne htj]
          exact hd
        · rw [e.target, if_neg hj]
          exact htn
        · rw [e.resumeArg, if_neg hj, e.result, update_of_ne htj]
          exact ha
        · rw [e.pushes, if_neg hj]
          exact hpu
      · exact .inr ⟨hd, htn, ha, hpu⟩
  · exact h₁.spares (hset.spares hl hroom hji)

theorem Tracked.takes_all {s₀ : State} (h : Tracked s₀ s t j) (hinv : Inv s.toLinks)
    (hsteps : Relation.ReflTransGen (Takes w) s s') (hroom : s'.dropped = []) :
    Tracked s₀ s' t j := by
  induction hsteps using Relation.ReflTransGen.head_induction_on with
  | refl => exact h
  | head htake hrest ih =>
    have hroom₁ := (Takes.grows hrest).dropped
    rw [hroom] at hroom₁
    exact ih (h.takes hinv htake (List.prefix_nil.mp hroom₁)) htake.inv

theorem afterPop_frame {α : Type} (f : State → α)
    (hf : ∀ s q r, f { s with pc := q, running := r } = f s) (s : State) (w : Nat) (r : Option JobId) :
    f (afterPop s w r) = f s := by
  cases r with
  | some j => exact hf s _ _
  | none =>
    unfold afterPop
    dsimp only
    split_ifs
    · exact hf s s.pc _
    · exact hf s _ s.running

/-- What `jacl_spawn` makes before its section. -/
def made (s : State) (closure : JaclVal) : State :=
  makeJob { poolEnsure s with ownerRr := s.ownerRr + 1 } closure false
    (s.ownerRr % 2 ^ 32 % ((poolEnsure s).nthreads + 1))

/-- The push of a new job spares the others. -/
theorem spawn_spares (hinv : Inv s.toLinks) (hj : j < s.count) (closure : JaclVal)
    (hroom : (spawn s closure).dropped = []) :
    Spares (made s closure) s.count j (spawn s closure) :=
  Settles.spares (s := made s closure) .push (hinv.make _) hroom hj.ne

/-- **A job that awaits another** is tracked through a step, or the step cancels it. -/
theorem StepBy.tracked (hinv : Inv s.toLinks) (hstep : StepBy w s s') (hroom : s'.dropped = [])
    (ht : s.target j = some t) : Tracked s s' t j ∨
      s'.done j = true ∧ s'.cancel j = true ∧ s'.done t = false := by
  obtain ⟨hlt, hltj, hd, hne, hdj, hin, hheld, hrq, hpcj⟩ := (hinv.sits j).awaits ht
  have h : Tracked s s t j := .inl ⟨ht, hd, rfl⟩
  cases hstep with
  | turn hpc hw hpop =>
    left
    obtain ⟨s₁, hsteps, -, ⟨rfl, heq, -⟩ | ⟨i, l, rfl, hp, rfl, -⟩⟩ := turn_cases hinv hpop
    · rw [heq] at hroom ⊢
      have h₁ := h.takes_all hinv hsteps
        ((afterPop_frame (·.dropped) (fun _ _ _ => rfl) s₁ w none).symm.trans hroom)
      unfold afterPop
      dsimp only
      split_ifs <;> exact h₁.congr rfl rfl rfl rfl rfl
    · obtain ⟨rest, -, rfl⟩ := pop_cases hp
      have h₁ := h.takes_all hinv hsteps hroom
      exact h₁.congr rfl rfl rfl rfl rfl
  | claim hpc => split_ifs <;> exact .inl (h.congr rfl rfl rfl rfl rfl)
  | spawn closure hpc =>
    left
    have hmade : Tracked s (made s closure) t j :=
      h.congr (update_of_ne hltj.ne ..) (update_of_ne hlt.ne ..) (update_of_ne hltj.ne ..)
        (update_of_ne hlt.ne ..) (by
          rw [pushes, show (made s closure).owner j = s.owner j from update_of_ne hltj.ne ..]
          rfl)
    have hs := hmade.spares (spawn_spares hinv hltj closure hroom)
    exact hs.congr rfl rfl rfl rfl rfl
  | request i bit err hpc hi hreq =>
    obtain ⟨s'', heq, hr, -⟩ := jobRequest_spec hinv bit err
    rw [hreq] at heq
    obtain rfl := Option.some.inj heq
    cases hr with
    | noted => exact .inl (h.congr rfl rfl rfl rfl rfl)
    | @unhold c u e next head b _ hh hd' ho hc hl hset _ =>
      have hji : j ≠ i := by
        rintro rfl
        rw [hheld] at hh
        cases hh
      left
      refine Tracked.spares ?_ (hset.spares hl hroom hji)
      exact h.congr rfl rfl rfl rfl rfl
    | @unpark t' c u e next head _ ht' hj ho hl hset hdi =>
      by_cases hji : j = i
      · subst hji
        obtain ⟨v, ws, hw, e⟩ := hset.ends hl hroom hdi
        refine .inr ⟨hdi, by rw [e.cancel]; exact hj, ?_⟩
        rw [e.done, update_of_ne hne]
        exact hd
      · left
        refine Tracked.spares ?_ (hset.spares hl hroom hji)
        exact h.congr (update_of_ne hji ..) rfl rfl rfl rfl
  | taskEnd v hpc =>
    unfold Sched.taskEnd
    split <;> exact .inl (h.congr rfl rfl rfl rfl rfl)
  | @finish _ i out hpc hfin =>
    obtain ⟨hl, -, a, hset, -⟩ := finish_queue_cases hinv hpc hfin
    have hji : j ≠ i := by
      rintro rfl
      exact hpcj _ _ _ hpc
    left
    refine Tracked.spares ?_ (hset.spares hl hroom hji)
    exact h.congr rfl rfl (update_of_ne hji ..) rfl rfl
  | @finishPolled _ i prev next out hpc hfin =>
    obtain ⟨hl, -, a, hset, -⟩ := finish_polled_cases hinv hpc hfin
    have hji : j ≠ i := by
      rintro rfl
      exact hpcj _ _ _ hpc
    left
    refine Tracked.spares ?_ (hset.spares hl hroom hji)
    exact h.congr rfl rfl (update_of_ne hji ..) rfl rfl
  | _ => exact .inl (h.congr rfl rfl rfl rfl rfl)

/-! ### The value on its way -/

/-- The stages after the pop of a job whose fiber is to go on with `a`, up to its resume. -/
def Stage.goesOn (a : JaclVal) : Stage → Prop
  | .enter => True
  | .claimed => True
  | .ready b => b = a
  | _ => False

/-- A woken job is queued, suspended, or about to go on. -/
def OnWay (s : State) (j : JobId) (a : JaclVal) : Prop :=
  (∃ o, j ∈ s.rq o) ∨ s.held j = true ∨ ∃ w src st, s.pc w = .busy j src st ∧ st.goesOn a

/-- **A job is owed the result of `t`**: its fiber came back to await `t`, it is parked on `t`,
it is on its way with the result, or it was cancelled. -/
inductive Owed (s : State) (t j : JobId) : Prop
  | awaits {w : Nat} {src : Src} : s.pc w = .busy j src (.back (.await t)) → t ≠ j →
      s.fiber j = true → Owed s t j
  | parked : s.target j = some t → s.fiber j = true → Owed s t j
  | due : s.done t = true → s.resumeArg j = s.result t → s.fiber j = true → s.done j = false →
      OnWay s j (s.result t) → Owed s t j
  | cancelled : s.done j = true → s.cancel j = true → Owed s t j

/-- What is read of a state to say what a job is owed. -/
theorem Owed.congr (h : Owed s t j) (hf : s'.fiber j = s.fiber j)
    (hpc : ∀ w src st, s.pc w = .busy j src st → s'.pc w = .busy j src st)
    (htar : s'.target j = s.target j) (hdt : s'.done t = s.done t) (hr : s'.result t = s.result t)
    (ha : s'.resumeArg j = s.resumeArg j) (hdj : s'.done j = s.done j)
    (hc : s.cancel j = true → s'.cancel j = true) (hheld : s'.held j = s.held j)
    (hrq : ∀ o, j ∈ s.rq o → ∃ o', j ∈ s'.rq o') : Owed s' t j := by
  cases h with
  | awaits hw hne hfib => exact .awaits (hpc _ _ _ hw) hne (hf.trans hfib)
  | parked ht hfib => exact .parked (htar.trans ht) (hf.trans hfib)
  | due hd harg hfib hnd how =>
    refine .due (hdt.trans hd) (by rw [ha, hr, harg]) (hf.trans hfib) (hdj.trans hnd) ?_
    rw [hr]
    rcases how with ⟨o, ho⟩ | hh | ⟨w, src, st, hw, hst⟩
    · exact .inl (hrq o ho)
    · exact .inr (.inl (hheld.trans hh))
    · exact .inr (.inr ⟨w, src, st, hpc _ _ _ hw, hst⟩)
  | cancelled hd hcan => exact .cancelled (hdj.trans hd) (hc hcan)

theorem Owed.spares (h : Owed s t j) (hsit : Sits s.toLinks j) (e : Spares s i j s') :
    Owed s' t j := by
  have hpc : ∀ w src st, s.pc w = .busy j src st → s'.pc w = .busy j src st :=
    fun w src st hw => by rw [e.pc, hw]
  rcases e.woken with ⟨hti, hdi, ht', ha', -, hq⟩ | ⟨hdi, ht', ha', -, hq⟩
  · -- the section ends the job that is awaited
    obtain ⟨-, -, hd, hne, hdj, -, hheld, hrq, hbusy⟩ := hsit.awaits hti
    cases h with
    | awaits hw hne' hfib => exact absurd hw (hbusy _ _ _)
    | parked ht hfib =>
      obtain rfl : t = i := Option.some.inj (ht.symm.trans hti)
      exact .due hdi ha' (e.fiber.trans hfib) (e.done.trans hdj) (.inl ⟨_, hq⟩)
    | due hdt harg hfib hnd how =>
      rcases how with ⟨o, ho⟩ | hh | ⟨w, src, st, hw, hst⟩
      · exact absurd ho (hrq o)
      · rw [hheld] at hh
        cases hh
      · exact absurd hw (hbusy _ _ _)
    | cancelled hd' hcan =>
      rw [hdj] at hd'
      cases hd'
  · cases h with
    | awaits hw hne hfib => exact .awaits (hpc _ _ _ hw) hne (e.fiber.trans hfib)
    | parked ht hfib => exact .parked (ht'.trans ht) (e.fiber.trans hfib)
    | due hdt harg hfib hnd how =>
      obtain ⟨hdt', hr'⟩ := e.results t hdt
      refine .due hdt' (by rw [ha', hr', harg]) (e.fiber.trans hfib) (e.done.trans hnd) ?_
      rw [hr']
      rcases how with ⟨o, ho⟩ | hh | ⟨w, src, st, hw, hst⟩
      · exact .inl ⟨o, (hq o).mp ho⟩
      · exact .inr (.inl (e.held.trans hh))
      · exact .inr (.inr ⟨w, src, st, hpc _ _ _ hw, hst⟩)
    | cancelled hd hcan => exact .cancelled (e.done.trans hd) (e.cancel.trans hcan)

/-- A worker goes on that has nothing to do with the job. -/
theorem Owed.moved {q : Pc} (h : Owed s t j) (he : s'.pc = update s.pc w q)
    (hw : ∀ src st, s.pc w ≠ .busy j src st) (hf : s'.fiber j = s.fiber j)
    (htar : s'.target j = s.target j) (hdt : s'.done t = s.done t) (hr : s'.result t = s.result t)
    (ha : s'.resumeArg j = s.resumeArg j) (hdj : s'.done j = s.done j)
    (hc : s'.cancel = s.cancel) (hheld : s'.held j = s.held j) (hrq : s'.rq = s.rq) :
    Owed s' t j := by
  refine h.congr hf (fun w' src st hw' => ?_) htar hdt hr ha hdj (by rw [hc]; exact id) hheld
    fun o ho => ⟨o, by rw [hrq]; exact ho⟩
  have hne : w' ≠ w := by
    rintro rfl
    exact hw src st hw'
  rw [he, update_of_ne hne, hw']

/-- A job that a worker has is in no queue, and not suspended. -/
theorem Inv.busy_only {src : Src} {st : Stage} (h : Inv s.toLinks) (hpc : s.pc w = .busy j src st) :
    (∀ o, j ∉ s.rq o) ∧ s.held j = false := by
  obtain ⟨L, place, h, -⟩ := h
  have hat := h.at_place j
  have hp : place j = .runs w ∨ place j = .polled w := by
    rw [← hat.runs, ← hat.polls, hpc]
    exact busy_has src st
  have hq := hat.queued
  have hh := hat.held
  rcases hp with hp | hp <;> simp [hp] at hq hh <;> exact ⟨hq, hh⟩

/-- A job that a worker has is owed a result only as it comes back, or goes on with it. -/
theorem Owed.busy {src : Src} {st : Stage} (h : Owed s t j) (hinv : Inv s.toLinks)
    (hpc : s.pc w = .busy j src st) : s.fiber j = true ∧ (st = .back (.await t) ∧ t ≠ j ∨
      s.done t = true ∧ s.resumeArg j = s.result t ∧ st.goesOn (s.result t)) := by
  have hone : ∀ w' src' st', s.pc w' = .busy j src' st' → st' = st := by
    intro w' src' st' hpc'
    obtain ⟨L, place, h, -⟩ := hinv
    obtain rfl : w = w' :=
      h.one_worker (j := j) (by rw [hpc]; exact busy_has ..) (by rw [hpc']; exact busy_has ..)
    rw [hpc] at hpc'
    cases hpc'
    rfl
  have hdj := (hinv.busy hpc).2
  cases h with
  | awaits hw hne hfib => exact ⟨hfib, .inl ⟨(hone _ _ _ hw).symm, hne⟩⟩
  | parked ht hfib =>
    obtain ⟨-, -, -, -, -, -, -, -, hbusy⟩ := (hinv.sits j).awaits ht
    exact absurd hpc (hbusy _ _ _)
  | due hdt harg hfib hnd how =>
    refine ⟨hfib, .inr ⟨hdt, harg, ?_⟩⟩
    rcases how with ⟨o, ho⟩ | hh | ⟨w', src', st', hw, hst⟩
    · exact absurd ho ((hinv.busy_only hpc).1 o)
    · rw [(hinv.busy_only hpc).2] at hh
      cases hh
    · rw [← hone _ _ _ hw]
      exact hst
  | cancelled hd hcan =>
    rw [hdj] at hd
    cases hd

/-- **A section on a job that is on its way with its result** ends it by a cancel, suspends it,
or queues it. -/
theorem Settles.owed (hset : Settles s j s') (hl : Loose s.toLinks j) (hroom : s'.dropped = [])
    (hd : s.done t = true) (ha : s.resumeArg j = s.result t) (hf : s.fiber j = true)
    (hhow : s.cancel j = true ∧ s'.done j = true ∨ s' = suspended s j ∨ s' = s.push j) :
    Owed s' t j := by
  rcases hhow with ⟨hc, hdj⟩ | rfl | rfl
  · obtain ⟨v, ws, hw, e⟩ := hset.ends hl hroom hdj
    exact .cancelled hdj (by rw [e.cancel]; exact hc)
  · exact .due hd ha hf hl.not_done (.inr (.inl (update_self ..)))
  · refine .due ((congrFun (push_done ..) t).trans hd) ha hf
      ((congrFun (push_done ..) j).trans hl.not_done) (.inl ⟨s.owner j, ?_⟩)
    rw [State.push, (push_room hl.inRq_eq_false hroom _).1]
    simp

theorem Owed.takes (h : Owed s t j) (hinv : Inv s.toLinks) (htake : Takes w s s')
    (hroom : s'.dropped = []) : Owed s' t j := by
  obtain ⟨i, l, hp, hl, hset, hinv', hi⟩ := htake
  obtain ⟨rest, hrq, rfl⟩ := pop_cases hp
  by_cases hji : j = i
  · subst hji
    -- the job itself is taken: it was queued with its result
    have hmem : j ∈ s.rq w := by rw [hrq]; exact List.mem_cons_self
    have hdj := (hinv.queued hmem).2
    cases h with
    | awaits hw hne hfib => exact absurd hmem ((hinv.busy_only hw).1 w)
    | parked ht hfib =>
      obtain ⟨-, -, -, -, -, -, -, hno, -⟩ := (hinv.sits j).awaits ht
      exact absurd hmem (hno w)
    | due hdt harg hfib hnd how =>
      exact hset.owed hl hroom hdt harg hfib (hi.imp_right .inl)
    | cancelled hd hcan =>
      rw [hdj] at hd
      cases hd
  · refine Owed.spares ?_ (hl.sits hji) (hset.spares hl hroom hji)
    refine h.congr rfl (fun _ _ _ hw => hw) rfl rfl rfl rfl rfl id rfl fun o ho => ⟨o, ?_⟩
    by_cases how : o = w
    · subst how
      rw [hrq] at ho
      simpa [hji] using ho
    · simpa [how] using ho

theorem Owed.takes_all (h : Owed s t j) (hinv : Inv s.toLinks)
    (hsteps : Relation.ReflTransGen (Takes w) s s') (hroom : s'.dropped = []) : Owed s' t j := by
  induction hsteps using Relation.ReflTransGen.head_induction_on with
  | refl => exact h
  | head htake hrest ih =>
    have hroom₁ := (Takes.grows hrest).dropped
    rw [hroom] at hroom₁
    exact ih (h.takes hinv htake (List.prefix_nil.mp hroom₁)) htake.inv

/-- Jobs that are not made yet have no words. -/
theorem Inv.lt_count (h : Inv s.toLinks) (hj : s.done j = true ∨ s.held j = true) :
    j < s.count := by
  obtain ⟨L, place, h, hall⟩ := h
  have hat := h.at_place j
  by_contra hlt
  have hp := hat.unborn.mp (not_lt.mp hlt)
  have hd := hat.done
  have hh := hat.held
  simp [hp] at hd hh
  simp [hd, hh] at hj

theorem Owed.lt_count (h : Owed s t j) (hinv : Inv s.toLinks) :
    j < s.count ∧ (t < s.count ∨ s.done j = true ∧ s.cancel j = true) := by
  cases h with
  | @awaits w src hw hne hfib =>
    have hs := hinv.sound w
    rw [hw] at hs
    refine ⟨(hinv.busy hw).1, .inl ?_⟩
    cases src <;> exact hs
  | parked ht hfib =>
    obtain ⟨hlt, hltj, -⟩ := (hinv.sits j).awaits ht
    exact ⟨hltj, .inl hlt⟩
  | due hdt harg hfib hnd how =>
    refine ⟨?_, .inl (hinv.lt_count (.inl hdt))⟩
    rcases how with ⟨o, ho⟩ | hh | ⟨w, src, st, hw, hst⟩
    · exact (hinv.queued ho).1
    · exact hinv.lt_count (.inr hh)
    · exact (hinv.busy hw).1
  | cancelled hd hcan => exact ⟨hinv.lt_count (.inl hd), .inr ⟨hd, hcan⟩⟩

/-- The job's fiber is resumed with the argument `a`. -/
def Resumes (s : State) (j : JobId) (a : JaclVal) (s' : State) : Prop :=
  ∃ w src saved, s.pc w = .busy j src (.ready a) ∧ s'.pc w = .busy j src (.slice saved)

/-- The section at the end of the slice in which a job began to await. -/
theorem Owed.finishes {q : Pc} {src : Src} {out : Outcome} (h : Owed s t i) (hinv : Inv s.toLinks)
    (hpc : s.pc w = .busy i src (.back out)) (hfin : Finishes s w q i out s')
    (hroom : s'.dropped = []) : Owed s' t i := by
  obtain ⟨hfib, ⟨hst, hne⟩ | ⟨-, -, hst⟩⟩ := h.busy hinv hpc
  · cases hst
    obtain ⟨hl, -, a, hset, hawait⟩ := hfin
    rcases hawait t rfl hne with ⟨hc, hd⟩ | ⟨hd, rfl⟩ | ⟨hd, ha, rfl⟩
    · obtain ⟨v, ws, hw, e⟩ := hset.ends hl hroom hd
      exact .cancelled hd (by rw [e.cancel]; exact hc)
    · exact .parked (update_self ..) hfib
    · exact hset.owed hl hroom hd ((update_self ..).trans ha) hfib (.inr (.inr rfl))
  · exact hst.elim

/-- The section at the end of another job's slice. -/
theorem Owed.finishes_other {q : Pc} {src : Src} {out : Outcome} (h : Owed s t j)
    (hpc : s.pc w = .busy i src (.back out)) (hji : j ≠ i) (hfin : Finishes s w q i out s')
    (hroom : s'.dropped = []) : Owed s' t j := by
  obtain ⟨hl, -, a, hset, -⟩ := hfin
  have hgo : Owed { goTo s w q with resumeArg := update s.resumeArg i a } t j := by
    refine h.moved (w := w) (q := q) rfl (fun src' st hw => ?_) rfl rfl rfl rfl
      (update_of_ne hji ..) rfl rfl rfl rfl
    rw [hpc] at hw
    cases hw
    exact hji rfl
  exact hgo.spares (hl.sits hji) (hset.spares hl hroom hji)

/-- Another job's worker goes on with it. -/
theorem Owed.stage {src : Src} {st : Stage} {q : Pc} (h : Owed s t j) (hji : j ≠ i)
    (hpc : s.pc w = .busy i src st) : Owed (goTo s w q) t j := by
  refine h.moved (w := w) (q := q) rfl (fun src' st' hw => ?_) rfl rfl rfl rfl rfl rfl rfl rfl rfl
  rw [hpc] at hw
  cases hw
  exact hji rfl

/-- The job's own worker goes on with it, and has its result still to hand over. -/
theorem Owed.due_stage {src : Src} {st u : Stage} (h : Owed s t j) (hinv : Inv s.toLinks)
    (hpc : s.pc w = .busy j src st) (hst : st ≠ .back (.await t))
    (hgo : st.goesOn (s.result t) → s.resumeArg j = s.result t → u.goesOn (s.result t)) :
    Owed (goTo s w (.busy j src u)) t j := by
  obtain ⟨hfib, ⟨rfl, -⟩ | ⟨hd, ha, hold⟩⟩ := h.busy hinv hpc
  · exact absurd rfl hst
  · exact .due hd ha hfib (hinv.busy hpc).2
      (.inr (.inr ⟨w, src, u, update_self .., hgo hold ha⟩))

/-- **What a job is owed it is owed after a turn of its worker's loop.** -/
theorem Owed.turn {r : Option JobId} (h : Owed s t j) (hinv : Inv s.toLinks) (hpc : s.pc w = .top)
    (hpop : popReady (s.count + 1) s w = some (r, s')) (hroom : (afterPop s' w r).dropped = []) :
    Owed (afterPop s' w r) t j := by
  obtain ⟨s₁, hsteps, hinv₁, ⟨rfl, rfl, -⟩ | ⟨i, l, rfl, hp, rfl, -⟩⟩ := turn_cases hinv hpop
  · have h₁ := h.takes_all hinv hsteps
      ((afterPop_frame (·.dropped) (fun _ _ _ => rfl) s' w none).symm.trans hroom)
    unfold afterPop
    dsimp only
    split_ifs
    · exact h₁.congr rfl (fun _ _ _ hw => hw) rfl rfl rfl rfl rfl id rfl fun o ho => ⟨o, ho⟩
    · refine @Owed.moved s' (goTo s' w (.repoll none (s'.blocked w))) _ _ w _ h₁ rfl
        (fun _ _ hw => ?_) rfl rfl rfl rfl rfl rfl rfl rfl rfl
      rw [Takes.pc hsteps, hpc] at hw
      cases hw
  · obtain ⟨rest, hrq, rfl⟩ := pop_cases hp
    have h₁ := h.takes_all hinv hsteps hroom
    have hpc₁ : s₁.pc w = .top := by rw [Takes.pc hsteps, hpc]
    by_cases hji : j = i
    · subst hji
      -- the job is popped: it was queued with its result
      have hmem : j ∈ s₁.rq w := by rw [hrq]; exact List.mem_cons_self
      cases h₁ with
      | awaits hw hne hfib => exact absurd hmem ((hinv₁.busy_only hw).1 w)
      | parked ht hfib =>
        obtain ⟨-, -, -, -, -, -, -, hno, -⟩ := (hinv₁.sits j).awaits ht
        exact absurd hmem (hno w)
      | due hdt harg hfib hnd how =>
        exact .due hdt harg hfib hnd (.inr (.inr ⟨w, .queue, .enter, update_self .., trivial⟩))
      | cancelled hd hcan =>
        rw [(hinv₁.queued hmem).2] at hd
        cases hd
    · refine h₁.congr rfl (fun w' src st hw => ?_) rfl rfl rfl rfl rfl id rfl fun o ho => ⟨o, ?_⟩
      · have hne : w' ≠ w := by
          rintro rfl
          rw [hpc₁] at hw
          cases hw
        exact (update_of_ne hne ..).trans hw
      · by_cases how : o = w
        · subst how
          rw [hrq] at ho
          simpa [afterPop, goTo, hji] using ho
        · simpa [afterPop, goTo, how] using ho

/-- The requests of a job. -/
theorem Owed.requests (h : Owed s t j) (hinv : Inv s.toLinks) (hreq : Requests s i s')
    (hroom : s'.dropped = []) : Owed s' t j := by
  cases hreq with
  | @noted c u e ho hc =>
    refine h.congr rfl (fun _ _ _ hw => hw) rfl rfl rfl rfl rfl (fun hcan => ?_) rfl
      fun o ho => ⟨o, ho⟩
    by_cases hji : j = i
    · subst hji
      exact hc hcan
    · exact (ho j hji).1.trans hcan
  | @unhold c u e next head b _ hh hd ho hc hl hset hhow =>
    by_cases hji : j = i
    · subst hji
      -- the job itself is suspended, with its result
      cases h with
      | awaits hw hne hfib =>
        rw [(hinv.busy_only hw).2] at hh
        cases hh
      | parked ht hfib =>
        obtain ⟨-, -, -, -, -, -, hno, -⟩ := (hinv.sits j).awaits ht
        rw [hno] at hh
        cases hh
      | due hdt harg hfib hnd how => exact hset.owed hl hroom hdt harg hfib (hhow.imp_right .inr)
      | cancelled hd' hcan =>
        rw [hd] at hd'
        cases hd'
    · refine Owed.spares ?_ (hl.sits hji) (hset.spares hl hroom hji)
      exact h.congr rfl (fun _ _ _ hw => hw) rfl rfl rfl rfl rfl
        (fun hcan => (ho j hji).1.trans hcan) (update_of_ne hji ..) fun o ho => ⟨o, ho⟩
  | @unpark t' c u e next head _ ht hc ho hl hset hd =>
    by_cases hji : j = i
    · subst hji
      obtain ⟨v, ws, hw, e⟩ := hset.ends hl hroom hd
      exact .cancelled hd (by rw [e.cancel]; exact hc)
    · refine Owed.spares ?_ (hl.sits hji) (hset.spares hl hroom hji)
      exact h.congr rfl (fun _ _ _ hw => hw) (update_of_ne hji ..) rfl rfl rfl rfl
        (fun hcan => (ho j hji).trans hcan) rfl fun o ho => ⟨o, ho⟩

/-- A new job is none that is owed a result. -/
theorem Owed.spawned (h : Owed s t j) (hinv : Inv s.toLinks) (closure : JaclVal)
    (hroom : (spawn s closure).dropped = []) : Owed (spawn s closure) t j := by
  obtain ⟨hlt, hlt'⟩ := h.lt_count hinv
  have e := spawn_spares hinv hlt closure hroom
  rcases hlt' with hlt' | ⟨hd, hc⟩
  · have hmade : Owed (made s closure) t j :=
      h.congr (update_of_ne hlt.ne ..) (fun _ _ _ hw => hw) (update_of_ne hlt.ne ..)
        (update_of_ne hlt'.ne ..) (update_of_ne hlt'.ne ..) (update_of_ne hlt.ne ..)
        (update_of_ne hlt.ne ..) (fun hcan => (update_of_ne hlt.ne ..).trans hcan)
        (update_of_ne hlt.ne ..) fun o ho => ⟨o, ho⟩
    exact hmade.spares ((hinv.make _).sits hlt.ne) e
  · exact .cancelled ((e.done.trans (update_of_ne hlt.ne ..)).trans hd)
      ((e.cancel.trans (update_of_ne hlt.ne ..)).trans hc)

/-- **What a job is owed it is owed after a step**, unless it is resumed with it. -/
theorem Owed.step (h : Owed s t j) (hinv : Inv s.toLinks) (hstep : StepBy w s s')
    (hroom : s'.dropped = []) : Owed s' t j ∨ s.done t = true ∧ Resumes s j (s.result t) s' := by
  cases hstep with
  | turn hpc hw hpop => exact .inl (h.turn hinv hpc hpop hroom)
  | stop hpc hd =>
    exact .inl (h.moved (w := w) rfl (by simp [hpc]) rfl rfl rfl rfl rfl rfl rfl rfl rfl)
  | @poll prev i hpc =>
    left
    refine h.moved (w := w) rfl (by simp [hpc]) rfl rfl rfl rfl rfl rfl rfl rfl rfl
  | polled idle hpc =>
    exact .inl (h.moved (w := w) rfl (by simp [hpc]) rfl rfl rfl rfl rfl rfl rfl rfl rfl)
  | @claim i src hpc =>
    left
    split_ifs with hres
    · rw [hinv.not_resuming (by rw [hpc]; exact busy_has ..) (by rw [hpc]; rfl)] at hres
      cases hres
    · by_cases hji : j = i
      · subst hji
        have h₁ := h.due_stage hinv hpc (u := .claimed) (by simp) fun _ _ => trivial
        exact h₁.congr rfl (fun _ _ _ hw => hw) rfl rfl rfl rfl rfl id rfl fun o ho => ⟨o, ho⟩
      · exact (h.stage hji hpc (q := .busy i src .claimed)).congr rfl (fun _ _ _ hw => hw) rfl rfl rfl
          rfl rfl id rfl fun o ho => ⟨o, ho⟩
  | @start i src hpc hf =>
    left
    by_cases hji : j = i
    · subst hji
      rw [(h.busy hinv hpc).1] at hf
      cases hf
    · exact (h.stage hji hpc (q := .busy i src (.ready (s.prime i)))).congr (update_of_ne hji ..)
        (fun _ _ _ hw => hw) rfl rfl rfl rfl rfl id rfl fun o ho => ⟨o, ho⟩
  | @again i src hpc hf =>
    left
    by_cases hji : j = i
    · subst hji
      exact h.due_stage hinv hpc (u := .ready (s.resumeArg j)) (by simp) fun _ ha => ha
    · exact h.stage hji hpc
  | @install i src arg hpc =>
    by_cases hji : j = i
    · subst hji
      -- the fiber goes on with its result
      obtain ⟨-, ⟨hst, -⟩ | ⟨hd, -, hgo⟩⟩ := h.busy hinv hpc
      · cases hst
      · obtain rfl : arg = s.result t := hgo
        exact .inr ⟨hd, w, src, s.ctxCur, hpc, update_self ..⟩
    · exact .inl ((h.stage hji hpc (q := .busy i src (.slice s.ctxCur))).congr rfl
        (fun _ _ _ hw => hw) rfl rfl rfl rfl rfl id rfl fun o ho => ⟨o, ho⟩)
  | spawn closure hpc =>
    exact .inl ((h.spawned hinv closure hroom).congr rfl (fun _ _ _ hw => hw) rfl rfl rfl rfl rfl id
      rfl fun o ho => ⟨o, ho⟩)
  | request i bit err hpc hi hreq =>
    obtain ⟨s'', heq, hr, -⟩ := jobRequest_spec hinv bit err
    rw [hreq] at heq
    obtain rfl := Option.some.inj heq
    exact .inl (h.requests hinv hr hroom)
  | @taskEnd i src saved v hpc =>
    left
    unfold taskEnd
    split
    · exact h
    · refine h.congr rfl (fun _ _ _ hw => hw) rfl rfl rfl rfl rfl (fun hcan => ?_) rfl
        fun o ho => ⟨o, ho⟩
      by_cases hjr : j = ‹JobId›
      · subst hjr
        exact update_self ..
      · exact (update_of_ne hjr ..).trans hcan
  | setCtx c hpc =>
    exact .inl (h.congr rfl (fun _ _ _ hw => hw) rfl rfl rfl rfl rfl id rfl fun o ho => ⟨o, ho⟩)
  | @yield i src saved out hpc hawait hskip =>
    left
    by_cases hji : j = i
    · subst hji
      obtain ⟨-, ⟨hst, -⟩ | ⟨-, -, hgo⟩⟩ := h.busy hinv hpc
      · cases hst
      · exact hgo.elim
    · exact (h.stage hji hpc (q := .busy i src (.back out))).congr rfl (fun _ _ _ hw => hw) rfl rfl rfl
        rfl rfl id rfl fun o ho => ⟨o, ho⟩
  | @block i hpc =>
    left
    by_cases hji : j = i
    · subst hji
      obtain ⟨-, ⟨hst, -⟩ | ⟨-, -, hgo⟩⟩ := h.busy hinv hpc
      · cases hst
      · exact hgo.elim
    · exact (h.stage hji hpc (q := .top)).congr rfl (fun _ _ _ hw => hw) rfl rfl rfl rfl rfl id rfl
        fun o ho => ⟨o, ho⟩
  | @stay i prev next hpc =>
    left
    by_cases hji : j = i
    · subst hji
      obtain ⟨-, ⟨hst, -⟩ | ⟨-, -, hgo⟩⟩ := h.busy hinv hpc
      · cases hst
      · exact hgo.elim
    · exact h.stage hji hpc
  | @unlink i prev next out hpc hout =>
    left
    by_cases hji : j = i
    · subst hji
      obtain ⟨hfib, ⟨hst, hne⟩ | ⟨-, -, hgo⟩⟩ := h.busy hinv hpc
      · cases hst
        exact @Owed.awaits _ t j w (.polled prev next) (update_self ..) hne hfib
      · exact hgo.elim
    · exact (h.stage hji hpc (q := .busy i (.polled prev next) (.back out))).congr rfl
        (fun _ _ _ hw => hw) rfl rfl rfl rfl rfl id rfl fun o ho => ⟨o, ho⟩
  | @finish _ i out hpc hfin =>
    left
    have hcases := finish_queue_cases hinv hpc hfin
    by_cases hji : j = i
    · subst hji
      exact h.finishes hinv hpc hcases hroom
    · exact h.finishes_other hpc hji hcases hroom
  | @finishPolled _ i prev next out hpc hfin =>
    left
    have hcases := finish_polled_cases hinv hpc hfin
    by_cases hji : j = i
    · subst hji
      exact h.finishes hinv hpc hcases hroom
    · exact h.finishes_other hpc hji hcases hroom

end Jacl.Sched
