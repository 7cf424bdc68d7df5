import Jacl.SchedSections

/-!
# Every job has one place in every run

The sections that finish a slice, answer a request and queue a new job are put together
from what becomes of a job on its way (`Settles`), and the steps of the workers from these.
So every state of a run keeps every job in its place (`Reachable.inv`).  A job that is not
done, and that no full queue refused, is then with one worker, in its owner's queue, or on
one list, and in one of these places only (`one_place`).
-/

namespace Jacl.Sched
open LinkLists Function JaclVal

variable {s s' : State} {i j t : JobId} {w : Nat} {v : JaclVal}

/-! ### The sections of a slice's end, a request, and a spawn -/

/-- **What `finish_job_outcome` does** with a job on its way; `a` is the argument it keeps for
the job's fiber. -/
theorem finishJobOutcome_spec {out : Outcome} (h : Loose s.toLinks j) (hh : s.held j = false)
    (hs : (Pc.busy j .queue (.back out)).Sound s.count) (hp : out ≠ .parked) :
    ∃ a s', finishJobOutcome s j out = some s' ∧
      Settles { s with resumeArg := update s.resumeArg j a } j s' ∧ Inv s'.toLinks ∧
      ∀ t, out = .await t → t ≠ j → s.cancel j = true ∧ s'.done j = true ∨
        s.done t = false ∧ s' = parked s j t ∨
        s.done t = true ∧ a = s.result t ∧
          s' = { s with resumeArg := update s.resumeArg j a }.push j := by
  have hself : { s with resumeArg := update s.resumeArg j (s.resumeArg j) } = s := by
    rw [update_eq_self]
  cases out with
  | returned v =>
    obtain ⟨s', heq, hset, hinv⟩ := h.settles_finish v
    exact ⟨s.resumeArg j, s', heq, by rwa [hself], hinv, by simp⟩
  | prime => exact ⟨nil, _, rfl, .push, h.push hh, by simp⟩
  | ctl =>
    rcases jobCtlTake_cases (s := { s with resumeArg := update s.resumeArg j nil }) h with
      ⟨s', heq, hset, hinv, -⟩ | ⟨heq, -, -⟩
    · exact ⟨nil, s', by simp [finishJobOutcome, heq], hset, hinv, by simp⟩
    · exact ⟨nil, _, by simp [finishJobOutcome, heq], .push, h.push hh, by simp⟩
  | await t =>
    unfold finishJobOutcome
    cases hc : s.cancel j
    · by_cases ht : t = j ∨ s.done t = true
      · refine ⟨if t = j then nil else s.result t, _, by simp [ht], .push, h.push hh,
          fun t' ht' hne => ?_⟩
        cases ht'
        rcases ht with ht | ht
        · exact absurd ht hne
        · exact .inr (.inr ⟨ht, if_neg hne, rfl⟩)
      · have hd : s.done t = false := by simpa using fun hd => ht (.inr hd)
        have hne : t ≠ j := fun hne => ht (.inl hne)
        refine ⟨s.resumeArg j, parked s j t, by simp [ht, parked], ?_, h.park hh hs hd hne,
          fun t' ht' hne' => ?_⟩
        · rw [hself]
          exact .park hs hd hne
        · cases ht'
          exact .inr (.inl ⟨hd, rfl⟩)
    · obtain ⟨s', heq, hset, hinv, hd⟩ := h.settles_cancel hc
      exact ⟨s.resumeArg j, s', by simp [heq], by rwa [hself], hinv, fun _ _ _ => .inl ⟨rfl, hd⟩⟩
  | skip => exact hs.elim
  | parked => exact absurd rfl hp

/-- **What `job_request` does** to a job: it notes the request, or takes the job from where it
is suspended, or from the list of the job it awaits. -/
inductive Requests (s : State) (j : JobId) : State → Prop
  | noted {c u : JobId → Bool} {e : JaclVal} : (∀ x, x ≠ j → c x = s.cancel x ∧ u x = s.suspend x) →
      (s.cancel j = true → c j = true) →
      Requests s j { s with cancel := c, suspend := u, cancelledErr := e }
  | unhold {c u : JobId → Bool} {e : JaclVal} {next : JobId → Option JobId} {head : Option JobId}
      {b : Bool} {s' : State} : s.held j = true → s.done j = false →
      (∀ x, x ≠ j → c x = s.cancel x ∧ u x = s.suspend x) → (s.cancel j = true → c j = true) →
      Loose { s.toLinks with suspended := head, next := next, held := update s.held j b } j →
      Settles { s with
        suspended := head, next := next, held := update s.held j b
        cancel := c, suspend := u, cancelledErr := e } j s' →
      (c j = true ∧ s'.done j = true ∨ s' = State.push { s with
        suspended := head, next := next, held := update s.held j b
        cancel := c, suspend := u, cancelledErr := e } j) → Requests s j s'
  | unpark {t : JobId} {c u : JobId → Bool} {e : JaclVal} {next : JobId → Option JobId}
      {head : Option JobId} {s' : State} : s.target j = some t → c j = true →
      (∀ x, x ≠ j → c x = s.cancel x) →
      Loose { s.toLinks with
        waiters := update s.waiters t head, next := next, target := update s.target j none } j →
      Settles { s with
        waiters := update s.waiters t head, next := next, target := update s.target j none
        cancel := c, suspend := u, cancelledErr := e } j s' → s'.done j = true → Requests s j s'

theorem unlinkSuspended_eq {link : Option JobId}
    (h : findLink s.next j (s.count + 1) none s.suspended = some (some link)) :
    unlinkSuspended s j = some { s with
      suspended := (cut s.suspended s.next link (s.next j) j).1
      next := (cut s.suspended s.next link (s.next j) j).2 } := by
  simp [unlinkSuspended, h]

theorem unlinkWaiter_eq {link : Option JobId}
    (h : findLink s.next j (s.count + 1) none (s.waiters t) = some (some link)) :
    unlinkWaiter s t j = some { s with
      waiters := update s.waiters t (cut (s.waiters t) s.next link (s.next j) j).1
      next := (cut (s.waiters t) s.next link (s.next j) j).2 } := by
  simp [unlinkWaiter, h]

theorem requestLive_spec (h : Inv s.toLinks) (hd : s.done j = false) (bit : Request) :
    ∃ s', requestLive s j bit = some s' ∧ Requests s j s' ∧ Inv s'.toLinks := by
  cases bit with
  | suspend =>
    exact ⟨_, rfl, .noted (e := s.cancelledErr) (c := s.cancel)
      (fun x hx => ⟨rfl, update_of_ne hx _ _⟩) id, h⟩
  | cancel =>
    cases hh : s.held j
    · cases ht : s.target j with
      | none =>
        exact ⟨_, by simp [requestLive, hh, ht], .noted (e := s.cancelledErr) (u := s.suspend)
          (fun x hx => ⟨update_of_ne hx _ _, rfl⟩) fun _ => update_self _ _ _, h⟩
      | some t =>
        obtain ⟨link, hfind, hloose⟩ := h.unpark ht
        obtain ⟨s', heq, hset, hinv, hj⟩ := Loose.settles_cancel (s := { s with
          waiters := update s.waiters t (cut (s.waiters t) s.next link (s.next j) j).1
          next := (cut (s.waiters t) s.next link (s.next j) j).2
          target := update s.target j none
          cancel := update s.cancel j true }) hloose (update_self ..)
        refine ⟨s', ?_, .unpark (e := s.cancelledErr) (u := s.suspend) ht (update_self ..)
          (fun x hx => update_of_ne hx _ _) hloose hset hj, hinv⟩
        simp only [requestLive, hh, ht, Bool.false_eq_true, if_false]
        rw [unlinkWaiter_eq (s := { s with cancel := update s.cancel j true }) hfind]
        exact heq
    · obtain ⟨link, hfind, hloose⟩ := h.unhold hh hd
      have hheld : update s.held j true = s.held := by rw [← hh, update_eq_self]
      obtain ⟨s', heq, hset, hinv, hj⟩ := Loose.settles_cancel (s := { s with
        suspended := (cut s.suspended s.next link (s.next j) j).1
        next := (cut s.suspended s.next link (s.next j) j).2
        held := update s.held j true
        cancel := update s.cancel j true }) (hloose.write true) (update_self ..)
      refine ⟨s', ?_, .unhold (e := s.cancelledErr) (u := s.suspend) hh hd
        (fun x hx => ⟨update_of_ne hx _ _, rfl⟩) (fun _ => update_self ..) (hloose.write true) hset
        (.inl ⟨update_self .., hj⟩), hinv⟩
      simp only [requestLive, hh, if_true]
      rw [unlinkSuspended_eq (s := { s with cancel := update s.cancel j true }) hfind]
      simp only [hheld] at heq
      exact heq
  | resume =>
    cases hh : s.held j
    · have heq : requestLive s j .resume = some { s with suspend := update s.suspend j false } := by
        simp only [requestLive, hh, Bool.false_eq_true, if_false]
        rw [← hh, update_eq_self]
      exact ⟨_, heq, .noted (e := s.cancelledErr) (c := s.cancel)
        (fun x hx => ⟨rfl, update_of_ne hx _ _⟩) id, h⟩
    · obtain ⟨link, hfind, hloose⟩ := h.unhold hh hd
      refine ⟨_, ?_, .unhold (e := s.cancelledErr) (c := s.cancel)
        (u := update s.suspend j false) (b := false) hh hd
        (fun x hx => ⟨rfl, update_of_ne hx _ _⟩) id (hloose.write false) .push
        (.inr rfl),
        (hloose.write false).push (update_self ..)⟩
      simp only [requestLive, hh, if_true]
      rw [unlinkSuspended_eq (s := { s with
        suspend := update s.suspend j false, held := update s.held j false }) hfind]
      rfl

/-- The error a cancelled job ends with is noted, too. -/
theorem Requests.of_err {e : JaclVal} (h : Requests { s with cancelledErr := e } j s') :
    Requests s j s' := by
  cases h with
  | noted ho hc => exact .noted ho hc
  | unhold hh hd ho hc hl hset hj => exact .unhold hh hd ho hc hl hset hj
  | unpark ht hj ho hl hset hd => exact .unpark ht hj ho hl hset hd

theorem jobRequest_spec (h : Inv s.toLinks) (bit : Request) (err : JaclVal) :
    ∃ s', jobRequest s j bit err = some s' ∧ Requests s j s' ∧ Inv s'.toLinks := by
  unfold jobRequest
  dsimp only
  by_cases hlive : (s.done j || s.isRoot j) = true
  · rw [if_pos hlive]
    exact ⟨_, rfl, .noted (fun _ _ => ⟨rfl, rfl⟩) id, h⟩
  · rw [if_neg hlive]
    obtain ⟨s', heq, hreq, hinv⟩ := requestLive_spec (s := { s with
      cancelledErr := if bit = .cancel ∧ s.cancelledErr.type = 0x00 then err else s.cancelledErr })
      (j := j) h (by simp at hlive; exact hlive.1) bit
    exact ⟨s', heq, hreq.of_err, hinv⟩

/-- A new job is queued. -/
theorem Inv.spawn (h : Inv s.toLinks) (closure : JaclVal) : Inv (spawn s closure).toLinks :=
  (h.make _).push (update_self ..)

/-! ### Runs -/

@[simp] theorem settles_pc (h : Settles s j s') : s'.pc = s.pc := by
  cases h with
  | finish v hw => exact completed_pc
  | cancel hc hw => exact completed_pc
  | hold hsus => rfl
  | push => exact push_pc _ _
  | park ht hd hne => rfl

theorem Takes.inv (h : Takes w s s') : Inv s'.toLinks := by
  obtain ⟨j, l, hp, hl, hset, hinv, hj⟩ := h
  exact hinv

theorem pop_pc {l l' : Links} (h : l.pop w = some (j, l')) : l'.pc = l.pc := by
  obtain ⟨rest, -, rfl⟩ := pop_cases h
  rfl

theorem Takes.pc (h : Relation.ReflTransGen (Takes w) s s') : s'.pc = s.pc := by
  induction h with
  | refl => rfl
  | tail hsteps htake ih =>
    obtain ⟨j, l, hp, hl, hset, hinv, hj⟩ := htake
    rw [← ih, settles_pc hset]
    exact pop_pc hp

/-- **What the section at the top of `worker_loop` does.** -/
theorem turn_cases {r : Option JobId} (h : Inv s.toLinks)
    (hp : popReady (s.count + 1) s w = some (r, s')) :
    ∃ s₁, Relation.ReflTransGen (Takes w) s s₁ ∧ Inv s₁.toLinks ∧
      (r = none ∧ s' = s₁ ∧ s₁.rq w = [] ∨
        ∃ j l, r = some j ∧ s₁.toLinks.pop w = some (j, l) ∧ s' = { s₁ with toLinks := l } ∧
          s₁.cancel j = false ∧ s₁.suspend j = false) := by
  obtain ⟨r', s₁, s'', heq, hsteps, hinv, hrest⟩ := popReady_spec (w := w) h (takeable_card_le _)
  rw [hp] at heq
  obtain ⟨rfl, rfl⟩ := Prod.mk.inj (Option.some.inj heq)
  exact ⟨s₁, hsteps, hinv, hrest⟩

theorem inv_turn {r : Option JobId} (h : Inv s.toLinks) (hpc : s.pc w = .top)
    (hp : popReady (s.count + 1) s w = some (r, s')) : Inv (afterPop s' w r).toLinks := by
  obtain ⟨s₁, hsteps, hinv, ⟨rfl, rfl, -⟩ | ⟨j, l, rfl, hpop, rfl, -⟩⟩ := turn_cases h hp
  · have hpc' : s'.pc w = .top := by rw [Takes.pc hsteps, hpc]
    unfold afterPop
    dsimp only
    split_ifs with hb
    · exact hinv
    · refine hinv.shift (q := .repoll none (s'.blocked w)) (by rw [hpc']; rfl) (by rw [hpc']; rfl)
        (by rw [hpc']; rfl) trivial fun l hl _ => ⟨[], l, rfl, rfl, hl.head⟩
  · have hpc' : l.pc w = .top := by rw [pop_pc hpop, Takes.pc hsteps, hpc]
    obtain ⟨hloose, hh, ho⟩ := hinv.pop hpop
    exact hloose.enter hh ho hpc'

/-- The stages of a slice. -/
theorem busy_eq (src : Src) (st st' : Stage) : (Pc.busy j src st).runs = (Pc.busy j src st').runs ∧
    (Pc.busy j src st).polls = (Pc.busy j src st').polls ∧
    (Pc.busy j src st).Sweeps = (Pc.busy j src st').Sweeps := by
  cases src <;> exact ⟨rfl, rfl, rfl⟩

theorem busy_has (src : Src) (st : Stage) :
    (Pc.busy j src st).runs = some j ∨ (Pc.busy j src st).polls = some j := by
  cases src
  · exact .inl rfl
  · exact .inr rfl
  · exact .inl rfl

/-- A worker goes on with its job's slice. -/
theorem Inv.stage {src : Src} {st u : Stage} (h : Inv s.toLinks) (hpc : s.pc w = .busy j src st)
    (hc : (Pc.busy j src u).claims = (Pc.busy j src st).claims)
    (hs : (Pc.busy j src u).Sound s.count) : Inv (goTo s w (.busy j src u)).toLinks := by
  obtain ⟨hr, hp, hsw⟩ := busy_eq (j := j) src u st
  exact h.shift (by rw [hpc, hr]) (by rw [hpc, hp]) (by rw [hpc, hc]) hs
    fun l _ hl => by rwa [hsw, ← hpc]

theorem Inv.sound (h : Inv s.toLinks) (w : Nat) : (s.pc w).Sound s.count := by
  obtain ⟨L, place, h, -⟩ := h
  exact h.sound w

/-- **What the section at the end of a slice does**: the worker goes on to `q`. -/
structure Finishes (s : State) (w : Nat) (q : Pc) (j : JobId) (out : Outcome) (s' : State) :
    Prop where
  loose : Loose (goTo s w q).toLinks j
  inv : Inv s'.toLinks
  settles : ∃ a, Settles { goTo s w q with resumeArg := update s.resumeArg j a } j s' ∧
    ∀ t, out = .await t → t ≠ j → s.cancel j = true ∧ s'.done j = true ∨
      s.done t = false ∧ s' = parked (goTo s w q) j t ∨
      s.done t = true ∧ a = s.result t ∧
        s' = { goTo s w q with resumeArg := update s.resumeArg j a }.push j

theorem finish_cases {q : Pc} {src : Src} {out : Outcome} (h : Inv s.toLinks)
    (hpc : s.pc w = .busy j src (.back out)) (hsrc : (s.pc w).runs = some j)
    (hr : q.runs = none) (hp : q.polls = none) (hqc : q.claims = none) (hqs : q.Sound s.count)
    (hsw : ∀ l, Chain s.next (s.blocked w) l → (s.pc w).Sweeps l → q.Sweeps l)
    (hfin : finishJobOutcome (goTo s w q) j out = some s') : Finishes s w q j out s' := by
  obtain ⟨hloose, hh, -⟩ := h.leave hsrc hr hp (by rw [hqc, hpc]; rfl) hqs hsw
  have hs : (Pc.busy j .queue (.back out)).Sound s.count := by
    have := h.sound w
    rw [hpc] at this
    cases out <;> exact this
  have hout : out ≠ .parked := by
    rintro rfl
    cases hfin
  obtain ⟨a, s'', heq, hset, hinv, hawait⟩ :=
    finishJobOutcome_spec (s := goTo s w q) hloose hh hs hout
  rw [hfin] at heq
  obtain rfl := Option.some.inj heq
  exact ⟨hloose, hinv, a, hset, hawait⟩

theorem afterJob_spec (s : State) (w : Nat) (out : Outcome) : (afterJob s w out).runs = none ∧
    (afterJob s w out).polls = none ∧ (afterJob s w out).claims = none ∧
    (afterJob s w out).Sound s.count ∧
    ∀ l, Chain s.next (s.blocked w) l → (afterJob s w out).Sweeps l := by
  unfold afterJob
  split
  · split_ifs
    · exact ⟨rfl, rfl, rfl, trivial, fun _ _ => trivial⟩
    · exact ⟨rfl, rfl, rfl, trivial, fun l hl => ⟨[], l, rfl, rfl, hl.head⟩⟩
  · exact ⟨rfl, rfl, rfl, trivial, fun _ _ => trivial⟩

/-- The worker of a job from the queue. -/
theorem finish_queue_cases {out : Outcome} (h : Inv s.toLinks)
    (hpc : s.pc w = .busy j .queue (.back out))
    (hfin : finishJobOutcome (goTo s w (afterJob s w out)) j out = some s') :
    Finishes s w (afterJob s w out) j out s' := by
  obtain ⟨hr, hp, hc, hs, hsw⟩ := afterJob_spec s w out
  exact finish_cases h hpc (by rw [hpc]; rfl) hr hp hc hs (fun l hl _ => hsw l hl) hfin

/-- The worker of a job that was polled. -/
theorem finish_polled_cases {prev next : Option JobId} {out : Outcome} (h : Inv s.toLinks)
    (hpc : s.pc w = .busy j (.polled prev next) (.back out))
    (hfin : finishJobOutcome (goTo s w (.repoll prev next)) j out = some s') :
    Finishes s w (.repoll prev next) j out s' :=
  finish_cases h hpc (by rw [hpc]; rfl) (q := .repoll prev next) rfl rfl rfl trivial
    (fun l _ hl => by rw [hpc] at hl; exact hl) hfin

theorem inv_empty (workers : Nat) : Inv (empty workers).toLinks := by
  refine ⟨fun _ => [], fun _ => .unborn, ⟨fun j => ?_, fun l => ?_, fun o => ?_, fun j => ?_,
    fun w => trivial, fun w => trivial⟩, by simp⟩
  · rw [at_iff]
    simp [empty, Pc.runs, Pc.polls]
  · cases l <;> rfl
  · exact List.nodup_nil
  · simp [empty, Pc.claims]

theorem inv_init (workers : Nat) : Inv (init workers).toLinks :=
  ((inv_empty workers).make 0).push rfl

/-- **A step keeps every job in its place.** -/
theorem StepBy.inv (hstep : StepBy w s s') (h : Inv s.toLinks) : Inv s'.toLinks := by
  cases hstep with
  | turn hpc hw hpop => exact inv_turn h hpc hpop
  | stop hpc hd =>
    exact h.shift (q := .stopped) (by rw [hpc]; rfl) (by rw [hpc]; rfl) (by rw [hpc]; rfl) trivial
      fun _ _ _ => trivial
  | poll hpc => exact h.poll hpc
  | polled idle hpc =>
    exact h.shift (q := .top) (by rw [hpc]; rfl) (by rw [hpc]; rfl) (by rw [hpc]; rfl) trivial
      fun _ _ _ => trivial
  | @claim j src hpc =>
    have hres : s.resuming j = false :=
      h.not_resuming (w := w) (by rw [hpc]; exact busy_has ..) (by rw [hpc]; rfl)
    rw [if_neg (by simp [hres])]
    obtain ⟨hr, hp, hsw⟩ := busy_eq (j := j) src .claimed .enter
    exact h.claim (by rw [hpc, hr]) (by rw [hpc, hp]) rfl (by rw [hpc]; rfl) trivial
      fun l hl => by rwa [hsw, ← hpc]
  | start hpc hf => exact h.stage (u := .ready _) hpc rfl trivial
  | again hpc hf => exact h.stage hpc rfl trivial
  | install hpc => exact h.stage (u := .slice _) hpc rfl trivial
  | spawn closure hpc => exact h.spawn closure
  | request i bit err hpc hi hreq =>
    obtain ⟨s'', heq, -, hinv⟩ := jobRequest_spec h bit err
    rw [hreq] at heq
    rwa [Option.some.inj heq]
  | taskEnd v hpc =>
    unfold Sched.taskEnd
    split <;> exact h
  | setCtx c hpc => exact h
  | @yield j src saved out hpc hawait hskip =>
    obtain ⟨hr, hp, hsw⟩ := busy_eq (j := j) src (.back out) (.slice saved)
    refine h.release (by rw [hpc, hr]) (by rw [hpc, hp]) rfl (by rw [hpc]; rfl) ?_
      fun l hl => by rwa [hsw, ← hpc]
    cases out with
    | await t => exact hawait t rfl
    | skip => exact absurd rfl hskip
    | _ => trivial
  | block hpc =>
    obtain ⟨hloose, hh, ho⟩ := h.leave (q := .top) (by rw [hpc]; rfl) rfl rfl (by rw [hpc]; rfl)
      trivial fun _ _ _ => trivial
    exact hloose.block hh ho (update_self ..)
  | stay hpc => exact h.stay hpc
  | unlink hpc hout => exact h.unpoll hpc
  | finish hpc hfin => exact (finish_queue_cases h hpc hfin).inv
  | finishPolled hpc hfin => exact (finish_polled_cases h hpc hfin).inv

theorem Reachable.inv {workers : Nat} (h : Reachable workers s) : Inv s.toLinks := by
  induction h with
  | init => exact inv_init workers
  | step hs hstep ih =>
    obtain ⟨w, hstep⟩ := hstep
    exact hstep.inv ih

/-- A job that a worker has is not done. -/
theorem Inv.busy {src : Src} {st : Stage} (h : Inv s.toLinks) (hpc : s.pc w = .busy j src st) :
    j < s.count ∧ s.done j = false := by
  obtain ⟨L, place, h, -⟩ := h
  have hat := h.at_place j
  have hp : place j = .runs w ∨ place j = .polled w := by
    rw [← hat.runs, ← hat.polls, hpc]
    exact busy_has src st
  have hun := hat.unborn
  have hdone := hat.done
  rcases hp with hp | hp <;> simpa [hp] using And.intro hun hdone

/-- A job that is queued is not done. -/
theorem Inv.queued (h : Inv s.toLinks) (hj : j ∈ s.rq w) : j < s.count ∧ s.done j = false := by
  obtain ⟨L, place, h, -⟩ := h
  have hat := h.at_place j
  obtain ⟨hp, -⟩ := (hat.queued w).mp hj
  have hun := hat.unborn
  have hdone := hat.done
  simpa [hp] using And.intro hun hdone

/-! ### One place -/

/-- With one worker, a new job goes to its queue. -/
theorem spawn_links (hw : s.poolWorkers = 1) (hn : s.nthreads = 0) (closure : JaclVal) :
    (spawn s closure).toLinks = (makeJob (poolEnsure s) closure false 0).toLinks.push s.count := by
  have ho : s.ownerRr % 2 ^ 32 % ((poolEnsure s).nthreads + 1) = 0 := by
    simp [poolEnsure, hw, hn, Nat.mod_one]
  simp only [spawn, State.push]
  rw [show (poolEnsure s).ownerRr = s.ownerRr from rfl, ho]
  rfl

/-- The first job runs, and has made `m` more. -/
structure Burst (m : Nat) (s : State) : Prop where
  pc : s.pc 0 = .busy 0 .queue (.slice nil)
  count : s.count = m + 1
  rq : s.rq 0 = List.range' 1 m
  popped : s.popped 0 = [0]
  dropped : s.dropped = []
  single : s.poolWorkers = 1 ∧ s.nthreads = 0
  free : s.free = (List.range 63).reverse
  root : s.fiber 0 = true ∧ s.done 0 = false
  fresh : ∀ j, 0 < j → s.fiber j = false ∧ s.cancel j = false ∧ s.suspend j = false

theorem burst_zero : ∃ s, Reachable 1 s ∧ Burst 0 s := by
  have h₀ : Reachable 1 (init 1) := .init
  have h₁ := h₀.step ⟨0, .turn rfl (by decide) rfl⟩
  have h₂ := h₁.step ⟨0, .claim rfl⟩
  have h₃ := h₂.step ⟨0, .start rfl rfl⟩
  have h₄ := h₃.step ⟨0, .install rfl⟩
  refine ⟨_, h₄, rfl, rfl, rfl, rfl, rfl, ⟨rfl, rfl⟩, by decide, ⟨rfl, rfl⟩, fun j hj => ?_⟩
  have hj0 : j ≠ 0 := hj.ne'
  refine ⟨?_, ?_, ?_⟩
  · change update (update (fun _ => false) 0 false) 0 true j = false
    simp [hj0]
  · change update (fun _ => false) 0 false j = false
    simp [hj0]
  · change update (fun _ => false) 0 false j = false
    simp [hj0]

/-- **A job may make as many jobs as its queue takes** before it gives way. -/
theorem burst (m : Nat) (hm : m ≤ rqCap) : ∃ s, Reachable 1 s ∧ Burst m s := by
  induction m with
  | zero => exact burst_zero
  | succ m ih =>
    obtain ⟨s, hs, h⟩ := ih (Nat.le_of_succ_le hm)
    refine ⟨_, hs.step ⟨0, .spawn nil h.pc⟩, ?_⟩
    have hlinks := spawn_links h.single.1 h.single.2 nil
    have hlen : (s.rq 0).length < rqCap := by
      rw [h.rq, List.length_range']
      exact hm
    have hpush : (spawn s nil).rq 0 = s.rq 0 ++ [s.count] ∧ (spawn s nil).dropped = [] := by
      rw [show (spawn s nil).rq = (spawn s nil).toLinks.rq from rfl,
        show (spawn s nil).dropped = (spawn s nil).toLinks.dropped from rfl, hlinks, Links.push]
      simp [makeJob, poolEnsure, hlen, h.dropped]
    refine ⟨?_, ?_, ?_, ?_, hpush.2, ⟨h.single.1, ?_⟩, h.free, ?_, fun j hj => ?_⟩
    · exact (congrFun (push_pc ..) 0).trans h.pc
    · exact (push_count ..).trans (congrArg (· + 1) h.count)
    · rw [show ({ spawn s nil with own := update s.own s.count (s.own 0) } : State).rq 0 =
        (spawn s nil).rq 0 from rfl, hpush.1, h.rq, h.count, List.range'_1_concat, Nat.add_comm 1 m]
    · exact (congrFun (push_popped ..) 0).trans h.popped
    · change (poolEnsure s).nthreads = 0
      simp [poolEnsure, h.single]
    · refine ⟨?_, ?_⟩
      · change update s.fiber s.count false 0 = true
        simp [h.count, h.root]
      · rw [show ({ spawn s nil with own := update s.own s.count (s.own 0) } : State).done =
          update s.done s.count false from push_done ..]
        simp [h.count, h.root]
    · have hf := h.fresh j hj
      refine ⟨?_, ?_, ?_⟩
      · change update s.fiber s.count false j = false
        by_cases hjc : j = s.count <;> simp [hjc, hf]
      · change update s.cancel s.count false j = false
        by_cases hjc : j = s.count <;> simp [hjc, hf]
      · change update s.suspend s.count false j = false
        by_cases hjc : j = s.count <;> simp [hjc, hf]

end Jacl.Sched
