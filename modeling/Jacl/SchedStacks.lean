import Jacl.ResourcePools
import Jacl.SchedRuns

/-!
# The stacks of the tasks

A job takes a stack from the pool when its fiber is made, and the pool gets it back in the
section that ends the job.  So the stacks are a pool whose owners are the jobs that are
started and not done (`StacksInv`).  Only when all 64 are taken does it go wrong:
`grab_task_stack` then returns 0, and the fiber is made with it.
-/

namespace Jacl.Sched
open LinkLists ResourcePools Function JaclVal

variable {s s' : State} {i j : JobId} {k w : Nat}

/-- The job has a fiber and is not done. -/
def Started (s : State) (j : JobId) : Prop := j < s.count ∧ s.fiber j = true ∧ s.done j = false

instance (s : State) (j : JobId) : Decidable (Started s j) := inferInstanceAs (Decidable (_ ∧ _))

/-- The stack a job has as long as it is started and not done. -/
def stackOf (s : State) (j : JobId) : Option Nat := if Started s j then s.stack j else none

/-- **Each stack is free or has one owner**, and every owner has one. -/
structure StacksInv (s : State) : Prop where
  pooled : Pooled {k | k < taskStacks} s.free (stackOf s)
  /-- Before the first grab nobody has a stack. -/
  fresh : s.freeStacks = none → ∀ j, s.stack j = none
  unstarted : ∀ j, s.fiber j = false → s.stack j = none
  owner : ∀ j, Started s j → ∃ k, s.stack j = some k

/-- What is started stays started, with its stack, until it is done; what is done stays done. -/
structure Keeps (s s' : State) : Prop where
  done : ∀ j, j < s.count → s.done j = true → s'.done j = true
  count : s.count ≤ s'.count
  started : ∀ j, Started s j → s'.done j = true ∨ Started s' j ∧ s'.stack j = s.stack j

theorem Keeps.trans {s'' : State} (h : Keeps s s') (h' : Keeps s' s'') : Keeps s s'' where
  done j hj hd := h'.done j (hj.trans_le h.count) (h.done j hj hd)
  count := h.count.trans h'.count
  started j hj := by
    rcases h.started j hj with hd | ⟨hs, hk⟩
    · exact .inl (h'.done j (hj.1.trans_le h.count) hd)
    · rw [← hk]
      exact h'.started j hs

/-- What matters of a state to its stacks. -/
theorem StacksInv.congr {u : State} (h : StacksInv s) (hc : u.count = s.count) (hd : u.done = s.done)
    (hf : u.fiber = s.fiber) (hs : u.stack = s.stack) (hfree : u.freeStacks = s.freeStacks) :
    StacksInv u ∧ Keeps s u := by
  have hst : ∀ j, Started u j ↔ Started s j := fun j => by rw [Started, Started, hc, hf, hd]
  refine ⟨⟨?_, by rw [hfree, hs]; exact h.fresh, by rw [hf, hs]; exact h.unstarted,
    fun j hj => ?_⟩, ⟨fun j _ => by rw [hd]; exact id, hc.ge, fun j hj => .inr ⟨(hst j).mpr hj, by rw [hs]⟩⟩⟩
  · have hso : stackOf u = stackOf s := by
      funext j
      simp only [stackOf, hst, hs]
    rw [State.free, hfree, hso]
    exact h.pooled
  · rw [hs]
    exact h.owner j ((hst j).mp hj)

/-- **The end of a job gives its stack back.** -/
theorem StacksInv.finish (h : StacksInv s) (hlt : j < s.count) (hd : s.done j = false)
    (hc : s'.count = s.count) (hd' : s'.done = update s.done j true) (hf : s'.fiber = s.fiber)
    (hs : ∀ x, x ≠ j → s'.stack x = s.stack x)
    (hj : s.fiber j = false → s'.stack j = none)
    (hnone : s.stack j = none → s'.stack j = none)
    (hfree : s'.freeStacks = (releaseStack s (s.stack j)).freeStacks) :
    StacksInv s' ∧ Keeps s s' := by
  have hst : ∀ x, Started s' x ↔ Started s x ∧ x ≠ j := by
    intro x
    rw [Started, Started, hc, hf, hd']
    by_cases hx : x = j <;> simp [hx]
  have hso : stackOf s' = update (stackOf s) j none := by
    funext x
    by_cases hx : x = j
    · simp [stackOf, hst, hx]
    · simp [stackOf, hst, hx, hs x hx]
  refine ⟨⟨?_, fun hfr x => ?_, fun x hx => ?_, fun x hx => ?_⟩, ⟨fun x _ hx => ?_, hc.ge, fun x hx => ?_⟩⟩
  · rw [hso]
    cases hk : s.stack j with
    | none =>
      have hnot : stackOf s j = none := by
        rw [stackOf]
        split_ifs <;> simp [hk]
      rw [← hnot, update_eq_self, State.free, hfree, hk]
      exact h.pooled
    | some k =>
      have hfib : s.fiber j = true := by
        by_contra hfib
        rw [h.unstarted j (by simpa using hfib)] at hk
        cases hk
      have howns : stackOf s j = some k := by
        rw [stackOf, if_pos ⟨hlt, hfib, hd⟩, hk]
      obtain ⟨f, hfs⟩ : ∃ f, s.freeStacks = some f := by
        cases hfs : s.freeStacks with
        | none => simp [h.fresh hfs j] at hk
        | some f => exact ⟨f, rfl⟩
      have hfr : s'.free = k :: s.free := by
        rw [State.free, hfree, hk]
        simp [releaseStack, State.free, hfs]
      rw [hfr]
      exact h.pooled.give howns
  · have hfs : s.freeStacks = none := by
      rw [hfree] at hfr
      cases hk : s.stack j <;> simpa [releaseStack, hk] using hfr
    by_cases hx : x = j
    · rw [hx]
      exact hnone (h.fresh hfs j)
    · rw [hs x hx]
      exact h.fresh hfs x
  · rw [hf] at hx
    by_cases hxj : x = j
    · rw [hxj]
      exact hj (hxj ▸ hx)
    · rw [hs x hxj]
      exact h.unstarted x hx
  · obtain ⟨hx, hxj⟩ := (hst x).mp hx
    rw [hs x hxj]
    exact h.owner x hx
  · rw [hd']
    by_cases hxj : x = j <;> simp [hxj, hx]
  · by_cases hxj : x = j
    · left
      simp [hd', hxj]
    · exact .inr ⟨(hst x).mpr ⟨hx, hxj⟩, hs x hxj⟩

theorem StacksInv.settles (h : StacksInv s) (hl : Loose s.toLinks j) (hset : Settles s j s') :
    StacksInv s' ∧ Keeps s s' := by
  cases hset with
  | finish v hw =>
    exact h.finish hl.lt_count hl.not_done completed_count completed_done rfl (fun _ _ => rfl)
      (h.unstarted j) id rfl
  | cancel hc hw =>
    exact h.finish hl.lt_count hl.not_done completed_count completed_done rfl
      (fun x hx => update_of_ne hx ..) (fun _ => update_self ..) (fun _ => update_self ..) rfl
  | hold hsus => exact h.congr rfl rfl rfl rfl rfl
  | push => exact h.congr (push_count ..) (push_done ..) rfl rfl rfl
  | park ht hd hne => exact h.congr rfl rfl rfl rfl rfl

theorem Keeps.refl (s : State) : Keeps s s := ⟨fun _ _ => id, le_rfl, fun _ hj => .inr ⟨hj, rfl⟩⟩

theorem StacksInv.pop {l : Links} (h : StacksInv s) (hp : s.toLinks.pop w = some (j, l)) :
    StacksInv { s with toLinks := l } ∧ Keeps s { s with toLinks := l } := by
  obtain ⟨rest, -, rfl⟩ := pop_cases hp
  exact h.congr rfl rfl rfl rfl rfl

theorem StacksInv.takes (h : StacksInv s) (ht : Relation.ReflTransGen (Takes w) s s') :
    StacksInv s' ∧ Keeps s s' := by
  induction ht with
  | refl => exact ⟨h, .refl s⟩
  | tail hsteps htake ih =>
    obtain ⟨j, l, hp, hl, hset, -, -⟩ := htake
    obtain ⟨h₁, hk₁⟩ := ih
    obtain ⟨h₂, hk₂⟩ := h₁.pop hp
    obtain ⟨h₃, hk₃⟩ := h₂.settles hl hset
    exact ⟨h₃, hk₁.trans (hk₂.trans hk₃)⟩

/-- Worker `w` is about to make the job's fiber. -/
def Starts (s : State) (w : Nat) (j : JobId) : Prop :=
  (∃ src, s.pc w = .busy j src .claimed) ∧ s.fiber j = false

/-- A fiber is made with a stack that is free. -/
theorem StacksInv.start (h : StacksInv s) (hlt : j < s.count) (hd : s.done j = false)
    (hf : s.fiber j = false) (hfree : s.free ≠ []) (hc : s'.count = s.count)
    (hd' : s'.done = s.done) (hf' : s'.fiber = update s.fiber j true)
    (hs : s'.stack = update s.stack j (grabStack s).1)
    (hfs : s'.freeStacks = (grabStack s).2.freeStacks) : StacksInv s' ∧ Keeps s s' := by
  obtain ⟨k, rest, hk⟩ := List.exists_cons_of_ne_nil hfree
  have hgrab : (grabStack s).1 = some k := by rw [grabStack, hk]; rfl
  have hst : ∀ x, Started s' x ↔ Started s x ∨ x = j := by
    intro x
    rw [Started, Started, hc, hd', hf']
    by_cases hx : x = j
    · simp [hx, hlt, hd]
    · simp [hx]
  have hnot : ¬Started s j := fun hj => by simp [hj.2.1] at hf
  have hso : stackOf s' = update (stackOf s) j (some k) := by
    funext x
    by_cases hx : x = j
    · simp [stackOf, hst, hx, hs, hgrab]
    · simp [stackOf, hst, hx, hs]
  have hfree' : s'.free = rest := by
    rw [State.free, hfs, grabStack, hk]
    rfl
  refine ⟨⟨?_, fun hfr => ?_, fun x hx => ?_, fun x hx => ?_⟩,
    ⟨fun x _ hx => by rwa [hd'], hc.ge, fun x hx => ?_⟩⟩
  · rw [hso, hfree']
    refine Pooled.take (hk ▸ h.pooled) ?_
    rw [stackOf, if_neg hnot]
  · rw [hfs] at hfr
    cases hfr
  · rw [hf'] at hx
    have hxj : x ≠ j := by
      rintro rfl
      simp at hx
    rw [update_of_ne hxj] at hx
    rw [hs, update_of_ne hxj]
    exact h.unstarted x hx
  · rw [hs]
    by_cases hxj : x = j
    · subst hxj
      exact ⟨k, by rw [update_self, hgrab]⟩
    · rw [update_of_ne hxj]
      exact h.owner x (((hst x).mp hx).resolve_right hxj)
  · have hxj : x ≠ j := by
      rintro rfl
      exact hnot hx
    exact .inr ⟨(hst x).mpr (.inl hx), by rw [hs, update_of_ne hxj]⟩

/-- A new job is not started. -/
theorem StacksInv.make (h : StacksInv s) (hc : s'.count = s.count + 1)
    (hd : s'.done = update s.done s.count false) (hf : s'.fiber = update s.fiber s.count false)
    (hs : s'.stack = update s.stack s.count none) (hfs : s'.freeStacks = s.freeStacks) :
    StacksInv s' ∧ Keeps s s' := by
  have hst : ∀ x, Started s' x ↔ Started s x := by
    intro x
    rw [Started, Started, hc, hd, hf]
    by_cases hx : x = s.count
    · simp [hx]
    · simp only [update_of_ne hx]
      rw [Nat.lt_succ_iff_lt_or_eq, or_iff_left hx]
  have hsx : ∀ x, Started s x → s'.stack x = s.stack x := fun x hx => by
    rw [hs, update_of_ne hx.1.ne]
  have hso : stackOf s' = stackOf s := by
    funext x
    simp only [stackOf, hst]
    split_ifs with hx
    · exact hsx x hx
    · rfl
  refine ⟨⟨?_, fun hfr x => ?_, fun x hx => ?_, fun x hx => ?_⟩,
    ⟨fun x hlt hx => ?_, by omega, fun x hx => .inr ⟨(hst x).mpr hx, hsx x hx⟩⟩⟩
  · rw [hso, State.free, hfs]
    exact h.pooled
  · rw [hs]
    by_cases hx : x = s.count
    · simp [hx]
    · rw [update_of_ne hx]
      exact h.fresh (hfs ▸ hfr) x
  · rw [hs]
    by_cases hxc : x = s.count
    · simp [hxc]
    · rw [hf, update_of_ne hxc] at hx
      rw [update_of_ne hxc]
      exact h.unstarted x hx
  · rw [hsx x ((hst x).mp hx)]
    exact h.owner x ((hst x).mp hx)
  · rw [hd, update_of_ne hlt.ne]
    exact hx

/-- **A step keeps the stacks apart** unless it makes a fiber when no stack is free. -/
theorem StacksInv.step (h : StacksInv s) (hinv : Inv s.toLinks) (hstep : StepBy w s s')
    (hfree : ∀ j, Starts s w j → s.free ≠ []) : StacksInv s' ∧ Keeps s s' := by
  cases hstep with
  | turn hpc hw hpop =>
    obtain ⟨s₁, hsteps, -, ⟨rfl, heq, -⟩ | ⟨j, l, rfl, hp, rfl, -⟩⟩ := turn_cases hinv hpop
    · obtain ⟨h₁, hk₁⟩ := h.takes hsteps
      rw [heq]
      unfold afterPop
      dsimp only
      split_ifs
      · obtain ⟨h₂, hk₂⟩ := h₁.congr (u := { s₁ with running := update s₁.running w none }) rfl rfl
          rfl rfl rfl
        exact ⟨h₂, hk₁.trans hk₂⟩
      · obtain ⟨h₂, hk₂⟩ := h₁.congr (u := goTo s₁ w (.repoll none (s₁.blocked w))) rfl rfl rfl rfl
          rfl
        exact ⟨h₂, hk₁.trans hk₂⟩
    · obtain ⟨h₁, hk₁⟩ := h.takes hsteps
      obtain ⟨h₂, hk₂⟩ := h₁.pop hp
      obtain ⟨h₃, hk₃⟩ := h₂.congr (u := afterPop { s₁ with toLinks := l } w (some j)) rfl rfl rfl rfl
        rfl
      exact ⟨h₃, hk₁.trans (hk₂.trans hk₃)⟩
  | @claim j src hpc => split_ifs <;> exact h.congr rfl rfl rfl rfl rfl
  | start hpc hf =>
    obtain ⟨hlt, hd⟩ := hinv.busy hpc
    exact h.start hlt hd hf (hfree _ ⟨⟨_, hpc⟩, hf⟩) rfl rfl rfl rfl rfl
  | spawn closure hpc => exact h.make (push_count ..) (push_done ..) rfl rfl rfl
  | request i bit err hpc hi hreq =>
    obtain ⟨s'', heq, hr, -⟩ := jobRequest_spec hinv bit err
    rw [hreq] at heq
    obtain rfl := Option.some.inj heq
    cases hr with
    | noted => exact h.congr rfl rfl rfl rfl rfl
    | @unhold c u e next head b _ hh hd ho hc hl hset _ =>
      obtain ⟨h₁, hk₁⟩ := h.congr (u := { s with
        suspended := head, next := next, held := update s.held i b
        cancel := c, suspend := u, cancelledErr := e }) rfl rfl rfl rfl rfl
      obtain ⟨h₂, hk₂⟩ := h₁.settles hl hset
      exact ⟨h₂, hk₁.trans hk₂⟩
    | @unpark t c u e next head _ ht hj ho hl hset _ =>
      obtain ⟨h₁, hk₁⟩ := h.congr (u := { s with
        waiters := update s.waiters t head, next := next, target := update s.target i none
        cancel := c, suspend := u, cancelledErr := e }) rfl rfl rfl rfl rfl
      obtain ⟨h₂, hk₂⟩ := h₁.settles hl hset
      exact ⟨h₂, hk₁.trans hk₂⟩
  | taskEnd v hpc =>
    unfold Sched.taskEnd
    split <;> exact h.congr rfl rfl rfl rfl rfl
  | @finish _ j out hpc hfin =>
    obtain ⟨hl, -, a, hset, -⟩ := finish_queue_cases hinv hpc hfin
    obtain ⟨h₁, hk₁⟩ := h.congr (u := { goTo s w (afterJob s w out) with
      resumeArg := update s.resumeArg j a }) rfl rfl rfl rfl rfl
    obtain ⟨h₂, hk₂⟩ := h₁.settles hl hset
    exact ⟨h₂, hk₁.trans hk₂⟩
  | @finishPolled _ j prev next out hpc hfin =>
    obtain ⟨hl, -, a, hset, -⟩ := finish_polled_cases hinv hpc hfin
    obtain ⟨h₁, hk₁⟩ := h.congr (u := { goTo s w (.repoll prev next) with
      resumeArg := update s.resumeArg j a }) rfl rfl rfl rfl rfl
    obtain ⟨h₂, hk₂⟩ := h₁.settles hl hset
    exact ⟨h₂, hk₁.trans hk₂⟩
  | _ => exact h.congr rfl rfl rfl rfl rfl

theorem stacksInv_init (workers : Nat) : StacksInv (init workers) := by
  have hnot : ∀ j, ¬Started (init workers) j := fun j hj => by
    have hf : (init workers).fiber j = update (fun _ => false) 0 false j := rfl
    have := hj.2.1
    rw [hf] at this
    by_cases hj0 : j = 0 <;> simp [hj0] at this
  refine ⟨⟨?_, fun k => ?_, fun a b k ha => ?_, fun a k ha => ?_⟩, fun _ j => ?_, fun j _ => ?_,
    fun j hj => absurd hj (hnot j)⟩
  · exact List.nodup_reverse.mpr List.nodup_range
  · simp [State.free, init, empty, makeJob, State.push, stackOf]
  · rw [stackOf, if_neg (hnot a)] at ha
    cases ha
  · rw [stackOf, if_neg (hnot a)] at ha
    cases ha
  · exact congrFun (update_eq_self 0 fun _ => none) j
  · exact congrFun (update_eq_self 0 fun _ => none) j

/-- **A run in which no fiber is made while every stack is taken.** -/
inductive Stacked (workers : Nat) : State → Prop
  | init : Stacked workers (init workers)
  | step {s s' : State} {w : Nat} : Stacked workers s → StepBy w s s' →
      (∀ j, Starts s w j → s.free ≠ []) → Stacked workers s'

theorem Stacked.reachable {workers : Nat} (h : Stacked workers s) : Reachable workers s := by
  induction h with
  | init => exact .init
  | step hs hstep hfree ih => exact ih.step ⟨_, hstep⟩

theorem Stacked.inv {workers : Nat} (h : Stacked workers s) : StacksInv s := by
  induction h with
  | init => exact stacksInv_init workers
  | step hs hstep hfree ih => exact (ih.step hs.reachable.inv hstep hfree).1

/-- The first `n` of 65 jobs are in a wait, and the worker is at the top of its loop. -/
structure Waiting (n : Nat) (s : State) : Prop where
  pc : s.pc 0 = .top
  count : s.count = 65
  rq : s.rq 0 = List.range' n (65 - n)
  free : s.free = (List.range (64 - n)).reverse
  started : ∀ j, j < n → Started s j
  fresh : ∀ j, 0 < n → n ≤ j → s.fiber j = false ∧ s.cancel j = false ∧ s.suspend j = false
  stack : 64 < n → s.stack 64 = none

/-- A step that is not about stacks, ends and requests. -/
structure Same (s s' : State) : Prop where
  count : s'.count = s.count
  done : s'.done = s.done
  fiber : s'.fiber = s.fiber
  stack : s'.stack = s.stack
  free : s'.free = s.free
  cancel : s'.cancel = s.cancel
  suspend : s'.suspend = s.suspend

/-- A worker takes and claims the next job of its queue. -/
theorem run_claim {rest : List JobId} (h : Reachable 1 s) (hpc : s.pc 0 = .top)
    (hrq : s.rq 0 = j :: rest) (hc : s.cancel j = false) (hs : s.suspend j = false) :
    ∃ s', Reachable 1 s' ∧ s'.pc 0 = .busy j .queue .claimed ∧ s'.rq 0 = rest ∧ Same s s' := by
  have hpop : popReady (s.count + 1) s 0 = some (some j, { s with
      rq := update s.rq 0 rest
      inRq := update s.inRq j false
      popped := update s.popped 0 (s.popped 0 ++ [j]) }) := by
    simp [popReady, Links.pop, hrq, jobCtlTake, hc, hs]
  have h₁ := h.step ⟨0, .turn hpc (Nat.zero_le _) hpop⟩
  have hres := h₁.inv.not_resuming (w := 0) (j := j) (.inl rfl) rfl
  have h₂ := h₁.step ⟨0, .claim rfl⟩
  rw [if_neg (by rw [hres]; simp)] at h₂
  exact ⟨_, h₂, rfl, (update_self 0 rest s.rq :), rfl, rfl, rfl, rfl, rfl, rfl, rfl⟩

/-- A job in a slice comes back in a VM wait. -/
theorem run_wait {saved : JaclVal} (h : Reachable 1 s) (hpc : s.pc 0 = .busy j .queue (.slice saved)) :
    ∃ s', Reachable 1 s' ∧ s'.pc 0 = .top ∧ s'.rq = s.rq ∧ Same s s' := by
  have h₁ := h.step ⟨0, @StepBy.yield 0 _ j .queue _ .parked hpc (by simp) (by simp)⟩
  have h₂ := h₁.step ⟨0, .block rfl⟩
  exact ⟨_, h₂, rfl, rfl, rfl, rfl, rfl, rfl, rfl, rfl, rfl⟩

/-- A worker starts the next job of its queue, which then waits in the VM. -/
theorem run_next {rest : List JobId} (h : Reachable 1 s) (hpc : s.pc 0 = .top)
    (hrq : s.rq 0 = j :: rest) (hc : s.cancel j = false) (hs : s.suspend j = false)
    (hf : s.fiber j = false) : ∃ s', Reachable 1 s' ∧ s'.pc 0 = .top ∧ s'.rq 0 = rest ∧
      s'.count = s.count ∧ s'.done = s.done ∧ s'.fiber = update s.fiber j true ∧
      s'.stack = update s.stack j s.free.head? ∧ s'.free = s.free.tail ∧ s'.cancel = s.cancel ∧
      s'.suspend = s.suspend := by
  obtain ⟨s₁, h₁, hpc₁, hrq₁, e₁⟩ := run_claim h hpc hrq hc hs
  obtain ⟨s₂, h₂, hpc₂, hrq₂, hc₂, hd₂, hf₂, hs₂, hfr₂, hca₂, hsu₂⟩ : ∃ s₂, Reachable 1 s₂ ∧
      (∃ saved, s₂.pc 0 = .busy j .queue (.slice saved)) ∧ s₂.rq = s₁.rq ∧ s₂.count = s₁.count ∧
      s₂.done = s₁.done ∧ s₂.fiber = update s₁.fiber j true ∧
      s₂.stack = update s₁.stack j s₁.free.head? ∧ s₂.free = s₁.free.tail ∧
      s₂.cancel = s₁.cancel ∧ s₂.suspend = s₁.suspend := by
    have h₂ := (h₁.step ⟨0, .start hpc₁ (by rw [e₁.fiber, hf])⟩).step ⟨0, .install rfl⟩
    exact ⟨_, h₂, ⟨_, rfl⟩, rfl, rfl, rfl, rfl, rfl, rfl, rfl, rfl⟩
  obtain ⟨saved, hpc₂⟩ := hpc₂
  obtain ⟨s₃, h₃, hpc₃, hrq₃, e₃⟩ := run_wait h₂ hpc₂
  refine ⟨s₃, h₃, hpc₃, by rw [hrq₃, hrq₂, hrq₁], by rw [e₃.count, hc₂, e₁.count],
    by rw [e₃.done, hd₂, e₁.done], by rw [e₃.fiber, hf₂, e₁.fiber],
    by rw [e₃.stack, hs₂, e₁.stack, e₁.free], by rw [e₃.free, hfr₂, e₁.free],
    by rw [e₃.cancel, hca₂, e₁.cancel], by rw [e₃.suspend, hsu₂, e₁.suspend]⟩

theorem waiting (n : Nat) (h1 : 1 ≤ n) (hn : n ≤ 65) : ∃ s, Reachable 1 s ∧ Waiting n s := by
  induction n, h1 using Nat.le_induction with
  | base =>
    obtain ⟨s, hs, h⟩ := burst 64 (by decide)
    obtain ⟨s', hs', hpc, hrq, e⟩ := run_wait hs h.pc
    refine ⟨s', hs', hpc, e.count.trans h.count, by rw [hrq]; exact h.rq, e.free.trans h.free,
      fun j hj => ?_, fun j _ hj => ?_, by omega⟩
    · obtain rfl : j = 0 := by omega
      refine ⟨by rw [e.count, h.count]; decide, ?_, ?_⟩
      · rw [e.fiber, h.root.1]
      · rw [e.done, h.root.2]
    · rw [e.fiber, e.cancel, e.suspend]
      exact h.fresh j hj
  | succ n h1 ih =>
    obtain ⟨s, hs, h⟩ := ih (by omega)
    have hrq : s.rq 0 = n :: List.range' (n + 1) (65 - (n + 1)) := by
      rw [h.rq, show 65 - n = 65 - (n + 1) + 1 by omega, List.range'_succ]
    obtain ⟨hf, hc, hsus⟩ := h.fresh n h1 le_rfl
    obtain ⟨s', hs', hpc, hrq', hcount, hdone, hfib, hstack, hfree, hcan, hsu⟩ :=
      run_next hs h.pc hrq hc hsus hf
    refine ⟨s', hs', hpc, hcount.trans h.count, hrq', ?_, fun j hj => ?_, fun j _ hj => ?_,
      fun hn' => ?_⟩
    · rw [hfree, h.free, show 64 - (n + 1) = 64 - n - 1 by omega]
      cases 64 - n <;> simp [List.range_succ]
    · rw [Started, hcount, hfib, hdone]
      rcases Nat.lt_succ_iff_lt_or_eq.mp hj with hj | rfl
      · rw [update_of_ne hj.ne]
        exact h.started j hj
      · obtain ⟨hlt, hd⟩ : j < s.count ∧ s.done j = false :=
          hs.inv.queued (by rw [hrq]; exact List.mem_cons_self)
        exact ⟨hlt, update_self .., hd⟩
    · rw [hfib, hcan, hsu, update_of_ne (Nat.ne_of_gt hj)]
      exact h.fresh j h1 (Nat.le_of_succ_le hj)
    · obtain rfl : n = 64 := by omega
      rw [hstack, update_self, h.free]
      rfl

end Jacl.Sched
