import Jacl.SchedRuns

/-!
# The ambient context of a task

`jacl_ctx_cur` is one global.  A job's context is installed there when its slice starts and
kept with the job when the slice ends, and what the task reads and sets in between is the
global (`jacl_ctx_get` sets an unset one to the empty map, which counts as setting it).  So
a task reads its own context as long as no other worker writes a different one to the
global in the task's slice (`Isolated`).  With one worker, the default, none does.
-/

namespace Jacl.Sched
open LinkLists Function JaclVal

variable {s s' : State} {i j : JobId} {w : Nat}

/-- Worker `w` is in a slice of the job. -/
def InSlice (s : State) (w : Nat) (j : JobId) : Prop :=
  ∃ src saved, s.pc w = .busy j src (.slice saved)

/-- **What a task reads is its own context**: what it set last, or took over from the task
that spawned it. -/
def Isolated (s : State) : Prop := ∀ w j, InSlice s w j → s.ctxCur = s.own j

/-- A step of worker `w` leaves the global alone, or no other worker is in a slice. -/
def Undisturbed (w : Nat) (s s' : State) : Prop :=
  s'.ctxCur = s.ctxCur ∨ ∀ w', w' ≠ w → ∀ j, ¬InSlice s w' j

/-- Between its slices a task's context is kept with the job. -/
structure CtxInv (s : State) : Prop where
  isolated : Isolated s
  kept : ∀ j, j < s.count → (∀ w, ¬InSlice s w j) → s.ctx j = s.own j

/-- A step that is not about contexts. -/
structure SameCtx (s s' : State) : Prop where
  slices : ∀ w j, InSlice s' w j ↔ InSlice s w j
  count : s'.count = s.count
  cur : s'.ctxCur = s.ctxCur
  ctx : s'.ctx = s.ctx
  own : s'.own = s.own

theorem SameCtx.inv (e : SameCtx s s') (h : CtxInv s) : CtxInv s' where
  isolated w j hw := by
    rw [e.cur, e.own]
    exact h.isolated w j ((e.slices w j).mp hw)
  kept j hj hno := by
    rw [e.ctx, e.own]
    exact h.kept j (e.count ▸ hj) fun w hw => hno w ((e.slices w j).mpr hw)

theorem SameCtx.of_pc (hpc : s'.pc = s.pc) (hc : s'.count = s.count) (hcur : s'.ctxCur = s.ctxCur)
    (hctx : s'.ctx = s.ctx) (hown : s'.own = s.own) : SameCtx s s' :=
  ⟨fun w j => by rw [InSlice, InSlice, hpc], hc, hcur, hctx, hown⟩

theorem SameCtx.trans {s'' : State} (h : SameCtx s s') (h' : SameCtx s' s'') : SameCtx s s'' :=
  ⟨fun w j => (h'.slices w j).trans (h.slices w j), h'.count.trans h.count, h'.cur.trans h.cur,
    h'.ctx.trans h.ctx, h'.own.trans h.own⟩

/-- A worker goes on, and neither comes from a slice nor starts one. -/
theorem SameCtx.goTo {q : Pc} (hpc : ∀ j src saved, s.pc w ≠ .busy j src (.slice saved))
    (hq : ∀ j src saved, q ≠ .busy j src (.slice saved)) (he : s'.pc = update s.pc w q)
    (hc : s'.count = s.count) (hcur : s'.ctxCur = s.ctxCur) (hctx : s'.ctx = s.ctx)
    (hown : s'.own = s.own) : SameCtx s s' := by
  refine ⟨fun w' j => ?_, hc, hcur, hctx, hown⟩
  rw [InSlice, InSlice, he]
  by_cases hw : w' = w
  · subst hw
    rw [update_self]
    exact iff_of_false (fun ⟨src, saved, h⟩ => hq j src saved h)
      fun ⟨src, saved, h⟩ => hpc j src saved h
  · rw [update_of_ne hw]

theorem Settles.sameCtx (h : Settles s j s') : SameCtx s s' := by
  have hpc := settles_pc h
  cases h with
  | finish v hw => exact .of_pc hpc completed_count rfl rfl rfl
  | cancel hc hw => exact .of_pc hpc completed_count rfl rfl rfl
  | hold hsus => exact .of_pc hpc rfl rfl rfl rfl
  | push => exact .of_pc hpc (push_count ..) rfl rfl rfl
  | park ht hd hne => exact .of_pc hpc rfl rfl rfl rfl

theorem Takes.sameCtx (h : Relation.ReflTransGen (Takes w) s s') : SameCtx s s' := by
  induction h with
  | refl => exact .of_pc rfl rfl rfl rfl rfl
  | tail hsteps htake ih =>
    obtain ⟨j, l, hp, hl, hset, -, -⟩ := htake
    obtain ⟨rest, -, rfl⟩ := pop_cases hp
    refine ih.trans (SameCtx.trans ?_ hset.sameCtx)
    exact .of_pc rfl rfl rfl rfl rfl

theorem Requests.sameCtx (h : Requests s j s') : SameCtx s s' := by
  cases h with
  | noted => exact .of_pc rfl rfl rfl rfl rfl
  | unhold hh hd ho hc hl hset _ =>
    refine SameCtx.trans ?_ hset.sameCtx
    exact .of_pc rfl rfl rfl rfl rfl
  | unpark ht hj ho hl hset _ =>
    refine SameCtx.trans ?_ hset.sameCtx
    exact .of_pc rfl rfl rfl rfl rfl

theorem Finishes.sameCtx {q : Pc} {out : Outcome} (h : Finishes s w q j out s')
    (hpc : ∀ j src saved, s.pc w ≠ .busy j src (.slice saved))
    (hq : ∀ j src saved, q ≠ .busy j src (.slice saved)) : SameCtx s s' := by
  obtain ⟨-, -, a, hset, -⟩ := h
  have hgo : SameCtx s { goTo s w q with resumeArg := update s.resumeArg j a } :=
    .goTo hpc hq rfl rfl rfl rfl rfl
  exact hgo.trans hset.sameCtx

/-- Two workers are not in slices of one job. -/
theorem Inv.one_slice {w' : Nat} (h : Inv s.toLinks) (hw : InSlice s w j) (hw' : InSlice s w' j) :
    w = w' := by
  obtain ⟨L, place, h, -⟩ := h
  obtain ⟨src, saved, hpc⟩ := hw
  obtain ⟨src', saved', hpc'⟩ := hw'
  exact h.one_worker (j := j) (by rw [hpc]; exact busy_has ..) (by rw [hpc']; exact busy_has ..)

theorem Inv.not_inSlice {w' : Nat} {src : Src} {st : Stage} (h : Inv s.toLinks)
    (hpc : s.pc w = .busy j src st) (hst : ∀ saved, st ≠ .slice saved) : ¬InSlice s w' j := by
  rintro ⟨src', saved, hpc'⟩
  obtain ⟨L, place, h, -⟩ := h
  obtain rfl : w = w' :=
    h.one_worker (j := j) (by rw [hpc]; exact busy_has ..) (by rw [hpc']; exact busy_has ..)
  rw [hpc] at hpc'
  cases hpc'
  exact hst saved rfl

theorem SameCtx.turn {r : Option JobId} (hinv : Inv s.toLinks) (hpc : s.pc w = .top)
    (hpop : popReady (s.count + 1) s w = some (r, s')) : SameCtx s (afterPop s' w r) := by
  obtain ⟨s₁, hsteps, -, ⟨rfl, heq, -⟩ | ⟨j, l, rfl, hp, rfl, -⟩⟩ := turn_cases hinv hpop
  · have h₁ := Takes.sameCtx hsteps
    rw [heq]
    unfold afterPop
    dsimp only
    split_ifs
    · refine h₁.trans ?_
      exact .of_pc rfl rfl rfl rfl rfl
    · refine h₁.trans (.goTo ?_ ?_ rfl rfl rfl rfl rfl)
      · rw [Takes.pc hsteps, hpc]
        simp
      · simp
  · have h₁ := Takes.sameCtx hsteps
    obtain ⟨rest, -, rfl⟩ := pop_cases hp
    refine h₁.trans (.goTo (q := .busy j .queue .enter) ?_ ?_ rfl rfl rfl rfl rfl)
    · rw [Takes.pc hsteps, hpc]
      simp
    · simp

/-- **The steps that are about contexts** start and end a slice, spawn a task, and set the
context. -/
theorem StepBy.cases_ctx (hinv : Inv s.toLinks) (hstep : StepBy w s s') : SameCtx s s' ∨
    (∃ j src arg, s.pc w = .busy j src (.ready arg) ∧
      s' = { goTo s w (.busy j src (.slice s.ctxCur)) with
        ctxCur := s.ctx j
        running := update s.running w (some j) }) ∨
    (∃ j closure, InSlice s w j ∧
      s' = { Sched.spawn s closure with own := update s.own s.count (s.own j) }) ∨
    (∃ j c, InSlice s w j ∧ s' = { s with ctxCur := c, own := update s.own j c }) ∨
    (∃ j src saved out, s.pc w = .busy j src (.slice saved) ∧
      s' = { goTo s w (.busy j src (.back out)) with
        ctx := update s.ctx j s.ctxCur
        ctxCur := saved
        resuming := update s.resuming j false }) := by
  cases hstep with
  | turn hpc hw hpop => exact .inl (.turn hinv hpc hpop)
  | @claim j src hpc =>
    refine .inl ?_
    split_ifs
    · exact .goTo (by simp [hpc]) (by simp) rfl rfl rfl rfl rfl
    · exact .goTo (by simp [hpc]) (by simp) rfl rfl rfl rfl rfl
  | install hpc => exact .inr (.inl ⟨_, _, _, hpc, rfl⟩)
  | spawn closure hpc => exact .inr (.inr (.inl ⟨_, _, ⟨_, _, hpc⟩, rfl⟩))
  | request i bit err hpc hi hreq =>
    obtain ⟨s'', heq, hr, -⟩ := jobRequest_spec hinv bit err
    rw [hreq] at heq
    obtain rfl := Option.some.inj heq
    exact .inl hr.sameCtx
  | taskEnd v hpc =>
    refine .inl ?_
    unfold Sched.taskEnd
    split
    · exact .of_pc rfl rfl rfl rfl rfl
    · exact .of_pc rfl rfl rfl rfl rfl
  | setCtx c hpc => exact .inr (.inr (.inr (.inl ⟨_, _, ⟨_, _, hpc⟩, rfl⟩)))
  | yield hpc hawait hskip => exact .inr (.inr (.inr (.inr ⟨_, _, _, _, hpc, rfl⟩)))
  | @finish _ j out hpc hfin =>
    refine .inl ((finish_queue_cases hinv hpc hfin).sameCtx (by simp [hpc]) ?_)
    unfold afterJob
    split
    · split_ifs <;> simp
    · simp
  | finishPolled hpc hfin =>
    exact .inl ((finish_polled_cases hinv hpc hfin).sameCtx (by simp [hpc]) (by simp))
  | stop hpc hd => exact .inl (.goTo (by simp [hpc]) (by simp) rfl rfl rfl rfl rfl)
  | poll hpc => exact .inl (.goTo (by simp [hpc]) (by simp) rfl rfl rfl rfl rfl)
  | polled idle hpc => exact .inl (.goTo (by simp [hpc]) (by simp) rfl rfl rfl rfl rfl)
  | start hpc hf => exact .inl (.goTo (by simp [hpc]) (by simp) rfl rfl rfl rfl rfl)
  | again hpc hf => exact .inl (.goTo (by simp [hpc]) (by simp) rfl rfl rfl rfl rfl)
  | block hpc => exact .inl (.goTo (by simp [hpc]) (by simp) rfl rfl rfl rfl rfl)
  | stay hpc => exact .inl (.goTo (by simp [hpc]) (by simp) rfl rfl rfl rfl rfl)
  | unlink hpc hout => exact .inl (.goTo (by simp [hpc]) (by simp) rfl rfl rfl rfl rfl)

/-- The other workers' slices, when a step does not disturb them. -/
theorem CtxInv.others {w' : Nat} (h : CtxInv s) (hun : Undisturbed w s s') (hw : w' ≠ w)
    (hj : InSlice s w' j) : s'.ctxCur = s.own j := by
  rcases hun with hcur | hno
  · rw [hcur]
    exact h.isolated w' j hj
  · exact absurd hj (hno w' hw j)

theorem inSlice_goTo {w' : Nat} {q : Pc} (he : s'.pc = update s.pc w q) (hw : w' ≠ w) :
    InSlice s' w' j ↔ InSlice s w' j := by
  rw [InSlice, InSlice, he, update_of_ne hw]

theorem inSlice_self {q : Pc} (he : s'.pc = update s.pc w q) :
    InSlice s' w j ↔ ∃ src saved, q = .busy j src (.slice saved) := by
  rw [InSlice, he, update_self]

/-- **A step keeps the contexts apart** if it does not disturb another worker's slice. -/
theorem CtxInv.step (h : CtxInv s) (hinv : Inv s.toLinks) (hstep : StepBy w s s')
    (hun : Undisturbed w s s') : CtxInv s' := by
  rcases hstep.cases_ctx hinv with e | ⟨j, src, arg, hpc, rfl⟩ | ⟨j, closure, hj, rfl⟩ |
    ⟨j, c, hj, rfl⟩ | ⟨j, src, saved, out, hpc, rfl⟩
  · exact e.inv h
  · -- the slice starts: the job's context was kept for it
    have hkept := h.kept j (hinv.busy hpc).1 fun w' => hinv.not_inSlice hpc (by simp)
    refine ⟨fun w' x hw' => ?_, fun x hx hno => ?_⟩
    · by_cases hw : w' = w
      · subst hw
        obtain ⟨_, _, hq⟩ := (inSlice_self rfl).mp hw'
        cases hq
        exact hkept
      · exact h.others hun hw ((inSlice_goTo rfl hw).mp hw')
    · refine h.kept x hx fun w' hw' => ?_
      by_cases hw : w' = w
      · subst hw
        obtain ⟨_, _, hq⟩ := hw'
        rw [hpc] at hq
        cases hq
      · exact hno w' ((inSlice_goTo rfl hw).mpr hw')
  · -- the new task takes over what is in force
    have hpc : (Sched.spawn s closure).pc = s.pc := push_pc ..
    have hcount : (Sched.spawn s closure).count = s.count + 1 := push_count ..
    have hslice : ∀ w' x, InSlice { Sched.spawn s closure with own := update s.own s.count (s.own j) }
        w' x ↔ InSlice s w' x := fun w' x => by rw [InSlice, InSlice]; simp only [hpc]
    refine ⟨fun w' x hw' => ?_, fun x hx hno => ?_⟩
    · have hx := (hslice w' x).mp hw'
      have hq := hx
      obtain ⟨_, _, hq⟩ := hq
      have hne : x ≠ s.count := (hinv.busy hq).1.ne
      rw [show ({ Sched.spawn s closure with own := update s.own s.count (s.own j) } : State).own x =
        update s.own s.count (s.own j) x from rfl, update_of_ne hne]
      exact h.isolated w' x hx
    · change update s.ctx s.count s.ctxCur x = update s.own s.count (s.own j) x
      by_cases hne : x = s.count
      · rw [hne, update_self, update_self]
        exact h.isolated w j hj
      · rw [update_of_ne hne, update_of_ne hne]
        have hlt : x < s.count + 1 := by
          rw [← hcount]
          exact hx
        refine h.kept x ?_ fun w' hw' => hno w' ((hslice w' x).mpr hw')
        exact lt_of_le_of_ne (Nat.le_of_lt_succ hlt) hne
  · refine ⟨fun w' x hw' => ?_, fun x hx hno => ?_⟩
    · change c = update s.own j c x
      have hw'' : InSlice s w' x := hw'
      by_cases hw : w' = w
      · subst hw
        obtain ⟨_, _, hq⟩ := hw''
        obtain ⟨_, _, hq'⟩ := hj
        rw [hq] at hq'
        cases hq'
        exact (update_self j c s.own).symm
      · have hxj : x ≠ j := by
          rintro rfl
          exact hw (hinv.one_slice hw'' hj)
        rw [update_of_ne hxj]
        exact h.others hun hw hw''
    · change s.ctx x = update s.own j c x
      have hxj : x ≠ j := by
        rintro rfl
        exact hno w hj
      rw [update_of_ne hxj]
      exact h.kept x hx hno
  · -- the slice ends: what the task set is kept for it
    have hcur := h.isolated w j ⟨src, saved, hpc⟩
    refine ⟨fun w' x hw' => ?_, fun x hx hno => ?_⟩
    · by_cases hw : w' = w
      · subst hw
        obtain ⟨_, _, hq⟩ := (inSlice_self rfl).mp hw'
        cases hq
      · exact h.others hun hw ((inSlice_goTo rfl hw).mp hw')
    · change update s.ctx j s.ctxCur x = s.own x
      by_cases hxj : x = j
      · rw [hxj, update_self, hcur]
      · rw [update_of_ne hxj]
        refine h.kept x hx fun w' hw' => ?_
        by_cases hw : w' = w
        · subst hw
          obtain ⟨_, _, hq⟩ := hw'
          rw [hpc] at hq
          cases hq
          exact hxj rfl
        · exact hno w' ((inSlice_goTo rfl hw).mpr hw')

/-- **A run whose steps leave the other workers' slices undisturbed.** -/
inductive Calm (workers : Nat) : State → Prop
  | init : Calm workers (init workers)
  | step {s s' : State} {w : Nat} : Calm workers s → StepBy w s s' → Undisturbed w s s' →
      Calm workers s'

theorem Calm.reachable {workers : Nat} (h : Calm workers s) : Reachable workers s := by
  induction h with
  | init => exact .init
  | step hs hstep hun ih => exact ih.step ⟨_, hstep⟩

end Jacl.Sched
