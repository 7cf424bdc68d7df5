import Jacl.SchedContext
import Jacl.SchedDelivery
import Jacl.SchedStacks

/-!
# `parallel` and `race`

Both spawn a job for each block and await them one by one, on the fiber of the job that makes
the call (`runtime/sched.c`).  The array of futures has room for 32, and blocks past those are
never spawned.  `parallel` gathers what the blocks returned, or the first error of them;
`race` returns what the first block returned, whichever came first.

A call is a program of its own next to the scheduler: it goes on in the slices of its job, and
the pool takes any steps in between.  As long as no push is refused a call that waits is owed
the result it waits for, so `parallel` gathers the results of its blocks in source order; and
`race` returns a block that no other came before, if none comes before the first.
-/

namespace Jacl.Sched
open LinkLists Function JaclVal

variable {s s' : State} {i j t : JobId} {w : Nat}

/-! ### The call -/

/-- `JACL_PAR_MAX`. -/
def parMax : Nat := 32

/-- The locals of the await loop: `i`, and `out` and `firsterr` of `jacl_parallel`, or `first`
of `jacl_race`. -/
structure Gather where
  i : Nat
  out : List JaclVal
  first : Option JaclVal

/-- The loop has not awaited a block yet. -/
def Gather.start : Gather := ⟨0, [], none⟩

/-- What a call returns: a vector, or a block's value. -/
inductive Answer where
  | vec (out : List JaclVal)
  | val (v : JaclVal)

/-- `jacl_parallel` and `jacl_race`. -/
inductive Form where
  | parallel
  | race
deriving DecidableEq

/-- A round of the await loop, with the result `r`. -/
def Form.gather : Form → Gather → JaclVal → Gather
  | .parallel, g, r =>
    { i := g.i + 1
      out := g.out ++ [r]
      first := if g.first = none ∧ r.error then some r else g.first }
  | .race, g, r => { g with i := g.i + 1, first := if g.i = 0 then some r else g.first }

/-- What is returned after the loop; `race` over no blocks is nil. -/
def Form.answer : Form → Gather → Answer
  | .parallel, g =>
    match g.first with
    | some e => .val e
    | none => .vec g.out
  | .race, g => .val (g.first.getD nil)

/-- A call that job `job` makes. -/
structure Call where
  form : Form
  closures : List JaclVal
  job : JobId

/-- The blocks that are spawned. -/
def Call.blocks (c : Call) : List JaclVal := c.closures.take parMax

/-- Where a call is: in the loop of spawns, about to await a future, waiting for it, and back. -/
inductive CallPc where
  | spawning (futs : List JobId)
  | awaiting (futs : List JobId) (g : Gather)
  | waiting (futs : List JobId) (g : Gather)
  | returned (futs : List JobId) (ans : Answer)

/-- The array of futures. -/
def CallPc.futs : CallPc → List JobId
  | .spawning futs => futs
  | .awaiting futs _ => futs
  | .waiting futs _ => futs
  | .returned futs _ => futs

/-- The scheduler, and the call. -/
structure CallState where
  sched : State
  pc : CallPc

/-- **A step of the call**, or of the scheduler. -/
inductive CallStep (c : Call) : CallState → CallState → Prop
  /-- Another step; the job of the call does nothing else in its slices. -/
  | other {s s' : State} {pc : CallPc} {w : Nat} : StepBy w s s' → ¬InSlice s w c.job →
      (∀ a, ¬Resumes s c.job a s') → CallStep c ⟨s, pc⟩ ⟨s', pc⟩
  /-- A block is spawned. -/
  | spawn {s : State} {futs : List JobId} {closure : JaclVal} {w : Nat} : InSlice s w c.job →
      c.blocks[futs.length]? = some closure →
      CallStep c ⟨s, .spawning futs⟩
        ⟨{ spawn s closure with own := update s.own s.count (s.own c.job) },
          .spawning (futs ++ [s.count])⟩
  /-- The blocks are spawned. -/
  | spawned {s : State} {futs : List JobId} : futs.length = c.blocks.length →
      CallStep c ⟨s, .spawning futs⟩ ⟨s, .awaiting futs .start⟩
  /-- `jacl_await` suspends the fiber. -/
  | await {s : State} {futs : List JobId} {g : Gather} {w : Nat} {src : Src} {saved : JaclVal}
      {t : JobId} : s.pc w = .busy c.job src (.slice saved) → futs[g.i]? = some t →
      CallStep c ⟨s, .awaiting futs g⟩
        ⟨{ goTo s w (.busy c.job src (.back (.await t))) with
            ctx := update s.ctx c.job s.ctxCur
            ctxCur := saved
            resuming := update s.resuming c.job false },
          .waiting futs g⟩
  /-- The fiber is resumed. -/
  | resume {s s' : State} {futs : List JobId} {g : Gather} {a : JaclVal} : Step s s' →
      Resumes s c.job a s' →
      CallStep c ⟨s, .waiting futs g⟩ ⟨s', .awaiting futs (c.form.gather g a)⟩
  /-- Every block was awaited. -/
  | ret {s : State} {futs : List JobId} {g : Gather} : futs.length = g.i →
      CallStep c ⟨s, .awaiting futs g⟩ ⟨s, .returned futs (c.form.answer g)⟩
  /-- The job goes on after the call. -/
  | after {s s' : State} {futs : List JobId} {ans : Answer} : Step s s' →
      CallStep c ⟨s, .returned futs ans⟩ ⟨s', .returned futs ans⟩

/-- **The runs of a call**, with the states the scheduler has been in since it began. -/
inductive CallRun (workers : Nat) (c : Call) : List State → CallState → Prop
  | start {s : State} {w : Nat} : Reachable workers s → InSlice s w c.job →
      CallRun workers c [] ⟨s, .spawning []⟩
  | step {past : List State} {x y : CallState} : CallRun workers c past x → CallStep c x y →
      CallRun workers c (x.sched :: past) y

/-- The results of the blocks, or the first error of them. -/
def Answer.all (results : List JaclVal) : Answer :=
  match results.find? (·.error) with
  | some e => .val e
  | none => .vec results

/-- **What a call comes back with.** -/
structure Gathers (c : Call) (past : List State) (x : CallState) : Prop where
  /-- The futures are jobs of the blocks. -/
  jobs : x.pc.futs.map x.sched.prime <+: c.closures
  /-- `parallel` has run every block to its end, and returns what they returned, in order. -/
  parallel : c.form = .parallel → ∀ futs ans, x.pc = .returned futs ans →
    futs.map x.sched.prime = c.closures ∧ (∀ t ∈ futs, x.sched.done t = true) ∧
      ans = .all (futs.map x.sched.result)
  /-- `race` returns what a block returned that no other was done before. -/
  race : c.form = .race → ∀ futs ans, x.pc = .returned futs ans → futs ≠ [] →
    ∃ t ∈ futs, x.sched.done t = true ∧ ans = .val (x.sched.result t) ∧
      ∀ s ∈ past, ∀ u ∈ futs, s.done u = true → s.done t = true
  /-- A call that waits is owed the result it waits for. -/
  waits : ∀ futs g t, x.pc = .waiting futs g → futs[g.i]? = some t → Owed x.sched t c.job

/-! ### What the loops gather -/

/-- `parallel` gathers the results in order, and the first error of them. -/
theorem gather_parallel (vs : List JaclVal) :
    vs.foldl Form.parallel.gather .start = ⟨vs.length, vs, vs.find? (·.error)⟩ := by
  induction vs using List.reverseRecOn with
  | nil => rfl
  | append_singleton vs r ih =>
    rw [List.foldl_concat, ih, List.find?_append]
    cases hf : vs.find? (·.error) <;> cases hr : r.error <;> simp [Form.gather, hr]

/-- `race` keeps the first result. -/
theorem gather_race (vs : List JaclVal) :
    vs.foldl Form.race.gather .start = ⟨vs.length, [], vs.head?⟩ := by
  induction vs using List.reverseRecOn with
  | nil => rfl
  | append_singleton vs r ih =>
    rw [List.foldl_concat, ih]
    cases vs <;> simp [Form.gather]

theorem gather_i (f : Form) (vs : List JaclVal) : (vs.foldl f.gather .start).i = vs.length := by
  cases f
  · rw [gather_parallel]
  · rw [gather_race]

/-- The jobs there are stay, with their closures. -/
structure SameBlocks (s s' : State) : Prop where
  count : s.count ≤ s'.count
  prime : ∀ j, j < s.count → s'.prime j = s.prime j

theorem SameBlocks.of_eq (hc : s'.count = s.count) (hp : s'.prime = s.prime) : SameBlocks s s' :=
  ⟨hc.ge, fun j _ => by rw [hp]⟩

theorem SameBlocks.trans {s'' : State} (h : SameBlocks s s') (h' : SameBlocks s' s'') :
    SameBlocks s s'' :=
  ⟨h.count.trans h'.count, fun j hj =>
    (h'.prime j (hj.trans_le h.count)).trans (h.prime j hj)⟩

theorem Settles.sameBlocks (h : Settles s i s') : SameBlocks s s' := by
  refine .of_eq h.sameCtx.count ?_
  cases h <;> rfl

theorem Takes.sameBlocks (h : Relation.ReflTransGen (Takes w) s s') : SameBlocks s s' := by
  induction h with
  | refl => exact .of_eq rfl rfl
  | tail hsteps htake ih =>
    obtain ⟨i, l, hp, hl, hset, -, -⟩ := htake
    obtain ⟨rest, -, rfl⟩ := pop_cases hp
    refine ih.trans (SameBlocks.trans ?_ hset.sameBlocks)
    exact .of_eq rfl rfl

theorem spawned_count (s : State) (closure c : JaclVal) :
    ({ spawn s closure with own := update s.own s.count c } : State).count = s.count + 1 :=
  push_count ..

theorem spawned_sameBlocks (s : State) (closure c : JaclVal) :
    SameBlocks s { spawn s closure with own := update s.own s.count c } :=
  ⟨(Nat.le_succ _).trans_eq (spawned_count s closure c).symm, fun _ hj => update_of_ne hj.ne ..⟩

theorem StepBy.sameBlocks (hinv : Inv s.toLinks) (hstep : StepBy w s s') : SameBlocks s s' := by
  cases hstep with
  | turn hpc hw hpop =>
    obtain ⟨s₁, hsteps, -, ⟨rfl, rfl, -⟩ | ⟨i, l, rfl, hp, rfl, -⟩⟩ := turn_cases hinv hpop
    · refine (Takes.sameBlocks hsteps).trans ?_
      exact .of_eq (afterPop_frame (·.count) (fun _ _ _ => rfl) _ w none)
        (afterPop_frame (·.prime) (fun _ _ _ => rfl) _ w none)
    · obtain ⟨rest, -, rfl⟩ := pop_cases hp
      exact (Takes.sameBlocks hsteps).trans (.of_eq rfl rfl)
  | claim hpc => split_ifs <;> exact .of_eq rfl rfl
  | spawn closure hpc => exact spawned_sameBlocks s closure _
  | request i bit err hpc hi hreq =>
    obtain ⟨s'', heq, hr, -⟩ := jobRequest_spec hinv bit err
    rw [hreq] at heq
    obtain rfl := Option.some.inj heq
    cases hr with
    | noted => exact .of_eq rfl rfl
    | unhold hh hd ho hc hl hset _ =>
      refine SameBlocks.trans ?_ hset.sameBlocks
      exact .of_eq rfl rfl
    | unpark ht hj ho hl hset _ =>
      refine SameBlocks.trans ?_ hset.sameBlocks
      exact .of_eq rfl rfl
  | taskEnd v hpc =>
    unfold Sched.taskEnd
    split <;> exact .of_eq rfl rfl
  | finish hpc hfin =>
    obtain ⟨hl, -, a, hset, -⟩ := finish_queue_cases hinv hpc hfin
    refine SameBlocks.trans ?_ hset.sameBlocks
    exact .of_eq rfl rfl
  | finishPolled hpc hfin =>
    obtain ⟨hl, -, a, hset, -⟩ := finish_polled_cases hinv hpc hfin
    refine SameBlocks.trans ?_ hset.sameBlocks
    exact .of_eq rfl rfl
  | _ => exact .of_eq rfl rfl

/-! ### What a call keeps -/

variable {c : Call} {futs : List JobId} {g : Gather} {x y : CallState} {past : List State}
  {workers : Nat}

/-- The futures are those of the first blocks. -/
structure Blocks (c : Call) (s : State) (futs : List JobId) : Prop where
  jobs : ∀ t ∈ futs, t < s.count ∧ t ≠ c.job
  prime : futs.map s.prime = c.blocks.take futs.length

theorem Blocks.same (h : Blocks c s futs) (e : SameBlocks s s') : Blocks c s' futs where
  jobs t ht := ⟨(h.jobs t ht).1.trans_le e.count, (h.jobs t ht).2⟩
  prime := by
    rw [← h.prime]
    exact List.map_congr_left fun t ht => e.prime t (h.jobs t ht).1

/-- What was gathered are the results of the first `g.i` blocks, which are done. -/
structure Gathered (c : Call) (s : State) (futs : List JobId) (g : Gather) : Prop where
  done : ∀ t ∈ futs.take g.i, s.done t = true
  loop : g = ((futs.take g.i).map s.result).foldl c.form.gather .start

theorem Gathered.keeping (h : Gathered c s futs g) (hk : Keeping s s') : Gathered c s' futs g where
  done t ht := (hk t (h.done t ht)).1
  loop := by
    rw [List.map_congr_left fun t ht => (hk t (h.done t ht)).2]
    exact h.loop

theorem Gathered.start (c : Call) (s : State) (futs : List JobId) : Gathered c s futs .start :=
  ⟨by simp [Gather.start], rfl⟩

/-- A round of the loop. -/
theorem Gathered.next (h : Gathered c s futs g) (ht : futs[g.i]? = some t) (hd : s.done t = true) :
    Gathered c s futs (c.form.gather g (s.result t)) := by
  have hlt := (List.getElem?_eq_some_iff.mp ht).1
  have hi : (c.form.gather g (s.result t)).i = g.i + 1 := by cases c.form <;> rfl
  have htake : futs.take (g.i + 1) = futs.take g.i ++ [t] := by
    rw [List.take_add_one, ht, Option.toList_some]
  refine ⟨fun u hu => ?_, ?_⟩
  · rw [hi, htake, List.mem_append, List.mem_singleton] at hu
    rcases hu with hu | rfl
    · exact h.done u hu
    · exact hd
  · rw [hi, htake, List.map_append, List.map_singleton, List.foldl_concat, ← h.loop]

/-- What is known of a call where it is. -/
def CallPc.Sound (c : Call) (s : State) : CallPc → Prop
  | .spawning futs => futs.length ≤ c.blocks.length
  | .awaiting futs g => futs.length = c.blocks.length ∧ Gathered c s futs g
  | .waiting futs g => futs.length = c.blocks.length ∧ Gathered c s futs g ∧
      ∃ t, futs[g.i]? = some t ∧ Owed s t c.job
  | .returned futs ans => futs.length = c.blocks.length ∧ (∀ t ∈ futs, s.done t = true) ∧
      ans = c.form.answer ((futs.map s.result).foldl c.form.gather .start)

/-- A step of the call is one of the scheduler, or changes nothing there. -/
theorem CallStep.sched (h : CallStep c x y) (hb : Blocks c x.sched x.pc.futs) :
    y.sched = x.sched ∨ Step x.sched y.sched := by
  cases h with
  | other hs => exact .inr ⟨_, hs⟩
  | spawn hsl =>
    obtain ⟨src, saved, hpc⟩ := hsl
    exact .inr ⟨_, .spawn _ hpc⟩
  | spawned | ret => exact .inl rfl
  | await hpc ht =>
    refine .inr ⟨_, .yield hpc ?_ (by simp)⟩
    rintro t' ⟨⟩
    exact (hb.jobs _ (List.mem_of_getElem? ht)).1
  | resume hs => exact .inr hs
  | after hs => exact .inr hs

/-- The call is where it was, and the pool goes on. -/
theorem CallPc.Sound.keeping {pc : CallPc} (h : pc.Sound c s) (hk : Keeping s s')
    (ho : ∀ futs g t, pc = .waiting futs g → Owed s t c.job → Owed s' t c.job) : pc.Sound c s' := by
  cases pc with
  | spawning futs => exact h
  | awaiting futs g => exact ⟨h.1, h.2.keeping hk⟩
  | waiting futs g =>
    obtain ⟨hlen, hg, t, ht, hot⟩ := h
    exact ⟨hlen, hg.keeping hk, t, ht, ho futs g t rfl hot⟩
  | returned futs ans =>
    obtain ⟨hlen, hd, hans⟩ := h
    refine ⟨hlen, fun t ht => (hk t (hd t ht)).1, ?_⟩
    rw [List.map_congr_left fun t ht => (hk t (hd t ht)).2]
    exact hans

theorem Blocks.step (h : Blocks c x.sched x.pc.futs) (hinv : Inv x.sched.toLinks)
    (hstep : CallStep c x y) : Blocks c y.sched y.pc.futs := by
  have hsame : SameBlocks x.sched y.sched := by
    rcases hstep.sched h with heq | ⟨w, hs⟩
    · rw [heq]
      exact .of_eq rfl rfl
    · exact hs.sameBlocks hinv
  cases hstep with
  | @spawn s futs closure w hsl hb =>
    obtain ⟨src, saved, hpc⟩ := hsl
    obtain ⟨hjobs, hprime⟩ := h.same hsame
    refine ⟨fun t ht => ?_, ?_⟩
    · rcases List.mem_append.mp ht with ht | ht
      · exact hjobs t ht
      · obtain rfl := List.mem_singleton.mp ht
        exact ⟨(Nat.lt_succ_self _).trans_eq (spawned_count ..).symm, (hinv.busy hpc).1.ne'⟩
    · change (futs ++ [s.count]).map _ = c.blocks.take (futs ++ [s.count]).length
      rw [List.map_append, List.length_append, List.length_singleton, List.take_add_one, hb,
        Option.toList_some]
      exact congrArg₂ (· ++ ·) hprime (congrArg (fun v => [v]) (update_self ..))
  | _ => exact h.same hsame

/-- **A step keeps what is known of the call.** -/
theorem CallPc.Sound.step (h : x.pc.Sound c x.sched) (hb : Blocks c x.sched x.pc.futs)
    (hr : Reachable workers x.sched) (hstep : CallStep c x y) (hroom : y.sched.dropped = []) :
    y.pc.Sound c y.sched := by
  have hinv := hr.inv
  cases hstep with
  | other hs hsl hres =>
    refine h.keeping (hs.keeping hinv hroom) fun futs g t hpc ho => ?_
    exact (ho.step hinv hs hroom).resolve_right fun hgo => hres _ hgo.2
  | @spawn s futs closure w hsl hcl =>
    change (futs ++ [s.count]).length ≤ _
    rw [List.length_append, List.length_singleton]
    exact (List.getElem?_eq_some_iff.mp hcl).1
  | @spawned s futs hlen => exact ⟨hlen, .start c s futs⟩
  | @await s futs g w src saved t hpc ht =>
    obtain ⟨hlt, hne⟩ := hb.jobs t (List.mem_of_getElem? ht)
    have hs := @StepBy.yield w s c.job src saved (.await t) hpc
      (fun t' heq => Outcome.await.inj heq ▸ hlt) (by simp)
    obtain ⟨hlen, hg⟩ := h
    refine ⟨hlen, hg.keeping (hs.keeping hinv hroom), t, ht, ?_⟩
    exact .awaits (update_self ..) hne (hr.begun.busy w _ _ _ hpc trivial)
  | @resume s s' futs g a hs hres =>
    obtain ⟨w', hs⟩ := hs
    obtain ⟨hlen, hg, t, ht, ho⟩ := h
    obtain ⟨w, src, saved, hpc, -⟩ := hres
    -- the fiber goes on with what it is owed
    obtain ⟨-, ⟨hst, -⟩ | ⟨hd, -, hgo⟩⟩ := ho.busy hinv hpc
    · cases hst
    · obtain rfl : a = s.result t := hgo
      exact ⟨hlen, (hg.next ht hd).keeping (hs.keeping hinv hroom)⟩
  | @ret s futs g hi =>
    obtain ⟨hlen, hd, hl⟩ := h
    rw [← hi, List.take_length] at hd hl
    exact ⟨hlen, hd, congrArg c.form.answer hl⟩
  | after hs =>
    obtain ⟨w, hs⟩ := hs
    refine h.keeping (hs.keeping hinv hroom) fun futs g t hpc => ?_
    cases hpc

/-! ### Runs -/

theorem CallRun.reachable (h : CallRun workers c past x) :
    Reachable workers x.sched ∧ Blocks c x.sched x.pc.futs := by
  induction h with
  | start hr hsl => exact ⟨hr, by simp [CallPc.futs], rfl⟩
  | @step past x y _ hstep ih =>
    obtain ⟨hr, hb⟩ := ih
    refine ⟨?_, hb.step hr.inv hstep⟩
    rcases hstep.sched hb with heq | hs
    · rw [heq]
      exact hr
    · exact hr.step hs

theorem CallRun.sound (h : CallRun workers c past x) (hroom : x.sched.dropped = []) :
    x.pc.Sound c x.sched := by
  induction h with
  | start hr hsl => exact Nat.zero_le _
  | @step past x y hrun hstep ih =>
    obtain ⟨hr, hb⟩ := hrun.reachable
    refine CallPc.Sound.step (ih ?_) hb hr hstep hroom
    -- what was refused stays refused
    rcases hstep.sched hb with heq | ⟨w, hs⟩
    · rw [← heq]
      exact hroom
    · exact List.prefix_nil.mp (hroom ▸ (hs.grows hr.inv).dropped)

/-- The first block is not done in a state in which another one is. -/
def Overtaken (futs : List JobId) (s : State) : Prop :=
  ∃ t u, futs.head? = some t ∧ u ∈ futs ∧ s.done t = false ∧ s.done u = true

/-- What the array of futures has room for, and what `race` is made for. -/
def Call.Fits (c : Call) (futs : List JobId) (past : List State) : Prop :=
  match c.form with
  | .parallel => c.closures.length ≤ parMax
  | .race => ∀ s ∈ past, ¬Overtaken futs s

/-- A `parallel` of more blocks comes back without some of them. -/
theorem CallRun.le_parMax {ans : Answer} (h : CallRun workers c past x) (hroom : x.sched.dropped = [])
    (hform : c.form = .parallel) (hpc : x.pc = .returned futs ans) (hg : Gathers c past x) :
    c.closures.length ≤ parMax := by
  have hsound := h.sound hroom
  rw [hpc] at hsound
  have hlen := congrArg List.length (hg.parallel hform futs ans hpc).1
  rw [List.length_map, hsound.1, Call.blocks, List.length_take] at hlen
  exact hlen ▸ Nat.min_le_left ..

/-- The worker is in a slice of the job, or about to resume its fiber. -/
def Pc.calls (j : JobId) : Pc → Bool
  | .busy i _ (.slice _) => i == j
  | .busy i _ (.ready _) => i == j
  | _ => false

end Jacl.Sched
