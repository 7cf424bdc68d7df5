import Jacl.Generators

/-!
# Runs of generators

With the conditions the counter of the stacks is the number of the generators, so that each has
the stack of its own number; a call of `jacl_gen_next` that has not resumed its generator yet has
the argument that is due; and a generator whose status is not being stored has the right one.
-/

namespace Jacl.Generators

/-! ### One generator -/

/-- The generator that a phase is about. -/
def Phase.about : Phase → Option GenId
  | .reading g _ => some g
  | .marked g _ => some g
  | .ended g _ => some g
  | _ => none

/-- What the next resume is due to pass. -/
def Gen.due (x : Gen) : JaclVal := if x.passed = [] then x.prime else 0

structure GenOk (tasks : Nat → Task) (g : GenId) (x : Gen) : Prop where
  stack : x.stack = g
  fresh : x.fiber = .fresh ↔ x.passed = []
  primed : x.passed = [] ∨ ∃ k, x.passed = x.prime :: List.replicate k 0
  started : x.passed ≠ [] → x.started
  marker : x.started → x.passed = [] → ∃ u, (tasks u).phase.Before g
  before : ∀ u v, (tasks u).phase.Before g → (tasks v).phase.Before g → u = v
  reading : ∀ u arg, (tasks u).phase = .reading g arg → arg = x.due
  marked : ∀ u arg, (tasks u).phase = .marked g arg → x.started ∧ arg = x.due
  running : ∀ u, g ∈ (tasks u).frames → x.fiber = .running
  frame : ∀ u v, g ∈ (tasks u).frames → g ∈ (tasks v).frames → u = v
  ended : ∀ u st, (tasks u).phase = .ended g st → x.fiber = .left st ∧ st ≠ .parked
  after : ∀ u v st st', (tasks u).phase = .ended g st → (tasks v).phase = .ended g st' → u = v
  dones : (∀ u st, (tasks u).phase ≠ .ended g st) → (x.done ≠ 0 ↔ x.fiber = .left .returned)

variable {tasks : Nat → Task} {t u : Nat} {g : GenId} {x : Gen} {p : Phase} {fs : List GenId}

@[simp] theorem setTask_self (y : Task) : setTask tasks t y t = y := if_pos rfl

theorem setTask_ne (y : Task) (h : u ≠ t) : setTask tasks t y u = tasks u := if_neg h

theorem Phase.about_of_before (h : p.Before g) : p.about = some g := by
  cases p <;> simp_all [Before, about]

/-- What a task does with other generators. -/
theorem GenOk.other (h : GenOk tasks g x) (hold : (tasks t).phase.about ≠ some g)
    (hnew : p.about ≠ some g) (hfs : g ∈ fs ↔ g ∈ (tasks t).frames) :
    GenOk (setTask tasks t ⟨p, fs⟩) g x := by
  have hphase : ∀ u q, q.about = some g →
      ((setTask tasks t ⟨p, fs⟩ u).phase = q ↔ (tasks u).phase = q) := by
    intro u q hq
    by_cases hu : u = t
    · subst hu
      rw [setTask_self]
      constructor
      · rintro rfl
        exact absurd hq hnew
      · rintro rfl
        exact absurd hq hold
    · rw [setTask_ne _ hu]
  have hbefore : ∀ u, (setTask tasks t ⟨p, fs⟩ u).phase.Before g ↔ (tasks u).phase.Before g := by
    intro u
    by_cases hu : u = t
    · subst hu
      rw [setTask_self]
      exact ⟨fun he => absurd (Phase.about_of_before he) hnew,
        fun he => absurd (Phase.about_of_before he) hold⟩
    · rw [setTask_ne _ hu]
  have hframes : ∀ u, g ∈ (setTask tasks t ⟨p, fs⟩ u).frames ↔ g ∈ (tasks u).frames := by
    intro u
    by_cases hu : u = t
    · subst hu
      rw [setTask_self]
      exact hfs
    · rw [setTask_ne _ hu]
  exact {
    stack := h.stack
    fresh := h.fresh
    primed := h.primed
    started := h.started
    marker := fun hs hp => (h.marker hs hp).imp fun u => (hbefore u).mpr
    before := fun u v hu hv => h.before u v ((hbefore u).mp hu) ((hbefore v).mp hv)
    reading := fun u arg hu => h.reading u arg ((hphase u _ rfl).mp hu)
    marked := fun u arg hu => h.marked u arg ((hphase u _ rfl).mp hu)
    running := fun u hu => h.running u ((hframes u).mp hu)
    frame := fun u v hu hv => h.frame u v ((hframes u).mp hu) ((hframes v).mp hv)
    ended := fun u st hu => h.ended u st ((hphase u _ rfl).mp hu)
    after := fun u v st st' hu hv =>
      h.after u v st st' ((hphase u _ rfl).mp hu) ((hphase v _ rfl).mp hv)
    dones := fun hno => h.dones fun u st hu => hno u st ((hphase u _ rfl).mpr hu) }

/-- A task that was not at the end of a resume. -/
theorem not_ended_of_setTask {y : Task} (hold : ∀ st, (tasks t).phase ≠ .ended g st)
    (h : ∀ u st, (setTask tasks t y u).phase ≠ .ended g st) (u : Nat) (st : Status) :
    (tasks u).phase ≠ .ended g st := by
  by_cases hu : u = t
  · rw [hu]
    exact hold st
  · have hne := h u st
    rw [setTask_ne _ hu] at hne
    exact hne

/-- A call of `jacl_gen_next` begins. -/
theorem GenOk.next (h : GenOk tasks g x) (hidle : (tasks t).phase = .idle)
    (hno : ∀ u, ¬ (tasks u).phase.Before g) :
    GenOk (setTask tasks t { tasks t with phase := .reading g (if x.started then 0 else x.prime) })
      g x := by
  have hdue : (if x.started then 0 else x.prime) = x.due := by
    have hmarker := h.marker
    have hstarted := h.started
    rw [Gen.due]
    by_cases hs : x.started <;> by_cases hp : x.passed = [] <;> simp_all
  have hended : ∀ st, (tasks t).phase ≠ .ended g st := by
    rw [hidle]
    exact fun st => Phase.noConfusion
  obtain ⟨h1, h2, h3, h4, h5, h6, h7, h8, h9, h10, h11, h12, h13⟩ := h
  constructor
  case dones => exact fun hnone => h13 (not_ended_of_setTask hended hnone)
  all_goals grind [setTask, Phase.Before]

theorem GenOk.mark {arg : JaclVal} (h : GenOk tasks g x) (hat : (tasks t).phase = .reading g arg) :
    GenOk (setTask tasks t { tasks t with phase := .marked g arg }) g { x with started := true } := by
  have hended : ∀ st, (tasks t).phase ≠ .ended g st := by
    rw [hat]
    exact fun st => Phase.noConfusion
  obtain ⟨h1, h2, h3, h4, h5, h6, h7, h8, h9, h10, h11, h12, h13⟩ := h
  constructor
  case marker => exact fun _ _ => ⟨t, by rw [setTask_self]; rfl⟩
  case dones => exact fun hnone => h13 (not_ended_of_setTask hended hnone)
  all_goals grind [setTask, Phase.Before, Gen.due]

theorem GenOk.resume {arg : JaclVal} (h : GenOk tasks g x) (hat : (tasks t).phase = .marked g arg)
    (hready : x.fiber.Ready) (hno : ∀ u st, (tasks u).phase ≠ .ended g st) :
    GenOk (setTask tasks t ⟨.idle, g :: (tasks t).frames⟩) g
      { x with fiber := .running, passed := x.passed ++ [arg] } := by
  have hprimed : ∃ k, x.passed ++ [arg] = x.prime :: List.replicate k 0 := by
    have harg := (h.marked t arg hat).2
    obtain h0 | ⟨k, hk⟩ := h.primed
    · rw [Gen.due, if_pos h0] at harg
      exact ⟨0, by rw [h0, harg]; rfl⟩
    · rw [Gen.due, if_neg (by rw [hk]; exact List.cons_ne_nil _ _)] at harg
      refine ⟨k + 1, ?_⟩
      rw [hk, harg, List.cons_append, List.replicate_succ']
  obtain ⟨h1, h2, h3, h4, h5, h6, h7, h8, h9, h10, h11, h12, h13⟩ := h
  obtain ⟨hr1, hr2⟩ := hready
  constructor
  all_goals grind [setTask, Phase.Before, Gen.due]

theorem GenOk.leave {st : Status} {gs : List GenId} (h : GenOk tasks g x)
    (hat : tasks t = ⟨.idle, g :: gs⟩) (hnodup : g ∉ gs) (hst : st ≠ .parked) :
    GenOk (setTask tasks t ⟨.ended g st, gs⟩) g { x with fiber := .left st } := by
  obtain ⟨h1, h2, h3, h4, h5, h6, h7, h8, h9, h10, h11, h12, h13⟩ := h
  constructor
  case dones =>
    -- the status of this resume is not stored yet
    intro hnone
    refine absurd ?_ (hnone t st)
    rw [setTask_self]
  all_goals grind [setTask, Phase.Before, Gen.due]

theorem Status.code_ne_zero {st : Status} (h : st ≠ .parked) : st.code ≠ 0 ↔ st = .returned := by
  cases st <;> simp_all [code]

theorem GenOk.store {st : Status} (h : GenOk tasks g x) (hat : (tasks t).phase = .ended g st) :
    GenOk (setTask tasks t { tasks t with phase := .idle }) g { x with done := st.code } := by
  have hcode := Status.code_ne_zero (h.ended t st hat).2
  obtain ⟨h1, h2, h3, h4, h5, h6, h7, h8, h9, h10, h11, h12, h13⟩ := h
  constructor
  all_goals grind [setTask, Phase.Before, Gen.due]

/-! ### Steps -/

structure Inv (s : State) : Prop where
  next : s.next = s.gens.length
  /-- Only one task is inside `jacl_gen_new`, and it has the counter as it is. -/
  alone : ∀ u v, (s.tasks u).phase.InNew → (s.tasks v).phase.InNew → u = v
  room : ∀ u, (s.tasks u).phase.InNew → s.next < genStacks
  counter : ∀ u fn arg r, (s.tasks u).phase = .loaded fn arg r → r = s.next
  refused : s.RefusedFull
  nodup : ∀ u, (s.tasks u).frames.Nodup
  /-- Tasks have to do with generators that there are. -/
  known : ∀ u g, (s.tasks u).phase.about = some g ∨ g ∈ (s.tasks u).frames → g < s.gens.length
  gens : ∀ (g : GenId) (x : Gen), s.gens[g]? = some x → GenOk s.tasks g x

theorem inv_init : Inv State.init where
  next := rfl
  alone u v hu := hu.elim
  room u hu := hu.elim
  counter u fn arg r hu := Phase.noConfusion hu
  refused := fun n hn => absurd hn List.not_mem_nil
  nodup u := List.nodup_nil
  known u g hu := by
    obtain hu | hu := hu
    · exact absurd hu.symm (Option.some_ne_none g)
    · exact absurd hu List.not_mem_nil
  gens g x hg := absurd hg.symm (Option.some_ne_none x)

variable {s s' : State}

/-- A step of a task that has to do with one generator, `g`. -/
theorem Inv.gen {y : Task} {x x' : Gen} (h : Inv s) (hx : s.gens[g]? = some x)
    (hnew : ¬ y.phase.InNew) (hload : ∀ fn arg r, y.phase ≠ .loaded fn arg r)
    (habout : ∀ i, i ≠ g → (s.tasks t).phase.about ≠ some i ∧ y.phase.about ≠ some i ∧
      (i ∈ y.frames ↔ i ∈ (s.tasks t).frames))
    (hnodup : y.frames.Nodup) (hok : GenOk (setTask s.tasks t y) g x') :
    Inv ({ s with tasks := setTask s.tasks t y }.setGen g x') := by
  have hlt : g < s.gens.length := (List.getElem?_eq_some_iff.mp hx).1
  have hlen : (s.gens.set g x').length = s.gens.length := List.length_set
  refine ⟨?_, ?_, ?_, ?_, h.refused, ?_, ?_, ?_⟩
  · exact h.next.trans hlen.symm
  · intro u v hu hv
    have hne : ∀ w, (setTask s.tasks t y w).phase.InNew → (s.tasks w).phase.InNew := by
      intro w hw
      by_cases hwt : w = t
      · subst hwt
        rw [setTask_self] at hw
        exact absurd hw hnew
      · rwa [setTask_ne _ hwt] at hw
    exact h.alone u v (hne u hu) (hne v hv)
  · intro u hu
    change (setTask s.tasks t y u).phase.InNew at hu
    by_cases hut : u = t
    · rw [hut, setTask_self] at hu
      exact absurd hu hnew
    · rw [setTask_ne _ hut] at hu
      exact h.room u hu
  · intro u fn arg r hu
    change (setTask s.tasks t y u).phase = _ at hu
    by_cases hut : u = t
    · rw [hut, setTask_self] at hu
      exact absurd hu (hload fn arg r)
    · rw [setTask_ne _ hut] at hu
      exact h.counter u fn arg r hu
  · intro u
    show (setTask s.tasks t y u).frames.Nodup
    by_cases hut : u = t
    · rw [hut, setTask_self]
      exact hnodup
    · rw [setTask_ne _ hut]
      exact h.nodup u
  · intro u i hi
    change (setTask s.tasks t y u).phase.about = some i ∨ i ∈ (setTask s.tasks t y u).frames at hi
    show i < (s.gens.set g x').length
    rw [hlen]
    by_cases hig : i = g
    · rw [hig]
      exact hlt
    · by_cases hut : u = t
      · rw [hut, setTask_self] at hi
        obtain ⟨-, hy, hf⟩ := habout i hig
        exact h.known t i (.inr (hf.mp (hi.resolve_left hy)))
      · rw [setTask_ne _ hut] at hi
        exact h.known u i hi
  · intro i z hz
    change (s.gens.set g x')[i]? = some z at hz
    by_cases hig : i = g
    · rw [hig, List.getElem?_set_self hlt] at hz
      rw [hig, ← Option.some.inj hz]
      exact hok
    · rw [List.getElem?_set_ne (Ne.symm hig)] at hz
      obtain ⟨hold, hy, hf⟩ := habout i hig
      exact (h.gens i z hz).other hold hy hf

/-- A step of a task inside `jacl_gen_new`, or at its beginning. -/
theorem Inv.setPhase (h : Inv s) (hold : (s.tasks t).phase.about = none) (hnew : p.about = none)
    (halone : p.InNew → ∀ u, u ≠ t → ¬ (s.tasks u).phase.InNew) (hroom : p.InNew → s.next < genStacks)
    (hload : ∀ fn arg r, p = .loaded fn arg r → r = s.next) : Inv (s.setPhase t p) := by
  have hat : ∀ u, u ≠ t → (setTask s.tasks t { s.tasks t with phase := p } u) = s.tasks u :=
    fun u hu => setTask_ne _ hu
  refine ⟨h.next, ?_, ?_, ?_, h.refused, ?_, ?_, ?_⟩
  · intro u v hu hv
    simp only [State.setPhase] at hu hv
    by_cases hut : u = t <;> by_cases hvt : v = t
    · rw [hut, hvt]
    · rw [hut, setTask_self] at hu
      rw [hat v hvt] at hv
      exact absurd hv (halone hu v hvt)
    · rw [hvt, setTask_self] at hv
      rw [hat u hut] at hu
      exact absurd hu (halone hv u hut)
    · rw [hat u hut] at hu
      rw [hat v hvt] at hv
      exact h.alone u v hu hv
  · intro u hu
    simp only [State.setPhase] at hu
    by_cases hut : u = t
    · rw [hut, setTask_self] at hu
      exact hroom hu
    · rw [hat u hut] at hu
      exact h.room u hu
  · intro u fn arg r hu
    simp only [State.setPhase] at hu
    by_cases hut : u = t
    · rw [hut, setTask_self] at hu
      exact hload fn arg r hu
    · rw [hat u hut] at hu
      exact h.counter u fn arg r hu
  · intro u
    simp only [State.setPhase]
    by_cases hut : u = t
    · rw [hut, setTask_self]
      exact h.nodup t
    · rw [hat u hut]
      exact h.nodup u
  · intro u i hi
    simp only [State.setPhase] at hi
    by_cases hut : u = t
    · rw [hut, setTask_self] at hi
      refine h.known t i (.inr (hi.resolve_left ?_))
      rw [hnew]
      exact (Option.some_ne_none i).symm
    · rw [hat u hut] at hi
      exact h.known u i hi
  · intro i z hz
    refine (h.gens i z hz).other ?_ ?_ Iff.rfl
    · rw [hold]
      exact (Option.some_ne_none i).symm
    · rw [hnew]
      exact (Option.some_ne_none i).symm

/-- A new generator. -/
theorem genOk_new (hphase : ∀ u, (tasks u).phase.about ≠ some g)
    (hframes : ∀ u, g ∉ (tasks u).frames) (fn arg : JaclVal) :
    GenOk tasks g ⟨fn, g, arg, false, 0, .fresh, []⟩ where
  stack := rfl
  fresh := ⟨fun _ => rfl, fun _ => rfl⟩
  primed := .inl rfl
  started hp := absurd rfl hp
  marker hs := Bool.noConfusion hs
  before u v hu := absurd (Phase.about_of_before hu) (hphase u)
  reading u a hu := absurd (by rw [hu]; rfl) (hphase u)
  marked u a hu := absurd (by rw [hu]; rfl) (hphase u)
  running u hu := absurd hu (hframes u)
  frame u v hu := absurd hu (hframes u)
  ended u st hu := absurd (by rw [hu]; rfl) (hphase u)
  after u v st st' hu := absurd (by rw [hu]; rfl) (hphase u)
  dones _ := ⟨fun hd => absurd rfl hd, fun hf => Fiber.noConfusion hf⟩

theorem Inv.append (h : Inv s) (hnone : ∀ u, ¬ (s.tasks u).phase.InNew) (fn arg : JaclVal) :
    Inv { s with next := s.next + 1, gens := s.gens ++ [⟨fn, s.next, arg, false, 0, .fresh, []⟩] } := by
  have hlen : ∀ y : Gen, (s.gens ++ [y]).length = s.gens.length + 1 := fun y => by
    rw [List.length_append, List.length_singleton]
  refine ⟨?_, h.alone, fun u hu => absurd hu (hnone u), ?_, h.refused, h.nodup, ?_, ?_⟩
  · show s.next + 1 = (s.gens ++ [_]).length
    rw [hlen, h.next]
  · intro u fn arg r hu
    change (s.tasks u).phase = _ at hu
    exact absurd (by rw [hu]; exact trivial) (hnone u)
  · intro u i hi
    show i < (s.gens ++ [_]).length
    rw [hlen]
    exact Nat.lt_succ_of_lt (h.known u i hi)
  · intro i z hz
    change (s.gens ++ [_])[i]? = some z at hz
    by_cases hi : i < s.gens.length
    · rw [List.getElem?_append_left hi] at hz
      exact h.gens i z hz
    · have hlt := (List.getElem?_eq_some_iff.mp hz).1
      rw [hlen] at hlt
      obtain rfl : i = s.gens.length :=
        Nat.le_antisymm (Nat.le_of_lt_succ hlt) (Nat.not_lt.mp hi)
      rw [List.getElem?_concat_length] at hz
      rw [← Option.some.inj hz, h.next]
      apply genOk_new
      · exact fun u hu => Nat.lt_irrefl _ (h.known u _ (.inl hu))
      · exact fun u hu => Nat.lt_irrefl _ (h.known u _ (.inr hu))

theorem Inv.genNew {fn arg : JaclVal} (h : Inv s) (ha : Allowed s (.enterNew t fn arg)) (hs : Generators.genNew s t fn arg = some s') : Inv s' := by
  obtain ⟨hnone, hroom⟩ := ha
  rw [Generators.genNew] at hs
  split at hs
  · rename_i hidle
    split at hs
    · rename_i hfull
      obtain rfl := Option.some.inj hs
      have hfew : ¬ s.gens.length < genStacks := by
        rw [← h.next]
        exact Nat.not_lt.mpr hfull
      refine { h with refused := ?_ }
      intro n hn
      obtain rfl | hn := List.mem_cons.mp hn
      · exact hroom.resolve_left hfew
      · exact h.refused n hn
    · rename_i hleft
      obtain rfl := Option.some.inj hs
      apply h.setPhase
      · rw [hidle]
        rfl
      · rfl
      · exact fun _ u _ => hnone u
      · exact fun _ => Nat.not_le.mp hleft
      · exact fun fn arg r hr => Phase.noConfusion hr
  · contradiction

theorem Inv.genRead (h : Inv s) (hs : Generators.genRead s t = some s') : Inv s' := by
  rw [Generators.genRead] at hs
  split at hs
  · rename_i fn arg hat
    obtain rfl := Option.some.inj hs
    have hin : (s.tasks t).phase.InNew := by
      rw [hat]
      exact trivial
    apply h.setPhase
    · rw [hat]
      rfl
    · rfl
    · exact fun _ u hu hin' => hu (h.alone u t hin' hin)
    · exact fun _ => h.room t hin
    · intro fn' arg' r hr
      injection hr with _ _ hr
      exact hr.symm
  · contradiction

theorem Inv.genTake (h : Inv s) (hs : Generators.genTake s t = some s') : Inv s' := by
  rw [Generators.genTake] at hs
  split at hs
  · rename_i fn arg r hat
    obtain rfl := Option.some.inj hs
    have hin : (s.tasks t).phase.InNew := by
      rw [hat]
      exact trivial
    rw [h.counter t fn arg r hat]
    have hidle : Inv (s.setPhase t .idle) := by
      apply h.setPhase
      · rw [hat]
        rfl
      · rfl
      · exact False.elim
      · exact False.elim
      · exact fun fn arg r hr => Phase.noConfusion hr
    refine hidle.append ?_ fn arg
    intro u hu
    simp only [State.setPhase] at hu
    by_cases hut : u = t
    · rw [hut, setTask_self] at hu
      exact hu
    · rw [setTask_ne _ hut] at hu
      exact hut (h.alone u t hu hin)
  · contradiction

theorem Inv.genNext (h : Inv s) (ha : Allowed s (.enterNext t g)) (hs : Generators.genNext s t g = some s') : Inv s' := by
  obtain ⟨hnone, -⟩ := ha
  rw [Generators.genNext] at hs
  split at hs
  · rename_i x hidle hx
    obtain rfl := Option.some.inj hs
    have hset : s.gens.set g x = s.gens := by
      obtain ⟨hlt, heq⟩ := List.getElem?_eq_some_iff.mp hx
      rw [← heq]
      exact List.set_getElem_self hlt
    have hinv := h.gen (y := { s.tasks t with
      phase := .reading g (if x.started then 0 else x.prime) }) hx False.elim
      (fun fn arg r hr => Phase.noConfusion hr) ?_ (h.nodup t)
      ((h.gens g x hx).next hidle hnone)
    · simp only [State.setGen, hset] at hinv
      exact hinv
    · intro i hi
      refine ⟨?_, fun he => hi (Option.some.inj he).symm, Iff.rfl⟩
      rw [hidle]
      exact (Option.some_ne_none i).symm
  · contradiction

theorem Inv.genMark (h : Inv s) (hs : Generators.genMark s t = some s') : Inv s' := by
  rw [Generators.genMark] at hs
  split at hs
  · rename_i g arg hat
    obtain ⟨x, hx, rfl⟩ := Option.map_eq_some_iff.mp hs
    refine h.gen hx False.elim (fun fn arg r hr => Phase.noConfusion hr) ?_ (h.nodup t)
      ((h.gens g x hx).mark hat)
    intro i hi
    refine ⟨?_, fun he => hi (Option.some.inj he).symm, Iff.rfl⟩
    rw [hat]
    exact fun he => hi (Option.some.inj he).symm
  · contradiction

theorem Inv.genResume (h : Inv s) (ha : Allowed s (.resume t)) (hs : Generators.genResume s t = some s') : Inv s' := by
  rw [Generators.genResume] at hs
  split at hs
  · rename_i g arg hat
    split at hs
    · rename_i x hx
      split at hs
      · rename_i hready
        obtain rfl := Option.some.inj hs
        have hno : ∀ u st, (s.tasks u).phase ≠ .ended g st :=
          fun u st hu => ha g arg hat ⟨u, st, hu⟩
        refine h.gen hx False.elim (fun fn arg r hr => Phase.noConfusion hr) ?_ ?_
          ((h.gens g x hx).resume hat hready hno)
        · intro i hi
          refine ⟨?_, (Option.some_ne_none i).symm, ?_⟩
          · rw [hat]
            exact fun he => hi (Option.some.inj he).symm
          · rw [List.mem_cons]
            exact ⟨fun hm => hm.resolve_left hi, .inr⟩
        · -- a fiber that runs is not resumed
          refine List.nodup_cons.mpr ⟨fun hm => ?_, h.nodup t⟩
          exact hready.1 ((h.gens g x hx).running t hm)
      · contradiction
    · contradiction
  · contradiction

theorem Inv.genLeave {st : Status} (h : Inv s) (ha : Allowed s (.leave t st)) (hs : Generators.genLeave s t st = some s') : Inv s' := by
  rw [Generators.genLeave] at hs
  split at hs
  · rename_i g gs hat
    obtain ⟨x, hx, rfl⟩ := Option.map_eq_some_iff.mp hs
    have hnodup := h.nodup t
    rw [hat] at hnodup
    obtain ⟨hout, hgs⟩ := List.nodup_cons.mp hnodup
    refine h.gen hx False.elim (fun fn arg r hr => Phase.noConfusion hr) ?_ hgs
      ((h.gens g x hx).leave hat hout ha)
    intro i hi
    rw [hat]
    refine ⟨(Option.some_ne_none i).symm, fun he => hi (Option.some.inj he).symm, ?_⟩
    rw [List.mem_cons]
    exact ⟨.inr, fun hm => hm.resolve_left hi⟩
  · contradiction

theorem Inv.genStore (h : Inv s) (hs : Generators.genStore s t = some s') : Inv s' := by
  rw [Generators.genStore] at hs
  split at hs
  · rename_i g st hat
    obtain ⟨x, hx, rfl⟩ := Option.map_eq_some_iff.mp hs
    refine h.gen hx False.elim (fun fn arg r hr => Phase.noConfusion hr) ?_ (h.nodup t)
      ((h.gens g x hx).store hat)
    intro i hi
    refine ⟨?_, (Option.some_ne_none i).symm, Iff.rfl⟩
    rw [hat]
    exact fun he => hi (Option.some.inj he).symm
  · contradiction

/-- One step. -/
theorem Inv.step {e : Event} (h : Inv s) (ha : Allowed s e) (hs : step s e = some s') : Inv s' := by
  cases e with
  | enterNew t fn arg => exact h.genNew ha hs
  | read t => exact h.genRead hs
  | take t => exact h.genTake hs
  | enterNext t g => exact h.genNext ha hs
  | mark t => exact h.genMark hs
  | resume t => exact h.genResume ha hs
  | leave t st => exact h.genLeave ha hs
  | store t => exact h.genStore hs

theorem Steady.inv (h : Steady s) : Inv s := by
  induction h with
  | init => exact inv_init
  | step _ ha hs ih => exact ih.step ha hs

def makes (t n : Nat) : List Event :=
  (List.range n).flatMap fun _ => [.enterNew t 0 0, .read t, .take t]

def Event.task : Event → Nat
  | .enterNew t _ _ | .read t | .take t | .enterNext t _ | .mark t | .resume t | .leave t _
  | .store t => t

end Jacl.Generators
