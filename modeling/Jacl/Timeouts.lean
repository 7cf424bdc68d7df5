import Jacl.Wire
import Mathlib.Logic.Function.Basic

/-!
# Timeouts

`[timeout D { body }]` bounds the time its body sleeps (`runtime/builtins.c`).  The deadlines
are levels of one stack of 16, which all tasks share; a sleep is cut to what is left of the
innermost level, and charged to that level only.

What timeouts are for is said by the list of pending deadlines: each belongs to the task that
began it, a sleep is cut to what is left of every deadline of its own task, and charged to
each of them (`charge`).  The stack follows that list in the runs whose steps meet a condition
(`Meets`): there is room for a deadline that begins, bodies end normally, the innermost level
is the task's own, and it is the first of the task's deadlines to pass, or the sleep fits in
all of them.

How many nanoseconds a value asks for is computed with floating point and is left as `ns`; it
gives nothing for what is negative or not a number.
-/

namespace Jacl.Timeouts
open Function JaclVal Wire

abbrev TaskId := Nat

/-! ### Deadlines -/

/-- A pending deadline: its number, the task that began it, its budget, what the task has slept
since, and what the sleeps that reached it asked for. -/
structure Deadline where
  num : Nat
  task : TaskId
  budget : Nat
  slept : Nat
  asked : Nat
deriving DecidableEq

/-- The time that is left. -/
def Deadline.left (d : Deadline) : Nat := d.budget - d.slept

/-- The sleeps asked for more than the budget. -/
def Deadline.Over (d : Deadline) : Prop := d.budget < d.asked

instance (d : Deadline) : Decidable d.Over := inferInstanceAs (Decidable (_ < _))

/-- **A sleep of task `t`** that asks for `ask`, with the innermost deadline first: how long it
lasts, and the deadlines after it.  A deadline lets through what is left of it. -/
def charge (t : TaskId) : Nat → List Deadline → Nat × List Deadline
  | ask, [] => (ask, [])
  | ask, d :: ds =>
    if d.task = t then
      let (time, ds) := charge t (min ask d.left) ds
      (time, { d with slept := d.slept + time, asked := d.asked + ask } :: ds)
    else
      let (time, ds) := charge t ask ds
      (time, d :: ds)

/-- No sleep lasts longer than it asks for, or past a deadline of its task. -/
theorem charge_le {t : TaskId} (ask : Nat) (ds : List Deadline) :
    (charge t ask ds).1 ≤ ask ∧ ∀ d ∈ ds, d.task = t → (charge t ask ds).1 ≤ d.left := by
  induction ds generalizing ask with
  | nil => exact ⟨le_rfl, by simp⟩
  | cons d ds ih =>
    unfold charge
    split_ifs with hd
    · obtain ⟨hask, hds⟩ := ih (min ask d.left)
      refine ⟨hask.trans (Nat.min_le_left ..), ?_⟩
      simp only [List.forall_mem_cons]
      exact ⟨fun _ => hask.trans (Nat.min_le_right ..), hds⟩
    · obtain ⟨hask, hds⟩ := ih ask
      refine ⟨hask, ?_⟩
      simp only [List.forall_mem_cons]
      exact ⟨fun h => absurd h hd, hds⟩

/-- The deadline after a sleep that fits. -/
def spend (t : TaskId) (time : Nat) (d : Deadline) : Deadline :=
  if d.task = t then { d with slept := d.slept + time, asked := d.asked + time } else d

/-- A sleep that fits in every deadline of its task lasts as long as it asks for. -/
theorem charge_fits {t : TaskId} {ask : Nat} {ds : List Deadline}
    (h : ∀ d ∈ ds, d.task = t → ask ≤ d.left) : charge t ask ds = (ask, ds.map (spend t ask)) := by
  induction ds with
  | nil => rfl
  | cons d ds ih =>
    have hds := ih fun d hd => h d (List.mem_cons_of_mem _ hd)
    unfold charge
    split_ifs with hd
    · rw [Nat.min_eq_left (h d List.mem_cons_self hd), hds, List.map_cons, spend, if_pos hd]
    · rw [hds, List.map_cons, spend, if_neg hd]

theorem charge_num {t : TaskId} (ask : Nat) (ds : List Deadline) :
    (charge t ask ds).2.map (·.num) = ds.map (·.num) := by
  induction ds generalizing ask with
  | nil => rfl
  | cons d ds ih =>
    unfold charge
    split_ifs
    · rw [List.map_cons, ih, List.map_cons]
    · rw [List.map_cons, ih, List.map_cons]

/-! ### The stack -/

/-- `JACL_TIMEOUT_MAX`. -/
def timeoutMax : Nat := 16

/-- `jacl_to_budget`, `jacl_to_fired` and `jacl_to_depth`; `num` is kept beside them, to say
which deadline a level is. -/
structure Words where
  budget : Nat → Nat
  fired : Nat → Bool
  depth : Nat
  num : Nat → Nat

/-- `jacl_set_error(jacl_str_new("timeout", 7))`. -/
def timeoutErr : JaclVal :=
  (inlineString ("timeout".toList.map fun c => BitVec.ofNat 8 c.toNat)).setError

variable (ns : JaclVal → Option Nat)

/-- `jacl_timeout_begin`, of the deadline `num`. -/
def timeoutBegin (c : Words) (secs : JaclVal) (num : Nat) : Words :=
  if c.depth < timeoutMax then
    { budget := update c.budget c.depth ((ns secs).getD 0)
      fired := update c.fired c.depth false
      depth := c.depth + 1
      num := update c.num c.depth num }
  else c

/-- `jacl_timeout_end`. -/
def timeoutEnd (c : Words) (body : JaclVal) : JaclVal × Words :=
  if 0 < c.depth then
    (if c.fired (c.depth - 1) then timeoutErr else body, { c with depth := c.depth - 1 })
  else (body, c)

/-- `jacl_sleep`: its result, how long it waits, and the stack. -/
def sleep (c : Words) (secs : JaclVal) : JaclVal × Nat × Words :=
  if secs.error then (secs, 0, c)
  else
    match ns secs with
    | none => (errorVal, 0, c)
    | some total =>
      if 0 < c.depth then
        let lvl := c.depth - 1
        let cut := c.budget lvl < total
        let total := if cut then c.budget lvl else total
        (nil, total, { c with
          fired := update c.fired lvl (cut || c.fired lvl)
          budget := update c.budget lvl (c.budget lvl - total) })
      else (nil, total, c)

/-- How long the sleep is to last. -/
def asks (secs : JaclVal) : Nat := if secs.error then 0 else (ns secs).getD 0

/-- The deadlines on the stack, the innermost first. -/
def Words.nums (c : Words) : List Nat := (List.range c.depth).reverse.map c.num

/-! ### Runs -/

/-- What a task does: it begins a timeout, sleeps, ends the body of one, or leaves a body
otherwise: by an error, a return, a break or a continue, for which no end is emitted. -/
inductive Event where
  | enter (t : TaskId) (secs : JaclVal)
  | sleep (t : TaskId) (secs : JaclVal)
  | leave (t : TaskId) (body : JaclVal)
  | escape (t : TaskId)

/-- The stack, the pending deadlines (the innermost first), and how many were begun. -/
structure State where
  words : Words
  pending : List Deadline
  count : Nat

/-- The pending deadlines of a task. -/
def State.own (s : State) (t : TaskId) : List Deadline := s.pending.filter (·.task = t)

/-- The deadlines without the innermost one of the task. -/
def drop (t : TaskId) (ds : List Deadline) : List Deadline := ds.eraseP (·.task = t)

/-- Nothing is pending. -/
def init : State := ⟨⟨fun _ => 0, fun _ => false, 0, fun _ => 0⟩, [], 0⟩

def State.step (s : State) : Event → State
  | .enter t secs =>
    { words := timeoutBegin ns s.words secs s.count
      pending := ⟨s.count, t, (ns secs).getD 0, 0, 0⟩ :: s.pending
      count := s.count + 1 }
  | .sleep t secs =>
    { s with
      words := (sleep ns s.words secs).2.2
      pending := (charge t (asks ns secs) s.pending).2 }
  | .leave t body =>
    { s with words := (timeoutEnd s.words body).2, pending := drop t s.pending }
  | .escape t => { s with pending := drop t s.pending }

/-- Bodies are left that were entered. -/
def Nested (s : State) : Event → Prop
  | .leave t _ => s.own t ≠ []
  | .escape t => s.own t ≠ []
  | _ => True

/-- **The states of a run** of any tasks, each with properly nested timeouts. -/
inductive Reachable : State → Prop
  | init : Reachable init
  | step {s : State} {e : Event} : Reachable s → Nested s e → Reachable (s.step ns e)

/-- **What an event does as timeouts promise.** -/
structure Honest (s : State) (e : Event) : Prop where
  /-- The end of a body reports whether its sleeps asked for more than its budget. -/
  expired : ∀ t body d, e = .leave t body → (s.own t).head? = some d →
    (timeoutEnd s.words body).1 = if d.Over then timeoutErr else body
  /-- A sleep lasts past no deadline of its task. -/
  within : ∀ t secs, e = .sleep t secs → ∀ d ∈ s.own t, (sleep ns s.words secs).2.1 ≤ d.left
  /-- The deadlines on the stack are those whose bodies were entered and not left. -/
  pending : (s.step ns e).words.nums = (s.step ns e).pending.map (·.num)

/-- The innermost level is the task's. -/
def State.OnTop (s : State) (t : TaskId) : Prop := ∃ d ds, s.pending = d :: ds ∧ d.task = t

/-- **The condition on a step.** -/
def Meets (s : State) : Event → Prop
  | .enter _ _ => s.words.depth < timeoutMax
  | .sleep t secs => asks ns secs = 0 ∨ s.pending = [] ∨ s.OnTop t ∧
      ((∀ d ∈ s.own t, asks ns secs ≤ d.left) ∨
        ∀ d ∈ s.own t, s.words.budget (s.words.depth - 1) ≤ d.left)
  | .leave t _ => s.OnTop t
  | .escape _ => False

/-- **The states of a run whose steps meet the condition.** -/
inductive Steady : State → Prop
  | init : Steady init
  | step {s : State} {e : Event} : Steady s → Nested s e → Meets ns s e → Steady (s.step ns e)

/-! ### The stack follows the deadlines -/

variable {ns} {s : State} {c c' : Words} {t : TaskId} {d : Deadline} {ds : List Deadline} {k : Nat}

/-- Level `k` of the stack is the deadline `d`.  What tasks slept in timeouts nested in this one
has not been charged to the level. -/
structure Level (c : Words) (k : Nat) (d : Deadline) : Prop where
  num : c.num k = d.num
  left : d.left ≤ c.budget k
  fired : c.fired k = decide d.Over
  slept : d.slept ≤ d.budget
  /-- As long as the deadline has not cut a sleep, all that was asked for was slept. -/
  paid : ¬d.Over → d.asked = d.slept

/-- The levels from the bottom of the stack are the deadlines. -/
def Levels (c : Words) : List Deadline → Prop
  | [] => True
  | d :: ds => Level c ds.length d ∧ Levels c ds

theorem Level.congr (h : Level c k d) (hn : c'.num k = c.num k) (hb : c'.budget k = c.budget k)
    (hf : c'.fired k = c.fired k) : Level c' k d where
  num := hn.trans h.num
  left := hb ▸ h.left
  fired := hf.trans h.fired
  slept := h.slept
  paid := h.paid

theorem Levels.congr (h : Levels c ds) (hn : ∀ k, k < ds.length → c'.num k = c.num k)
    (hb : ∀ k, k < ds.length → c'.budget k = c.budget k)
    (hf : ∀ k, k < ds.length → c'.fired k = c.fired k) : Levels c' ds := by
  induction ds with
  | nil => trivial
  | cons d ds ih =>
    have hlt := Nat.lt_succ_self ds.length
    refine ⟨h.1.congr (hn _ hlt) (hb _ hlt) (hf _ hlt), ih h.2 ?_ ?_ ?_⟩
    · exact fun k hk => hn k (hk.trans hlt)
    · exact fun k hk => hb k (hk.trans hlt)
    · exact fun k hk => hf k (hk.trans hlt)

/-- A sleep that fits in a deadline leaves its level as it is. -/
theorem Level.spend {time : Nat} (h : Level c k d) (ht : d.task = t → time ≤ d.left) :
    Level c k (spend t time d) := by
  unfold Timeouts.spend
  split_ifs with hd
  · have hle := ht hd
    obtain ⟨hn, hl, hf, hs, hp⟩ := h
    unfold Deadline.left at hle hl
    have hover : d.budget < d.asked + time ↔ d.Over := by
      refine ⟨fun hlt => ?_, fun ho => Nat.lt_of_lt_of_le ho (Nat.le_add_right ..)⟩
      by_contra ho
      rw [hp ho] at hlt
      omega
    refine ⟨hn, ?_, ?_, ?_, fun ho => ?_⟩
    · change d.budget - (d.slept + time) ≤ c.budget k
      omega
    · rw [hf]
      exact decide_eq_decide.mpr hover.symm
    · change d.slept + time ≤ d.budget
      omega
    · change d.asked + time = d.slept + time
      rw [hp fun h => ho (hover.mpr h)]
  · exact h

theorem Levels.spend {time : Nat} (h : Levels c ds) (ht : ∀ d ∈ ds, d.task = t → time ≤ d.left) :
    Levels c (ds.map (spend t time)) := by
  induction ds with
  | nil => trivial
  | cons d ds ih =>
    refine ⟨?_, ih h.2 fun d hd => ht d (List.mem_cons_of_mem _ hd)⟩
    rw [List.length_map]
    exact h.1.spend (ht d List.mem_cons_self)

/-- The stack has the deadlines that are pending. -/
structure Agrees (s : State) : Prop where
  depth : s.words.depth = s.pending.length
  levels : Levels s.words s.pending

theorem Levels.nums (h : Levels c ds) (hc : c.depth = ds.length) : c.nums = ds.map (·.num) := by
  unfold Words.nums
  rw [hc]
  clear hc
  induction ds with
  | nil => rfl
  | cons d ds ih =>
    rw [List.length_cons, List.range_succ, List.reverse_append, List.reverse_singleton,
      List.singleton_append, List.map_cons, List.map_cons, h.1.num, ih h.2]

theorem State.own_cons (hp : s.pending = d :: ds) (hd : d.task = t) :
    s.own t = d :: ds.filter (·.task = t) := by
  rw [State.own, hp, List.filter_cons_of_pos (by simpa using hd)]

/-! ### Sleeps -/

/-- A sleep that asks for time is no error. -/
theorem asks_cases (ns : JaclVal → Option Nat) (c : Words) (secs : JaclVal) :
    asks ns secs = 0 ∧ (sleep ns c secs).2 = (0, c) ∨
      secs.error = false ∧ ns secs = some (asks ns secs) := by
  unfold asks sleep
  cases secs.error
  · cases ns secs with
    | none => exact .inl ⟨rfl, rfl⟩
    | some total => exact .inr ⟨rfl, rfl⟩
  · exact .inl ⟨rfl, rfl⟩

/-- A sleep is cut to the innermost budget, and charged to it. -/
theorem sleep_eq {secs : JaclVal} {total : Nat} (he : secs.error = false)
    (hns : ns secs = some total) (hk : c.depth = k + 1) :
    (sleep ns c secs).2 = (min total (c.budget k), { c with
      fired := update c.fired k (decide (c.budget k < total) || c.fired k)
      budget := update c.budget k (c.budget k - min total (c.budget k)) }) := by
  have hmin : (if c.budget k < total then c.budget k else total) = min total (c.budget k) := by
    split_ifs <;> omega
  simp [sleep, he, hns, hk, hmin]

theorem sleep_bottom {secs : JaclVal} {total : Nat} (he : secs.error = false)
    (hns : ns secs = some total) (hk : c.depth = 0) : (sleep ns c secs).2 = (total, c) := by
  simp [sleep, he, hns, hk]

/-- What a sleep is to do to the stack and the deadlines. -/
def Follows (ns : JaclVal → Option Nat) (c : Words) (t : TaskId) (secs : JaclVal)
    (ds : List Deadline) : Prop :=
  (sleep ns c secs).2.1 = (charge t (asks ns secs) ds).1 ∧
    (sleep ns c secs).2.2.depth = c.depth ∧
      Levels (sleep ns c secs).2.2 (charge t (asks ns secs) ds).2

/-- A sleep of no time. -/
theorem follows_zero {secs : JaclVal} (h : Levels c ds) (hz : asks ns secs = 0) :
    Follows ns c t secs ds := by
  have hfits : charge t 0 ds = (0, ds.map (spend t 0)) := charge_fits fun _ _ _ => Nat.zero_le _
  have hlev : Levels c (ds.map (spend t 0)) := h.spend fun _ _ _ => Nat.zero_le _
  have hsame : (sleep ns c secs).2 = (0, c) := by
    rcases asks_cases ns c secs with ⟨-, hs⟩ | ⟨he, hns⟩
    · exact hs
    · rw [hz] at hns
      cases hk : c.depth with
      | zero => exact sleep_bottom he hns hk
      | succ k => simp [sleep_eq he hns hk]
  unfold Follows
  rw [hsame, hz, hfits]
  exact ⟨rfl, rfl, hlev⟩

/-- A sleep that fits in all deadlines of the task. -/
theorem follows_fits {secs : JaclVal} (h : Levels c (d :: ds)) (hk : c.depth = ds.length + 1)
    (hd : d.task = t) (he : secs.error = false) (hns : ns secs = some (asks ns secs))
    (hfit : ∀ d' ∈ d :: ds, d'.task = t → asks ns secs ≤ d'.left) : Follows ns c t secs (d :: ds) := by
  have hle := (hfit d List.mem_cons_self hd).trans h.1.left
  unfold Follows
  rw [sleep_eq he hns hk, charge_fits hfit, Nat.min_eq_left hle]
  have hrest : Levels c (ds.map (spend t (asks ns secs))) :=
    h.2.spend fun d' hd' => hfit d' (List.mem_cons_of_mem _ hd')
  refine ⟨rfl, rfl, ?_, hrest.congr (fun _ _ => rfl) (fun j hj => ?_) fun j hj => ?_⟩
  · obtain ⟨hn, hl, hf, hs, hp⟩ := h.1.spend (t := t) fun _ => hfit d List.mem_cons_self hd
    rw [List.length_map]
    refine ⟨hn, ?_, ?_, hs, hp⟩
    · have hleft : (spend t (asks ns secs) d).left = d.left - asks ns secs := by
        rw [spend, if_pos hd]
        exact (Nat.sub_sub ..).symm
      rw [hleft]
      refine (Nat.sub_le_sub_right h.1.left _).trans_eq ?_
      exact (update_self (f := c.budget) ..).symm
    · rw [← hf]
      simpa using fun hlt => absurd hle (Nat.not_le_of_lt hlt)
  · rw [List.length_map] at hj
    exact update_of_ne hj.ne ..
  · rw [List.length_map] at hj
    exact update_of_ne hj.ne ..

/-- A sleep that the innermost deadline cuts, which is the first to pass. -/
theorem follows_cut {secs : JaclVal} (h : Levels c (d :: ds)) (hk : c.depth = ds.length + 1)
    (hd : d.task = t) (he : secs.error = false) (hns : ns secs = some (asks ns secs))
    (hlt : c.budget ds.length < asks ns secs)
    (hfirst : ∀ d' ∈ d :: ds, d'.task = t → c.budget ds.length ≤ d'.left) :
    Follows ns c t secs (d :: ds) := by
  have hleft : d.left = c.budget ds.length :=
    le_antisymm h.1.left (hfirst d List.mem_cons_self hd)
  have hfits : charge t d.left ds = (d.left, ds.map (spend t d.left)) :=
    charge_fits fun d' hd' hdt => hleft ▸ hfirst d' (List.mem_cons_of_mem _ hd') hdt
  unfold Follows
  rw [sleep_eq he hns hk, charge, if_pos hd, Nat.min_eq_right (by omega : d.left ≤ _), hfits,
    Nat.min_eq_right hlt.le]
  have hrest : Levels c (ds.map (spend t d.left)) :=
    h.2.spend fun d' hd' hdt => hleft ▸ hfirst d' (List.mem_cons_of_mem _ hd') hdt
  refine ⟨hleft.symm, rfl, ?_, hrest.congr (fun _ _ => rfl) (fun j hj => ?_) fun j hj => ?_⟩
  · obtain ⟨hn, hl, hf, hs, hp⟩ := h.1
    have hover : d.budget < d.asked + asks ns secs := by
      -- all that is left is not enough
      by_cases ho : d.Over
      · exact Nat.lt_of_lt_of_le ho (Nat.le_add_right ..)
      · rw [hp ho]
        unfold Deadline.left at hleft
        omega
    unfold Deadline.left at *
    rw [List.length_map]
    refine ⟨hn, ?_, ?_, ?_, fun ho => absurd hover ho⟩
    · change d.budget - (d.slept + (d.budget - d.slept)) ≤ _
      omega
    · change update c.fired ds.length _ ds.length = decide (d.budget < d.asked + asks ns secs)
      rw [update_self, decide_eq_true hlt, decide_eq_true hover, Bool.true_or]
    · change d.slept + (d.budget - d.slept) ≤ d.budget
      omega
  · rw [List.length_map] at hj
    exact update_of_ne hj.ne ..
  · rw [List.length_map] at hj
    exact update_of_ne hj.ne ..

/-- **A sleep that meets the condition** lasts as long as the deadlines of its task let it. -/
theorem Agrees.follows {secs : JaclVal} (h : Agrees s) (hm : Meets ns s (.sleep t secs)) :
    Follows ns s.words t secs s.pending := by
  have hc := h.depth
  rcases asks_cases ns s.words secs with ⟨hz, -⟩ | ⟨he, hns⟩
  · exact follows_zero h.levels hz
  rcases hm with hz | hp | ⟨⟨d, ds, hp, hd⟩, hfirst⟩
  · exact follows_zero h.levels hz
  · rw [hp] at hc ⊢
    unfold Follows
    rw [sleep_bottom he hns hc]
    exact ⟨rfl, rfl, trivial⟩
  · have hmem : ∀ d', d' ∈ s.own t ↔ d' ∈ s.pending ∧ d'.task = t := by simp [State.own]
    have hk : s.words.depth = ds.length + 1 := by rw [hc, hp, List.length_cons]
    have hlev := h.levels
    rw [hp] at hlev hmem ⊢
    rw [hk, Nat.add_sub_cancel] at hfirst
    by_cases hfit : ∀ d' ∈ s.own t, asks ns secs ≤ d'.left
    · exact follows_fits hlev hk hd he hns fun d' hd' ht => hfit d' ((hmem d').mpr ⟨hd', ht⟩)
    · obtain hfirst := hfirst.resolve_left hfit
      refine follows_cut hlev hk hd he hns ?_ fun d' hd' ht => hfirst d' ((hmem d').mpr ⟨hd', ht⟩)
      by_contra hle
      exact hfit fun d' hd' => (not_lt.mp hle).trans (hfirst d' hd')

/-! ### Steps and runs -/

theorem drop_top (hd : d.task = t) : drop t (d :: ds) = ds := by
  simp [drop, hd]

/-- **A step that meets the condition keeps the stack in step** with the deadlines. -/
theorem Agrees.step {e : Event} (h : Agrees s) (hm : Meets ns s e) : Agrees (s.step ns e) := by
  cases e with
  | enter t secs =>
    have hroom : s.words.depth < timeoutMax := hm
    have hbegin : timeoutBegin ns s.words secs s.count =
        { budget := update s.words.budget s.pending.length ((ns secs).getD 0)
          fired := update s.words.fired s.pending.length false
          depth := s.pending.length + 1
          num := update s.words.num s.pending.length s.count } := by
      rw [timeoutBegin, if_pos hroom, h.depth]
    unfold State.step
    simp only [hbegin]
    refine ⟨rfl, ⟨update_self .., ?_, ?_, Nat.zero_le _, fun _ => rfl⟩, h.levels.congr ?_ ?_ ?_⟩
    · simp [Deadline.left]
    · simp [Deadline.Over]
    · exact fun j hj => update_of_ne hj.ne ..
    · exact fun j hj => update_of_ne hj.ne ..
    · exact fun j hj => update_of_ne hj.ne ..
  | sleep t secs =>
    obtain ⟨-, hdepth, hlev⟩ := h.follows hm
    refine ⟨?_, hlev⟩
    have hlen := congrArg List.length (charge_num (t := t) (asks ns secs) s.pending)
    rw [List.length_map, List.length_map] at hlen
    exact hdepth.trans (h.depth.trans hlen.symm)
  | leave t body =>
    obtain ⟨d, ds, hp, hd⟩ := hm
    obtain ⟨hdepth, hlev⟩ := h
    rw [hp] at hdepth hlev
    have hpos : 0 < s.words.depth := hdepth ▸ Nat.succ_pos _
    refine ⟨?_, ?_⟩
    · simp [State.step, timeoutEnd, hp, drop_top hd, hdepth]
    · simp only [State.step, timeoutEnd, if_pos hpos, hp, drop_top hd]
      exact hlev.2.congr (fun _ _ => rfl) (fun _ _ => rfl) fun _ _ => rfl
  | escape t => exact hm.elim

theorem Steady.agrees (h : Steady ns s) : Agrees s := by
  induction h with
  | init => exact ⟨rfl, trivial⟩
  | step _ _ hm ih => exact ih.step hm

theorem Steady.reachable (h : Steady ns s) : Reachable ns s := by
  induction h with
  | init => exact .init
  | step _ hn _ ih => exact ih.step hn

/-- **Timeouts keep what they promise** in the runs whose steps meet the condition: an end
reports whether the sleeps in its body asked for more than its budget, no sleep lasts past a
deadline of its task, and after each step the deadlines on the stack are those of the bodies
that were entered and not left. -/
theorem Steady.honest {e : Event} (h : Steady ns s) (hm : Meets ns s e) : Honest ns s e where
  expired t body d he hown := by
    subst he
    obtain ⟨d', ds, hp, hd'⟩ := hm
    obtain rfl : d' = d := by
      rw [State.own_cons hp hd'] at hown
      exact Option.some.inj hown
    obtain ⟨hdepth, hlev⟩ := h.agrees
    rw [hp] at hdepth hlev
    have hpos : 0 < s.words.depth := hdepth ▸ Nat.succ_pos _
    rw [timeoutEnd, if_pos hpos]
    simp only [hdepth, List.length_cons, Nat.add_sub_cancel, hlev.1.fired, decide_eq_true_eq]
  within t secs he d hd := by
    subst he
    rw [(h.agrees.follows hm).1]
    obtain ⟨hd, ht⟩ := List.mem_filter.mp hd
    exact (charge_le _ _).2 d hd (of_decide_eq_true ht)
  pending := by
    obtain ⟨hdepth, hlev⟩ := h.agrees.step hm
    exact hlev.nums hdepth

/-- Whole seconds. -/
def wholeSecs (v : JaclVal) : Option Nat :=
  if v.isI32 ∧ 0 ≤ v.asI32 then some (v.asI32.toNat * 10 ^ 9) else none

/-- A sleep of 3 seconds in a timeout of 1 second, in one of 5 seconds. -/
theorem honest_cut : ∃ s, Steady wholeSecs s ∧ Honest wholeSecs s (.leave 0 nil) ∧
    (timeoutEnd s.words nil).1 = timeoutErr := by
  have h₁ := (@Steady.init wholeSecs).step (e := .enter 0 (i32 5)) trivial
    (show (0 : Nat) < timeoutMax by decide)
  have h₂ := h₁.step (e := .enter 0 (i32 1)) trivial (show (1 : Nat) < timeoutMax by decide)
  have h₃ := h₂.step (e := .sleep 0 (i32 3)) trivial
    (.inr (.inr ⟨⟨_, _, rfl, rfl⟩, .inr (by decide)⟩))
  exact ⟨_, h₃, h₃.honest (e := .leave 0 nil) ⟨_, _, rfl, rfl⟩, rfl⟩

/-- **A sleep of 5 seconds in a timeout of 10 seconds outlasts one of 1 second around it.** -/
theorem not_honest : ¬∀ s e, Reachable wholeSecs s → Nested s e → Honest wholeSecs s e := by
  intro hall
  have h₁ := (@Reachable.init wholeSecs).step (e := .enter 0 (i32 1)) trivial
  have h₂ := h₁.step (e := .enter 0 (i32 10)) trivial
  have hle := (hall _ (.sleep 0 (i32 5)) h₂ trivial).within 0 (i32 5) rfl ⟨0, 0, 10 ^ 9, 0, 0⟩
    (by decide)
  exact absurd hle (by decide)

end Jacl.Timeouts
