import Jacl.Pipelines
import Mathlib.Tactic.Common

/-!
# Pipelines reap what they start

Each child that a spawn gave is joined once, each end that was opened is freed once and not
used afterwards, what is kept of a stage is the end of its text and its value, and the failure
is that of the first stage that failed (`Reaps`).  This holds in the runs in which no open of a
stage's stderr fails after its spawn, no task is cancelled while it is suspended, no read of a
stage's stderr fails before its end while the stages are reaped, and what is said names no
program, and holds no short text, with a NUL byte (`Meets`).
-/

namespace Jacl.Pipeline
open Function Chan

/-! ### Ledgers -/

variable {κ : Type} [DecidableEq κ]

omit [DecidableEq κ] in
/-- What is held can be used. -/
theorem Ledger.use_live {l : Ledger κ} {r : κ} (h : l.life r = .live) : l.use r = l := by
  cases l
  simp only [Ledger.use, Ledger.mk.injEq, true_and]
  simp_all

omit [DecidableEq κ] in
theorem Ledger.useAll_live {l : Ledger κ} {rs : List κ} (h : ∀ r ∈ rs, l.life r = .live) :
    l.useAll rs = l := by
  induction rs with
  | nil => rfl
  | cons r rs ih =>
    have hr : l.use r = l := Ledger.use_live (h r List.mem_cons_self)
    calc l.useAll (r :: rs) = (l.use r).useAll rs := rfl
      _ = l.useAll rs := by rw [hr]
      _ = l := ih fun r hr => h r (List.mem_cons_of_mem _ hr)

@[simp] theorem Ledger.acquire_life (l : Ledger κ) (r q : κ) :
    (l.acquire r).life q = if q = r then .live else l.life q := by
  simp [Ledger.acquire, update_apply]

@[simp] theorem Ledger.release_life (l : Ledger κ) (r q : κ) :
    (l.release r).life q = if q = r then .dead else l.life q := by
  simp [Ledger.release, update_apply]

theorem Ledger.acquire_bad {l : Ledger κ} {r : κ} (h : l.life r = .none) :
    (l.acquire r).bad = l.bad := by
  simp [Ledger.acquire, h]

theorem Ledger.release_bad {l : Ledger κ} {r : κ} (h : l.life r = .live) :
    (l.release r).bad = l.bad := by
  simp [Ledger.release, h]

/-! ### What is kept of a stage -/

/-- The text of the frames of a stage's stderr. -/
def textOf (fs : List Frame) : Bytes :=
  (fs.filter (·.1 ≠ stderrValue)).flatMap Prod.snd

/-- The value of the frames of a stage's stderr. -/
def valueOf (fs : List Frame) : Bytes :=
  (fs.filter (·.1 = stderrValue)).flatMap Prod.snd

/-- The last `min 512 b.length` bytes. -/
def lastOf (b : Bytes) : Bytes := b.drop (b.length - stageErrTail)

theorem textOf_snoc (fs : List Frame) (f : Frame) :
    textOf (fs ++ [f]) = if f.1 = stderrValue then textOf fs else textOf fs ++ f.2 := by
  by_cases h : f.1 = stderrValue <;> simp [textOf, List.filter_append, h]

theorem valueOf_snoc (fs : List Frame) (f : Frame) :
    valueOf (fs ++ [f]) = if f.1 = stderrValue then valueOf fs ++ f.2 else valueOf fs := by
  by_cases h : f.1 = stderrValue <;> simp [valueOf, List.filter_append, h]

theorem length_lastOf (b : Bytes) : (lastOf b).length = min stageErrTail b.length := by
  rw [lastOf, List.length_drop]
  omega

/-- `pipe_tail` keeps the last bytes of all that came. -/
theorem pipeTail_lastOf (a b : Bytes) : pipeTail (lastOf a) b = lastOf (a ++ b) := by
  have hk : a.length + b.length - stageErrTail - a.length = b.length - stageErrTail := by omega
  have happ : lastOf (a ++ b) = a.drop (a.length + b.length - stageErrTail) ++
      b.drop (b.length - stageErrTail) := by
    rw [lastOf, List.length_append, List.drop_append, hk]
  have hlen : (lastOf a).length = min stageErrTail a.length := length_lastOf a
  unfold pipeTail
  simp only [happ, hlen]
  split
  · next h =>
    have ha : a.drop (a.length + b.length - stageErrTail) = [] :=
      List.drop_of_length_le (by omega)
    rw [ha, List.nil_append]
  · next h =>
    have hb : b.length - stageErrTail = 0 := by omega
    have hd : a.length - stageErrTail + (if stageErrTail < min stageErrTail a.length + b.length
        then min stageErrTail a.length + b.length - stageErrTail else 0) =
        a.length + b.length - stageErrTail := by
      split <;> omega
    rw [hb, List.drop_zero, lastOf, List.drop_drop, hd]

/-! ### Reaping -/

section Spec

variable (names : Nat → Bytes) (decode : Bytes → JaclVal) (s : State)

/-- A stage that could not start, or that failed. -/
def State.Fails (i : Nat) : Prop := s.spawned ≤ i ∨ s.status i ≠ 0

/-- The first one. -/
def State.FailsFirst (i : Nat) : Prop := s.Fails i ∧ ∀ j < i, ¬ s.Fails j

/-- The value of stage `i`, of what it sent. -/
def State.own (i : Nat) : Answer :=
  if stageValue < (valueOf (s.sent i)).length then
    .error "a value larger than 16 KiB from " (some (names i)) none
  else if valueOf (s.sent i) = [] then .nil
  else .value (decode (valueOf (s.sent i)))

/-- The failure of stage `i`. -/
def State.blame (i : Nat) : Answer :=
  if s.spawned ≤ i then .error "could not spawn " (some (names i)) none
  else if (s.own names decode i).isError then s.own names decode i
  else .error "stage failed: " (some (names i))
    (if textOf (s.sent i) = [] then none else some (lastOf (textOf (s.sent i))))

/-- Why the output was cut off, if it was. -/
def State.cut : After → Option Nat
  | .atEnd => if s.broke then some 9 else s.outEnd.join
  | .cancel => some 7
  | _ => none

end Spec

/-- **What a pipeline leaves when its stages were reaped.** -/
structure Reaps (n : Nat) (names : Nat → Bytes) (decode : Bytes → JaclVal) (k : After)
    (s : State) : Prop where
  released : ∀ r, s.ledger.life r ≠ .live
  joined : ∀ i < s.spawned, s.ledger.life (.child i) = .dead
  tail : ∀ i < s.spawned, s.tail i = lastOf (textOf (s.sent i))
  valOver : ∀ i < s.spawned, s.valOver i = decide (stageValue < (valueOf (s.sent i)).length)
  val : ∀ i < s.spawned, s.valOver i = false → s.val i = valueOf (s.sent i)
  fails : pipeFailure n names decode s = none ↔ (∀ i < n, ¬ s.Fails i) ∧ s.cut k = none
  first : ∀ i < n, s.FailsFirst i → pipeFailure n names decode s = some (s.blame names decode i)
  cut : (∀ i < n, ¬ s.Fails i) → pipeFailure n names decode s = (s.cut k).map .severed
  last : (∀ i < n, ¬ s.Fails i) → s.cut k = none →
    pipeline n names decode s = s.own names decode (n - 1)

/-- **What a pipeline is to do**, wherever it is. -/
structure Orderly (n : Nat) (names : Nat → Bytes) (decode : Bytes → JaclVal) (s : State) :
    Prop where
  proper : s.ledger.bad = false
  refused : ∀ a, s.pc = .refused a → ∀ r, s.ledger.life r = .none
  finished : ∀ k, s.pc = .finished k → Reaps n names decode k s
  failed : ∀ a, s.pc = .failed a → Reaps n names decode .start s ∧
    a = (pipeFailure n names decode s).getD (.error "could not open the output" none none)

/-- What is said as C writes it. -/
def Answer.written : Answer → Answer
  | .error what name detail => .error what (name.map cName) (detail.map strNew)
  | a => a

/-- What is said has no NUL byte that cuts it off. -/
structure Legible (n : Nat) (names : Nat → Bytes) (decode : Bytes → JaclVal) (s : State) :
    Prop where
  first : ∀ i < n, s.FailsFirst i →
    (s.blame names decode i).written = s.blame names decode i
  last : (∀ i < n, ¬ s.Fails i) →
    (s.own names decode (n - 1)).written = s.own names decode (n - 1)

/-- **The steps that leave the defects aside.** -/
structure Meets (n : Nat) (names : Nat → Bytes) (decode : Bytes → JaclVal) (s s' : State) :
    Prop where
  openErr : ∀ i, s.pc = .openErr i → s'.pc ≠ .noOut
  held : s.pc = .held → s'.pc ≠ .gone
  sweep : ∀ i k, s.pc = .sweep i k → s'.pc = .sweep (i + 1) k → s.errQ i = [] ∧ s.errEnd i = true
  legible : ∀ k, s.pc = .freeOut k → Legible n names decode s

/-- **The states of a run whose steps all leave them aside.** -/
inductive Steady (n : Nat) (names : Nat → Bytes) (decode : Bytes → JaclVal) : State → Prop
  | init : Steady n names decode init
  | step {s s' : State} : Steady n names decode s → Step n names decode s s' →
      Meets n names decode s s' → Steady n names decode s'

variable {n : Nat} {names : Nat → Bytes} {decode : Bytes → JaclVal} {s s' : State}

theorem Steady.reachable (h : Steady n names decode s) : Reachable n names decode s := by
  induction h with
  | init => exact .init
  | step _ hs _ ih => exact ih.step hs

/-! ### What is held -/

/-- The life of what is acquired stage by stage, and released stage by stage. -/
def lifeAt (joined started i : Nat) : Life :=
  if i < joined then .dead else if i < started then .live else .none

/-- The stages that are joined. -/
def Pc.joined (spawned : Nat) : Pc → Nat
  | .join i _ => i
  | .freeOut _ | .finished _ | .failed _ => spawned
  | _ => 0

/-- The stages that have a child. -/
def Pc.started (spawned : Nat) : Pc → Nat
  | .openErr _ => spawned + 1
  | _ => spawned

/-- The life of the output's end. -/
def Pc.outLife : Pc → Life
  | .idle | .poll | .held | .next | .pump .. | .gone => .live
  | .sweep _ k | .join _ k | .freeOut k => if k = .start then .none else .live
  | .finished _ => .dead
  | _ => .none

/-- The stages may still get a reader that cancels. -/
def Pc.undrained : Pc → Prop
  | .sweep .. | .join .. | .freeOut _ | .finished _ | .failed _ => False
  | _ => True

/-- The stages that are spawned when they are reaped. -/
def After.Fits (n spawned : Nat) (k : After) : Prop := spawned ≤ n ∧ (k ≠ .start → spawned = n)

/-- Where a pipeline is fits the stages that are spawned. -/
def Pc.Fits (n spawned : Nat) : Pc → Prop
  | .start | .regions _ | .refused _ => spawned = 0
  | .spawn i => i = spawned ∧ spawned ≤ n
  | .openErr i => i = spawned ∧ spawned < n
  | .noOut | .failed _ => spawned ≤ n
  | .openOut | .idle | .poll | .held | .next | .pump .. | .gone => spawned = n
  | .sweep i k | .join i k => i ≤ spawned ∧ k.Fits n spawned
  | .freeOut k => k.Fits n spawned
  | .finished k => k ≠ .start ∧ k.Fits n spawned

/-- **What the shell holds**, by where the pipeline is. -/
structure Holds (n : Nat) (s : State) : Prop where
  bad : s.ledger.bad = false
  child : ∀ i, s.ledger.life (.child i) = lifeAt (s.pc.joined s.spawned) (s.pc.started s.spawned) i
  err : ∀ i, s.ledger.life (.err i) = lifeAt (s.pc.joined s.spawned) s.spawned i
  out : s.ledger.life .out = s.pc.outLife
  outc : s.outc = decide (s.pc.outLife = .live)
  drain : s.ledger.life .drain ≠ .live
  undrained : s.pc.undrained → s.ledger.life .drain = .none
  fits : s.pc.Fits n s.spawned

theorem Holds.init : Holds n init where
  bad := rfl
  child _ := rfl
  err _ := rfl
  out := rfl
  outc := rfl
  drain := nofun
  undrained _ := rfl
  fits := rfl

/-- A step that acquires and releases nothing. -/
theorem Holds.move (h : Holds n s) (hl : s'.ledger = s.ledger) (hn : s'.spawned = s.spawned)
    (ho : s'.outc = s.outc) (hj : s'.pc.joined s.spawned = s.pc.joined s.spawned)
    (hs : s'.pc.started s.spawned = s.pc.started s.spawned)
    (hp : s'.pc.outLife = s.pc.outLife) (hu : s'.pc.undrained → s.pc.undrained)
    (hf : s'.pc.Fits n s.spawned) : Holds n s' where
  bad := by rw [hl]; exact h.bad
  child i := by rw [hl, hn, hj, hs]; exact h.child i
  err i := by rw [hl, hn, hj]; exact h.err i
  out := by rw [hl, hp]; exact h.out
  outc := by rw [ho, hp]; exact h.outc
  drain := by rw [hl]; exact h.drain
  undrained hd := by rw [hl]; exact h.undrained (hu hd)
  fits := by rw [hn]; exact hf

/-- The output's end is open. -/
theorem Holds.use_out (h : Holds n s) (hp : s.pc.outLife = .live) :
    s.ledger.use .out = s.ledger :=
  Ledger.use_live (h.out.trans hp)

/-- A stage's stderr is open until it is joined. -/
theorem Holds.err_live (h : Holds n s) {i : Nat} (hj : s.pc.joined s.spawned ≤ i)
    (hi : i < s.spawned) : s.ledger.life (.err i) = .live := by
  rw [h.err, lifeAt, if_neg (by omega), if_pos hi]

theorem Holds.child_live (h : Holds n s) {i : Nat} (hj : s.pc.joined s.spawned ≤ i)
    (hi : i < s.pc.started s.spawned) : s.ledger.life (.child i) = .live := by
  rw [h.child, lifeAt, if_neg (by omega), if_pos hi]

section Keep

variable (s : State) (i : Nat) (f : Frame) (rest : List Frame)

@[simp] theorem keep_pc : (s.keep i f rest).pc = s.pc := by unfold State.keep; split <;> rfl

@[simp] theorem keep_spawned : (s.keep i f rest).spawned = s.spawned := by
  unfold State.keep; split <;> rfl

@[simp] theorem keep_outc : (s.keep i f rest).outc = s.outc := by unfold State.keep; split <;> rfl

@[simp] theorem keep_cause : (s.keep i f rest).cause = s.cause := by
  unfold State.keep; split <;> rfl

@[simp] theorem keep_broke : (s.keep i f rest).broke = s.broke := by
  unfold State.keep; split <;> rfl

@[simp] theorem keep_outEnd : (s.keep i f rest).outEnd = s.outEnd := by
  unfold State.keep; split <;> rfl

@[simp] theorem keep_ledger : (s.keep i f rest).ledger = s.ledger.use (.err i) := by
  unfold State.keep; split <;> rfl

@[simp] theorem keep_errEnd : (s.keep i f rest).errEnd = s.errEnd := by
  unfold State.keep; split <;> rfl

@[simp] theorem keep_errQ : (s.keep i f rest).errQ = update s.errQ i rest := by
  unfold State.keep; split <;> rfl

@[simp] theorem keep_sent : (s.keep i f rest).sent = s.sent := by unfold State.keep; split <;> rfl

@[simp] theorem keep_taken : (s.keep i f rest).taken = update s.taken i (s.taken i ++ [f]) := by
  unfold State.keep; split <;> rfl

end Keep

/-- A stage's stderr is read before the stage is joined. -/
theorem Holds.keep (h : Holds n s) {i : Nat} (hj : s.pc.joined s.spawned ≤ i)
    (hi : i < s.spawned) (f : Frame) (rest : List Frame) : Holds n (s.keep i f rest) := by
  have hl : (s.keep i f rest).ledger = s.ledger := by
    rw [keep_ledger, Ledger.use_live (h.err_live hj hi)]
  refine h.move hl (keep_spawned ..) (keep_outc ..) ?_ ?_ ?_ ?_ ?_ <;> rw [keep_pc]
  · exact id
  · exact h.fits

/-- A child is spawned. -/
theorem Holds.spawn (h : Holds n s) {i : Nat} (hp : s.pc = .spawn i) (hi : i < n) :
    Holds n { s with pc := .openErr i, ledger := s.ledger.acquire (.child i) } := by
  obtain ⟨rfl, -⟩ : i = s.spawned ∧ s.spawned ≤ n := by simpa [hp, Pc.Fits] using h.fits
  have hchild := h.child
  have herr := h.err
  have hout := h.out
  have hoc := h.outc
  have hd := h.undrained
  simp only [hp, Pc.joined, Pc.started, Pc.outLife, Pc.undrained, forall_const]
    at hchild herr hout hoc hd
  have hnone : s.ledger.life (.child s.spawned) = .none := by simp [hchild, lifeAt]
  refine ⟨(Ledger.acquire_bad hnone).trans h.bad, fun j => ?_, fun j => ?_, ?_, hoc, ?_, ?_, ?_⟩
  · simp only [Ledger.acquire_life, Res.child.injEq, hchild, lifeAt, Pc.joined, Pc.started]
    grind
  · simpa [Pc.joined] using herr j
  · simpa [Pc.outLife] using hout
  · simp [hd]
  · simpa using fun _ => hd
  · exact ⟨rfl, hi⟩

/-- The read end of its stderr is opened. -/
theorem Holds.openErr (h : Holds n s) {i : Nat} (hp : s.pc = .openErr i) :
    Holds n { s with
      pc := .spawn (i + 1), ledger := s.ledger.acquire (.err i), spawned := s.spawned + 1 } := by
  obtain ⟨rfl, hn⟩ : i = s.spawned ∧ s.spawned < n := by simpa [hp, Pc.Fits] using h.fits
  have hchild := h.child
  have herr := h.err
  have hout := h.out
  have hoc := h.outc
  have hd := h.undrained
  simp only [hp, Pc.joined, Pc.started, Pc.outLife, Pc.undrained, forall_const]
    at hchild herr hout hoc hd
  have hnone : s.ledger.life (.err s.spawned) = .none := by simp [herr, lifeAt]
  refine ⟨(Ledger.acquire_bad hnone).trans h.bad, fun j => ?_, fun j => ?_, ?_, hoc, ?_, ?_, ?_⟩
  · simpa [Pc.joined, Pc.started] using hchild j
  · simp only [Ledger.acquire_life, Res.err.injEq, herr, lifeAt, Pc.joined]
    grind
  · simpa [Pc.outLife] using hout
  · simp [hd]
  · simpa using fun _ => hd
  · exact ⟨rfl, hn⟩

/-- A child is joined, and the read end of its stderr freed. -/
theorem Holds.join (h : Holds n s) {i : Nat} {k : After} (hp : s.pc = .join i k)
    (hi : i < s.spawned) (status : Int) :
    Holds n { s with
      pc := .join (i + 1) k
      status := update s.status i status
      ledger := (s.ledger.release (.child i)).release (.err i) } := by
  have hcl := h.child_live (i := i) (by simp [hp, Pc.joined]) (by simpa [hp, Pc.started] using hi)
  have hel := h.err_live (i := i) (by simp [hp, Pc.joined]) hi
  have hchild := h.child
  have herr := h.err
  have hout := h.out
  have hoc := h.outc
  have hf := h.fits
  simp only [hp, Pc.joined, Pc.started, Pc.outLife, Pc.Fits] at hchild herr hout hoc hf
  have hb : ((s.ledger.release (.child i)).release (.err i)).bad = false := by
    rw [Ledger.release_bad (by simpa using hel), Ledger.release_bad hcl, h.bad]
  refine ⟨hb, fun j => ?_, fun j => ?_, ?_, hoc, ?_, nofun, ⟨hi, hf.2⟩⟩
  · simp only [Ledger.release_life, Res.child.injEq, reduceCtorEq, if_false, hchild, lifeAt,
      Pc.joined, Pc.started]
    grind
  · simp only [Ledger.release_life, Res.err.injEq, reduceCtorEq, if_false, herr, lifeAt,
      Pc.joined]
    grind
  · simpa [Pc.outLife] using hout
  · simpa using h.drain

/-- The output's end is opened. -/
theorem Holds.openOut (h : Holds n s) (hp : s.pc = .openOut) :
    Holds n { s with pc := .idle, ledger := s.ledger.acquire .out, outc := true } := by
  have hchild := h.child
  have herr := h.err
  have hout := h.out
  have hd := h.undrained
  have hf := h.fits
  simp only [hp, Pc.joined, Pc.started, Pc.outLife, Pc.undrained, Pc.Fits, forall_const]
    at hchild herr hout hd hf
  refine ⟨(Ledger.acquire_bad hout).trans h.bad, fun j => ?_, fun j => ?_, ?_, rfl, ?_, ?_, hf⟩
  · simpa [Pc.joined, Pc.started] using hchild j
  · simpa [Pc.joined] using herr j
  · simp [Pc.outLife]
  · simp [hd]
  · simpa using fun _ => hd

/-- The last stage that started gets a reader, which cancels. -/
theorem Holds.drained (h : Holds n s) (hp : s.pc = .noOut) :
    Holds n { s with
      pc := .sweep 0 .start
      ledger := ((s.ledger.acquire .drain).use .drain).release .drain } := by
  have hchild := h.child
  have herr := h.err
  have hout := h.out
  have hoc := h.outc
  have hd := h.undrained
  have hf := h.fits
  simp only [hp, Pc.joined, Pc.started, Pc.outLife, Pc.undrained, Pc.Fits, forall_const]
    at hchild herr hout hoc hd hf
  have hlive : (s.ledger.acquire .drain).life .drain = .live := by simp
  have hb : ((s.ledger.acquire .drain).release .drain).bad = false := by
    rw [Ledger.release_bad hlive, Ledger.acquire_bad hd, h.bad]
  rw [Ledger.use_live hlive]
  refine ⟨hb, fun j => ?_, fun j => ?_, ?_, hoc, ?_, nofun, ⟨Nat.zero_le _, hf, nofun⟩⟩
  · simpa [Pc.joined, Pc.started] using hchild j
  · simpa [Pc.joined] using herr j
  · simpa [Pc.outLife] using hout
  · simp

/-- The output's end is freed, if there is one. -/
theorem Holds.freeOut (h : Holds n s) {k : After} (hp : s.pc = .freeOut k) (pc : Pc)
    (hpc : (k = .start ∧ ∃ a, pc = .failed a) ∨ (k ≠ .start ∧ pc = .finished k)) :
    Holds n { s with
      pc := pc
      outc := false
      ledger := if s.outc then s.ledger.release .out else s.ledger } := by
  have hchild := h.child
  have herr := h.err
  have hout := h.out
  have hoc := h.outc
  have hf := h.fits
  simp only [hp, Pc.joined, Pc.started, Pc.outLife, Pc.Fits] at hchild herr hout hoc hf
  obtain ⟨rfl, a, rfl⟩ | ⟨hk, rfl⟩ := hpc
  · have ho : s.outc = false := hoc
    simp only [ho, Bool.false_eq_true, if_false]
    exact ⟨h.bad, hchild, herr, hout, rfl, h.drain, nofun, hf.1⟩
  · rw [if_neg hk] at hout
    have ho : s.outc = true := by simpa [hk] using hoc
    simp only [ho, if_true]
    refine ⟨(Ledger.release_bad hout).trans h.bad, fun j => ?_, fun j => ?_, ?_, rfl, ?_, nofun,
      ⟨hk, hf⟩⟩
    · simpa [Pc.joined, Pc.started] using hchild j
    · simpa [Pc.joined] using herr j
    · simp [Pc.outLife]
    · simpa using h.drain

/-- A step from one place to another that acquires and releases nothing. -/
theorem Holds.goTo (h : Holds n s) {p q : Pc} (hp : s.pc = p) (hq : s'.pc = q)
    (hl : s'.ledger = s.ledger) (hn : s'.spawned = s.spawned) (ho : s'.outc = s.outc)
    (he : (q.joined s.spawned, q.started s.spawned, q.outLife) =
      (p.joined s.spawned, p.started s.spawned, p.outLife))
    (hu : q.undrained → p.undrained) (hf : q.Fits n s.spawned) : Holds n s' := by
  subst hp hq
  simp only [Prod.mk.injEq] at he
  exact h.move hl hn ho he.1 he.2.1 he.2.2 hu hf

/-- **A step that meets the condition keeps what the shell holds in order.** -/
theorem Holds.step (h : Holds n s) (hs : Step n names decode s s')
    (hm : Meets n names decode s s') : Holds n s' := by
  have hf := h.fits
  cases hs with
  | refuse ans hp =>
    rw [hp] at hf
    exact h.goTo hp rfl rfl rfl rfl rfl id hf
  | begin hp =>
    rw [hp] at hf
    exact h.goTo hp rfl rfl rfl rfl rfl id hf
  | region hp =>
    rw [hp] at hf
    exact h.goTo hp rfl rfl rfl rfl rfl id hf
  | noRegion hp =>
    rw [hp] at hf
    exact h.goTo hp rfl rfl rfl rfl rfl id hf
  | regions hp =>
    rw [hp] at hf
    exact h.goTo hp rfl rfl rfl rfl rfl id ⟨hf.symm, hf ▸ Nat.zero_le n⟩
  | spawn hp hi => exact h.spawn hp hi
  | noSpawn hp =>
    rw [hp] at hf
    exact h.goTo hp rfl rfl rfl rfl rfl id hf.2
  | openErr hp => exact h.openErr hp
  | noErr hp => exact absurd rfl (hm.openErr _ hp)
  | spawned hp =>
    rw [hp] at hf
    exact h.goTo hp rfl rfl rfl rfl rfl id hf.1.symm
  | openOut hp => exact h.openOut hp
  | noOut hp =>
    rw [hp] at hf
    exact h.goTo hp rfl rfl rfl rfl rfl id (Nat.le_of_eq hf)
  | drain hp => exact h.drained hp
  | noDrain hp =>
    rw [hp] at hf
    exact h.goTo hp rfl rfl rfl rfl rfl nofun ⟨Nat.zero_le _, hf, nofun⟩
  | read hp =>
    rw [hp] at hf
    exact h.goTo hp rfl rfl rfl rfl rfl id hf
  | close hp =>
    rw [hp] at hf
    have hl : (if s.outc then s.ledger.use .out else s.ledger) = s.ledger := by
      split
      · exact h.use_out (by rw [hp]; rfl)
      · rfl
    exact h.goTo hp rfl hl rfl rfl rfl nofun ⟨Nat.zero_le _, Nat.le_of_eq hf, fun _ => hf⟩
  | cancel hp =>
    rw [hp] at hf
    have hl : (s.ledger.use .out).useAll
        ((List.range s.spawned).map .err ++ (List.range s.spawned).map .child) = s.ledger := by
      rw [h.use_out (by rw [hp]; rfl)]
      refine Ledger.useAll_live fun r hr => ?_
      rcases List.mem_append.mp hr with hr | hr <;> obtain ⟨i, hi, rfl⟩ := List.mem_map.mp hr
      · exact h.err_live (by simp [hp, Pc.joined]) (List.mem_range.mp hi)
      · exact h.child_live (by simp [hp, Pc.joined])
          (by simpa [hp, Pc.started] using List.mem_range.mp hi)
    exact h.goTo hp rfl hl rfl rfl rfl nofun ⟨Nat.zero_le _, Nat.le_of_eq hf, fun _ => hf⟩
  | hold hp =>
    rw [hp] at hf
    exact h.goTo hp rfl (h.use_out (by rw [hp]; rfl)) rfl rfl rfl id hf
  | resume hp =>
    rw [hp] at hf
    exact h.goTo hp rfl (h.use_out (by rw [hp]; rfl)) rfl rfl rfl id hf
  | drop hp => exact absurd rfl (hm.held hp)
  | go hp =>
    rw [hp] at hf
    exact h.goTo hp rfl rfl rfl rfl rfl id hf
  | frame hp | stall hp | ended hp | broken hp =>
    rw [hp] at hf
    exact h.goTo hp rfl (h.use_out (by rw [hp]; rfl)) rfl rfl rfl id hf
  | pump hp hi => exact h.keep (by simp [hp, Pc.joined]) hi _ _
  | pumpNext hp hi =>
    rw [hp] at hf
    have hl := Ledger.use_live (h.err_live (by simp [hp, Pc.joined]) hi)
    exact h.goTo hp rfl hl rfl rfl rfl id hf
  | pumped hp | again hp =>
    rw [hp] at hf
    exact h.goTo hp rfl rfl rfl rfl rfl id hf
  | finish hp =>
    rw [hp] at hf
    exact h.goTo hp rfl (h.use_out (by rw [hp]; rfl)) rfl rfl rfl nofun
      ⟨Nat.zero_le _, Nat.le_of_eq hf, fun _ => hf⟩
  | finishBroken hp =>
    rw [hp] at hf
    exact h.goTo hp rfl rfl rfl rfl rfl nofun ⟨Nat.zero_le _, Nat.le_of_eq hf, fun _ => hf⟩
  | sweep hp hi => exact h.keep (by simp [hp, Pc.joined]) hi _ _
  | sweepNext hp hi =>
    rw [hp] at hf
    have hl := Ledger.use_live (h.err_live (by simp [hp, Pc.joined]) hi)
    exact h.goTo hp rfl hl rfl rfl rfl id ⟨hi, hf.2⟩
  | swept hp =>
    rw [hp] at hf
    exact h.goTo hp rfl rfl rfl rfl rfl id ⟨Nat.zero_le _, hf.2⟩
  | join status hp hi => exact h.join hp hi status
  | joined hp =>
    rw [hp] at hf
    exact h.goTo hp rfl rfl rfl rfl rfl id hf.2
  | reaped hp =>
    rename_i k
    refine h.freeOut hp _ ?_
    cases k
    · exact .inl ⟨rfl, _, rfl⟩
    all_goals exact .inr ⟨nofun, rfl⟩
  | readDone hp => exact h
  | closeDone hp =>
    have ho : s.outc = false := by rw [h.outc, hp]; rfl
    have hl : (if s.outc then s.ledger.use .out else s.ledger) = s.ledger := by simp [ho]
    exact h.move hl rfl rfl rfl rfl rfl id hf
  | sendErr i f he => exact h.move rfl rfl rfl rfl rfl rfl id hf
  | endErr i => exact h.move rfl rfl rfl rfl rfl rfl id hf
  | sendOut f he => exact h.move rfl rfl rfl rfl rfl rfl id hf
  | endOut c he => exact h.move rfl rfl rfl rfl rfl rfl id hf

theorem Steady.holds (h : Steady n names decode s) : Holds n s := by
  induction h with
  | init => exact .init
  | step _ hs hm ih => exact ih.step hs hm

/-! ### What was read -/

/-- The stages whose stderr was read to its end. -/
def Pc.swept (spawned : Nat) : Pc → Nat
  | .sweep i _ => i
  | .join .. | .freeOut _ | .finished _ | .failed _ => spawned
  | _ => 0

/-- **What is kept of the stages**, of what they sent. -/
structure Reads (s : State) : Prop where
  sent : ∀ i, s.sent i = s.taken i ++ s.errQ i
  tail : ∀ i, s.tail i = lastOf (textOf (s.taken i))
  valOver : ∀ i, s.valOver i = decide (stageValue < (valueOf (s.taken i)).length)
  val : ∀ i, s.valOver i = false → s.val i = valueOf (s.taken i)
  swept : ∀ i < s.pc.swept s.spawned, s.errQ i = [] ∧ s.errEnd i = true

theorem Reads.init : Reads init where
  sent _ := rfl
  tail _ := by simp [Pipeline.init, textOf, lastOf]
  valOver _ := by simp [Pipeline.init, valueOf]
  val _ _ := rfl
  swept _ hi := absurd hi (Nat.not_lt_zero _)

/-- A step that reads nothing. -/
theorem Reads.move (h : Reads s)
    (he : (s'.errQ, s'.errEnd, s'.taken, s'.sent, s'.tail, s'.val, s'.valOver) =
      (s.errQ, s.errEnd, s.taken, s.sent, s.tail, s.val, s.valOver))
    (hs : ∀ i < s'.pc.swept s'.spawned, i < s.pc.swept s.spawned) : Reads s' := by
  simp only [Prod.mk.injEq] at he
  obtain ⟨hq, hend, htk, hsent, htail, hval, hover⟩ := he
  refine ⟨?_, ?_, ?_, ?_, fun i hi => ?_⟩
  · rw [hsent, htk, hq]
    exact h.sent
  · rw [htail, htk]
    exact h.tail
  · rw [hover, htk]
    exact h.valOver
  · rw [hover, hval, htk]
    exact h.val
  · rw [hq, hend]
    exact h.swept i (hs i hi)

/-- A frame of a stage's stderr is kept. -/
theorem Reads.keep (h : Reads s) {i : Nat} {f : Frame} {rest : List Frame}
    (hq : s.errQ i = f :: rest) : Reads (s.keep i f rest) := by
  have hsent := h.sent i
  have htail := h.tail i
  have hover := h.valOver i
  have hval := h.val i
  refine ⟨fun j => ?_, fun j => ?_, fun j => ?_, fun j => ?_, fun j hj => ?_⟩
  · rw [keep_sent, keep_taken, keep_errQ]
    by_cases hji : j = i
    · subst hji
      simp [hsent, hq]
    · simp [hji, h.sent j]
  · rw [keep_taken]
    by_cases hji : j = i
    · subst hji
      by_cases hv : f.1 = stderrValue
      · simp [State.keep, hv, textOf_snoc, htail]
      · simp [State.keep, hv, textOf_snoc, htail, pipeTail_lastOf]
    · by_cases hv : f.1 = stderrValue <;> simp [State.keep, hv, hji, h.tail j]
  · rw [keep_taken]
    by_cases hji : j = i
    · subst hji
      by_cases hv : f.1 = stderrValue
      · simp only [State.keep, hv, if_true, update_self, valueOf_snoc, pipeValuePart,
          List.length_append]
        grind
      · simp [State.keep, hv, valueOf_snoc, hover]
    · by_cases hv : f.1 = stderrValue <;> simp [State.keep, hv, hji, h.valOver j]
  · rw [keep_taken]
    by_cases hji : j = i
    · subst hji
      by_cases hv : f.1 = stderrValue
      · simp only [State.keep, hv, if_true, update_self, valueOf_snoc, pipeValuePart]
        grind
      · simpa [State.keep, hv, valueOf_snoc] using hval
    · by_cases hv : f.1 = stderrValue <;> simpa [State.keep, hv, hji] using h.val j
  · rw [keep_pc, keep_spawned] at hj
    rw [keep_errQ, keep_errEnd]
    have hji : j ≠ i := by
      rintro rfl
      have hnil := (h.swept j hj).1
      rw [hq] at hnil
      cases hnil
    simpa [hji] using h.swept j hj

/-- **A step that meets the condition keeps what is kept of the stages in order.** -/
theorem Reads.step (h : Reads s) (hs : Step n names decode s s')
    (hm : Meets n names decode s s') : Reads s' := by
  have hnone : ∀ i < 0, i < s.pc.swept s.spawned := nofun
  cases hs with
  | refuse ans hp => exact h.move rfl hnone
  | begin hp => exact h.move rfl hnone
  | region hp => exact h.move rfl hnone
  | noRegion hp => exact h.move rfl hnone
  | regions hp => exact h.move rfl hnone
  | spawn hp => exact h.move rfl hnone
  | noSpawn hp => exact h.move rfl hnone
  | openErr hp => exact h.move rfl hnone
  | noErr hp => exact h.move rfl hnone
  | spawned hp => exact h.move rfl hnone
  | openOut hp => exact h.move rfl hnone
  | noOut hp => exact h.move rfl hnone
  | drain hp => exact h.move rfl hnone
  | noDrain hp => exact h.move rfl hnone
  | read hp | close hp | cancel hp | hold hp | resume hp | drop hp => exact h.move rfl hnone
  | go hp | frame hp | stall hp | ended hp | broken hp => exact h.move rfl hnone
  | pump hp hi hq => exact h.keep hq
  | pumpNext hp | pumped hp | again hp | finish hp | finishBroken hp => exact h.move rfl hnone
  | sweep hp hi hq => exact h.keep hq
  | sweepNext hp hi =>
    rename_i i k
    have hend := hm.sweep i k hp rfl
    refine ⟨h.sent, h.tail, h.valOver, h.val, fun j hj => ?_⟩
    by_cases hji : j = i
    · exact hji ▸ hend
    · exact h.swept j (by
        rw [hp]
        exact lt_of_le_of_ne (Nat.le_of_lt_succ hj) hji)
  | swept hp => exact h.move rfl fun i hi => by rw [hp]; exact hi
  | join status hp => exact h.move rfl fun i hi => by rw [hp]; exact hi
  | joined hp => exact h.move rfl fun i hi => by rw [hp]; exact hi
  | reaped hp =>
    rename_i k
    refine h.move rfl fun i hi => ?_
    rw [hp]
    cases k <;> exact hi
  | readDone hp => exact h
  | closeDone hp => exact h.move rfl fun i hi => hi
  | sendErr i f he =>
    refine ⟨fun j => ?_, h.tail, h.valOver, h.val, fun j hj => ?_⟩
    · by_cases hji : j = i
      · subst hji
        simp [h.sent j]
      · simpa [hji] using h.sent j
    · have hji : j ≠ i := by
        rintro rfl
        rw [(h.swept j hj).2] at he
        cases he
      simpa [hji] using h.swept j hj
  | endErr i =>
    refine ⟨h.sent, h.tail, h.valOver, h.val, fun j hj => ?_⟩
    by_cases hji : j = i
    · exact ⟨(h.swept j hj).1, by simp [hji]⟩
    · simpa [hji] using h.swept j hj
  | sendOut f he => exact h.move rfl fun i hi => hi
  | endOut c he => exact h.move rfl fun i hi => hi

theorem Steady.reads (h : Steady n names decode s) : Reads s := by
  induction h with
  | init => exact .init
  | step _ hs hm ih => exact ih.step hs hm

/-! ### How the output ended -/

/-- **The cause**, by where the pipeline is. -/
def State.Causes (s : State) : Pc → Prop
  | .pump _ (.ended c) => s.cause = none ∧ s.broke = false ∧ s.outEnd = some c
  | .pump _ .failed => s.cause = none ∧ s.broke = true
  | .sweep _ k | .join _ k | .freeOut k | .finished k =>
    s.cause = s.cut k ∧ (k = .atEnd → s.broke = true ∨ s.outEnd.isSome = true)
  | .failed _ => s.cause = none
  | _ => s.cause = none ∧ s.broke = false

/-- Only the cause, and how the output ended, matter. -/
theorem State.Causes.congr {p : Pc} (h : s.Causes p) (hc : s'.cause = s.cause)
    (hb : s'.broke = s.broke) (ho : s'.outEnd = s.outEnd) : s'.Causes p := by
  have hcut : s'.cut = s.cut := by
    funext k
    simp [State.cut, hb, ho]
  cases p with
  | pump i got => cases got <;> simpa [State.Causes, hc, hb, ho] using h
  | _ => simpa [State.Causes, hc, hb, ho, hcut] using h

/-- The output ends while the stages run, or is already cut off. -/
theorem State.Causes.endOut {p : Pc} (h : s.Causes p) (c : Option Nat) (he : s.outEnd = none) :
    { s with outEnd := some c }.Causes p := by
  have hcut {k : After} (hk : s.cause = s.cut k ∧
      (k = .atEnd → s.broke = true ∨ s.outEnd.isSome = true)) :
      s.cause = { s with outEnd := some c }.cut k ∧
        (k = .atEnd → s.broke = true ∨ (some c).isSome = true) := by
    refine ⟨?_, fun _ => .inr rfl⟩
    rw [hk.1]
    cases k with
    | atEnd =>
      have hbr : s.broke = true := by simpa [he] using hk.2 rfl
      simp [State.cut, hbr]
    | start | close | cancel => rfl
  cases p with
  | pump i got =>
    cases got with
    | ended d => simp [State.Causes, he] at h
    | frame | stalled | failed => exact h
  | sweep | join | freeOut | finished => exact hcut h
  | _ => exact h

theorem State.Causes.step (h : s.Causes s.pc) (hs : Step n names decode s s') :
    s'.Causes s'.pc := by
  cases hs with
  | refuse ans hp | begin hp | region hp | noRegion hp | regions hp | spawn hp | noSpawn hp
  | openErr hp | noErr hp | spawned hp | openOut hp | noOut hp | read hp | hold hp | resume hp
  | drop hp | go hp | frame hp | stall hp | pumped hp | again hp | swept hp | join _ hp
  | joined hp => rw [hp] at h; exact h
  | drain hp | noDrain hp | close hp => rw [hp] at h; exact ⟨h.1, nofun⟩
  | cancel hp => rw [hp] at h; exact ⟨rfl, nofun⟩
  | ended hp he => rw [hp] at h; exact ⟨h.1, h.2, he⟩
  | broken hp => rw [hp] at h; exact ⟨h.1, rfl⟩
  | pump hp | sweep hp =>
    rw [keep_pc]
    exact h.congr (keep_cause ..) (keep_broke ..) (keep_outEnd ..)
  | pumpNext hp =>
    rename_i got _
    rw [hp] at h
    cases got <;> exact h
  | sweepNext hp => rw [hp] at h; exact h
  | finish hp =>
    rename_i c
    rw [hp] at h
    obtain ⟨hc, hb, ho⟩ := h
    refine ⟨?_, fun _ => .inr (by simp [ho])⟩
    simp [State.cut, hc, hb, ho]
  | finishBroken hp =>
    rw [hp] at h
    exact ⟨by simp [State.cut, h.2], fun _ => .inl h.2⟩
  | reaped hp =>
    rename_i k
    rw [hp] at h
    cases k
    · exact h.1
    all_goals exact h
  | readDone hp => exact h
  | closeDone hp | sendErr | endErr | sendOut => exact h.congr rfl rfl rfl
  | endOut c he => exact h.endOut c he

/-- The first that a search over a range finds. -/
theorem findSome?_range {α : Type} {f : Nat → Option α} {i : Nat} {a : α} (hf : f i = some a)
    (hj : ∀ j < i, f j = none) (n : Nat) (hi : i < n) : (List.range n).findSome? f = some a := by
  induction n with
  | zero => cases hi
  | succ n ih =>
    rw [List.range_succ, List.findSome?_append]
    obtain hlt | rfl := Nat.lt_succ_iff_lt_or_eq.mp hi
    · rw [ih hlt]
      rfl
    · have hnone : (List.range i).findSome? f = none :=
        List.findSome?_eq_none_iff.mpr fun j hjr => hj j (List.mem_range.mp hjr)
      simp [hnone, hf]

theorem Answer.isError_written (a : Answer) : a.written.isError = a.isError := by
  cases a <;> rfl

theorem lastOf_eq_nil {b : Bytes} : lastOf b = [] ↔ b = [] := by
  rw [← List.length_eq_zero_iff, ← List.length_eq_zero_iff, length_lastOf]
  have h : 0 < stageErrTail := by decide
  omega

/-- The value of a stage whose stderr was read to its end. -/
theorem Reads.pipeValue (h : Reads s) {i : Nat} (hq : s.errQ i = []) :
    pipeValue names decode s i = (s.own names decode i).written := by
  have hst : s.sent i = s.taken i := by rw [h.sent, hq, List.append_nil]
  have hover := h.valOver i
  have hval := h.val i
  unfold Pipeline.pipeValue State.own
  rw [hst]
  by_cases hv : stageValue < (valueOf (s.taken i)).length
  · simp [hover, hv, Answer.written]
  · have hv' : s.val i = valueOf (s.taken i) := hval (by simp [hover, hv])
    simp only [hover, hv, decide_false, Bool.false_eq_true, if_false, hv']
    split <;> rfl

/-- A round of `pipe_failure` finds a stage that failed, and says so. -/
theorem Reads.stageFailure (h : Reads s) {i : Nat} (hq : i < s.spawned → s.errQ i = []) :
    stageFailure names decode s i =
      if s.spawned ≤ i ∨ s.status i ≠ 0 then some (s.blame names decode i).written else none := by
  unfold Pipeline.stageFailure State.blame
  by_cases hi : s.spawned ≤ i
  · simp [hi, Answer.written]
  · have hq := hq (by omega)
    have hst : s.sent i = s.taken i := by rw [h.sent, hq, List.append_nil]
    by_cases hz : s.status i = 0
    · simp [hi, hz]
    · simp only [hi, hz, if_false, false_or, ne_eq, not_false_eq_true, if_true,
        h.pipeValue hq, Answer.isError_written]
      split
      · rfl
      · simp only [h.tail i, hst, lastOf_eq_nil, Answer.written, Option.map_some]
        split <;> rfl

theorem Legible.congr (h : Legible n names decode s) (hp : 1 ≤ n)
    (hs : s'.spawned = s.spawned) (ht : s'.status = s.status)
    (he : ∀ i < s.spawned, s'.sent i = s.sent i) : Legible n names decode s' := by
  have hf : s'.Fails = s.Fails := by
    funext i
    simp [State.Fails, hs, ht]
  have ho {i : Nat} (hi : i < s.spawned) : s'.own names decode i = s.own names decode i := by
    simp [State.own, he i hi]
  have hb (i : Nat) : s'.blame names decode i = s.blame names decode i := by
    unfold State.blame
    by_cases hi : s.spawned ≤ i
    · simp [hs, hi]
    · have hi' : i < s.spawned := Nat.lt_of_not_le hi
      simp [hs, ho hi', he i hi']
  constructor
  · intro i hi hff
    rw [hb]
    exact h.first i hi (by simpa [State.FailsFirst, hf] using hff)
  · intro hn
    rw [hf] at hn
    have hl : n - 1 < s.spawned := by
      have := hn (n - 1) (by omega)
      simp only [State.Fails, not_or] at this
      omega
    rw [ho hl]
    exact h.last hn

/-- The call has come back. -/
def Pc.done : Pc → Prop
  | .finished _ | .failed _ => True
  | _ => False

theorem Steady.pos (h : Steady n names decode s) :
    s.pc = .start ∨ (∃ a, s.pc = .refused a) ∨ 1 ≤ n := by
  induction h with
  | init => exact .inl rfl
  | step _ hs _ ih =>
    obtain hp | ⟨a, hp⟩ | hn := ih
    · cases hs <;> simp_all [State.at]
    · cases hs <;> simp_all
    · exact .inr (.inr hn)

theorem Steady.legible (h : Steady n names decode s) : s.pc.done → Legible n names decode s := by
  induction h with
  | init => exact nofun
  | @step s s' h hs hm ih =>
    intro hd
    have hn : 1 ≤ n := by
      obtain hp | ⟨a, hp⟩ | hn := (h.step hs hm).pos
      · rw [hp] at hd
        cases hd
      · rw [hp] at hd
        cases hd
      · exact hn
    cases hs with
    | reaped hp => exact (hm.legible _ hp).congr hn rfl rfl fun _ _ => rfl
    | readDone hp => exact ih hd
    | closeDone | endErr | sendOut | endOut => exact (ih hd).congr hn rfl rfl fun _ _ => rfl
    | sendErr i f he =>
      refine (ih hd).congr hn rfl rfl fun j hj => ?_
      have hji : j ≠ i := by
        rintro rfl
        have hswept : j < s.pc.swept s.spawned := by
          change s.pc.done at hd
          cases hp : s.pc <;> simp_all [Pc.done, Pc.swept]
        rw [(h.reads.swept j hswept).2] at he
        cases he
      simp [hji]
    | pump hp | sweep hp =>
      rw [keep_pc, hp] at hd
      cases hd
    | _ => cases hd

section Reaped

variable {k : After}

/-- What `pipe_failure` says when the stages were reaped. -/
theorem Reads.first (h : Reads s) (hl : Legible n names decode s)
    (hq : ∀ i < s.spawned, s.errQ i = []) {i : Nat} (hi : i < n) (hf : s.FailsFirst i) :
    pipeFailure n names decode s = some (s.blame names decode i) := by
  have hround (j : Nat) : Pipeline.stageFailure names decode s j =
      if s.spawned ≤ j ∨ s.status j ≠ 0 then some (s.blame names decode j).written else none :=
    h.stageFailure (hq j)
  have hthis : Pipeline.stageFailure names decode s i = some (s.blame names decode i) := by
    calc Pipeline.stageFailure names decode s i
        = some (s.blame names decode i).written := (hround i).trans (if_pos hf.1)
      _ = some (s.blame names decode i) := by rw [hl.first i hi hf]
  have hbefore : ∀ j < i, Pipeline.stageFailure names decode s j = none :=
    fun j hj => (hround j).trans (if_neg (hf.2 j hj))
  rw [pipeFailure, findSome?_range hthis hbefore n hi]
  rfl

end Reaped

/-- The answer of a start that failed. -/
theorem Steady.failed (h : Steady n names decode s) : ∀ a, s.pc = .failed a →
    a = (pipeFailure n names decode s).getD (.error "could not open the output" none none) := by
  induction h with
  | init => exact nofun
  | step _ hs _ ih =>
    intro a hp
    cases hs with
    | @reaped k hq =>
      cases k
      · exact (Pc.failed.inj hp).symm
      all_goals cases hp
    | readDone => exact ih a hp
    | closeDone | sendErr | endErr | sendOut | endOut => exact ih a hp
    | pump hq | sweep hq =>
      rw [keep_pc, hq] at hp
      cases hp
    | _ => cases hp

end Jacl.Pipeline
