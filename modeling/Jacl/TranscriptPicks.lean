import Jacl.TranscriptRuns
import Jacl.Entrywise

/-!
# The names of references (`runtime/transcript_unir.c`)

A block of the link document holds references, and the transcript keeps the name of each as it is
written (`transcript_ref`), unless it is not a string of less than 1024 bytes where it is looked
for, or there is no memory for it.  The names of all blocks are in one list, and `transcript-pick`
counts the names of a block, not its values.

Beside a run is kept what the store accepted into a transcript, in order, and whether the value's
name was kept (`Traced`).
-/

namespace Jacl.Transcripts
open Function

/-- What `transcript_ref` looks at of a value. -/
inductive Value where
  | str (b : Bytes)
  /-- A map; its keys that are strings. -/
  | map (entries : List (Bytes × Value))
  | vec (vs : List Value)
  | other

/-- `transcript_str` with a buffer of 1024 bytes. -/
def transcriptStr : Value → Option Bytes
  | .str b => if b.length < 1024 then some b else none
  | _ => none

/-- "name". -/
def nameKey : Bytes := ['n', 'a', 'm', 'e'].map fun c => BitVec.ofNat 8 c.toNat

/-- The name of a reference: a map's "name", or a list's first value. -/
def Value.refName : Value → Option Bytes
  | .map entries => (entries.find? fun e => e.1 = nameKey).bind fun e => transcriptStr e.2
  | .vec (v :: _) => transcriptStr v
  | _ => none

variable {V : Type}

/-- A value that the store accepted into a block; a frame that was forwarded has none. -/
structure Accepted (V : Type) where
  block : Nat
  value : Option V
  kept : Bool

/-- The value that a call is about. -/
def Request.value (r : Request V) : Option V := r.makes.map Prod.snd

/-- What was accepted, after an operation of a call. -/
def Op.accepts (cd : Codec V) (o : Op V) (res : Result) (a : Ans) (v : Option V)
    (l : List (Accepted V)) : List (Accepted V) :=
  match o, res with
  | .push b _ _ _, .ok _ => l ++ [⟨b, v, false⟩]
  | .forward b _, .ok _ => l ++ [⟨b, none, false⟩]
  | .ref b w, _ =>
    if (cd.refName w).isSome ∧ a.fault.isNone then l.dropLast ++ [⟨b, some w, true⟩] else l
  | _, _ => l

/-- The states that a run comes to, with what was accepted into each transcript. -/
inductive Traced (cd : Codec V) : State V → (Nat → List (Accepted V)) → Prop
  | init : Traced cd init fun _ => []
  | other {s s' : State V} {log : Nat → List (Accepted V)} : Traced cd s log →
      Step cd s .other s' → Traced cd s' log
  | does {s : State V} {log : Nat → List (Accepted V)} {c : Nat} {call : Call V} {o : Op V}
      {k : Result → Prog V} (a : Ans) : Traced cd s log → s.phase c = .inside call →
      call.prog = .call o k → Traced cd (s.does cd c call o k a) (update log call.x
        (o.accepts cd (o.exec cd a (s.env call)).1 a call.req.value (log call.x)))

/-- What is kept of an accepted value. -/
def Accepted.ref? (cd : Codec V) (e : Accepted V) : Option Ref :=
  if e.kept then (e.value.bind cd.refName).map (⟨e.block, ·⟩) else none

variable {cd : Codec V} {s s' : State V} {log : Nat → List (Accepted V)} {c x : Nat}

/-- Every state that a run comes to has such a log. -/
theorem Reachable.traced (h : Reachable cd s) : ∃ log, Traced cd s log := by
  induction h with
  | init => exact ⟨_, .init⟩
  | step _ hs ih =>
    obtain ⟨log, hlog⟩ := ih
    cases hs with
    | does a hc hp => exact ⟨_, .does a hlog hc hp⟩
    | opens x hx ho => exact ⟨_, .other hlog (.opens x hx ho)⟩
    | job i t job cmd hi hu ht => exact ⟨_, .other hlog (.job i t job cmd hi hu ht)⟩
    | asks r hc ht => exact ⟨_, .other hlog (.asks r hc ht)⟩
    | refuses r hc ht => exact ⟨_, .other hlog (.refuses r hc ht)⟩
    | cancels hc => exact ⟨_, .other hlog (.cancels hc)⟩
    | takes hc hb => exact ⟨_, .other hlog (.takes hc hb)⟩
    | stale hc hr hj => exact ⟨_, .other hlog (.stale hc hr hj)⟩
    | enters slot hc hj => exact ⟨_, .other hlog (.enters slot hc hj)⟩
    | looks hc hp => exact ⟨_, .other hlog (.looks hc hp)⟩
    | rounds hc hp => exact ⟨_, .other hlog (.rounds hc hp)⟩
    | leaves hc hp => exact ⟨_, .other hlog (.leaves hc hp)⟩

/-! ### Programs -/

/-- **The name is asked for right after the value was accepted**, and it is the call's value; `due`
is the block of a value that was just accepted. -/
def Prog.Refs (v : Option V) : Prog V → Option Nat → Prop
  | .ret _, _ => True
  | .look k, _ => ∀ t j, (k t j).Refs v none
  | .writes _ _ k, _ => ∀ res, (k res).Refs v none
  | .call o k, due =>
    match o with
    | .push b _ _ _ => (∀ n, (k (.ok n)).Refs v (some b)) ∧ ∀ e, (k (.error e)).Refs v none
    | .ref b w => due = some b ∧ v = some w ∧ ∀ res, (k res).Refs v none
    | _ => ∀ res, (k res).Refs v none

section Programs

variable {v : Option V} {due : Option Nat} {what : String}

/-- What does not begin with a name is right after anything. -/
theorem Prog.Refs.mono {p : Prog V} (h : p.Refs v none) : p.Refs v due := by
  cases p with
  | call o k =>
    cases o with
    | ref b w => exact absurd h.1 (Option.some_ne_none b).symm
    | _ => exact h
  | _ => exact h

theorem refs_opening {cmd : Bytes} {job : Nat} {kind : Kind} {k : Option Nat} :
    (Prog.opening what cmd job kind k).Refs v due := by
  intro res
  cases res with
  | error e => exact trivial
  | ok b =>
    intro res
    cases res <;> exact trivial

theorem refs_onBlock {b : Int} {go : Transcript → Nat → Prog V}
    (hgo : ∀ x b, (go x b).Refs v none) : (Prog.onBlock what b go).Refs v due := by
  intro x j
  dsimp only
  split
  · exact trivial
  · exact hgo x _

theorem refs_framed {m : Maker} {w : V} {k : Option Nat} {go : Bool → Nat → Prog V}
    (hgo : ∀ msg n, (go msg n).Refs v none) : (Prog.framed what m w k go).Refs v due := by
  intro res
  cases res with
  | error e => exact trivial
  | ok n =>
    cases k with
    | none => exact hgo false n
    | some k =>
      intro res
      cases res with
      | error e => exact trivial
      | ok l =>
        show (if transcriptValue < l then _ else go true l : Prog V).Refs v none
        split
        · exact trivial
        · exact hgo true l

theorem refs_pushing {m : Maker} {w : V} {k : Option Nat} {b : Nat} {msg : Bool} {n : Nat}
    (cd : Codec V) : (Prog.pushing cd what m w k b msg n).Refs (some w) due := by
  refine ⟨fun n => ?_, fun e => trivial⟩
  show (if k.any cd.isLink then _ else _ : Prog V).Refs (some w) (some b)
  split
  · exact ⟨rfl, rfl, fun _ => trivial⟩
  · exact trivial

theorem refs_jobNext {j : Job} {kind : Kind} {go : Result → Prog V}
    (hgo : ∀ res, (go res).Refs v none) : (Prog.jobNext j kind go).Refs v due := by
  intro _ res
  cases res with
  | error e => exact hgo _
  | ok b =>
    intro res
    cases res with
    | error e => exact hgo _
    | ok n => exact fun _ => hgo _

theorem refs_jobBlock {kind : Kind} {go : Result → Prog V} (hgo : ∀ res, (go res).Refs v none) :
    (Prog.jobBlock kind go).Refs v due := by
  intro x j
  dsimp only
  split
  · split
    · exact hgo _
    · exact fun _ => refs_jobNext hgo
  · exact refs_jobNext hgo

theorem refs_round {pending b : Nat} {rest : Bytes} {k : Result → Prog V}
    (hk : ∀ res, (k res).Refs v none) : (Prog.round pending b rest k).Refs v due := by
  rw [Prog.round]
  split
  · exact (hk (.ok b)).mono
  · intro res
    cases res with
    | error e => exact hk _
    | ok n =>
      intro x j
      show (if transcriptPending ≤ x.pending then _ else _ : Prog V).Refs v none
      split
      · intro res
        cases res with
        | error e => exact hk _
        | ok n => exact fun res => hk res
      · exact fun res => hk res

/-- **Every call's program** asks for names so. -/
theorem Request.refs (cd : Codec V) (r : Request V) : (r.prog cd).Refs r.value none := by
  cases r with
  | line t text =>
    intro res
    cases res <;> exact trivial
  | block t cmd job k => exact refs_opening
  | output t cmd job => exact refs_opening
  | pick t b v => exact fun _ _ => trivial
  | push t b v =>
    exact refs_onBlock fun x b => refs_framed fun msg n => refs_pushing cd
  | write t b text =>
    apply refs_onBlock
    intro x b res
    cases res <;> exact trivial
  | ends t b =>
    apply refs_onBlock
    intro x b res
    cases res <;> exact trivial
  | flush t =>
    intro res
    cases res <;> exact trivial
  | jobWrite s text =>
    apply refs_jobBlock
    intro res
    cases res with
    | error e => exact trivial
    | ok b => exact fun _ => trivial
  | jobForward s agreement entry frame =>
    apply refs_jobBlock
    intro res
    cases res with
    | error e => exact trivial
    | ok b => exact fun _ => trivial
  | jobEmit s v k =>
    rw [Request.prog]
    apply refs_framed
    intro msg n
    apply refs_jobBlock
    intro res
    cases res with
    | error e => exact trivial
    | ok b => exact refs_pushing cd
  | jobPipelineDone s =>
    intro x j
    dsimp only
    split
    · exact fun _ _ => trivial
    · exact trivial
  | jobEnd s complete =>
    intro x j
    dsimp only
    split
    · exact fun _ => trivial
    · intro res _
      cases res <;> exact trivial
  | jobScreen s frame =>
    apply refs_jobBlock
    intro res
    cases res with
    | error e => exact trivial
    | ok b =>
      intro res
      cases res with
      | error e => exact trivial
      | ok n =>
        intro res
        cases res <;> exact trivial
  | jobRegionNamed s =>
    apply refs_jobBlock
    intro res
    cases res with
    | error e => exact trivial
    | ok b =>
      intro res
      cases res with
      | error e => exact trivial
      | ok n =>
        intro res
        cases res <;> exact trivial

end Programs

/-! ### What the operations do to the names and the values -/

/-- How many values block `b` holds. -/
def docCount (doc : List Block) (b : Nat) : Nat := (doc[b]?).elim 0 fun x => x.values.length

/-- Whether an operation puts a value into block `b`. -/
def Op.counts (o : Op V) (res : Result) (b : Nat) : Nat :=
  match o, res with
  | .push b' _ _ _, .ok _ => if b' = b then 1 else 0
  | .forward b' _, .ok _ => if b' = b then 1 else 0
  | _, _ => 0

theorem docCount_modify (doc : List Block) (b b' : Nat) (f : Block → Block)
    (hf : ∀ x, (f x).values.length = x.values.length) :
    docCount (doc.modify b f) b' = docCount doc b' := by
  rw [docCount, docCount, List.getElem?_modify]
  cases doc[b']? with
  | none => rfl
  | some x =>
    simp only [Option.map_eq_map, Option.map_some, Option.elim_some]
    split
    · exact hf x
    · rfl

theorem docCount_append (doc : List Block) (x : Block) (hx : x.values = []) (b : Nat) :
    docCount (doc ++ [x]) b = docCount doc b := by
  rw [docCount, docCount, List.getElem?_append]
  split
  · rfl
  · rename_i hb
    rw [List.getElem?_eq_none (Nat.not_lt.mp hb)]
    cases h : b - doc.length with
    | zero => simp [hx]
    | succ n => rfl

/-- A frame that the store takes. -/
theorem docCount_push (doc : List Block) {b : Nat} (hb : b < doc.length) (frame : Bytes) (b' : Nat) :
    docCount (doc.modify b fun x => { x with values := x.values ++ [frame] }) b' =
      docCount doc b' + if b = b' then 1 else 0 := by
  rw [docCount, docCount, List.getElem?_modify]
  by_cases hbb : b = b'
  · subst hbb
    rw [List.getElem?_eq_getElem hb]
    simp
  · cases doc[b']? <;> simp [hbb]

theorem storedAt_push {e : Env} {a : Ans} {b : Nat} (frame : Bytes) (b' : Nat) :
    docCount (e.storedAt a b fun x => { x with values := x.values ++ [frame] }).2.t.doc b' =
      docCount e.t.doc b' +
        match (e.storedAt a b fun x => { x with values := x.values ++ [frame] }).1 with
        | .ok _ => if b = b' then 1 else 0
        | .error _ => 0 := by
  rw [Env.storedAt]
  split
  · rename_i hb
    rw [Env.stored]
    split
    · rfl
    · exact docCount_push _ hb frame b'
  · rfl

/-- A block holds one value more for each that is put into it. -/
theorem exec_docCount (cd : Codec V) (a : Ans) (e : Env) (o : Op V) (b : Nat) :
    docCount (o.exec cd a e).2.t.doc b = docCount e.t.doc b + o.counts (o.exec cd a e).1 b := by
  cases o with
  | begin cmd job kind =>
    simp only [Op.exec, Env.stored, Op.counts, Nat.add_zero]
    split
    · rfl
    · exact docCount_append _ _ rfl _
  | push b' m msg n =>
    have hres : ∀ res : Result, (match res with
        | .ok _ => if b' = b then 1 else 0
        | .error _ => 0) = (Op.push b' m msg n : Op V).counts res b := by
      intro res
      cases res <;> rfl
    exact (storedAt_push _ b).trans (congrArg _ (hres _))
  | forward b' frame =>
    have hres : ∀ res : Result, (match res with
        | .ok _ => if b' = b then 1 else 0
        | .error _ => 0) = (Op.forward b' frame : Op V).counts res b := by
      intro res
      cases res <;> rfl
    exact (storedAt_push _ b).trans (congrArg _ (hres _))
  | ends b' complete =>
    simp only [Op.exec, Op.counts, Nat.add_zero, Env.storedAt, Env.stored, Env.setDoc]
    repeat' split
    all_goals first | rfl | exact docCount_modify _ _ _ _ fun _ => rfl
  | write b' part =>
    simp only [Op.exec, Op.counts, Nat.add_zero, Env.stored]
    repeat' split
    all_goals first | rfl | exact docCount_modify _ _ _ _ fun _ => rfl
  | note b' k =>
    simp only [Op.exec, transcriptNote, Op.counts, Nat.add_zero]
    repeat' split
    all_goals rfl
  | ref b' v =>
    obtain ⟨-, refs, h⟩ := ref_ok cd b' v a e
    simp only [Op.exec, h, Op.counts, Nat.add_zero]
  | encode m v =>
    simp only [Op.exec, Op.counts, Nat.add_zero]
    split <;> rfl
  | message m k n =>
    simp only [Op.exec, Op.counts, Nat.add_zero]
    split <;> rfl
  | _ =>
    simp only [Op.exec, Env.stored, Op.counts, Nat.add_zero]
    try split
    all_goals rfl

/-- Only `transcript_ref` changes the names. -/
theorem exec_refs (cd : Codec V) (a : Ans) (e : Env) {o : Op V} (hr : ∀ b w, o ≠ .ref b w) :
    (o.exec cd a e).2.t.refs = e.t.refs := by
  cases o with
  | ref b w => exact absurd rfl (hr b w)
  | note b' k =>
    simp only [Op.exec, transcriptNote]
    repeat' split
    all_goals rfl
  | encode m v =>
    simp only [Op.exec]
    split <;> rfl
  | message m k n =>
    simp only [Op.exec]
    split <;> rfl
  | _ =>
    simp only [Op.exec, Env.storedAt, Env.stored, Env.setDoc]
    repeat' split
    all_goals rfl

/-! ### The invariant -/

/-- **A log says what the transcripts keep**, and one call at a time is inside a transcript. -/
structure Logged (cd : Codec V) (s : State V) (log : Nat → List (Accepted V)) : Prop where
  alone : ∀ c c' x, s.Holds c x → s.Holds c' x → c = c'
  busy : ∀ c x, s.Holds c x → (s.xs x).busy = true
  isOpen : ∀ c x, s.Holds c x → (s.xs x).isOpen = true
  waits : ∀ c r x, s.phase c = .waiting r x → (s.xs x).isOpen = true
  fresh : ∀ x, (s.xs x).isOpen = false → log x = []
  refs : ∀ x, (s.xs x).refs = (log x).filterMap (Accepted.ref? cd)
  named : ∀ x, ∀ e ∈ log x, e.kept = true → (e.value.bind cd.refName).isSome
  /-- Where a call is to ask for a name, its value was the last one. -/
  due : ∀ c call, s.phase c = .inside call → ∃ d, call.prog.Refs call.req.value d ∧
    ∀ b, d = some b → ∃ l, log call.x = l ++ [⟨b, call.req.value, false⟩]
  counts : ∀ x b, docCount (s.xs x).doc b = (log x).countP fun e => e.block = b

theorem logged_init : Logged cd (init : State V) fun _ => [] where
  alone _ _ _ h := absurd h.symm (Option.some_ne_none _)
  busy _ _ h := absurd h.symm (Option.some_ne_none _)
  isOpen _ _ h := absurd h.symm (Option.some_ne_none _)
  waits _ _ _ h := nomatch h
  fresh _ _ := rfl
  refs _ := rfl
  named _ _ he := absurd he List.not_mem_nil
  due _ _ h := nomatch h
  counts _ _ := rfl

/-- A step of one call that leaves what is kept as it is; it may take or give back its turn. -/
theorem Logged.move (h : Logged cd s log) {p : Phase V} (hp : s'.phase = update s.phase c p)
    (hkeep : ∀ y, (s'.xs y).isOpen = (s.xs y).isOpen ∧ (s'.xs y).refs = (s.xs y).refs ∧
      (s'.xs y).doc = (s.xs y).doc)
    (hbusy : ∀ c' y, c' ≠ c → s.Holds c' y → (s'.xs y).busy = true)
    (hturn : ∀ y, p.turnAt = some y → (∀ c', c' ≠ c → ¬ s.Holds c' y) ∧
      (s.xs y).isOpen = true ∧ (s'.xs y).busy = true)
    (hwait : ∀ r y, p = .waiting r y → (s.xs y).isOpen = true)
    (hin : ∀ call, p = .inside call → ∃ d, call.prog.Refs call.req.value d ∧
      ∀ b, d = some b → ∃ l, log call.x = l ++ [⟨b, call.req.value, false⟩]) :
    Logged cd s' log := by
  have hat : s'.phase c = p := by
    rw [hp]
    exact update_self c p s.phase
  have hne : ∀ c', c' ≠ c → s'.phase c' = s.phase c' := by
    intro c' hc'
    rw [hp]
    exact update_of_ne hc' p s.phase
  have hholds : ∀ c' y, c' ≠ c → (s'.Holds c' y ↔ s.Holds c' y) := by
    intro c' y hc'
    rw [State.Holds, State.Holds, hne c' hc']
  have hself : ∀ y, s'.Holds c y ↔ p.turnAt = some y := by
    intro y
    rw [State.Holds, hat]
  refine ⟨?_, ?_, ?_, ?_, ?_, ?_, h.named, ?_, ?_⟩
  · intro c₁ c₂ y h₁ h₂
    by_cases hc₁ : c₁ = c <;> by_cases hc₂ : c₂ = c
    · rw [hc₁, hc₂]
    · rw [hc₁, hself] at h₁
      exact absurd ((hholds c₂ y hc₂).mp h₂) ((hturn y h₁).1 c₂ hc₂)
    · rw [hc₂, hself] at h₂
      exact absurd ((hholds c₁ y hc₁).mp h₁) ((hturn y h₂).1 c₁ hc₁)
    · exact h.alone c₁ c₂ y ((hholds c₁ y hc₁).mp h₁) ((hholds c₂ y hc₂).mp h₂)
  · intro c' y hc'
    by_cases hcc : c' = c
    · rw [hcc, hself] at hc'
      exact (hturn y hc').2.2
    · exact hbusy c' y hcc ((hholds c' y hcc).mp hc')
  · intro c' y hc'
    rw [(hkeep y).1]
    by_cases hcc : c' = c
    · rw [hcc, hself] at hc'
      exact (hturn y hc').2.1
    · exact h.isOpen c' y ((hholds c' y hcc).mp hc')
  · intro c' r y hc'
    rw [(hkeep y).1]
    by_cases hcc : c' = c
    · rw [hcc, hat] at hc'
      exact hwait r y hc'
    · rw [hne c' hcc] at hc'
      exact h.waits c' r y hc'
  · intro y hy
    rw [(hkeep y).1] at hy
    exact h.fresh y hy
  · intro y
    rw [(hkeep y).2.1]
    exact h.refs y
  · intro c' call hc'
    by_cases hcc : c' = c
    · rw [hcc, hat] at hc'
      exact hin call hc'
    · rw [hne c' hcc] at hc'
      exact h.due c' call hc'
  · intro y b
    rw [(hkeep y).2.2]
    exact h.counts y b

theorem holds_of_turnAt {p : Phase V} (hc : s.phase c = p) (hp : p.turnAt = some x) :
    s.Holds c x := by
  rw [State.Holds, hc]
  exact hp

/-- A call in its turn that goes on without an operation. -/
theorem Logged.goes (h : Logged cd s log) {call : Call V} {p : Prog V}
    (hc : s.phase c = .inside call) (hp : p.Refs call.req.value none) :
    Logged cd (s.goes c call p) log := by
  have hh : s.Holds c call.x := holds_of_turnAt hc rfl
  apply h.move rfl
  · exact fun y => ⟨rfl, rfl, rfl⟩
  · exact fun c' y _ hc' => h.busy c' y hc'
  · intro y hy
    obtain rfl := Option.some.inj hy
    exact ⟨fun c' hne hc' => hne (h.alone c' c _ hc' hh), h.isOpen c _ hh, h.busy c _ hh⟩
  · exact fun r y hr => by cases hr
  · intro call' hcall
    obtain rfl := Phase.inside.inj hcall
    exact ⟨none, hp, fun b hb => absurd hb.symm (Option.some_ne_none b)⟩

theorem setBusy_keeps (b : Bool) (y : Nat) : ((s.setBusy x b).xs y).isOpen = (s.xs y).isOpen ∧
    ((s.setBusy x b).xs y).refs = (s.xs y).refs ∧ ((s.setBusy x b).xs y).doc = (s.xs y).doc := by
  by_cases hy : y = x
  · subst hy
    simp [State.setBusy]
  · simp [State.setBusy, hy]

theorem setBusy_busy (b : Bool) {y : Nat} (hy : y ≠ x) :
    ((s.setBusy x b).xs y).busy = (s.xs y).busy := by
  simp [State.setBusy, hy]

/-- A call takes its turn. -/
theorem Logged.takes (h : Logged cd s log) {r : Request V} (hc : s.phase c = .waiting r x)
    (hb : (s.xs x).busy = false) :
    Logged cd ((s.setBusy x true).setPhase c (.entered r x)) log := by
  have hfree : ∀ c', ¬ s.Holds c' x := by
    intro c' hc'
    rw [h.busy c' x hc'] at hb
    contradiction
  apply h.move rfl
  · exact setBusy_keeps true
  · intro c' y _ hc'
    have hy : y ≠ x := fun heq => hfree c' (heq ▸ hc')
    exact (setBusy_busy true hy).trans (h.busy c' y hc')
  · intro y hy
    obtain rfl := Option.some.inj hy
    exact ⟨fun c' _ => hfree c', h.waits c r x hc, by simp [State.setBusy, State.setPhase]⟩
  · exact fun r y hr => by cases hr
  · exact fun call hcall => by cases hcall

/-- A call gives back its turn. -/
theorem Logged.gives (h : Logged cd s log) {p : Phase V} (hc : s.Holds c x) (hp : p.turnAt = none)
    (hwait : ∀ r y, p ≠ .waiting r y) :
    Logged cd ((s.setBusy x false).setPhase c p) log := by
  apply h.move rfl
  · exact setBusy_keeps false
  · intro c' y hne hc'
    have hy : y ≠ x := by
      rintro rfl
      exact hne (h.alone c' c y hc' hc)
    exact (setBusy_busy false hy).trans (h.busy c' y hc')
  · intro y hy
    rw [hp] at hy
    exact absurd hy.symm (Option.some_ne_none y)
  · exact fun r y hr => absurd hr (hwait r y)
  · intro call hcall
    rw [hcall] at hp
    contradiction

/-- A call that has no turn, before and after. -/
theorem Logged.aside (h : Logged cd s log) {p : Phase V} (hp : p.turnAt = none)
    (hwait : ∀ r y, p = .waiting r y → (s.xs y).isOpen = true) :
    Logged cd (s.setPhase c p) log := by
  apply h.move rfl
  · exact fun y => ⟨rfl, rfl, rfl⟩
  · exact fun c' y _ hc' => h.busy c' y hc'
  · intro y hy
    rw [hp] at hy
    exact absurd hy.symm (Option.some_ne_none y)
  · exact hwait
  · intro call hcall
    rw [hcall] at hp
    contradiction

/-- What an operation does to the log: nothing; a value; or the name of the last value. -/
inductive Op.Logs (cd : Codec V) (v : Option V) (l : List (Accepted V)) (refs : List Ref) :
    List (Accepted V) → List Ref → (Nat → Nat) → Option Nat → Prop
  | none : Op.Logs cd v l refs l refs (fun _ => 0) none
  | value (b : Nat) (w : Option V) (due : Option Nat) : (∀ b', due = some b' → b = b' ∧ w = v) →
      Op.Logs cd v l refs (l ++ [⟨b, w, false⟩]) refs (fun b' => if b = b' then 1 else 0) due
  | name (b : Nat) (w : V) (name : Bytes) (l' : List (Accepted V)) :
      l = l' ++ [⟨b, some w, false⟩] → cd.refName w = some name →
      Op.Logs cd v l refs (l' ++ [⟨b, some w, true⟩]) (refs ++ [⟨b, name⟩]) (fun _ => 0) none

theorem exec_logs {o : Op V} {k : Result → Prog V} {v : Option V} {due : Option Nat}
    {l : List (Accepted V)} (hp : (Prog.call o k).Refs v due)
    (hdue : ∀ b, due = some b → ∃ l', l = l' ++ [⟨b, v, false⟩]) (a : Ans) (e : Env) :
    ∃ d, (k (o.exec cd a e).1).Refs v d ∧
      Op.Logs cd v l e.t.refs (o.accepts cd (o.exec cd a e).1 a v l) (o.exec cd a e).2.t.refs
        (o.counts (o.exec cd a e).1) d := by
  have hrefs := exec_refs cd a e (o := o)
  generalize hres : (o.exec cd a e).1 = res at *
  cases o with
  | push b m msg n =>
    rw [hrefs fun _ _ heq => by cases heq]
    cases res with
    | ok n => exact ⟨some b, hp.1 n, .value b v (some b) fun b' hb => ⟨Option.some.inj hb, rfl⟩⟩
    | error err => exact ⟨none, hp.2 err, .none⟩
  | forward b frame =>
    rw [hrefs fun _ _ heq => by cases heq]
    cases res with
    | ok n =>
      exact ⟨none, hp _, .value b none none fun b' hb => absurd hb.symm (Option.some_ne_none b')⟩
    | error err => exact ⟨none, hp _, .none⟩
  | ref b w =>
    obtain ⟨rfl, rfl, hk⟩ := hp
    obtain ⟨l', rfl⟩ := hdue b rfl
    refine ⟨none, hk res, ?_⟩
    show Op.Logs cd _ _ _ (if (cd.refName w).isSome ∧ a.fault.isNone then _ else _)
      (transcriptRef cd b w a e).2.t.refs (fun _ => 0) none
    rw [transcriptRef]
    cases hname : cd.refName w with
    | none => exact .none
    | some name =>
      cases a.fault with
      | some f => exact .none
      | none =>
        rw [if_pos ⟨rfl, rfl⟩, List.dropLast_concat]
        exact .name b w name l' rfl hname
  | _ =>
    rw [hrefs fun _ _ heq => by cases heq]
    exact ⟨none, hp res, .none⟩

variable {v : Option V} {l l' : List (Accepted V)} {refs refs' : List Ref} {n : Nat → Nat}
  {due : Option Nat}

/-- The kept names stay the names of the log. -/
theorem Op.Logs.refs_eq (h : Op.Logs cd v l refs l' refs' n due)
    (hl : refs = l.filterMap (Accepted.ref? cd)) : refs' = l'.filterMap (Accepted.ref? cd) := by
  cases h with
  | none => exact hl
  | value b w due hw =>
    rw [List.filterMap_append, hl]
    exact (List.append_nil _).symm
  | name b w name l₀ heq hname =>
    have hlast : Accepted.ref? cd ⟨b, some w, true⟩ = some ⟨b, name⟩ := by
      simp [Accepted.ref?, hname]
    rw [hl, heq, List.filterMap_append, List.filterMap_append, List.filterMap_cons_some hlast]
    exact congrArg (· ++ _) (List.append_nil _)

theorem Op.Logs.named (h : Op.Logs cd v l refs l' refs' n due)
    (hl : ∀ e ∈ l, e.kept = true → (e.value.bind cd.refName).isSome) :
    ∀ e ∈ l', e.kept = true → (e.value.bind cd.refName).isSome := by
  intro e he hk
  cases h with
  | none => exact hl e he hk
  | value b w due hw =>
    obtain he | he := List.mem_append.mp he
    · exact hl e he hk
    · obtain rfl := List.mem_singleton.mp he
      contradiction
  | name b w name l₀ heq hname =>
    obtain he | he := List.mem_append.mp he
    · exact hl e (heq ▸ List.mem_append_left _ he) hk
    · obtain rfl := List.mem_singleton.mp he
      exact Option.isSome_of_eq_some hname

theorem Op.Logs.counts_eq (h : Op.Logs cd v l refs l' refs' n due) (b : Nat) :
    (l'.countP fun e => e.block = b) = (l.countP fun e => e.block = b) + n b := by
  cases h with
  | none => rfl
  | value b' w due hw =>
    rw [List.countP_append, List.countP_singleton]
    simp only [decide_eq_true_eq]
  | name b' w name l₀ heq hname =>
    rw [heq, List.countP_append, List.countP_append]
    rfl

theorem Op.Logs.due_eq (h : Op.Logs cd v l refs l' refs' n due) {b : Nat} (hb : due = some b) :
    ∃ l₀, l' = l₀ ++ [⟨b, v, false⟩] := by
  cases h with
  | none => contradiction
  | value b' w due hw =>
    obtain ⟨rfl, rfl⟩ := hw b hb
    exact ⟨l, rfl⟩
  | name b' w name l₀ heq hname => contradiction

/-- An operation of a call. -/
theorem Logged.does (h : Logged cd s log) {call : Call V} {o : Op V} {k : Result → Prog V} (a : Ans)
    (hc : s.phase c = .inside call) (hprog : call.prog = .call o k) :
    Logged cd (s.does cd c call o k a) (update log call.x
      (o.accepts cd (o.exec cd a (s.env call)).1 a call.req.value (log call.x))) := by
  have hh : s.Holds c call.x := holds_of_turnAt hc rfl
  obtain ⟨due, hrefs, hdue⟩ := h.due c call hc
  rw [hprog] at hrefs
  obtain ⟨d, hd, hlogs⟩ := exec_logs hrefs hdue a (s.env call)
  obtain ⟨hopen, hbusy, -, -⟩ := exec_keeps cd a (s.env call) o
  have hcount := exec_docCount cd a (s.env call) o
  generalize hl' : o.accepts cd (o.exec cd a (s.env call)).1 a call.req.value (log call.x) = l' at *
  have hxs : ∀ y, y ≠ call.x → (s.does cd c call o k a).xs y = s.xs y :=
    fun y hy => update_of_ne hy _ _
  have hx : (s.does cd c call o k a).xs call.x = (o.exec cd a (s.env call)).2.t := update_self ..
  have hne : ∀ c', c' ≠ c → (s.does cd c call o k a).phase c' = s.phase c' :=
    fun c' hc' => update_of_ne hc' _ _
  have hat : (s.does cd c call o k a).phase c = .inside { call with
      prog := k (o.exec cd a (s.env call)).1
      filled := o.fills (o.exec cd a (s.env call)).1 call.filled
      took := call.took + 1 } := update_self ..
  have hholds : ∀ c' y, (s.does cd c call o k a).Holds c' y ↔ s.Holds c' y := by
    intro c' y
    by_cases hcc : c' = c
    · rw [hcc, State.Holds, hat, State.Holds, hc]
      rfl
    · rw [State.Holds, hne c' hcc, State.Holds]
  have hkeep : ∀ y, ((s.does cd c call o k a).xs y).isOpen = (s.xs y).isOpen ∧
      ((s.does cd c call o k a).xs y).busy = (s.xs y).busy := by
    intro y
    by_cases hy : y = call.x
    · rw [hy, hx]
      exact ⟨hopen, hbusy⟩
    · rw [hxs y hy]
      exact ⟨rfl, rfl⟩
  refine ⟨?_, ?_, ?_, ?_, ?_, ?_, ?_, ?_, ?_⟩
  · intro c₁ c₂ y h₁ h₂
    exact h.alone c₁ c₂ y ((hholds c₁ y).mp h₁) ((hholds c₂ y).mp h₂)
  · intro c' y hc'
    rw [(hkeep y).2]
    exact h.busy c' y ((hholds c' y).mp hc')
  · intro c' y hc'
    rw [(hkeep y).1]
    exact h.isOpen c' y ((hholds c' y).mp hc')
  · intro c' r y hc'
    rw [(hkeep y).1]
    by_cases hcc : c' = c
    · rw [hcc, hat] at hc'
      contradiction
    · rw [hne c' hcc] at hc'
      exact h.waits c' r y hc'
  · intro y hy
    rw [(hkeep y).1] at hy
    have hyx : y ≠ call.x := by
      rintro rfl
      rw [h.isOpen c _ hh] at hy
      contradiction
    rw [update_of_ne hyx]
    exact h.fresh y hy
  · intro y
    by_cases hy : y = call.x
    · rw [hy, update_self, hx]
      exact hlogs.refs_eq (h.refs call.x)
    · rw [update_of_ne hy, hxs y hy]
      exact h.refs y
  · intro y
    by_cases hy : y = call.x
    · rw [hy, update_self]
      exact hlogs.named (h.named call.x)
    · rw [update_of_ne hy]
      exact h.named y
  · intro c' call' hc'
    by_cases hcc : c' = c
    · rw [hcc, hat] at hc'
      obtain rfl := Phase.inside.inj hc'
      refine ⟨d, hd, fun b hb => ?_⟩
      show ∃ l₀, update log call.x l' call.x = _
      rw [update_self]
      exact hlogs.due_eq hb
    · rw [hne c' hcc] at hc'
      have hy : call'.x ≠ call.x := by
        intro heq
        have hother : s.Holds c' call.x := heq ▸ holds_of_turnAt hc' rfl
        exact hcc (h.alone c' c _ hother hh)
      rw [update_of_ne hy]
      exact h.due c' call' hc'
  · intro y b
    by_cases hy : y = call.x
    · rw [hy, update_self, hx, hcount b, hlogs.counts_eq b]
      exact congrArg (· + _) (h.counts call.x b)
    · rw [update_of_ne hy, hxs y hy]
      exact h.counts y b

theorem Logged.opens (h : Logged cd s log) (hx : (s.xs x).isOpen = false) :
    Logged cd { s with xs := update s.xs x { Transcript.closed with isOpen := true } } log := by
  have hne : ∀ {c y : Nat}, s.Holds c y → y ≠ x := by
    rintro c y hc rfl
    rw [h.isOpen c y hc] at hx
    contradiction
  have hlog : log x = [] := h.fresh x hx
  refine ⟨h.alone, ?_, ?_, ?_, ?_, ?_, h.named, h.due, ?_⟩
  · intro c y hc
    exact (congrArg Transcript.busy (update_of_ne (hne hc) _ _)).trans (h.busy c y hc)
  · intro c y hc
    exact (congrArg Transcript.isOpen (update_of_ne (hne hc) _ _)).trans (h.isOpen c y hc)
  · intro c r y hc
    have hy : y ≠ x := by
      rintro rfl
      rw [h.waits c r y hc] at hx
      contradiction
    exact (congrArg Transcript.isOpen (update_of_ne hy _ _)).trans (h.waits c r y hc)
  · intro y hy
    by_cases hyx : y = x
    · rw [hyx, hlog]
    · exact h.fresh y ((congrArg Transcript.isOpen (update_of_ne hyx _ _)).symm.trans hy)
  · intro y
    by_cases hyx : y = x
    · rw [hyx, hlog]
      show (update s.xs x _ x).refs = _
      rw [update_self]
      rfl
    · exact (congrArg Transcript.refs (update_of_ne hyx _ _)).trans (h.refs y)
  · intro y b
    by_cases hyx : y = x
    · rw [hyx, hlog]
      show docCount (update s.xs x _ x).doc b = _
      rw [update_self]
      rfl
    · exact (congrArg (fun t : Transcript => docCount t.doc b) (update_of_ne hyx _ _)).trans
        (h.counts y b)

/-- A call is in its turn, at the beginning of its program. -/
theorem Logged.enters (h : Logged cd s log) {r : Request V} {slot : Option Nat}
    (hc : s.phase c = .entered r x) :
    Logged cd { s with
      phase := update s.phase c (.inside ⟨r, x, slot, r.prog cd, (s.xs x, s.jobAt slot), none, 0⟩)
      turns := update s.turns x (s.turns x ++ [⟨c, fun _ => []⟩]) } log := by
  have hh : s.Holds c x := holds_of_turnAt hc rfl
  apply h.move rfl
  · exact fun y => ⟨rfl, rfl, rfl⟩
  · exact fun c' y _ hc' => h.busy c' y hc'
  · intro y hy
    obtain rfl := Option.some.inj hy
    exact ⟨fun c' hne hc' => hne (h.alone c' c _ hc' hh), h.isOpen c _ hh, h.busy c _ hh⟩
  · exact fun r y hr => by cases hr
  · intro call hcall
    obtain rfl := Phase.inside.inj hcall
    exact ⟨none, r.refs cd, fun b hb => absurd hb.symm (Option.some_ne_none b)⟩

/-- **The log of a run says what the transcripts keep.** -/
theorem Traced.logged (h : Traced cd s log) : Logged cd s log := by
  induction h with
  | init => exact logged_init
  | does a _ hc hp ih => exact ih.does a hc hp
  | other _ hs ih =>
    cases hs with
    | opens x hx ho => exact ih.opens ho
    | job i t job cmd hi hu ht =>
      exact ⟨ih.alone, ih.busy, ih.isOpen, ih.waits, ih.fresh, ih.refs, ih.named, ih.due, ih.counts⟩
    | asks r hc ht =>
      apply ih.aside rfl
      intro r' y heq
      obtain ⟨rfl, rfl⟩ := Phase.waiting.inj heq
      exact (target_waits ht).isOpen
    | refuses r hc ht => exact ih.aside rfl fun r' y heq => by cases heq
    | cancels hc => exact ih.aside rfl fun r' y heq => by cases heq
    | takes hc hb => exact ih.takes hc hb
    | stale hc hr hj => exact ih.gives (holds_of_turnAt hc rfl) rfl fun r' y heq => by cases heq
    | enters slot hc hj => exact ih.enters hc
    | looks hc hp =>
      obtain ⟨d, hrefs, -⟩ := ih.due _ _ hc
      rw [hp] at hrefs
      exact ih.goes hc (hrefs _ _)
    | rounds hc hp =>
      obtain ⟨d, hrefs, -⟩ := ih.due _ _ hc
      rw [hp] at hrefs
      exact ih.goes hc (refs_round hrefs)
    | leaves hc hp => exact ih.gives (holds_of_turnAt hc rfl) rfl fun r' y heq => by cases heq

/-! ### Picks -/

/-- A call of `transcript-pick`, once it has its turn, answers with the name that it finds. -/
theorem pick_prog (t : Nat) (b v : Int) :
    (Request.pick t b v : Request V).prog cd = .look fun x _ => .ret (pickName x b v) := rfl

/-- Slot 0 is the link document's; how values are encoded does not matter here. -/
def Codec.link : Codec Value where
  encode _ := .ok [1]
  message _ b := .ok b
  refName := Value.refName
  isLink k := k = 0

end Jacl.Transcripts
