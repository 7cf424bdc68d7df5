import Jacl.Transcripts

/-!
# A transcript call in its turn

What a call does is followed from operation to operation by what it knows (`Local`): whether it
changed anything, what it made, and what it wrote.  `Prog.Fine` says of what is left of a call that
it goes well from there, within a number of operations: it comes back with an error only if it
changed nothing, and pushes a frame only of its own value.  Each call is `Fine` as it takes its turn
(`Request.fine`), and each operation leaves what the call then knows (`Local.Of.does`,
`Local.Of.fails`).
-/

namespace Jacl.Transcripts
open Function

variable {V : Type}

/-! ### What calls are to do -/

/-- The frame of a value, for a block of slot `k`'s schema. -/
def Codec.frame (cd : Codec V) (k : Option Nat) (v : V) : Option Bytes :=
  match cd.encode v with
  | .error _ => none
  | .ok b =>
    match k with
    | none => some b
    | some k => (cd.message k b).toOption

/-- The frame is that of the call's own value. -/
def Pushed.Own (cd : Codec V) (p : Pushed V) : Prop :=
  match p.req with
  | .push _ _ v => cd.frame p.noted v = some p.frame
  | .jobEmit _ v k => cd.frame k v = some p.frame
  | _ => False

/-- A call of a job's output, which has nothing to report. -/
def Request.silent : Request V → Bool
  | .jobWrite .. | .jobForward .. | .jobPipelineDone _ => true
  | _ => false

/-- What a call writes. -/
def Request.text : Request V → Bytes
  | .write _ _ text | .jobWrite _ text => text
  | _ => []

/-- How many operations a call may take. -/
def Request.bound (r : Request V) : Nat := 4 * r.text.length + 16

/-! ### What a call knows -/

/-- What a call has changed and made so far: whether it changed anything, the block it opened and
did not note yet, the encoding and the message that are in its buffers, what it wrote, how much
output waits, and whether it freed its job's slot. -/
structure Local where
  touched : Bool
  ahead : Option Nat
  value : Option Bytes
  msg : Option Bytes
  wrote : Nat → Bytes
  pend : Nat
  freed : Bool

/-- What a call makes a frame of, and in whose buffers. -/
def Request.makes : Request V → Option (Maker × V)
  | .push _ _ v => some (.push, v)
  | .jobEmit _ v _ => some (.emit, v)
  | _ => none

def Local.made (l : Local) (msg : Bool) : Option Bytes := if msg then l.msg else l.value

/-- What a call that knows `l` may see. -/
def Local.Sees (l : Local) (before : Transcript × Job) (t : Transcript) (j : Job) : Prop :=
  (l.touched = false → (t, j) = before) ∧ t.pending = l.pend

/-- What is to hold before an operation. -/
def Op.Pre (cd : Codec V) (r : Request V) (before : Transcript × Job) (l : Local) : Op V → Prop
  | .begin .. => l.ahead = none
  | .note b _ => l.ahead = some b
  | .encode m v => r.makes = some (m, v) ∧ l.touched = false ∧ l.value = none
  | .message m _ n => l.touched = false ∧ (∃ v, r.makes = some (m, v)) ∧ l.msg = none ∧
    ∃ b, l.value = some b ∧ n = b.length
  | .push b m msg n => l.value.isSome = true ∧ (∃ v, r.makes = some (m, v)) ∧
    ∃ f, l.made msg = some f ∧ n = f.length ∧
      ∀ t j, l.Sees before t j → Pushed.Own cd ⟨r, (t.schema[b]?).join, f⟩
  | .write _ part => l.pend + part.length ≤ transcriptPending
  | .shut | .opened .. | .free => r.job.isSome = true
  | _ => True

/-- What holds after an operation that came to `n`. -/
def Op.Post (cd : Codec V) (l : Local) (n : Nat) (l' : Local) : Op V → Prop
  | .begin .. => l' = { l with touched := true, ahead := some n }
  | .note .. => l' = { l with touched := true, ahead := none }
  | .encode _ v => ∃ b, cd.encode v = .ok b ∧ n = b.length ∧ l' = { l with value := some b, msg := none }
  | .message _ k _ => ∃ b f, l.value = some b ∧ cd.message k b = .ok f ∧ n = f.length ∧
    l' = { l with msg := if transcriptValue < f.length then none else some f }
  | .push .. => l' = { l with touched := true, value := none, msg := none }
  | .write b part => l' = { l with
      touched := l.touched || !part.isEmpty
      wrote := update l.wrote b (l.wrote b ++ part)
      pend := l.pend + part.length }
  | .flush => l' = { l with touched := true, pend := 0 }
  | .free => l' = { l with touched := true, freed := true }
  | _ => l' = { l with touched := true }

/-- The operations that may fail. -/
def Op.MayFail (r : Request V) : Op V → Prop
  | .note .. | .ref .. | .shut | .opened .. | .free => False
  | _ => ∀ h complete, r ≠ .jobEnd h complete

/-- What a call knows after an operation that failed. -/
def Op.failed (r : Request V) (l : Local) : Op V → Local
  | .push .. => { l with touched := r.silent && l.touched, value := none, msg := none }
  | _ => { l with touched := r.silent && l.touched }

/-- How many operations the rounds of a loop take. -/
def cost (n pend : Nat) : Nat := 4 * n + (if pend < transcriptPending then 0 else 4) + 1

/-- **What is left of a call goes well**, in at most `n` operations. -/
def Prog.Fine (cd : Codec V) (r : Request V) (before : Transcript × Job) :
    Prog V → Nat → Local → Prop
  | .ret out, _, l => l.ahead = none ∧ (out.isError = true → l.touched = false) ∧
    ∀ t b text, r = .write t b text → out = .nil → l.wrote b.toNat = text
  | .look k, n, l => l.freed = false ∧ ∃ m < n, ∀ t j, l.Sees before t j →
    (k t j).Fine cd r before m l
  | .call o k, n, l => l.freed = false ∧ o.Pre cd r before l ∧ ∃ m < n,
    (∀ v l', o.Post cd l v l' → (k (.ok v)).Fine cd r before m l') ∧
    (o.MayFail r → ∀ e, (k (.error e)).Fine cd r before m (o.failed r l))
  | .writes b rest k, n, l => l.freed = false ∧ (∀ h complete, r ≠ .jobEnd h complete) ∧
    l.pend ≤ transcriptPending ∧ ∃ m, m + cost rest.length l.pend ≤ n ∧
    (∀ touched pend, (k (.ok b)).Fine cd r before m { l with
      touched := touched, pend := pend, wrote := update l.wrote b (l.wrote b ++ rest) }) ∧
    ∀ e touched pend part, (touched = true → r.silent = true) →
      (k (.error e)).Fine cd r before m { l with
        touched := touched, pend := pend, wrote := update l.wrote b (l.wrote b ++ part) }

variable {cd : Codec V} {r : Request V} {before : Transcript × Job} {l : Local} {n : Nat}

theorem Prog.Fine.mono {p : Prog V} {m : Nat} (h : p.Fine cd r before n l) (hnm : n ≤ m) :
    p.Fine cd r before m l := by
  cases p with
  | ret out => exact h
  | look k =>
    obtain ⟨hl, j, hj, hk⟩ := h
    exact ⟨hl, j, by omega, hk⟩
  | call o k =>
    obtain ⟨hl, hp, j, hj, hk⟩ := h
    exact ⟨hl, hp, j, by omega, hk⟩
  | writes b rest k =>
    obtain ⟨hl, hr, hp, j, hj, hk⟩ := h
    exact ⟨hl, hr, hp, j, by omega, hk⟩

/-! ### Each call goes well -/

@[simp] theorem transcriptErr_isError (what : String) (e : Fault) :
    (transcriptErr what e).isError = true := by
  rcases e with s | c
  · rfl
  · cases c <;> rfl

@[simp] theorem codeOf_isError (e : Fault) : (codeOf e).isError = true := by
  cases e <;> rfl

/-- It comes back with an error, and nothing changed. -/
theorem fine_error {out : Out} (hl : l.ahead = none) (ht : l.touched = false)
    (ho : out.isError = true) : (Prog.ret out : Prog V).Fine cd r before n l := by
  refine ⟨hl, fun _ => ht, ?_⟩
  intro t b text _ hnil
  rw [hnil] at ho
  cases ho

/-- It comes back without one. -/
theorem fine_done {out : Out} (hl : l.ahead = none) (ho : out.isError = false)
    (hr : ∀ t b text, r ≠ .write t b text) : (Prog.ret out : Prog V).Fine cd r before n l :=
  ⟨hl, fun h => (Bool.eq_false_iff.1 ho h).elim, fun t b text h => (hr t b text h).elim⟩

@[simp] theorem failed_ahead (o : Op V) : (o.failed r l).ahead = l.ahead := by cases o <;> rfl

@[simp] theorem failed_touched (o : Op V) :
    (o.failed r l).touched = (r.silent && l.touched) := by cases o <;> rfl

@[simp] theorem failed_freed (o : Op V) : (o.failed r l).freed = l.freed := by cases o <;> rfl

/-- A call that reports comes back with an error when an operation fails. -/
theorem fine_failed {out : Out} (o : Op V) (hl : l.ahead = none) (hr : r.silent = false)
    (ho : out.isError = true) : (Prog.ret out : Prog V).Fine cd r before n (o.failed r l) :=
  fine_error (by simpa using hl) (by simp [hr]) ho

/-- An operation that is the whole call. -/
theorem fine_single {what : String} {o : Op V} (hl : l.ahead = none) (hf : l.freed = false)
    (hr : r.silent = false) (hw : ∀ t b text, r ≠ .write t b text) (hp : o.Pre cd r before l)
    (ho : ∀ v l', o.Post cd l v l' → l'.ahead = none) (hn : 0 < n) :
    (Prog.single what o).Fine cd r before n l := by
  refine ⟨hf, hp, 0, hn, ?_, ?_⟩
  · intro v l' h
    exact fine_done (ho v l' h) rfl hw
  · intro _ e
    exact fine_failed o hl hr (transcriptErr_isError ..)

/-- A block is opened. -/
theorem fine_opening {what : String} {cmd : Bytes} {job : Nat} {kind : Kind} {k : Option Nat}
    (hl : l.ahead = none) (hf : l.freed = false) (hr : r.silent = false)
    (hw : ∀ t b text, r ≠ .write t b text) (hn : 1 < n) :
    (Prog.opening what cmd job kind k).Fine cd r before n l := by
  refine ⟨hf, hl, 1, hn, ?_, ?_⟩
  · intro b l' h
    subst h
    refine ⟨hf, rfl, 0, Nat.one_pos, ?_, nofun⟩
    intro v l' h
    subst h
    exact fine_done rfl rfl hw
  · intro _ e
    exact fine_failed (.begin cmd job kind) hl hr (transcriptErr_isError ..)

/-- An operation on a block that the call names. -/
theorem fine_onBlock {what : String} {b : Int} {go : Transcript → Nat → Prog V} {m : Nat}
    (hl : l.ahead = none) (hf : l.freed = false) (ht : l.touched = false) (hn : m < n)
    (hgo : ∀ t j b', l.Sees before t j → blockOf t b = some b' →
      (go t b').Fine cd r before m l) : (Prog.onBlock what b go).Fine cd r before n l := by
  refine ⟨hf, m, hn, ?_⟩
  intro t j hs
  cases hb : blockOf t b with
  | none =>
    simp only [hb]
    exact fine_error hl ht rfl
  | some b' =>
    simp only [hb]
    exact hgo t j b' hs hb

/-- The frame is made of the call's own value. -/
theorem fine_framed {what : String} {m : Maker} {v : V} {k : Option Nat} {p : Nat}
    {go : Bool → Nat → Prog V} (hm : r.makes = some (m, v)) (hl : l.ahead = none)
    (hf : l.freed = false) (ht : l.touched = false) (hv : l.value = none)
    (hr : r.silent = false) (hn : p + 1 < n)
    (hgo : ∀ b msg f, cd.frame k v = some f →
      (if msg then (b : Bytes × Option Bytes).2 else some b.1) = some f →
      (go msg f.length).Fine cd r before p { l with value := some b.1, msg := b.2 }) :
    (Prog.framed what m v k go).Fine cd r before n l := by
  refine ⟨hf, ⟨hm, ht, hv⟩, p + 1, hn, ?_, fun _ e => fine_failed (.encode m v) hl hr (by simp)⟩
  rintro _ _ ⟨b, hb, rfl, rfl⟩
  cases k with
  | none => exact (hgo (b, none) false b (by simp [Codec.frame, hb]) rfl).mono p.le_succ
  | some k =>
    refine ⟨hf, ⟨ht, ⟨v, hm⟩, rfl, b, rfl, rfl⟩, p, Nat.lt_succ_self p, ?_,
      fun _ e => fine_failed (.message m k b.length) hl hr (by simp)⟩
    rintro _ _ ⟨b', f, hb', hk, rfl, rfl⟩
    obtain rfl : b = b' := Option.some.inj hb'
    have hframe : cd.frame (some k) v = some f := by simp [Codec.frame, hb, hk, Except.toOption]
    by_cases hlen : transcriptValue < f.length
    · simp only [if_pos hlen]
      exact fine_error hl ht rfl
    · simp only [if_neg hlen]
      exact hgo (b, some f) true f hframe rfl

/-- The frame is pushed. -/
theorem fine_pushing {what : String} {m : Maker} {v : V} {k : Option Nat} {b : Nat} {msg : Bool}
    {f : Bytes} (hl : l.ahead = none) (hf : l.freed = false) (hr : r.silent = false)
    (hw : ∀ t b text, r ≠ .write t b text) (hv : l.value.isSome = true)
    (hm : r.makes = some (m, v)) (hf' : l.made msg = some f)
    (hown : ∀ t j, l.Sees before t j → Pushed.Own cd ⟨r, (t.schema[b]?).join, f⟩)
    (hn : 1 < n) : (Prog.pushing cd what m v k b msg f.length).Fine cd r before n l := by
  refine ⟨hf, ⟨hv, ⟨v, hm⟩, f, hf', rfl, hown⟩, 1, hn, ?_,
    fun _ e => fine_failed (.push b m msg f.length) hl hr (by simp)⟩
  intro n' l' h
  subst h
  by_cases hk : k.any cd.isLink = true
  · simp only [if_pos hk]
    refine ⟨hf, trivial, 0, Nat.one_pos, ?_, nofun⟩
    intro n' l' h
    subst h
    exact fine_done hl rfl hw
  · simp only [if_neg hk]
    exact fine_done hl rfl hw

/-- A job's next block. -/
theorem fine_jobNext {j : Job} {kind : Kind} {go : Result → Prog V} {m : Nat}
    (hj : r.job.isSome = true) (hl : l.ahead = none) (hf : l.freed = false) (hn : m + 3 < n)
    (hok : ∀ b, (go (.ok b)).Fine cd r before m { l with touched := true })
    (herr : ∀ e touched, (touched = true → r.silent = true) →
      (go (.error e)).Fine cd r before m { l with touched := touched }) :
    (Prog.jobNext j kind go).Fine cd r before n l := by
  refine ⟨hf, hj, m + 3, hn, ?_, nofun⟩
  intro n' l' h
  subst h
  refine ⟨hf, hl, m + 2, Nat.lt_succ_self _, ?_, ?_⟩
  · intro b l' h
    subst h
    refine ⟨hf, rfl, m + 1, Nat.lt_succ_self _, ?_, nofun⟩
    intro n' l' h
    subst h
    refine ⟨hf, hj, m, Nat.lt_succ_self _, ?_, nofun⟩
    intro n' l' h
    subst h
    have h : ({ l with touched := true, ahead := none } : Local) = { l with touched := true } := by
      rw [← hl]
    exact h ▸ hok b
  · intro _ e
    exact (herr e _ (by simp)).mono (by omega)

/-- `job_block`. -/
theorem fine_jobBlock {kind : Kind} {go : Result → Prog V} {m : Nat}
    (hj : r.job.isSome = true) (hl : l.ahead = none) (hf : l.freed = false) (hn : m + 5 < n)
    (hok : ∀ b touched, (go (.ok b)).Fine cd r before m { l with touched := touched })
    (herr : ∀ e touched, (touched = true → r.silent = true) →
      (go (.error e)).Fine cd r before m { l with touched := touched }) :
    (Prog.jobBlock kind go).Fine cd r before n l := by
  refine ⟨hf, m + 5, hn, ?_⟩
  intro t j _
  have hnext : ∀ l' : Local, l'.ahead = none → l'.freed = false →
      (∀ touched, { l' with touched := touched } = { l with touched := touched }) →
      (Prog.jobNext j kind go).Fine cd r before (m + 4) l' := by
    intro l' hl' hf' h
    refine fine_jobNext hj hl' hf' (Nat.lt_succ_self _) ?_ ?_
    · intro b
      rw [h]
      exact hok b true
    · intro e touched ht
      rw [h]
      exact herr e touched ht
  cases hb : j.block with
  | none =>
    simp only [hb]
    exact (hnext l hl hf fun _ => rfl).mono (Nat.le_succ _)
  | some b =>
    by_cases hk : j.kind = kind
    · simp only [hb, if_pos hk]
      exact (hok b l.touched).mono (by omega)
    · simp only [hb, if_neg hk]
      refine ⟨hf, trivial, m + 4, Nat.lt_succ_self _, ?_, ?_⟩
      · intro n' l' h
        subst h
        exact hnext _ hl hf fun _ => rfl
      · intro _ e
        exact hnext _ hl hf fun _ => rfl

/-- What a call knows as it takes its turn. -/
def Local.start (pend : Nat) : Local := ⟨false, none, none, none, fun _ => [], pend, false⟩

theorem cost_le (n pend : Nat) : cost n pend ≤ 4 * n + 5 := by
  unfold cost
  split <;> omega

/-- The loop of a call whose text is to be in block `b`. -/
theorem fine_write {t : Nat} {b : Int} {text : Bytes} {b' : Nat} {pend : Nat}
    (hb : b' = b.toNat) (hp : pend ≤ transcriptPending) (hn : 4 * text.length + 5 ≤ n) :
    (Prog.writes b' text fun
      | .error e => .ret (transcriptErr "transcript-write" e)
      | .ok _ => .ret .nil : Prog V).Fine cd (.write t b text) before n (.start pend) := by
  refine ⟨rfl, nofun, hp, 0, ?_, ?_, ?_⟩
  · have := cost_le text.length (Local.start pend).pend
    omega
  · intro touched pend
    refine ⟨rfl, nofun, ?_⟩
    intro _ _ _ heq _
    cases heq
    simp [Local.start, hb]
  · intro e touched pend part ht
    refine fine_error rfl ?_ (transcriptErr_isError ..)
    exact Bool.eq_false_iff.2 fun h => nomatch ht h

/-- **Each call goes well.** -/
theorem Request.fine (r : Request V) {pend : Nat} (hp : pend ≤ transcriptPending) :
    (r.prog cd).Fine cd r before r.bound (.start pend) := by
  have hbound : 16 ≤ r.bound := Nat.le_add_left ..
  cases r with
  | line t text =>
    refine fine_single rfl rfl rfl nofun trivial ?_ (by omega)
    rintro _ _ rfl
    rfl
  | block t cmd job k => exact fine_opening rfl rfl rfl nofun (by omega)
  | output t cmd job => exact fine_opening rfl rfl rfl nofun (by omega)
  | pick t b v =>
    refine ⟨rfl, 0, by omega, fun x j _ => fine_done rfl ?_ nofun⟩
    unfold pickName
    split <;> rfl
  | push t b v =>
    refine fine_onBlock (m := 9) rfl rfl rfl (by omega) ?_
    intro x j b' hs hb
    refine fine_framed (p := 5) rfl rfl rfl rfl rfl rfl (by omega) ?_
    intro c msg f hf hmade
    refine fine_pushing rfl rfl rfl nofun rfl rfl ?_ ?_ (by omega)
    · cases msg <;> exact hmade
    · intro x' j' hs'
      have hx : (x', j') = (x, j) := (hs'.1 rfl).trans (hs.1 rfl).symm
      cases hx
      exact hf
  | write t b text =>
    refine fine_onBlock (m := 4 * text.length + 5) rfl rfl rfl ?_ ?_
    · simp only [Request.bound, Request.text]
      omega
    · intro x j b' _ hb
      refine fine_write ?_ hp (le_refl _)
      unfold blockOf at hb
      split at hb
      · exact (Option.some.inj hb).symm
      · cases hb
  | ends t b =>
    refine fine_onBlock (m := 9) rfl rfl rfl (by omega) ?_
    intro x j b' _ _
    refine fine_single rfl rfl rfl nofun trivial ?_ (by omega)
    rintro _ _ rfl
    rfl
  | flush t =>
    refine fine_single rfl rfl rfl nofun trivial ?_ (by omega)
    rintro _ _ rfl
    rfl
  | jobWrite s text =>
    refine fine_jobBlock (m := 4 * text.length + 5) rfl rfl rfl ?_ ?_ ?_
    · simp only [Request.bound, Request.text]
      omega
    · intro b touched
      refine ⟨rfl, nofun, hp, 0, ?_, ?_, ?_⟩
      · have := cost_le text.length (Local.start pend).pend
        simpa using this
      · exact fun _ _ => fine_done rfl rfl nofun
      · exact fun _ _ _ _ _ => fine_done rfl rfl nofun
    · exact fun _ _ _ => fine_done rfl rfl nofun
  | jobForward s a e frame =>
    refine fine_jobBlock (m := 4) rfl rfl rfl (by omega) ?_ ?_
    · intro b touched
      refine ⟨rfl, trivial, 0, by omega, ?_, ?_⟩
      · rintro _ _ rfl
        exact fine_done rfl rfl nofun
      · exact fun _ _ => fine_done rfl rfl nofun
    · exact fun _ _ _ => fine_done rfl rfl nofun
  | jobEmit s v k =>
    unfold Request.prog
    refine fine_framed (p := 10) rfl rfl rfl rfl rfl rfl (by omega) ?_
    intro c msg f hf hmade
    refine fine_jobBlock (m := 4) rfl rfl rfl (by omega) ?_ ?_
    · intro b touched
      refine fine_pushing rfl rfl rfl nofun rfl rfl ?_ (fun _ _ _ => hf) (by omega)
      cases msg <;> exact hmade
    · intro e touched ht
      exact fine_error rfl (Bool.eq_false_iff.2 fun h => nomatch ht h) (transcriptErr_isError ..)
  | jobPipelineDone s =>
    refine ⟨rfl, 4, by omega, ?_⟩
    intro x j _
    rcases hb : j.block with _ | b
    · simp only [hb]
      exact fine_done rfl rfl nofun
    · rcases hk : j.kind with _ | _ | ⟨a, e⟩ <;> simp only [hb, hk]
      · exact fine_done rfl rfl nofun
      · exact fine_done rfl rfl nofun
      · have hshut : ∀ l' : Local, l'.ahead = none → l'.freed = false →
            (Prog.call .shut fun _ => .ret .silent : Prog V).Fine cd (.jobPipelineDone s) before
              3 l' := by
          intro l' hl hf
          refine ⟨hf, rfl, 0, by omega, ?_, nofun⟩
          rintro _ _ rfl
          exact fine_done hl rfl nofun
        refine ⟨rfl, trivial, 3, by omega, ?_, ?_⟩
        · rintro _ _ rfl
          exact hshut _ rfl rfl
        · exact fun _ _ => hshut _ rfl rfl
  | jobEnd s complete =>
    refine ⟨rfl, 4, by omega, ?_⟩
    intro x j _
    have hfree : ∀ l' : Local, l'.ahead = none → l'.freed = false →
        (Prog.call .free fun _ => .ret (.int j.blocks) : Prog V).Fine cd (.jobEnd s complete) before
          3 l' := by
      intro l' hl hf
      refine ⟨hf, rfl, 0, by omega, ?_, nofun⟩
      rintro _ _ rfl
      exact fine_done hl rfl nofun
    rcases hb : j.block with _ | b <;> simp only [hb]
    · exact (hfree (.start pend) rfl rfl).mono (Nat.le_succ 3)
    · refine ⟨rfl, trivial, 3, by omega, ?_, ?_⟩
      · rintro _ _ rfl
        exact hfree _ rfl rfl
      · exact fun h => (h s complete rfl).elim
  | jobScreen s frame =>
    have hend : ∀ l' : Local, l'.ahead = none → l'.freed = false →
        (Prog.call .flush fun
          | .error e => .ret (codeOf e)
          | .ok _ => .ret .nil : Prog V).Fine cd (.jobScreen s frame) before 3 l' := by
      intro l' hl hf
      refine ⟨hf, trivial, 0, by omega, ?_, ?_⟩
      · rintro _ _ rfl
        exact fine_done hl rfl nofun
      · exact fun _ e => fine_failed .flush hl rfl (codeOf_isError e)
    refine fine_jobBlock (m := 4) rfl rfl rfl (by omega) ?_ ?_
    · intro b touched
      refine ⟨rfl, trivial, 3, by omega, ?_, ?_⟩
      · rintro _ _ rfl
        exact hend _ rfl rfl
      · exact fun _ e => fine_failed (.forward b frame) rfl rfl (codeOf_isError e)
    · intro e touched ht
      exact fine_error rfl (Bool.eq_false_iff.2 fun h => nomatch ht h) (codeOf_isError e)
  | jobRegionNamed s =>
    have hend : ∀ l' : Local, l'.ahead = none → l'.freed = false →
        (Prog.call .flush fun
          | .error e => .ret (codeOf e)
          | .ok _ => .ret .nil : Prog V).Fine cd (.jobRegionNamed s) before 3 l' := by
      intro l' hl hf
      refine ⟨hf, trivial, 0, by omega, ?_, ?_⟩
      · rintro _ _ rfl
        exact fine_done hl rfl nofun
      · exact fun _ e => fine_failed .flush hl rfl (codeOf_isError e)
    refine fine_jobBlock (m := 4) rfl rfl rfl (by omega) ?_ ?_
    · intro b touched
      refine ⟨rfl, trivial, 3, by omega, ?_, ?_⟩
      · rintro _ _ rfl
        exact hend _ rfl rfl
      · exact fun _ e => fine_failed (.line []) rfl rfl (codeOf_isError e)
    · intro e touched ht
      exact fine_error rfl (Bool.eq_false_iff.2 fun h => nomatch ht h) (codeOf_isError e)

/-! ### What an operation keeps -/

/-- **What a call knows is so.** -/
structure Local.Of (l : Local) (r : Request V) (before : Transcript × Job) (e : Env)
    (filled : Option Maker) : Prop where
  same : l.touched = false → (e.t, e.job) = before
  pend : e.t.pending = l.pend
  even : l.ahead = none → e.t.schema.length = e.t.doc.length
  ahead : ∀ b, l.ahead = some b → e.t.schema.length = b ∧ e.t.doc.length = b + 1
  value : ∀ b m v, l.value = some b → r.makes = some (m, v) → (e.bufs m false).take b.length = b
  msg : ∀ b m v, l.value.isSome = true → l.msg = some b → r.makes = some (m, v) →
    (e.bufs m true).take b.length = b
  freed : l.freed = true → l.touched = true
  full : l.value.isSome = filled.isSome
  maker : ∀ m, filled = some m → ∃ v, r.makes = some (m, v)

section Stored

variable {e e' : Env} {a : Ans} {f : Block → Block} {b v : Nat} {err : Fault}

theorem stored_ok (h : (e.stored a n e').1 = .ok v) : v = n ∧ (e.stored a n e').2 = e' := by
  unfold Env.stored at h ⊢
  split at h
  · cases h
  · exact ⟨(Except.ok.inj h).symm, rfl⟩

theorem stored_error (h : (e.stored a n e').1 = .error err) : (e.stored a n e').2 = e := by
  unfold Env.stored at h ⊢
  split at h
  · rfl
  · cases h

theorem storedAt_ok (h : (e.storedAt a b f).1 = .ok v) :
    b < e.t.doc.length ∧ (e.storedAt a b f).2 = e.setDoc (e.t.doc.modify b f) := by
  unfold Env.storedAt at h ⊢
  split at h
  · next hb => exact ⟨hb, by rw [if_pos hb]; exact (stored_ok h).2⟩
  · cases h

theorem storedAt_error (h : (e.storedAt a b f).1 = .error err) : (e.storedAt a b f).2 = e := by
  unfold Env.storedAt at h ⊢
  split at h
  · next hb => rw [if_pos hb]; exact stored_error h
  · next hb => rw [if_neg hb]

/-- The pending count grows by what is written. -/
theorem write_ok {part : Bytes} (h : ((Op.write b part : Op V).exec cd a e).1 = .ok v) :
    b < e.t.doc.length ∧ ((Op.write b part : Op V).exec cd a e).2 = { e with t := { e.t with
      doc := e.t.doc.modify b fun x => { x with text := x.text ++ part }
      pending := e.t.pending + part.length } } := by
  simp only [Op.exec] at h ⊢
  split at h
  · next hb => exact ⟨hb, by rw [if_pos hb]; exact (stored_ok h).2⟩
  · cases h

theorem write_error {part : Bytes} (h : ((Op.write b part : Op V).exec cd a e).1 = .error err) :
    ((Op.write b part : Op V).exec cd a e).2 = e := by
  simp only [Op.exec] at h ⊢
  split at h
  · next hb => rw [if_pos hb]; exact stored_error h
  · next hb => rw [if_neg hb]

theorem note_ok {k : Option Nat} (h : (transcriptNote b k a e).1 = .ok v) :
    b = e.t.schema.length ∧ ∃ cap, (transcriptNote b k a e).2 =
      { e with t := { e.t with schema := e.t.schema ++ [k], cap := cap } } := by
  unfold transcriptNote at h ⊢
  by_cases hb : b = e.t.schema.length
  · refine ⟨hb, ?_⟩
    rw [if_neg (not_not.2 hb)] at h ⊢
    split at h
    · next hc => exact ⟨e.t.cap, by rw [if_pos hc]⟩
    · next hc =>
      split at h
      · cases h
      · next ha => exact ⟨_, by rw [if_neg hc, if_neg ha]⟩
  · rw [if_pos hb] at h
    cases h

theorem note_error {k : Option Nat} (h : (transcriptNote b k a e).1 = .error err) :
    (transcriptNote b k a e).2 = e := by
  unfold transcriptNote at h ⊢
  split
  · rfl
  · next hb =>
    rw [if_neg hb] at h
    split
    · next hc =>
      rw [if_pos hc] at h
      cases h
    · next hc =>
      rw [if_neg hc] at h
      split
      · rfl
      · next ha =>
        rw [if_neg ha] at h
        cases h

/-- A name is kept, or not. -/
theorem ref_ok (cd : Codec V) (b : Nat) (v : V) (a : Ans) (e : Env) :
    (transcriptRef cd b v a e).1 = .ok b ∧ ∃ refs, (transcriptRef cd b v a e).2 =
      { e with t := { e.t with refs := refs } } := by
  unfold transcriptRef
  split
  · exact ⟨rfl, _, rfl⟩
  · exact ⟨rfl, e.t.refs, rfl⟩

end Stored

variable {e : Env} {filled : Option Maker} {o : Op V} {a : Ans}

/-- The transcript changes in its pending count, its schemas, its references, its document and its
line only, and a job's slot does not change its place. -/
theorem exec_keeps (cd : Codec V) (a : Ans) (e : Env) (o : Op V) :
    (o.exec cd a e).2.t.isOpen = e.t.isOpen ∧ (o.exec cd a e).2.t.busy = e.t.busy ∧
      (o.exec cd a e).2.job.t = e.job.t ∧
      (o ≠ .free → (o.exec cd a e).2.job.used = e.job.used ∧
        (o.exec cd a e).2.job.gen = e.job.gen) := by
  cases o with
  | note b k =>
    simp only [Op.exec, transcriptNote]
    repeat' split
    all_goals simp
  | ref b v =>
    obtain ⟨-, refs, h⟩ := ref_ok cd b v a e
    simp only [Op.exec, h]
    simp
  | encode m v => simp only [Op.exec]; split <;> simp [Env.fill]
  | message m k n => simp only [Op.exec]; split <;> simp [Env.fill]
  | _ =>
    simp only [Op.exec, Env.storedAt, Env.stored, Env.setDoc]
    repeat' split
    all_goals simp

/-- What the blocks hold: nothing where there is none. -/
def docText (doc : List Block) (b : Nat) : Bytes := (doc[b]?).elim [] Block.text

/-- What an operation writes to block `b`. -/
def Op.adds (o : Op V) (res : Result) (b : Nat) : Bytes :=
  match o, res with
  | .write b' part, .ok _ => if b = b' then part else []
  | _, _ => []

theorem docText_modify (doc : List Block) (b b' : Nat) (f : Block → Block)
    (hf : ∀ x, (f x).text = x.text) : docText (doc.modify b f) b' = docText doc b' := by
  unfold docText
  rw [List.getElem?_modify]
  cases doc[b']? with
  | none => rfl
  | some x =>
    simp only [Option.map_eq_map, Option.map_some, Option.elim_some]
    split
    · exact hf x
    · rfl

theorem docText_append (doc : List Block) (x : Block) (hx : x.text = []) (b : Nat) :
    docText (doc ++ [x]) b = docText doc b := by
  unfold docText
  rcases lt_trichotomy b doc.length with h | h | h
  · rw [List.getElem?_append_left h]
  · subst h
    simp [hx]
  · rw [List.getElem?_eq_none (by simp; omega), List.getElem?_eq_none (by omega)]

/-- A block's text grows by what is written to it. -/
theorem exec_docText (cd : Codec V) (a : Ans) (e : Env) (o : Op V) (b : Nat) :
    docText (o.exec cd a e).2.t.doc b =
      docText e.t.doc b ++ o.adds (o.exec cd a e).1 b := by
  have hat : ∀ (b' : Nat) (f : Block → Block), (∀ x, (f x).text = x.text) →
      docText (e.storedAt a b' f).2.t.doc b = docText e.t.doc b := by
    intro b' f hf
    unfold Env.storedAt Env.stored
    split
    · split
      · rfl
      · exact docText_modify _ _ _ _ hf
    · rfl
  cases o with
  | begin cmd job kind =>
    simp only [Op.exec, Env.stored, Op.adds, List.append_nil]
    split
    · rfl
    · exact docText_append _ _ rfl _
  | write b' part =>
    simp only [Op.exec, Env.stored]
    by_cases hb : b' < e.t.doc.length
    · rw [if_pos hb]
      cases ha : a.fault with
      | some c => simp [Op.adds]
      | none =>
        simp only [Op.adds, docText, List.getElem?_modify]
        by_cases hbb : b = b'
        · subst hbb
          simp [hb]
        · simp [hbb, Ne.symm hbb]
    · rw [if_neg hb]
      simp [Op.adds]
  | push b' m msg k =>
    simp only [Op.exec, Op.adds, List.append_nil]
    apply hat
    exact fun _ => rfl
  | forward b' frame =>
    simp only [Op.exec, Op.adds, List.append_nil]
    apply hat
    exact fun _ => rfl
  | ends b' complete =>
    simp only [Op.exec, Op.adds, List.append_nil]
    apply hat
    exact fun _ => rfl
  | note b' k =>
    simp only [Op.exec, transcriptNote, Op.adds, List.append_nil]
    repeat' split
    all_goals rfl
  | ref b' v =>
    obtain ⟨-, refs, h⟩ := ref_ok cd b' v a e
    simp only [Op.exec, h, Op.adds, List.append_nil]
  | encode m v => simp only [Op.exec, Op.adds]; split <;> simp [Env.fill]
  | message m k n => simp only [Op.exec, Op.adds]; split <;> simp [Env.fill]
  | _ =>
    simp only [Op.exec, Env.stored, Op.adds, List.append_nil]
    try split
    all_goals rfl

/-- An operation that fails changes at most a buffer. -/
theorem exec_error {err : Fault} (h : (o.exec cd a e).1 = .error err) :
    (o.exec cd a e).2.t = e.t ∧ (o.exec cd a e).2.job = e.job := by
  have hat : ∀ (b' : Nat) (f : Block → Block), (e.storedAt a b' f).1 = .error err →
      (e.storedAt a b' f).2.t = e.t ∧ (e.storedAt a b' f).2.job = e.job := by
    intro b' f hf
    rw [storedAt_error hf]
    exact ⟨rfl, rfl⟩
  have hst : ∀ (n : Nat) (e' : Env), (e.stored a n e').1 = .error err →
      (e.stored a n e').2.t = e.t ∧ (e.stored a n e').2.job = e.job := by
    intro n e' hf
    rw [stored_error hf]
    exact ⟨rfl, rfl⟩
  cases o with
  | begin cmd job kind => exact hst _ _ h
  | note b k =>
    have he : (transcriptNote b k a e).2 = e := note_error h
    exact ⟨congrArg Env.t he, congrArg Env.job he⟩
  | encode m v => simp only [Op.exec]; split <;> exact ⟨rfl, rfl⟩
  | message m k n => simp only [Op.exec]; split <;> exact ⟨rfl, rfl⟩
  | push b m msg n => exact hat _ _ h
  | forward b frame => exact hat _ _ h
  | write b part => rw [write_error h]; exact ⟨rfl, rfl⟩
  | ends b complete => exact hat _ _ h
  | flush => exact hst _ _ h
  | line text => exact hst _ _ h
  | ref b v =>
    obtain ⟨hok, -⟩ := ref_ok cd b v a e
    simp only [Op.exec, hok] at h
    cases h
  | shut | opened | free => cases h

/-- Nothing but the transcript changed, and it still fits. -/
theorem Local.Of.step {e' : Env} {l' : Local} (h : l.Of r before e filled)
    (ht : l'.touched = true) (hp : e'.t.pending = l'.pend)
    (he : l'.ahead = none → e'.t.schema.length = e'.t.doc.length)
    (ha : ∀ b, l'.ahead = some b → e'.t.schema.length = b ∧ e'.t.doc.length = b + 1)
    (hb : e'.bufs = e.bufs) (hv : l'.value = l.value) (hm : l'.msg = l.msg) :
    l'.Of r before e' filled where
  same hf := nomatch ht.symm.trans hf
  pend := hp
  even := he
  ahead := ha
  value b m v hb' hr := by rw [hb]; exact h.value b m v (hv ▸ hb') hr
  msg b m v hs hb' hr := by rw [hb]; exact h.msg b m v (hv ▸ hs) (hm ▸ hb') hr
  freed _ := ht
  full := hv ▸ h.full
  maker := h.maker

/-- One block changed. -/
theorem Local.Of.modify {l' : Local} (h : l.Of r before e filled) (b : Nat) (f : Block → Block)
    (ht : l'.touched = true) (hp : l'.pend = l.pend) (ha : l'.ahead = l.ahead)
    (hv : l'.value = l.value) (hm : l'.msg = l.msg) :
    l'.Of r before (e.setDoc (e.t.doc.modify b f)) filled := by
  refine h.step ht (h.pend.trans hp.symm) ?_ ?_ rfl hv hm
  · intro hn
    simpa [Env.setDoc] using h.even (ha ▸ hn)
  · intro b' hn
    simpa [Env.setDoc] using h.ahead b' (ha ▸ hn)

/-- **An operation that comes to something** leaves what its call then knows. -/
theorem Local.Of.does {v : Nat} (h : l.Of r before e filled)
    (hp : o.Pre cd r before l) (hr : (o.exec cd a e).1 = .ok v) :
    ∃ l', o.Post cd l v l' ∧ l'.Of r before (o.exec cd a e).2 (o.fills (.ok v) filled) := by
  cases o with
  | begin cmd job kind =>
    obtain ⟨rfl, he⟩ := stored_ok hr
    refine ⟨_, rfl, ?_⟩
    simp only [Op.exec, he]
    refine h.step rfl h.pend nofun ?_ rfl rfl rfl
    rintro b ⟨⟩
    exact ⟨h.even hp, by simp [Env.setDoc]⟩
  | note b k =>
    obtain ⟨-, cap, he⟩ := note_ok hr
    have hb := h.ahead b hp
    refine ⟨_, rfl, ?_⟩
    simp only [Op.exec, he]
    refine h.step rfl h.pend ?_ nofun rfl rfl rfl
    intro _
    simp [hb.1, hb.2]
  | encode m w =>
    obtain ⟨hm, ht, hv⟩ := hp
    simp only [Op.exec] at hr ⊢
    split at hr
    · cases hr
    · next b hb =>
      obtain rfl := Except.ok.inj hr
      refine ⟨_, ⟨b, hb, rfl, rfl⟩, ?_⟩
      refine ⟨h.same, h.pend, h.even, h.ahead, ?_, nofun, h.freed, rfl, ?_⟩
      · rintro c m' v' ⟨⟩ hm'
        obtain ⟨rfl, -⟩ := Prod.mk.inj (Option.some.inj (hm.symm.trans hm'))
        simp [Env.fill]
      · rintro m' ⟨⟩
        exact ⟨w, hm⟩
  | message m k n =>
    obtain ⟨ht, ⟨w, hm⟩, -, b, hv, rfl⟩ := hp
    have hb := h.value b m w hv hm
    simp only [Op.exec, hb] at hr ⊢
    split at hr
    · cases hr
    · next f hf' =>
      obtain rfl := Except.ok.inj hr
      refine ⟨_, ⟨b, f, hv, hf', rfl, rfl⟩, ?_⟩
      refine ⟨h.same, h.pend, h.even, h.ahead, ?_, ?_, h.freed, h.full, h.maker⟩
      · intro c m' v' hc hm'
        obtain ⟨rfl, -⟩ := Prod.mk.inj (Option.some.inj (hm.symm.trans hm'))
        simpa [Env.fill] using h.value c m w hc hm
      · intro c m' v' _ hc hm'
        obtain ⟨rfl, -⟩ := Prod.mk.inj (Option.some.inj (hm.symm.trans hm'))
        split at hc
        · cases hc
        · next hlen =>
          obtain rfl := Option.some.inj hc
          simp [Env.fill, hlen]
  | push b m msg n =>
    obtain ⟨-, he⟩ := storedAt_ok hr
    refine ⟨_, rfl, ?_⟩
    simp only [Op.exec, he]
    have hmod : ({ l with touched := true } : Local).Of r before (e.setDoc (e.t.doc.modify b
        fun x => { x with values := x.values ++ [(e.bufs m msg).take n] })) filled :=
      h.modify b _ rfl rfl rfl rfl rfl
    exact ⟨nofun, hmod.pend, hmod.even, hmod.ahead, nofun, nofun, fun _ => rfl, rfl, nofun⟩
  | forward b frame =>
    obtain ⟨-, he⟩ := storedAt_ok hr
    refine ⟨_, rfl, ?_⟩
    simp only [Op.exec, he]
    exact h.modify b _ rfl rfl rfl rfl rfl
  | write b part =>
    obtain ⟨hb, he⟩ := write_ok hr
    refine ⟨_, rfl, ?_⟩
    rw [he]
    cases hpart : part with
    | nil =>
      have hdoc : (e.t.doc.modify b fun x => { x with text := x.text ++ [] }) = e.t.doc := by
        simp only [List.append_nil]
        exact List.modify_id ..
      simp only [hdoc, List.isEmpty_nil, Bool.not_true, Bool.or_false, List.length_nil,
        Nat.add_zero]
      exact ⟨h.same, h.pend, h.even, h.ahead, h.value, h.msg, h.freed, h.full, h.maker⟩
    | cons c cs =>
      refine h.step (by simp) ?_ ?_ ?_ rfl rfl rfl
      · simp only [h.pend]
      · intro hn
        simpa using h.even hn
      · intro b' hn
        simpa using h.ahead b' hn
  | ends b complete =>
    obtain ⟨-, he⟩ := storedAt_ok hr
    refine ⟨_, rfl, ?_⟩
    simp only [Op.exec, he]
    exact h.modify b _ rfl rfl rfl rfl rfl
  | flush =>
    obtain ⟨-, he⟩ := stored_ok hr
    refine ⟨_, rfl, ?_⟩
    simp only [Op.exec, he]
    exact h.step rfl rfl h.even h.ahead rfl rfl rfl
  | line text =>
    obtain ⟨-, he⟩ := stored_ok hr
    refine ⟨_, rfl, ?_⟩
    simp only [Op.exec, he]
    exact h.step rfl h.pend h.even h.ahead rfl rfl rfl
  | ref b w =>
    obtain ⟨-, refs, he⟩ := ref_ok cd b w a e
    refine ⟨_, rfl, ?_⟩
    simp only [Op.exec, he]
    exact h.step rfl h.pend h.even h.ahead rfl rfl rfl
  | shut => exact ⟨_, rfl, h.step rfl h.pend h.even h.ahead rfl rfl rfl⟩
  | opened b kind => exact ⟨_, rfl, h.step rfl h.pend h.even h.ahead rfl rfl rfl⟩
  | free => exact ⟨_, rfl, h.step rfl h.pend h.even h.ahead rfl rfl rfl⟩

/-- **An operation that fails**, and nothing changed before it, or its call does not report. -/
theorem Local.Of.fails {err : Fault} (h : l.Of r before e filled) (hf : l.freed = false)
    (hp : o.Pre cd r before l) (hr : (o.exec cd a e).1 = .error err)
    (hearly : r.silent = true ∨ (e.t, e.job) = before) :
    (o.failed r l).Of r before (o.exec cd a e).2 (o.fills (.error err) filled) := by
  obtain ⟨ht, hj⟩ := exec_error hr
  have hsame : (r.silent && l.touched) = false → (e.t, e.job) = before := by
    intro hs
    rcases hearly with hsil | heq
    · exact h.same (by simpa [hsil] using hs)
    · exact heq
  have hfreed : l.freed = true → (r.silent && l.touched) = true := by
    intro hfr
    rw [hf] at hfr
    cases hfr
  have hplain : ∀ bufs : Maker → Bool → Bytes,
      (∀ b m v, l.value = some b → r.makes = some (m, v) → (bufs m false).take b.length = b) →
      (∀ b m v, l.value.isSome = true → l.msg = some b → r.makes = some (m, v) →
        (bufs m true).take b.length = b) →
      ({ l with touched := r.silent && l.touched } : Local).Of r before ⟨e.t, e.job, bufs⟩
        filled :=
    fun bufs hv hm => ⟨hsame, h.pend, h.even, h.ahead, hv, hm, hfreed, h.full, h.maker⟩
  have hstill := hplain e.bufs h.value h.msg
  cases o with
  | begin cmd job kind =>
    simp only [Op.exec]
    rw [stored_error hr]
    exact hstill
  | note b k =>
    simp only [Op.exec]
    rw [note_error hr]
    exact hstill
  | encode m w =>
    obtain ⟨-, -, hv⟩ := hp
    simp only [Op.exec] at hr ⊢
    split at hr
    · refine hplain _ ?_ ?_
      · intro b m' v' hb
        rw [hv] at hb
        cases hb
      · intro b m' v' hs
        rw [hv] at hs
        cases hs
    · cases hr
  | message m k n =>
    obtain ⟨-, -, hmsg, -⟩ := hp
    simp only [Op.exec] at hr ⊢
    split at hr
    · refine hplain _ ?_ ?_
      · intro b m' v' hb hm
        by_cases hmm : m' = m
        · subst hmm
          simpa using h.value b m' v' hb hm
        · simpa [hmm] using h.value b m' v' hb hm
      · intro b m' v' _ hb
        rw [hmsg] at hb
        cases hb
    · cases hr
  | push b m msg n =>
    have he : ((Op.push b m msg n : Op V).exec cd a e).2 = e := storedAt_error hr
    rw [he]
    exact ⟨hsame, h.pend, h.even, h.ahead, nofun, nofun, hfreed, rfl, nofun⟩
  | forward b frame =>
    simp only [Op.exec]
    rw [storedAt_error hr]
    exact hstill
  | write b part =>
    rw [write_error hr]
    exact hstill
  | ends b complete =>
    simp only [Op.exec]
    rw [storedAt_error hr]
    exact hstill
  | flush =>
    simp only [Op.exec]
    rw [stored_error hr]
    exact hstill
  | line text =>
    simp only [Op.exec]
    rw [stored_error hr]
    exact hstill
  | ref b w =>
    obtain ⟨hok, -⟩ := ref_ok cd b w a e
    simp only [Op.exec, hok] at hr
    cases hr
  | shut | opened | free => cases hr

/-- A transcript's call leaves the jobs alone. -/
theorem exec_job (hp : o.Pre cd r before l) (hr : r.job = none) :
    (o.exec cd a e).2.job = e.job := by
  have hnot : ¬ r.job.isSome = true := by simp [hr]
  cases o with
  | shut | opened | free => exact (hnot hp).elim
  | note b k =>
    simp only [Op.exec, transcriptNote]
    repeat' split
    all_goals rfl
  | ref b v =>
    obtain ⟨-, refs, h⟩ := ref_ok cd b v a e
    simp only [Op.exec, h]
  | encode m v => simp only [Op.exec]; split <;> rfl
  | message m k n => simp only [Op.exec]; split <;> rfl
  | _ =>
    simp only [Op.exec, Env.storedAt, Env.stored, Env.setDoc]
    repeat' split
    all_goals rfl

/-- Only an encoding and a message change a buffer. -/
theorem exec_bufs {m : Maker} (he : ∀ v, o ≠ .encode m v) (hm : ∀ k n, o ≠ .message m k n) :
    (o.exec cd a e).2.bufs m = e.bufs m := by
  cases o with
  | encode m' v =>
    have hne : m ≠ m' := fun h => he v (h ▸ rfl)
    simp only [Op.exec]
    split <;> simp [Env.fill, hne]
  | message m' k n =>
    have hne : m ≠ m' := fun h => hm k n (h ▸ rfl)
    simp only [Op.exec]
    split <;> simp [Env.fill, hne]
  | note b k =>
    simp only [Op.exec, transcriptNote]
    repeat' split
    all_goals rfl
  | ref b v =>
    obtain ⟨-, refs, h⟩ := ref_ok cd b v a e
    simp only [Op.exec, h]
  | _ =>
    simp only [Op.exec, Env.storedAt, Env.stored, Env.setDoc]
    repeat' split
    all_goals rfl

/-- **A frame that is pushed is the call's own.** -/
theorem pushes_own {res : Result} (h : l.Of r before e filled) (hp : o.Pre cd r before l) :
    ∀ p ∈ o.pushes res r e, p.Own cd := by
  intro p hmem
  cases o with
  | push b m msg n =>
    obtain ⟨hs, ⟨v, hm⟩, f, hf, rfl, hown⟩ := hp
    have htake : (e.bufs m msg).take f.length = f := by
      cases msg with
      | false => exact h.value f m v hf hm
      | true => exact h.msg f m v hs hf hm
    cases res with
    | error _ => cases hmem
    | ok n =>
      obtain rfl := List.mem_singleton.1 hmem
      simp only [htake]
      exact hown e.t e.job ⟨h.same, h.pend⟩
  | _ => cases hmem

theorem exec_pending (h : l.Of r before e filled) (hp : o.Pre cd r before l)
    (hl : e.t.pending ≤ transcriptPending) :
    (o.exec cd a e).2.t.pending ≤ transcriptPending := by
  cases o with
  | write b part =>
    have hpart : e.t.pending + part.length ≤ transcriptPending := by
      rw [h.pend]
      exact hp
    simp only [Op.exec, Env.stored]
    repeat' split
    all_goals simp [hl, hpart]
  | note b k =>
    simp only [Op.exec, transcriptNote]
    repeat' split
    all_goals exact hl
  | ref b v =>
    obtain ⟨-, refs, h⟩ := ref_ok cd b v a e
    simpa only [Op.exec, h] using hl
  | encode m v => simp only [Op.exec]; split <;> simpa [Env.fill] using hl
  | message m k n => simp only [Op.exec]; split <;> simpa [Env.fill] using hl
  | _ =>
    simp only [Op.exec, Env.storedAt, Env.stored, Env.setDoc]
    repeat' split
    all_goals simp [hl]

/-- What a call wrote grows by what its operation writes. -/
theorem Op.Post.wrote {l' : Local} {v : Nat} (h : o.Post cd l v l') (b : Nat) :
    l'.wrote b = l.wrote b ++ o.adds (.ok v) b := by
  cases o with
  | encode m w =>
    obtain ⟨c, -, -, rfl⟩ := h
    simp [Op.adds]
  | message m k n =>
    obtain ⟨c, f, -, -, -, rfl⟩ := h
    simp [Op.adds]
  | write b' part =>
    subst h
    by_cases hb : b = b' <;> simp [Op.adds, hb]
  | _ =>
    subst h
    simp [Op.adds]

theorem failed_wrote (o : Op V) : (o.failed r l).wrote = l.wrote := by cases o <;> rfl

/-- The last turn is the call's. -/
theorem turns_last {res : Result} {c : Nat} {ts : List Turn} {wrote : Nat → Bytes}
    (hc : c ∉ ts.map Turn.call) :
    o.turns res c (ts ++ [⟨c, wrote⟩]) = ts ++ [⟨c, fun b => wrote b ++ o.adds res b⟩] := by
  have hother : ∀ (b : Nat) (part : Bytes),
      (ts.map fun t => if t.call = c then { t with wrote := update t.wrote b (t.wrote b ++ part) }
        else t) = ts := by
    intro b part
    refine (List.map_congr_left ?_).trans (List.map_id ts)
    intro t ht
    exact if_neg fun (h : t.call = c) => hc (h ▸ List.mem_map_of_mem ht)
  cases o with
  | write b part =>
    cases res with
    | error _ => simp [Op.turns, Op.adds]
    | ok v =>
      simp only [Op.turns, List.map_append, hother, List.map_cons, if_true, List.map_nil, Op.adds,
        List.append_cancel_left_eq, List.cons.injEq, Turn.mk.injEq, true_and, and_true]
      funext b'
      by_cases hb : b' = b
      · subst hb
        simp
      · simp [hb]
  | _ => simp [Op.turns, Op.adds]

/-! ### The loop -/

theorem update_append (w : Nat → Bytes) (b : Nat) (x y : Bytes) :
    update (update w b (w b ++ x)) b (update w b (w b ++ x) b ++ y) =
      update w b (w b ++ (x ++ y)) := by
  simp

/-- **A round of the loop** takes something off what is left. -/
theorem Prog.Fine.round {b : Nat} {rest : Bytes} {k : Result → Prog V}
    (h : (Prog.writes b rest k).Fine cd r before n l) :
    ∃ m < n, (Prog.round l.pend b rest k).Fine cd r before m l := by
  obtain ⟨hf, hr, hp, m, hn, hok, herr⟩ := h
  have hcost : cost rest.length l.pend =
      4 * rest.length + (if l.pend < transcriptPending then 0 else 4) + 1 := rfl
  refine ⟨m + cost rest.length l.pend - 1, by omega, ?_⟩
  by_cases hrest : rest = []
  · subst hrest
    have h := hok l.touched l.pend
    simp only [List.append_nil, update_eq_self] at h
    simp only [Prog.round, if_pos]
    exact h.mono (by omega)
  · have hpos : 0 < rest.length := List.length_pos_iff.2 hrest
    simp only [Prog.round, if_neg hrest]
    set part := rest.take (transcriptPending - l.pend) with hpart
    have hlen : part.length = min (transcriptPending - l.pend) rest.length := by
      rw [hpart, List.length_take]
    have hsplit : part ++ rest.drop part.length = rest := by
      have hdrop : rest.drop part.length = rest.drop (transcriptPending - l.pend) := by
        rw [hlen]
        rcases Nat.le_total (transcriptPending - l.pend) rest.length with hle | hle
        · rw [Nat.min_eq_left hle]
        · rw [Nat.min_eq_right hle, List.drop_of_length_le hle, List.drop_length]
      rw [hdrop]
      exact List.take_append_drop ..
    -- What the loop is to do with the rest, wherever its next round stands.
    have hnext : ∀ touched pend p, pend ≤ transcriptPending →
        m + cost (rest.length - part.length) pend ≤ p →
        (Prog.writes b (rest.drop part.length) k).Fine cd r before p { l with
          touched := touched, pend := pend, wrote := update l.wrote b (l.wrote b ++ part) } := by
      intro touched pend p hpend hcostp
      refine ⟨hf, hr, hpend, m, ?_, ?_, ?_⟩
      · rw [List.length_drop]
        exact hcostp
      · intro t q
        have h := hok t q
        simp only [update_append, hsplit]
        exact h
      · intro e t q part' ht
        have h := herr e t q (part ++ part') ht
        simp only [update_append]
        exact h
    have hmax : part.length ≤ transcriptPending - l.pend := by omega
    refine ⟨hf, ?_, m + cost rest.length l.pend - 2, by omega, ?_, ?_⟩
    · simp only [Op.Pre]
      omega
    · rintro _ _ rfl
      refine ⟨hf, m + cost rest.length l.pend - 3, by omega, ?_⟩
      intro t j hs
      have hpend : t.pending = l.pend + part.length := hs.2
      simp only [hpend]
      by_cases hfull : transcriptPending ≤ l.pend + part.length
      · rw [if_pos hfull]
        have hfour : cost (rest.length - part.length) 0 + 4 ≤ cost rest.length l.pend := by
          have hzero : cost (rest.length - part.length) 0 = 4 * (rest.length - part.length) + 1 :=
            rfl
          split at hcost <;> omega
        refine ⟨hf, trivial, m + cost rest.length l.pend - 4, by omega, ?_, ?_⟩
        · rintro _ _ rfl
          exact hnext _ 0 _ (Nat.zero_le _) (by omega)
        · intro _ e
          exact (herr e _ _ part fun h => (Bool.and_eq_true_iff.1 h).1).mono (by omega)
      · rw [if_neg hfull]
        refine hnext _ _ _ (by omega) ?_
        have hthree : cost (rest.length - part.length) (l.pend + part.length) + 3 ≤
            cost rest.length l.pend := by
          have hless : cost (rest.length - part.length) (l.pend + part.length) =
              4 * (rest.length - part.length) + 1 := by
            rw [cost, if_pos (by omega)]
          split at hcost <;> omega
        omega
    · intro _ e
      have h := herr e (r.silent && l.touched) l.pend []
        fun h => (Bool.and_eq_true_iff.1 h).1
      simp only [List.append_nil, update_eq_self] at h
      exact h.mono (by omega)

end Jacl.Transcripts
