import Jacl.TranscriptCalls

/-!
# Transcript calls take turns

One call at a time is inside a transcript, and it comes to an end; a block's text is what was
written to it turn by turn; a frame that is pushed is the encoding of the call's own value; the
pending count stays within its limit; and a call that comes back with an error leaves the
transcript, and its job, as it found them (`Serialised`).  This holds in the runs in which no
operation fails once its call has changed something, no block is opened without being noted, no end
fails as a job ends, no two calls use one buffer at a time, and no job's slot runs out of
generations (`Meets`).
-/

namespace Jacl.Transcripts
open Function

variable {V : Type}

/-- The transcript at which a call has its turn. -/
def Phase.turnAt : Phase V → Option Nat
  | .entered _ x => some x
  | .inside call => some call.x
  | _ => none

/-- Call `c` has the turn at transcript `x`. -/
def State.Holds (s : State V) (c x : Nat) : Prop := (s.phase c).turnAt = some x

/-- Operation `o` of a call fails. -/
def Fails (cd : Codec V) (s : State V) (call : Call V) (o : Op V) (a : Ans) : Prop :=
  ∃ e, (o.exec cd a (s.env call)).1 = .error e

/-- **The steps that leave the defects aside.** -/
structure Meets (cd : Codec V) (s : State V) (c : Nat) (a : Ans) (call : Call V) (o : Op V) :
    Prop where
  /-- It fails before its call has changed anything, or its call does not report. -/
  early : Fails cd s call o a →
    call.req.silent = true ∨ (s.xs call.x, s.jobAt call.slot) = call.before
  noted : ∀ b k, o = .note b k → ¬ Fails cd s call o a
  ended : ∀ h complete, call.req = .jobEnd h complete → ¬ Fails cd s call o a
  apart : ∀ m v, o = .encode m v → ∀ c' call', c' ≠ c → s.phase c' = .inside call' →
    call'.filled ≠ some m
  fresh : o = .free → (s.jobAt call.slot).gen + 1 < generations

/-- The states that a run comes to. -/
inductive Reachable (cd : Codec V) : State V → Prop
  | init : Reachable cd init
  | step {s s' : State V} {l : Label} : Reachable cd s → Step cd s l s' → Reachable cd s'

/-- **The states of a run whose steps all leave them aside.** -/
inductive Steady (cd : Codec V) : State V → Prop
  | init : Steady cd init
  | step {s s' : State V} {l : Label} : Steady cd s → Step cd s l s' →
      (∀ c a call o k, l = .does c a → s.phase c = .inside call → call.prog = .call o k →
        Meets cd s c a call o) → Steady cd s'

variable {cd : Codec V} {s s' : State V} {c x : Nat}

/-! ### The invariant -/

/-- Handle `h` is a job's, of transcript `x`. -/
def State.Valid (s : State V) (h x : Nat) : Prop :=
  (s.jobs (h % jobSlots)).used = true ∧ (s.jobs (h % jobSlots)).gen = h / jobSlots ∧
    (s.jobs (h % jobSlots)).t = x

/-- **A call in its turn is where it should be**, and knows `l`. -/
structure Call.Fits (cd : Codec V) (s : State V) (c : Nat) (call : Call V) (l : Local) (n : Nat) :
    Prop where
  fine : call.prog.Fine cd call.req call.before n l
  took : call.took + n ≤ call.req.bound
  of : l.Of call.req call.before (s.env call) call.filled
  turn : ∃ ts, s.turns call.x = ts ++ [⟨c, l.wrote⟩]
  slot : call.slot = call.req.job.map (· % jobSlots)
  job : l.freed = false → ∀ h, call.req.job = some h → s.Valid h call.x
  isOpen : (s.xs call.x).isOpen = true

/-- What a call that waits, or has just its turn, relies on: its job's slot is not given to
another job under the same generation. -/
structure State.Waits (s : State V) (r : Request V) (x : Nat) : Prop where
  isOpen : (s.xs x).isOpen = true
  job : ∀ h, r.job = some h → s.Valid h x ∨ h / jobSlots < (s.jobs (h % jobSlots)).gen

/-- Call `c` has taken a turn at transcript `x`. -/
def State.Took (s : State V) (c x : Nat) : Prop :=
  (∃ call, s.phase c = .inside call ∧ call.x = x) ∨
    ∃ r out before after, s.phase c = .returned r x out before after

/-- **The invariant.** -/
structure Inv (cd : Codec V) (s : State V) : Prop where
  alone : ∀ c c' x, s.Holds c x → s.Holds c' x → c = c'
  busy : ∀ x, (s.xs x).busy = true ↔ ∃ c, s.Holds c x
  inside : ∀ c call, s.phase c = .inside call → ∃ l n, call.Fits cd s c l n
  waits : ∀ c r x, s.phase c = .waiting r x → s.Waits r x
  entered : ∀ c r x, s.phase c = .entered r x → s.Waits r x
  even : ∀ x, (∀ c call, s.phase c = .inside call → call.x ≠ x) →
    (s.xs x).schema.length = (s.xs x).doc.length
  pending : ∀ x, (s.xs x).pending ≤ transcriptPending
  text : ∀ x b, docText (s.xs x).doc b = (s.turns x).flatMap fun t => t.wrote b
  closed : ∀ x, (s.xs x).isOpen = false → s.turns x = []
  took : ∀ x, ∀ t ∈ s.turns x, s.Took t.call x
  once : ∀ x, ((s.turns x).map Turn.call).Nodup
  apart : ∀ c c' call call' m, s.phase c = .inside call → s.phase c' = .inside call' →
    call.filled = some m → call'.filled = some m → c = c'
  own : ∀ p ∈ s.pushed, p.Own cd
  atomic : ∀ c r x out before after, s.phase c = .returned r x out before after →
    out.isError = true → after = before
  whole : ∀ c t b text x before after,
    s.phase c = .returned (.write t b text) x .nil before after →
    ∃ turn ∈ s.turns x, turn.call = c ∧ turn.wrote b.toNat = text

theorem Inv.init : Inv cd (init : State V) where
  alone _ _ _ h := nomatch h
  busy _ := ⟨nofun, fun ⟨_, h⟩ => nomatch h⟩
  inside _ _ h := nomatch h
  waits _ _ _ h := nomatch h
  entered _ _ _ h := nomatch h
  even _ _ := rfl
  pending _ := Nat.zero_le _
  text _ _ := rfl
  closed _ _ := rfl
  took _ _ h := nomatch h
  once _ := List.nodup_nil
  apart _ _ _ _ _ h := nomatch h
  own _ h := nomatch h
  atomic _ _ _ _ _ _ h := nomatch h
  whole _ _ _ _ _ _ _ h := nomatch h

/-! ### What a step of another call leaves -/

/-- A call in its turn is still where it should be. -/
theorem Call.Fits.frame {call : Call V} {l : Local} {n : Nat} (h : call.Fits cd s c l n)
    (hx : s'.xs call.x = s.xs call.x) (ht : s'.turns call.x = s.turns call.x)
    (hj : l.freed = false → ∀ h, call.req.job = some h →
      s'.jobs (h % jobSlots) = s.jobs (h % jobSlots))
    (hb : ∀ m, call.filled = some m → s'.bufs m = s.bufs m) : call.Fits cd s' c l n where
  fine := h.fine
  took := h.took
  turn := ht ▸ h.turn
  slot := h.slot
  job hf h' hr := by
    have hv := h.job hf h' hr
    unfold State.Valid at hv ⊢
    rwa [hj hf h' hr]
  isOpen := hx ▸ h.isOpen
  of := by
    have hjob : l.freed = false → s'.jobAt call.slot = s.jobAt call.slot := by
      intro hf
      rw [h.slot]
      cases hr : call.req.job with
      | none => rfl
      | some h' => exact hj hf h' hr
    have hfilled : ∀ m v, l.value.isSome = true → call.req.makes = some (m, v) →
        s'.bufs m = s.bufs m := by
      intro m v hs hm
      obtain ⟨m', hm'⟩ := Option.isSome_iff_exists.1 (h.of.full ▸ hs)
      obtain ⟨v', hv'⟩ := h.of.maker m' hm'
      obtain ⟨rfl, -⟩ := Prod.mk.inj (Option.some.inj (hv'.symm.trans hm))
      exact hb m' hm'
    have hxs : (s'.env call).t = (s.env call).t := hx
    refine ⟨?_, hxs ▸ h.of.pend, hxs ▸ h.of.even, hxs ▸ h.of.ahead, ?_, ?_, h.of.freed, h.of.full,
      h.of.maker⟩
    · intro hu
      have hf : l.freed = false := by
        cases hf : l.freed with
        | false => rfl
        | true => cases hu.symm.trans (h.of.freed hf)
      have hjob : (s'.env call).job = (s.env call).job := hjob hf
      rw [hxs, hjob]
      exact h.of.same hu
    · intro b m v hv hm
      have hbuf : (s'.env call).bufs m = (s.env call).bufs m :=
        hfilled m v (by simp [hv]) hm
      rw [hbuf]
      exact h.of.value b m v hv hm
    · intro b m v hs hv hm
      have hbuf : (s'.env call).bufs m = (s.env call).bufs m := hfilled m v hs hm
      rw [hbuf]
      exact h.of.msg b m v hs hv hm

/-- A call that waits still does. -/
theorem State.Waits.frame {r : Request V} (h : s.Waits r x)
    (hx : (s'.xs x).isOpen = (s.xs x).isOpen)
    (hj : ∀ h, r.job = some h → s.Valid h x → s'.Valid h x ∨
      h / jobSlots < (s'.jobs (h % jobSlots)).gen)
    (hg : ∀ i, (s.jobs i).gen ≤ (s'.jobs i).gen) : s'.Waits r x where
  isOpen := hx.trans h.isOpen
  job h' hr := by
    rcases h.job h' hr with hv | hlt
    · exact hj h' hr hv
    · exact .inr (hlt.trans_le (hg _))

theorem holds_iff {p : Phase V} (hp : s'.phase = update s.phase c p) (c' y : Nat) :
    s'.Holds c' y ↔ (c' = c ∧ p.turnAt = some y) ∨ (c' ≠ c ∧ s.Holds c' y) := by
  by_cases hc : c' = c <;> simp [State.Holds, hp, hc]

theorem phase_of_ne {p q : Phase V} {c' : Nat} (hp : s'.phase = update s.phase c p)
    (hc : s'.phase c' = q) (hq : q ≠ p) : c' ≠ c ∧ s.phase c' = q := by
  have hne : c' ≠ c := by
    rintro rfl
    simp only [hp, update_self] at hc
    exact hq hc.symm
  rw [hp, update_of_ne hne] at hc
  exact ⟨hne, hc⟩

/-- **A step that moves call `c` to where it is not in its turn's operations**, and changes no more
than busy flags. -/
theorem Inv.move (h : Inv cd s) {p : Phase V} (hp : s'.phase = update s.phase c p)
    (hjobs : s'.jobs = s.jobs) (hbufs : s'.bufs = s.bufs) (hturns : s'.turns = s.turns)
    (hpushed : s'.pushed = s.pushed) (hxs : ∀ y, ∃ b, s'.xs y = { s.xs y with busy := b })
    (hin : ∀ c' call, c' ≠ c → s.phase c' = .inside call → s'.xs call.x = s.xs call.x)
    (hbusy : ∀ y, (s'.xs y).busy = true ↔
      p.turnAt = some y ∨ ∃ c', c' ≠ c ∧ s.Holds c' y)
    (halone : ∀ c' y, p.turnAt = some y → c' ≠ c → ¬ s.Holds c' y)
    (hout : ∀ call, p ≠ .inside call)
    (hwait : ∀ r x, p = .waiting r x ∨ p = .entered r x → s.Waits r x)
    (heven : ∀ call, s.phase c = .inside call →
      (s.xs call.x).schema.length = (s.xs call.x).doc.length)
    (htook : ∀ x, s.Took c x → ∃ r out before after, p = .returned r x out before after)
    (hatomic : ∀ r x out before after, p = .returned r x out before after →
      out.isError = true → after = before)
    (hwhole : ∀ t b text x before after, p = .returned (.write t b text) x .nil before after →
      ∃ turn ∈ s.turns x, turn.call = c ∧ turn.wrote b.toNat = text) : Inv cd s' := by
  have hold := holds_iff hp
  have hdoc : ∀ y, (s'.xs y).doc = (s.xs y).doc ∧ (s'.xs y).schema = (s.xs y).schema ∧
      (s'.xs y).pending = (s.xs y).pending ∧ (s'.xs y).isOpen = (s.xs y).isOpen := by
    intro y
    obtain ⟨b, hb⟩ := hxs y
    simp [hb]
  have hwaits : ∀ {r x}, s.Waits r x → s'.Waits r x := by
    intro r x hw
    refine hw.frame (hdoc x).2.2.2 ?_ ?_
    · intro h' _ hv
      exact .inl (by simpa only [State.Valid, hjobs] using hv)
    · intro i
      rw [hjobs]
  have hsame : ∀ {c' call}, s'.phase c' = .inside call → c' ≠ c ∧ s.phase c' = .inside call :=
    fun hc => phase_of_ne hp hc (hout _).symm
  constructor
  case alone =>
    intro c₁ c₂ y h₁ h₂
    rcases (hold c₁ y).1 h₁ with ⟨rfl, e₁⟩ | ⟨n₁, h₁⟩ <;>
      rcases (hold c₂ y).1 h₂ with ⟨rfl, e₂⟩ | ⟨n₂, h₂⟩
    · rfl
    · exact (halone c₂ y e₁ n₂ h₂).elim
    · exact (halone c₁ y e₂ n₁ h₁).elim
    · exact h.alone c₁ c₂ y h₁ h₂
  case busy =>
    intro y
    rw [hbusy]
    constructor
    · rintro (he | ⟨c', hne, hc⟩)
      · exact ⟨c, (hold c y).2 (.inl ⟨rfl, he⟩)⟩
      · exact ⟨c', (hold c' y).2 (.inr ⟨hne, hc⟩)⟩
    · rintro ⟨c', hc⟩
      rcases (hold c' y).1 hc with ⟨-, he⟩ | hc
      · exact .inl he
      · exact .inr ⟨c', hc⟩
  case inside =>
    intro c' call hc
    obtain ⟨hne, hc⟩ := hsame hc
    obtain ⟨l, n, hl⟩ := h.inside c' call hc
    refine ⟨l, n, hl.frame (hin c' call hne hc) (by rw [hturns]) ?_ ?_⟩
    · intro _ _ _
      rw [hjobs]
    · intro _ _
      rw [hbufs]
  case waits =>
    intro c' r x hc
    by_cases hne : Phase.waiting r x = p
    · exact hwaits (hwait r x (.inl hne.symm))
    · exact hwaits (h.waits c' r x (phase_of_ne hp hc hne).2)
  case entered =>
    intro c' r x hc
    by_cases hne : Phase.entered r x = p
    · exact hwaits (hwait r x (.inr hne.symm))
    · exact hwaits (h.entered c' r x (phase_of_ne hp hc hne).2)
  case even =>
    intro x hx
    rw [(hdoc x).1, (hdoc x).2.1]
    by_cases hc : ∃ call, s.phase c = .inside call ∧ call.x = x
    · obtain ⟨call, hc, rfl⟩ := hc
      exact heven call hc
    · refine h.even x fun c' call hc' => ?_
      by_cases hne : c' = c
      · subst hne
        exact fun hx' => hc ⟨call, hc', hx'⟩
      · exact hx c' call (by rw [hp, update_of_ne hne]; exact hc')
  case pending =>
    intro x
    rw [(hdoc x).2.2.1]
    exact h.pending x
  case text =>
    intro x b
    rw [(hdoc x).1, hturns]
    exact h.text x b
  case closed =>
    intro x hx
    rw [hturns]
    exact h.closed x ((hdoc x).2.2.2 ▸ hx)
  case took =>
    intro x t ht
    rw [hturns] at ht
    have hold := h.took x t ht
    by_cases hne : t.call = c
    · rw [hne] at hold ⊢
      obtain ⟨r, out, before, after, hr⟩ := htook x hold
      exact .inr ⟨r, out, before, after, by rw [hp, update_self, hr]⟩
    · rcases hold with ⟨call, hc, hx⟩ | ⟨r, out, before, after, hc⟩
      · exact .inl ⟨call, by rw [hp, update_of_ne hne, hc], hx⟩
      · exact .inr ⟨r, out, before, after, by rw [hp, update_of_ne hne, hc]⟩
  case once =>
    intro x
    rw [hturns]
    exact h.once x
  case apart =>
    intro c₁ c₂ call₁ call₂ m h₁ h₂
    exact h.apart c₁ c₂ call₁ call₂ m (hsame h₁).2 (hsame h₂).2
  case own =>
    rw [hpushed]
    exact h.own
  case atomic =>
    intro c' r x out before after hc
    by_cases hne : Phase.returned r x out before after = p
    · exact hatomic r x out before after hne.symm
    · exact h.atomic c' r x out before after (phase_of_ne hp hc hne).2
  case whole =>
    intro c' t b text x before after hc
    rw [hturns]
    by_cases hne : Phase.returned (.write t b text) x .nil before after = p
    · by_cases hcc : c' = c
      · subst hcc
        exact hwhole t b text x before after hne.symm
      · rw [hp, update_of_ne hcc] at hc
        exact h.whole c' t b text x before after hc
    · exact h.whole c' t b text x before after (phase_of_ne hp hc hne).2

/-- **A step of call `c` in its turn**, after which it is where it should be. -/
theorem Inv.act (h : Inv cd s) (call : Call V) (hp : s'.phase = update s.phase c (.inside call))
    (hturn : s.Holds c call.x) (hfits : ∃ l n, call.Fits cd s' c l n)
    (hxs : ∀ y, y ≠ call.x → s'.xs y = s.xs y)
    (hbusy : (s'.xs call.x).busy = (s.xs call.x).busy)
    (hturns : ∀ y, y ≠ call.x → s'.turns y = s.turns y)
    (hothers : ∀ c' call' l n, c' ≠ c → s.phase c' = .inside call' → call'.Fits cd s c' l n →
      call'.Fits cd s' c' l n)
    (hwaits : ∀ c' r x, c' ≠ c → s.Waits r x → s'.Waits r x)
    (hpending : (s'.xs call.x).pending ≤ transcriptPending)
    (htext : ∀ b, docText (s'.xs call.x).doc b = (s'.turns call.x).flatMap fun t => t.wrote b)
    (htook : ∀ t ∈ s'.turns call.x, t.call = c ∨ t ∈ s.turns call.x)
    (honce : ((s'.turns call.x).map Turn.call).Nodup)
    (hkept : ∀ t ∈ s.turns call.x, t.call ≠ c → t ∈ s'.turns call.x)
    (hapart : ∀ c' call' m, c' ≠ c → s.phase c' = .inside call' → call.filled = some m →
      call'.filled ≠ some m)
    (hown : ∀ p ∈ s'.pushed, p.Own cd) : Inv cd s' := by
  have hold := holds_iff hp
  have hholds : ∀ c' y, s'.Holds c' y ↔ s.Holds c' y := by
    intro c' y
    rw [hold]
    constructor
    · rintro (⟨rfl, he⟩ | ⟨-, hc⟩)
      · exact (Option.some.inj he) ▸ hturn
      · exact hc
    · intro hc
      by_cases hne : c' = c
      · subst hne
        exact .inl ⟨rfl, hturn.symm.trans hc⟩
      · exact .inr ⟨hne, hc⟩
  have hself : s'.phase c = .inside call := by rw [hp, update_self]
  constructor
  case alone =>
    intro c₁ c₂ y h₁ h₂
    exact h.alone c₁ c₂ y ((hholds ..).1 h₁) ((hholds ..).1 h₂)
  case busy =>
    intro y
    have hb : (s'.xs y).busy = (s.xs y).busy := by
      by_cases hy : y = call.x
      · rw [hy, hbusy]
      · rw [hxs y hy]
    rw [hb, h.busy]
    exact exists_congr fun c' => (hholds c' y).symm
  case inside =>
    intro c' call' hc
    by_cases hne : c' = c
    · subst hne
      obtain rfl := Phase.inside.inj (hself.symm.trans hc)
      exact hfits
    · rw [hp, update_of_ne hne] at hc
      obtain ⟨l, n, hl⟩ := h.inside c' call' hc
      exact ⟨l, n, hothers c' call' l n hne hc hl⟩
  case waits =>
    intro c' r x hc
    obtain ⟨hne, hc⟩ := phase_of_ne hp hc nofun
    exact hwaits c' r x hne (h.waits c' r x hc)
  case entered =>
    intro c' r x hc
    obtain ⟨hne, hc⟩ := phase_of_ne hp hc nofun
    exact hwaits c' r x hne (h.entered c' r x hc)
  case even =>
    intro y hy
    have hne : y ≠ call.x := fun he => hy c call hself he.symm
    rw [hxs y hne]
    refine h.even y fun c' call' hc => ?_
    by_cases hcc : c' = c
    · subst hcc
      have hx : call'.x = call.x := by simpa [State.Holds, hc, Phase.turnAt] using hturn
      rw [hx]
      exact hne.symm
    · exact hy c' call' (by rw [hp, update_of_ne hcc, hc])
  case pending =>
    intro y
    by_cases hy : y = call.x
    · rw [hy]
      exact hpending
    · rw [hxs y hy]
      exact h.pending y
  case text =>
    intro y b
    by_cases hy : y = call.x
    · rw [hy]
      exact htext b
    · rw [hxs y hy, hturns y hy]
      exact h.text y b
  case closed =>
    intro y hc
    by_cases hy : y = call.x
    · obtain ⟨l, n, hl⟩ := hfits
      rw [hy, hl.isOpen] at hc
      cases hc
    · rw [hturns y hy]
      exact h.closed y (hxs y hy ▸ hc)
  case took =>
    intro y t ht
    by_cases hc : t.call = c ∧ y = call.x
    · exact .inl ⟨call, hc.1 ▸ hself, hc.2.symm⟩
    · have hmem : t ∈ s.turns y := by
        by_cases hy : y = call.x
        · subst hy
          exact (htook t ht).resolve_left fun he => hc ⟨he, rfl⟩
        · exact hturns y hy ▸ ht
      have hold := h.took y t hmem
      have hne : t.call ≠ c := by
        intro he
        rw [he] at hold
        rcases hold with ⟨call', hc', hx⟩ | ⟨r, out, before, after, hc'⟩
        · have hxx : call'.x = call.x := by simpa [State.Holds, hc', Phase.turnAt] using hturn
          exact hc ⟨he, hx.symm.trans hxx⟩
        · simp [State.Holds, hc', Phase.turnAt] at hturn
      simpa only [State.Took, hp, update_of_ne hne] using hold
  case once =>
    intro y
    by_cases hy : y = call.x
    · rw [hy]
      exact honce
    · rw [hturns y hy]
      exact h.once y
  case apart =>
    intro c₁ c₂ call₁ call₂ m h₁ h₂ f₁ f₂
    by_cases n₁ : c₁ = c <;> by_cases n₂ : c₂ = c
    · rw [n₁, n₂]
    · rw [n₁, hself] at h₁
      rw [hp, update_of_ne n₂] at h₂
      obtain rfl := Phase.inside.inj h₁
      exact (hapart c₂ call₂ m n₂ h₂ f₁ f₂).elim
    · rw [n₂, hself] at h₂
      rw [hp, update_of_ne n₁] at h₁
      obtain rfl := Phase.inside.inj h₂
      exact (hapart c₁ call₁ m n₁ h₁ f₂ f₁).elim
    · rw [hp, update_of_ne n₁] at h₁
      rw [hp, update_of_ne n₂] at h₂
      exact h.apart c₁ c₂ call₁ call₂ m h₁ h₂ f₁ f₂
  case own => exact hown
  case atomic =>
    intro c' r x out before after hc
    exact h.atomic c' r x out before after (phase_of_ne hp hc nofun).2
  case whole =>
    intro c' t b text x before after hc
    obtain ⟨hne, hc⟩ := phase_of_ne hp hc nofun
    obtain ⟨turn, hmem, htc, hw⟩ := h.whole c' t b text x before after hc
    refine ⟨turn, ?_, htc, hw⟩
    by_cases hx : x = call.x
    · subst hx
      exact hkept turn hmem (htc ▸ hne)
    · rw [hturns x hx]
      exact hmem

/-! ### Each step keeps it -/

theorem holds_inside {call : Call V} (hc : s.phase c = .inside call) : s.Holds c call.x := by
  rw [State.Holds, hc, Phase.turnAt]

theorem holds_entered {r : Request V} (hc : s.phase c = .entered r x) : s.Holds c x := by
  rw [State.Holds, hc, Phase.turnAt]

/-- Another call's turn is at another transcript. -/
theorem Inv.apart_x (h : Inv cd s) (hc : s.Holds c x) {c' : Nat} {call' : Call V} (hne : c' ≠ c)
    (hc' : s.phase c' = .inside call') : call'.x ≠ x := by
  intro hx
  exact hne (h.alone c' c x (hx ▸ holds_inside hc') hc)

/-- A call goes on without an operation. -/
theorem Inv.goes (h : Inv cd s) {call : Call V} {p : Prog V} (hc : s.phase c = .inside call)
    (hp : ∀ l n, call.Fits cd s c l n → ∃ m < n, p.Fine cd call.req call.before m l) :
    Inv cd (s.goes c call p) := by
  have hx : ∀ (c' : Nat) (call' : Call V) (l : Local) (n : Nat), call'.Fits cd s c' l n →
      call'.Fits cd (s.goes c call p) c' l n := by
    intro c' call' l n hl
    exact hl.frame rfl rfl (fun _ _ _ => rfl) fun _ _ => rfl
  refine h.act { call with prog := p, took := call.took + 1 } rfl
    (holds_inside hc : s.Holds c call.x) ?_
    (fun _ _ => rfl) rfl (fun _ _ => rfl) (fun c' call' l n _ _ hl => hx c' call' l n hl)
    (fun _ _ _ _ hw => hw.frame rfl (fun _ _ hv => .inl hv) fun _ => le_refl _)
    (h.pending _) (h.text _) (fun _ ht => .inr ht) (h.once _) (fun _ ht _ => ht) ?_ h.own
  · obtain ⟨l, n, hl⟩ := h.inside c call hc
    obtain ⟨m, hm, hfine⟩ := hp l n hl
    have hs := hx c call l n hl
    have htook := hl.took
    exact ⟨l, m, hfine, by simp only; omega, hs.of, hs.turn, hs.slot, hs.job, hs.isOpen⟩
  · intro c' call' m hne hc' hf hf'
    exact hne (h.apart c' c call' call m hc' hc hf' hf)

section Does

variable {call : Call V} {l : Local} {n : Nat} {o : Op V} {k : Result → Prog V} {a : Ans}

/-- The jobs after an operation. -/
theorem does_jobs {i : Nat} (hi : call.slot ≠ some i) :
    (s.does cd c call o k a).jobs i = s.jobs i := by
  simp only [State.does]
  cases hs : call.slot with
  | none => rfl
  | some j => exact update_of_ne (fun (he : i = j) => hi (he ▸ hs)) ..

/-- What is left of a call after an operation. -/
def Call.after (cd : Codec V) (s : State V) (call : Call V) (o : Op V) (k : Result → Prog V)
    (a : Ans) : Call V :=
  { call with
    prog := k (o.exec cd a (s.env call)).1
    filled := o.fills (o.exec cd a (s.env call)).1 call.filled
    took := call.took + 1 }

theorem Call.Fits.does_jobAt (hl : call.Fits cd s c l n) (hpre : o.Pre cd call.req call.before l) :
    (s.does cd c call o k a).jobAt call.slot = (o.exec cd a (s.env call)).2.job := by
  cases hslot : call.slot with
  | some i =>
    simp only [State.does, State.jobAt, hslot, State.setJob]
    exact update_self ..
  | none =>
    have hr : call.req.job = none := by
      have hs := hl.slot
      rw [hslot] at hs
      exact Option.map_eq_none_iff.1 hs.symm
    rw [exec_job hpre hr]
    simp only [State.env, hslot, State.jobAt]

/-- The call's own job after an operation. -/
theorem Call.Fits.does_job (hl : call.Fits cd s c l n) (hpre : o.Pre cd call.req call.before l)
    {i : Nat} (hi : call.slot = some i) :
    (s.does cd c call o k a).jobs i = (o.exec cd a (s.env call)).2.job ∧
      (s.env call).job = s.jobs i := by
  have hat := hl.does_jobAt (k := k) (a := a) hpre
  rw [hi] at hat
  exact ⟨hat, by simp only [State.env, hi, State.jobAt]⟩

/-- An operation that does not free a job's slot leaves each job its handle. -/
theorem Call.Fits.does_keeps (hl : call.Fits cd s c l n) (hpre : o.Pre cd call.req call.before l)
    (ho : o ≠ .free) (i : Nat) :
    ((s.does cd c call o k a).jobs i).used = (s.jobs i).used ∧
      ((s.does cd c call o k a).jobs i).gen = (s.jobs i).gen ∧
      ((s.does cd c call o k a).jobs i).t = (s.jobs i).t := by
  by_cases hi : call.slot = some i
  · obtain ⟨hat, henv⟩ := hl.does_job (k := k) (a := a) hpre hi
    obtain ⟨-, -, ht, hkeep⟩ := exec_keeps cd a (s.env call) o
    rw [hat, ← henv]
    exact ⟨(hkeep ho).1, (hkeep ho).2, ht⟩
  · rw [does_jobs hi]
    exact ⟨rfl, rfl, rfl⟩

/-- A slot that is freed is in its next generation. -/
theorem Call.Fits.does_frees (hl : call.Fits cd s c l n)
    (hpre : Op.free.Pre cd call.req call.before l) (hfresh : (s.jobAt call.slot).gen + 1 < generations)
    {i : Nat} (hi : call.slot = some i) :
    ((s.does cd c call .free k a).jobs i).gen = (s.jobs i).gen + 1 := by
  obtain ⟨hat, henv⟩ := hl.does_job (k := k) (a := a) hpre hi
  simp only [hi, State.jobAt] at hfresh
  rw [hat]
  simp only [Op.exec, henv]
  exact Nat.mod_eq_of_lt hfresh

theorem Call.Fits.does_turns (hl : call.Fits cd s c l n)
    (hnodup : ((s.turns call.x).map Turn.call).Nodup) :
    ∃ ts, s.turns call.x = ts ++ [⟨c, l.wrote⟩] ∧ (s.does cd c call o k a).turns call.x =
      ts ++ [⟨c, fun b => l.wrote b ++ o.adds (o.exec cd a (s.env call)).1 b⟩] := by
  obtain ⟨ts, hts⟩ := hl.turn
  refine ⟨ts, hts, ?_⟩
  rw [hts, List.map_append, List.nodup_append] at hnodup
  have hcts : c ∉ ts.map Turn.call := by
    intro hmem
    exact hnodup.2.2 c hmem c (by simp) rfl
  have hat : (s.does cd c call o k a).turns call.x =
      o.turns (o.exec cd a (s.env call)).1 c (s.turns call.x) := update_self ..
  rw [hat, hts, turns_last hcts]

/-- **The call is where it should be** after its operation. -/
theorem Call.Fits.does (hl : call.Fits cd s c l n)
    (hnodup : ((s.turns call.x).map Turn.call).Nodup) (hprog : call.prog = .call o k)
    (hmeets : Meets cd s c a call o) :
    ∃ l' n', (call.after cd s o k a).Fits cd (s.does cd c call o k a) c l' n' := by
  obtain ⟨hf, hpre, m, hm, hok, herr⟩ := hprog ▸ hl.fine
  have hfit : ∀ l' : Local, (k (o.exec cd a (s.env call)).1).Fine cd call.req call.before m l' →
      l'.Of call.req call.before (o.exec cd a (s.env call)).2
        (o.fills (o.exec cd a (s.env call)).1 call.filled) →
      (∀ b, l'.wrote b = l.wrote b ++ o.adds (o.exec cd a (s.env call)).1 b) →
      (l'.freed = false → o ≠ .free) →
      (call.after cd s o k a).Fits cd (s.does cd c call o k a) c l' m := by
    intro l' hfine hof hw hfree
    have hto := hl.took
    have hx : (s.does cd c call o k a).xs call.x = (o.exec cd a (s.env call)).2.t :=
      update_self ..
    constructor
    case fine => exact hfine
    case took => simp only [Call.after]; omega
    case of =>
      have henv : (o.exec cd a (s.env call)).2 = (s.does cd c call o k a).env call := by
        simp only [State.env, hx, hl.does_jobAt hpre]
        rfl
      rw [henv] at hof
      exact hof
    case turn =>
      obtain ⟨ts, -, hts⟩ := hl.does_turns (o := o) (k := k) (a := a) hnodup
      refine ⟨ts, ?_⟩
      rw [(funext hw : l'.wrote = _)]
      exact hts
    case slot => exact hl.slot
    case job =>
      intro hf' h' hr
      obtain ⟨hu, hg, ht⟩ := hl.job hf h' hr
      obtain ⟨hu', hg', ht'⟩ := hl.does_keeps hpre (hfree hf') (h' % jobSlots)
      exact ⟨hu'.trans hu, hg'.trans hg, ht'.trans ht⟩
    case isOpen =>
      have hopen := (exec_keeps cd a (s.env call) o).1
      exact (congrArg Transcript.isOpen hx).trans (hopen.trans hl.isOpen)
  cases hres : (o.exec cd a (s.env call)).1 with
  | ok v =>
    obtain ⟨l', hpost, hof⟩ := hl.of.does hpre hres
    rw [hres] at hfit
    refine ⟨l', m, hfit l' (hok v l' hpost) hof hpost.wrote ?_⟩
    rintro hf' rfl
    subst hpost
    cases hf'
  | error err =>
    have hfails : Fails cd s call o a := ⟨err, hres⟩
    have hof := hl.of.fails hf hpre hres (hmeets.early hfails)
    have hmay : o.MayFail call.req := by
      have hend : ∀ h complete, call.req ≠ .jobEnd h complete :=
        fun h' b hr => hmeets.ended h' b hr hfails
      cases o with
      | note b k => exact hmeets.noted b k rfl hfails
      | ref b v => exact nomatch (ref_ok cd b v a (s.env call)).1.symm.trans hres
      | shut | opened | free => cases hres
      | _ => exact hend
    rw [hres] at hfit
    refine ⟨_, m, hfit _ (herr hmay err) hof ?_ ?_⟩
    · intro b
      rw [failed_wrote]
      cases o <;> simp [Op.adds]
    · rintro - rfl
      cases hres

/-- A call that waits still does after another's operation. -/
theorem Call.Fits.does_waits (hl : call.Fits cd s c l n)
    (hpre : o.Pre cd call.req call.before l) (hmeets : Meets cd s c a call o) {r : Request V}
    {y : Nat} (hw : s.Waits r y) : (s.does cd c call o k a).Waits r y := by
  have hopen : ((s.does cd c call o k a).xs y).isOpen = (s.xs y).isOpen := by
    by_cases hy : y = call.x
    · subst hy
      have hx : (s.does cd c call o k a).xs call.x = (o.exec cd a (s.env call)).2.t :=
        update_self ..
      rw [hx]
      exact (exec_keeps cd a (s.env call) o).1
    · exact congrArg Transcript.isOpen (update_of_ne hy ..)
  by_cases ho : o = .free
  · -- The slot that is freed is the call's own, under its next generation.
    subst ho
    obtain ⟨h₀, hr₀⟩ := Option.isSome_iff_exists.1 hpre
    have hslot : call.slot = some (h₀ % jobSlots) := by rw [hl.slot, hr₀]; rfl
    have hg := hl.does_frees (k := k) (a := a) hpre (hmeets.fresh rfl) hslot
    have hother : ∀ i, i ≠ h₀ % jobSlots → (s.does cd c call .free k a).jobs i = s.jobs i := by
      intro i hi
      exact does_jobs fun he => hi (Option.some.inj (he.symm.trans hslot))
    refine hw.frame hopen ?_ ?_
    · intro h' hr' hv
      by_cases hi : h' % jobSlots = h₀ % jobSlots
      · right
        rw [hi, hg, ← hi, hv.2.1]
        exact Nat.lt_succ_self _
      · left
        rw [State.Valid, hother _ hi]
        exact hv
    · intro i
      by_cases hi : i = h₀ % jobSlots
      · rw [hi, hg]
        exact Nat.le_succ _
      · rw [hother i hi]
  · refine hw.frame hopen ?_ ?_
    · intro h' _ hv
      obtain ⟨hu, hg, ht⟩ := hl.does_keeps (k := k) (a := a) hpre ho (h' % jobSlots)
      exact .inl ⟨hu.trans hv.1, hg.trans hv.2.1, ht.trans hv.2.2⟩
    · intro i
      exact (hl.does_keeps hpre ho i).2.1.ge

/-- **Call `c` does an operation.** -/
theorem Inv.does (h : Inv cd s) (hc : s.phase c = .inside call) (hprog : call.prog = .call o k)
    (hmeets : Meets cd s c a call o) : Inv cd (s.does cd c call o k a) := by
  obtain ⟨l, n, hl⟩ := h.inside c call hc
  obtain ⟨hf, hpre, -⟩ := hprog ▸ hl.fine
  obtain ⟨ts, hts, hts'⟩ := hl.does_turns (o := o) (k := k) (a := a) (h.once call.x)
  have hx : (s.does cd c call o k a).xs call.x = (o.exec cd a (s.env call)).2.t := update_self ..
  refine h.act (call.after cd s o k a) rfl (holds_inside hc : s.Holds c call.x)
    (hl.does (h.once call.x) hprog hmeets) (fun y hy => update_of_ne hy ..) ?busy
    (fun y hy => update_of_ne hy ..) ?others (fun _ _ _ _ hw => hl.does_waits hpre hmeets hw)
    ?pending ?text ?took ?once ?kept ?apart ?own
  case busy => exact (congrArg Transcript.busy hx).trans (exec_keeps cd a (s.env call) o).2.1
  case others =>
    intro c' call' l' n' hne hc' hl'
    have hxne : call'.x ≠ call.x := h.apart_x (holds_inside hc) hne hc'
    refine hl'.frame (update_of_ne hxne ..) (update_of_ne hxne ..) ?_ ?_
    · intro hf' h' hr'
      refine does_jobs fun hslot => hxne ?_
      obtain ⟨h₀, hr, hmod⟩ := Option.map_eq_some_iff.1 (hl.slot.symm.trans hslot)
      have hv := hl.job hf h₀ hr
      have hv' := hl'.job hf' h' hr'
      rw [State.Valid, hmod] at hv
      exact hv'.2.2.symm.trans hv.2.2
    · intro b hfb
      refine exec_bufs ?_ ?_
      · rintro v rfl
        exact hmeets.apart b v rfl c' call' hne hc' hfb
      · rintro k' n' rfl
        obtain ⟨-, ⟨v, hmk⟩, -, d, hval, -⟩ := hpre
        obtain ⟨b', hb'⟩ := Option.isSome_iff_exists.1
          (hl.of.full ▸ (by rw [hval]; rfl) : call.filled.isSome = true)
        obtain ⟨v', hv'⟩ := hl.of.maker b' hb'
        obtain ⟨rfl, -⟩ := Prod.mk.inj (Option.some.inj (hv'.symm.trans hmk))
        exact hne (h.apart c' c call' call b' hc' hc hfb hb')
  case pending =>
    have hp := exec_pending (a := a) hl.of hpre (h.pending call.x)
    exact (congrArg Transcript.pending hx).trans_le hp
  case text =>
    intro b
    have hold := h.text call.x b
    have hadd := exec_docText cd a (s.env call) o b
    rw [hts] at hold
    rw [← hx] at hadd
    refine hadd.trans ?_
    simp only [Call.after, hts', State.env, hold, List.flatMap_append, List.flatMap_singleton,
      List.append_assoc]
  case took =>
    intro t ht
    simp only [Call.after, hts'] at ht
    rcases List.mem_append.1 ht with ht | ht
    · exact .inr (hts ▸ List.mem_append_left _ ht)
    · exact .inl (by rw [List.mem_singleton.1 ht])
  case once =>
    have h := h.once call.x
    rw [hts] at h
    simpa only [Call.after, hts', List.map_append, List.map_cons, List.map_nil] using h
  case kept =>
    intro t ht hne
    simp only [Call.after, hts'] at ht ⊢
    rw [hts] at ht
    rcases List.mem_append.1 ht with ht | ht
    · exact List.mem_append_left _ ht
    · exact (hne (by rw [List.mem_singleton.1 ht])).elim
  case apart =>
    intro c' call' b hne hc' hfb hfb'
    by_cases hold : call.filled = some b
    · exact hne (h.apart c' c call' call b hc' hc hfb' hold)
    · -- It has just made its encoding there.
      cases o with
      | encode b' v =>
        simp only [Call.after] at hfb
        cases hres : ((Op.encode b' v : Op V).exec cd a (s.env call)).1 with
        | error err =>
          rw [hres] at hfb
          exact hold hfb
        | ok v' =>
          rw [hres] at hfb
          obtain rfl := Option.some.inj hfb
          exact hmeets.apart b' v rfl c' call' hne hc' hfb'
      | push => cases hfb
      | _ => exact hold hfb
  case own =>
    intro p hp
    rcases List.mem_append.1 hp with hp | hp
    · exact h.own p hp
    · exact pushes_own hl.of hpre p hp

end Does

/-- What a call is to take its turn at is open, and its job's. -/
theorem target_waits {r : Request V} (ht : s.target r = some x) : s.Waits r x := by
  have hopen : ∀ t, s.transcriptOf t = some x → t = x ∧ (s.xs x).isOpen = true := by
    intro t h
    unfold State.transcriptOf at h
    split at h
    · next hc =>
      obtain rfl := Option.some.inj h
      exact ⟨rfl, hc.2⟩
    · cases h
  unfold State.target at ht
  cases hr : r.job with
  | none =>
    rw [hr] at ht
    obtain ⟨t, -, ht⟩ := Option.bind_eq_some_iff.1 ht
    refine ⟨(hopen t ht).2, ?_⟩
    intro h' hr'
    rw [hr] at hr'
    cases hr'
  | some h =>
    rw [hr] at ht
    obtain ⟨i, hi, ht⟩ := Option.bind_eq_some_iff.1 ht
    refine ⟨(hopen _ ht).2, ?_⟩
    intro h' hr'
    obtain rfl := Option.some.inj (hr.symm.trans hr')
    unfold State.jobOfHandle at hi
    split at hi
    · next hc =>
      obtain rfl := Option.some.inj hi
      exact .inl ⟨hc.1, hc.2, (hopen _ ht).1⟩
    · cases hi

/-- A job that is there when a call has its turn is of that transcript. -/
theorem State.Waits.valid {r : Request V} {h i : Nat} (hw : s.Waits r x) (hr : r.job = some h)
    (hi : s.jobOfHandle h = some i) : i = h % jobSlots ∧ s.Valid h x := by
  unfold State.jobOfHandle at hi
  split at hi
  · next hc =>
    refine ⟨(Option.some.inj hi).symm, (hw.job h hr).resolve_right ?_⟩
    rw [hc.2]
    exact lt_irrefl _
  · cases hi

/-- A transcript is opened. -/
theorem Inv.opens (h : Inv cd s) (hx : (s.xs x).isOpen = false) : Inv cd { s with
    xs := update s.xs x { Transcript.closed with isOpen := true } } := by
  have hnone : ∀ c, ¬ s.Holds c x := by
    intro c hc
    have hopen : (s.xs x).isOpen = true := by
      cases hp : s.phase c with
      | entered r y =>
        obtain rfl : y = x := by simpa [State.Holds, hp, Phase.turnAt] using hc
        exact (h.entered c r y hp).isOpen
      | inside call =>
        obtain rfl : call.x = x := by simpa [State.Holds, hp, Phase.turnAt] using hc
        obtain ⟨l, n, hl⟩ := h.inside c call hp
        exact hl.isOpen
      | _ => simp [State.Holds, hp, Phase.turnAt] at hc
    rw [hx] at hopen
    cases hopen
  have hne : ∀ y, (s.xs y).isOpen = true → y ≠ x := by
    rintro y hy rfl
    rw [hx] at hy
    cases hy
  have hat : ∀ y, y ≠ x → update s.xs x { Transcript.closed with isOpen := true } y = s.xs y :=
    fun y hy => update_of_ne hy ..
  have hwaits : ∀ {r y}, s.Waits r y → State.Waits { s with
      xs := update s.xs x { Transcript.closed with isOpen := true } } r y := by
    intro r y hw
    refine hw.frame ?_ (fun _ _ hv => .inl hv) fun _ => le_refl _
    simp only [hat y (hne y hw.isOpen)]
  refine { h with
    busy := ?_
    inside := ?_
    waits := ?_
    entered := ?_
    even := ?_
    pending := ?_
    text := ?_
    closed := ?_ }
  · intro y
    by_cases hy : y = x
    · subst hy
      simp only [update_self, Transcript.closed, Bool.false_eq_true, false_iff]
      exact fun ⟨c, hc⟩ => hnone c hc
    · simp only [hat y hy]
      exact h.busy y
  · intro c call hc
    obtain ⟨l, n, hl⟩ := h.inside c call hc
    exact ⟨l, n, hl.frame (hat _ (hne _ hl.isOpen)) rfl (fun _ _ _ => rfl) fun _ _ => rfl⟩
  · exact fun c r y hc => hwaits (h.waits c r y hc)
  · exact fun c r y hc => hwaits (h.entered c r y hc)
  · intro y hy
    by_cases hyx : y = x
    · subst hyx
      simp [Transcript.closed]
    · simp only [hat y hyx]
      exact h.even y hy
  · intro y
    by_cases hyx : y = x
    · subst hyx
      simp [Transcript.closed]
    · simp only [hat y hyx]
      exact h.pending y
  · intro y b
    by_cases hyx : y = x
    · subst hyx
      simp only [update_self, h.closed y hx]
      rfl
    · simp only [hat y hyx]
      exact h.text y b
  · intro y hy
    by_cases hyx : y = x
    · subst hyx
      exact h.closed y hx
    · simp only [hat y hyx] at hy
      exact h.closed y hy

/-- A place is made for a job. -/
theorem Inv.job (h : Inv cd s) {i : Nat} (j : Job) (hi : (s.jobs i).used = false)
    (hg : j.gen = (s.jobs i).gen) : Inv cd { s with jobs := update s.jobs i j } := by
  have hne : ∀ h' y, s.Valid h' y → h' % jobSlots ≠ i := by
    rintro h' y ⟨hu, -, -⟩ rfl
    rw [hi] at hu
    cases hu
  have hwaits : ∀ {r y}, s.Waits r y → State.Waits { s with jobs := update s.jobs i j } r y := by
    intro r y hw
    refine hw.frame rfl ?_ ?_
    · intro h' _ hv
      left
      simp only [State.Valid, update_of_ne (hne h' y hv)]
      exact hv
    · intro i'
      by_cases hii : i' = i
      · subst hii
        simp only [update_self, hg, le_refl]
      · simp only [update_of_ne hii, le_refl]
  refine { h with inside := ?_, waits := ?_, entered := ?_ }
  · intro c call hc
    obtain ⟨l, n, hl⟩ := h.inside c call hc
    refine ⟨l, n, hl.frame rfl rfl ?_ fun _ _ => rfl⟩
    intro hf h' hr
    exact update_of_ne (hne h' _ (hl.job hf h' hr)) ..
  · exact fun c r y hc => hwaits (h.waits c r y hc)
  · exact fun c r y hc => hwaits (h.entered c r y hc)

/-- A call that has the turn enters. -/
theorem Inv.enters (h : Inv cd s) {r : Request V} {slot : Option Nat}
    (hc : s.phase c = .entered r x) (hslot : r.job.map s.jobOfHandle = slot.map some) :
    Inv cd { s with
      phase := update s.phase c (.inside ⟨r, x, slot, r.prog cd, (s.xs x, s.jobAt slot), none, 0⟩)
      turns := update s.turns x (s.turns x ++ [⟨c, fun _ => []⟩]) } := by
  have hw := h.entered c r x hc
  have hcx : s.Holds c x := holds_entered hc
  have hvalid : slot = r.job.map (· % jobSlots) ∧ ∀ h, r.job = some h → s.Valid h x := by
    cases hr : r.job with
    | none =>
      rw [hr] at hslot
      exact ⟨(Option.map_eq_none_iff.1 hslot.symm), nofun⟩
    | some h' =>
      rw [hr] at hslot
      obtain ⟨i, rfl, hi⟩ := Option.map_eq_some_iff.1 hslot.symm
      obtain ⟨rfl, hv⟩ := hw.valid hr hi.symm
      refine ⟨rfl, ?_⟩
      rintro _ ⟨⟩
      exact hv
  have hnot : ∀ t ∈ s.turns x, t.call ≠ c := by
    rintro t ht rfl
    rcases h.took x t ht with ⟨call, hp, -⟩ | ⟨_, _, _, _, hp⟩ <;> rw [hc] at hp <;> cases hp
  have heven : (s.xs x).schema.length = (s.xs x).doc.length := by
    refine h.even x fun c' call' hc' hx => ?_
    have hcc : c' = c := h.alone c' c x (hx ▸ holds_inside hc') hcx
    rw [hcc, hc] at hc'
    cases hc'
  refine h.act ⟨r, x, slot, r.prog cd, (s.xs x, s.jobAt slot), none, 0⟩ rfl hcx ?_
    (fun _ _ => rfl) rfl (fun y hy => update_of_ne hy ..) ?_
    (fun _ _ _ _ hw => hw.frame rfl (fun _ _ hv => .inl hv) fun _ => le_refl _) (h.pending x) ?_
    ?_ ?_ ?_ ?_ h.own
  · refine ⟨.start (s.xs x).pending, r.bound, ?_⟩
    constructor
    · exact r.fine (h.pending x)
    · exact (Nat.zero_add _).le
    · constructor
      · exact fun _ => rfl
      · rfl
      · exact fun _ => heven
      · exact fun _ h => nomatch h
      · exact fun _ _ _ h => nomatch h
      · exact fun _ _ _ h => nomatch h
      · exact fun h => nomatch h
      · rfl
      · exact fun _ h => nomatch h
    · exact ⟨s.turns x, update_self ..⟩
    · exact hvalid.1
    · exact fun _ => hvalid.2
    · exact hw.isOpen
  · intro c' call' l n hne hc' hl
    exact hl.frame rfl (update_of_ne (h.apart_x hcx hne hc') ..) (fun _ _ _ => rfl) fun _ _ => rfl
  · intro b
    simpa using h.text x b
  · intro t ht
    simp only [update_self, List.mem_append, List.mem_singleton] at ht
    rcases ht with ht | rfl
    · exact .inr ht
    · exact .inl rfl
  · simp only [update_self, List.map_append, List.map_cons, List.map_nil]
    refine List.nodup_append.2 ⟨h.once x, List.nodup_singleton _, ?_⟩
    intro d hd d' hd' he
    obtain ⟨t, ht, rfl⟩ := List.mem_map.1 hd
    exact hnot t ht (he.trans (List.mem_singleton.1 hd'))
  · intro t ht _
    simp only [update_self]
    exact List.mem_append_left _ ht
  · exact fun _ _ _ _ _ hf => nomatch hf

/-- A call that came back from a turn. -/
def Phase.back : Phase V → Bool
  | .returned .. => true
  | _ => false

/-- A call moves without a turn. -/
theorem Inv.aside (h : Inv cd s) {p : Phase V} (hc : (s.phase c).turnAt = none)
    (hr : (s.phase c).back = false) (hp : p.turnAt = none) (hp' : p.back = false)
    (hw : ∀ r x, p = .waiting r x → s.Waits r x) : Inv cd (s.setPhase c p) := by
  have hnot : ∀ y, ¬ s.Holds c y := by
    intro y hy
    rw [State.Holds, hc] at hy
    cases hy
  have hinside : ∀ call, s.phase c ≠ .inside call := by
    intro call he
    rw [he] at hc
    cases hc
  have hpout : ∀ call, p ≠ .inside call := by
    rintro call rfl
    cases hp
  refine h.move rfl rfl rfl rfl rfl (fun y => ⟨(s.xs y).busy, rfl⟩) (fun _ _ _ _ => rfl) ?_ ?_
    hpout ?_ (fun call he => (hinside call he).elim) ?_
    (fun r x out b a he => nomatch (he ▸ hp' : (Phase.returned r x out b a).back = false))
    (fun t b text x bf af he =>
      nomatch (he ▸ hp' : (Phase.returned (.write t b text) x .nil bf af).back = false))
  · intro y
    refine (h.busy y).trans ⟨?_, ?_⟩
    · rintro ⟨c', hc'⟩
      refine .inr ⟨c', ?_, hc'⟩
      rintro rfl
      exact hnot y hc'
    · rintro (he | ⟨c', -, hc'⟩)
      · rw [hp] at he
        cases he
      · exact ⟨c', hc'⟩
  · intro c' y he
    rw [hp] at he
    cases he
  · rintro r x (he | rfl)
    · exact hw r x he
    · cases hp
  · rintro x (⟨call, he, -⟩ | ⟨r, out, b, a, he⟩)
    · exact (hinside call he).elim
    · rw [he] at hr
      cases hr

/-- A call that has the turn gives it back. -/
theorem Inv.gives (h : Inv cd s) {p : Phase V} (hc : s.Holds c x) (hp : p.turnAt = none)
    (hw : ∀ r x, p ≠ .waiting r x)
    (heven : ∀ call, s.phase c = .inside call →
      (s.xs call.x).schema.length = (s.xs call.x).doc.length)
    (htook : ∀ y, s.Took c y → ∃ r out before after, p = .returned r y out before after)
    (hatomic : ∀ r x out before after, p = .returned r x out before after →
      out.isError = true → after = before)
    (hwhole : ∀ t b text x before after, p = .returned (.write t b text) x .nil before after →
      ∃ turn ∈ s.turns x, turn.call = c ∧ turn.wrote b.toNat = text) :
    Inv cd ((s.setBusy x false).setPhase c p) := by
  have hat : ∀ y, y ≠ x → ((s.setBusy x false).setPhase c p).xs y = s.xs y :=
    fun y hy => update_of_ne hy ..
  refine h.move rfl rfl rfl rfl rfl ?_ ?_ ?_ ?_ ?_ ?_ heven htook hatomic hwhole
  · intro y
    by_cases hy : y = x
    · subst hy
      exact ⟨false, update_self ..⟩
    · exact ⟨(s.xs y).busy, hat y hy⟩
  · intro c' call hne hc'
    exact hat _ (h.apart_x hc hne hc')
  · intro y
    rw [hp]
    by_cases hy : y = x
    · subst hy
      simp only [State.setPhase, State.setBusy, update_self, Bool.false_eq_true, reduceCtorEq,
        false_or, false_iff]
      rintro ⟨c', hne, hc'⟩
      exact hne (h.alone c' c y hc' hc)
    · rw [hat y hy, h.busy]
      refine ⟨?_, ?_⟩
      · rintro ⟨c', hc'⟩
        refine .inr ⟨c', ?_, hc'⟩
        rintro rfl
        exact hy (Option.some.inj (hc'.symm.trans hc))
      · rintro (he | ⟨c', -, hc'⟩)
        · cases he
        · exact ⟨c', hc'⟩
  · intro c' y he
    rw [hp] at he
    cases he
  · rintro call rfl
    cases hp
  · rintro r y (he | rfl)
    · exact (hw r y he).elim
    · cases hp

/-- A call takes its turn. -/
theorem Inv.takes (h : Inv cd s) {r : Request V} (hc : s.phase c = .waiting r x)
    (hx : (s.xs x).busy = false) :
    Inv cd ((s.setBusy x true).setPhase c (.entered r x)) := by
  have hnone : ∀ c', ¬ s.Holds c' x := by
    intro c' hc'
    have hb := (h.busy x).2 ⟨c', hc'⟩
    rw [hx] at hb
    cases hb
  have hat : ∀ y, y ≠ x → ((s.setBusy x true).setPhase c (.entered r x)).xs y = s.xs y :=
    fun y hy => update_of_ne hy ..
  refine h.move rfl rfl rfl rfl rfl ?_ ?_ ?_ ?_ (fun _ he => nomatch he) ?_ ?_ ?_
    (fun _ _ _ _ _ he => nomatch he) fun _ _ _ _ _ _ he => nomatch he
  · intro y
    by_cases hy : y = x
    · subst hy
      exact ⟨true, update_self ..⟩
    · exact ⟨(s.xs y).busy, hat y hy⟩
  · intro c' call _ hc'
    exact hat _ fun he => hnone c' (he ▸ holds_inside hc')
  · intro y
    by_cases hy : y = x
    · subst hy
      simp [State.setPhase, State.setBusy, Phase.turnAt]
    · rw [hat y hy, h.busy]
      refine ⟨?_, ?_⟩
      · rintro ⟨c', hc'⟩
        refine .inr ⟨c', ?_, hc'⟩
        rintro rfl
        rw [State.Holds, hc] at hc'
        cases hc'
      · rintro (he | ⟨c', -, hc'⟩)
        · exact (hy (Option.some.inj he).symm).elim
        · exact ⟨c', hc'⟩
  · rintro c' y he - hc'
    obtain rfl := Option.some.inj he
    exact hnone c' hc'
  · rintro r' y (he | he)
    · cases he
    · obtain ⟨rfl, rfl⟩ := Phase.entered.inj he
      exact h.waits c r x hc
  · intro call he
    rw [hc] at he
    cases he
  · rintro y (⟨call, he, -⟩ | ⟨_, _, _, _, he⟩) <;> rw [hc] at he <;> cases he

/-- A call comes back. -/
theorem Inv.leaves (h : Inv cd s) {call : Call V} {out : Out} (hc : s.phase c = .inside call)
    (hprog : call.prog = .ret out) :
    Inv cd ((s.setBusy call.x false).setPhase c
      (.returned call.req call.x out call.before (s.xs call.x, s.jobAt call.slot))) := by
  obtain ⟨l, n, hl⟩ := h.inside c call hc
  obtain ⟨hahead, herr, hwrite⟩ := hprog ▸ hl.fine
  refine h.gives (holds_inside hc) rfl (fun _ _ he => nomatch he) ?_ ?_ ?_ ?_
  · intro call' hc'
    obtain rfl := Phase.inside.inj (hc.symm.trans hc')
    exact hl.of.even hahead
  · rintro y (⟨call', hc', rfl⟩ | ⟨r, out', b, a, hc'⟩)
    · obtain rfl := Phase.inside.inj (hc.symm.trans hc')
      exact ⟨_, _, _, _, rfl⟩
    · rw [hc] at hc'
      cases hc'
  · rintro r y out' before after he hout
    obtain ⟨rfl, rfl, rfl, rfl, rfl⟩ := Phase.returned.inj he
    exact hl.of.same (herr hout)
  · rintro t b text y before after he
    obtain ⟨hr, rfl, rfl, rfl, rfl⟩ := Phase.returned.inj he
    obtain ⟨ts, hts⟩ := hl.turn
    exact ⟨⟨c, l.wrote⟩, hts ▸ List.mem_append_right _ (List.mem_singleton_self _), rfl,
      hwrite t b text hr rfl⟩

/-- **A step keeps the invariant.** -/
theorem Inv.step {lb : Label} (h : Inv cd s) (hs : Step cd s lb s')
    (hm : ∀ c a call o k, lb = .does c a → s.phase c = .inside call → call.prog = .call o k →
      Meets cd s c a call o) : Inv cd s' := by
  cases hs with
  | opens x _ hx => exact h.opens hx
  | job i t job cmd _ hi _ => exact h.job _ hi rfl
  | asks r hc ht =>
    refine h.aside (by rw [hc]; rfl) (by rw [hc]; rfl) rfl rfl ?_
    intro _ _ he
    obtain ⟨rfl, rfl⟩ := Phase.waiting.inj he
    exact target_waits ht
  | refuses r hc _ =>
    exact h.aside (by rw [hc]; rfl) (by rw [hc]; rfl) rfl rfl fun _ _ he => nomatch he
  | cancels hc =>
    exact h.aside (by rw [hc]; rfl) (by rw [hc]; rfl) rfl rfl fun _ _ he => nomatch he
  | takes hc hx => exact h.takes hc hx
  | stale hc _ _ =>
    refine h.gives (holds_entered hc) rfl (fun _ _ he => nomatch he) ?_ ?_
      (fun _ _ _ _ _ he => nomatch he) fun _ _ _ _ _ _ he => nomatch he
    · intro call he
      rw [hc] at he
      cases he
    · rintro y (⟨call, he, -⟩ | ⟨_, _, _, _, he⟩) <;> rw [hc] at he <;> cases he
  | enters slot hc hslot => exact h.enters hc hslot
  | looks hc hprog =>
    refine h.goes hc fun l n hl => ?_
    obtain ⟨-, m, hm, hk⟩ := hprog ▸ hl.fine
    exact ⟨m, hm, hk _ _ ⟨hl.of.same, hl.of.pend⟩⟩
  | rounds hc hprog =>
    refine h.goes hc fun l n hl => ?_
    have hpend := hl.of.pend
    simp only [State.env] at hpend
    rw [hpend]
    exact (hprog ▸ hl.fine).round
  | does a hc hprog => exact h.does hc hprog (hm _ a _ _ _ rfl hc hprog)
  | leaves hc hprog => exact h.leaves hc hprog

theorem Steady.inv (h : Steady cd s) : Inv cd s := by
  induction h with
  | init => exact .init
  | step _ hs hm ih => exact ih.step hs hm

/-! ### What calls do -/

/-- A call that has the turn can go on. -/
theorem goesOn (hc : s.Holds c x) : ∃ lb s', Step cd s lb s' ∧ s'.phase c ≠ s.phase c := by
  cases hp : s.phase c with
  | entered r y =>
    cases hr : r.job with
    | none =>
      refine ⟨_, _, .enters none hp (by rw [hr]; rfl), ?_⟩
      simp only [update_self]
      exact fun he => nomatch he
    | some h =>
      cases hj : s.jobOfHandle h with
      | none =>
        refine ⟨_, _, .stale hp hr hj, ?_⟩
        simp only [State.setPhase, update_self]
        exact fun he => nomatch he
      | some i =>
        refine ⟨_, _, .enters (some i) hp (by rw [hr]; exact congrArg some hj), ?_⟩
        simp only [update_self]
        exact fun he => nomatch he
  | inside call =>
    have hmore : ∀ {p : Prog V} {f : Option Maker} {k : Nat}, call.took < k →
        (Phase.inside { call with prog := p, filled := f, took := k } : Phase V) ≠
          .inside call := by
      intro p f k hk he
      have htook := congrArg Call.took (Phase.inside.inj he)
      exact (Nat.ne_of_gt hk) htook
    cases hprog : call.prog with
    | ret out =>
      refine ⟨_, _, .leaves hp hprog, ?_⟩
      simp only [State.setPhase, update_self]
      exact fun he => nomatch he
    | look k =>
      refine ⟨_, _, .looks hp hprog, ?_⟩
      simp only [State.goes, State.setPhase, update_self]
      exact hmore (Nat.lt_succ_self _)
    | call o k =>
      refine ⟨_, _, .does ⟨none, []⟩ hp hprog, ?_⟩
      simp only [State.does, update_self]
      exact hmore (Nat.lt_succ_self _)
    | writes b rest k =>
      refine ⟨_, _, .rounds hp hprog, ?_⟩
      simp only [State.goes, State.setPhase, update_self]
      exact hmore (Nat.lt_succ_self _)
  | _ =>
    rw [State.Holds, hp] at hc
    cases hc

theorem Steady.other (h : Steady cd s) (hs : Step cd s .other s') : Steady cd s' :=
  h.step hs fun _ _ _ _ _ he => nomatch he

/-- An operation that does not fail, makes no encoding and frees no job. -/
theorem Steady.ok (h : Steady cd s) {a : Ans} {call : Call V} {o : Op V} {k : Result → Prog V}
    {v : Nat} (hc : s.phase c = .inside call) (hp : call.prog = .call o k)
    (hok : (o.exec cd a (s.env call)).1 = .ok v) (he : ∀ m v, o ≠ .encode m v)
    (hf : o ≠ .free) : Steady cd (s.does cd c call o k a) := by
  have hnot : ¬ Fails cd s call o a := fun ⟨_, h⟩ => nomatch h.symm.trans hok
  refine h.step (.does a hc hp) ?_
  intro c' a' call' o' k' hl hc' hp'
  obtain ⟨rfl, rfl⟩ := Label.does.inj hl
  obtain rfl := Phase.inside.inj (hc.symm.trans hc')
  obtain ⟨rfl, -⟩ := Prog.call.inj (hp.symm.trans hp')
  exact ⟨fun h => (hnot h).elim, fun _ _ _ => hnot, fun _ _ _ => hnot,
    fun m v h => (he m v h).elim, fun h => (hf h).elim⟩

/-- Values without an encoding. -/
def Codec.empty : Codec Unit where
  encode _ := .error "not a value"
  message _ _ := .error .invalid
  refName _ := none
  isLink _ := false

end Jacl.Transcripts
