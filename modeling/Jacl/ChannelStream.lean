import Jacl.Channels
import Mathlib.Data.List.TakeWhile
import Mathlib.Tactic.Common

/-!
# A channel is a byte stream

What reads and collects return, put together, is a prefix of what was written, in the order in
which the writes claimed the end, and all of it once the writer has closed and the reader has
drained the stream (`Streams`); and each end has one operation in flight, and is free when it
has none.  This holds in the runs in which no collect takes a short piece with a NUL byte, and
in which no task ends inside a read of a pipeline (`Meets`): a string of up to seven bytes
stops at its first NUL, and a task that ends there does not give its claim back.
-/

namespace Jacl.Chan
open Function

variable {pipe : Bool} {max : Nat} {s s' : State} {id : CallId} {e : End} {p q : Pc}

/-- What the writes have put on the edge. -/
def sent (ws : List Write) : Bytes := ws.flatMap fun x => x.bytes.take x.passed

/-- What the writes were asked to write. -/
def asked (ws : List Write) : Bytes := ws.flatMap (·.bytes)

/-- No short string has a NUL byte. -/
def Clean (b : Bytes) : Prop := b.length ≤ 7 → 0#8 ∉ b

instance (b : Bytes) : Decidable (Clean b) := inferInstanceAs (Decidable (_ → _))

/-- The reader has taken all there is, and the edge was not cut off. -/
def State.Drained (s : State) : Prop :=
  s.tail = [] ∧ s.edge.queue = [] ∧ s.edge.halt = none ∧
    ∀ id p, s.calls id = some p → p.holds ≠ some .r

/-- **What a channel keeps.** -/
structure Streams (s : State) : Prop where
  /-- What was returned is a prefix of what was written. -/
  begins : s.out <+: asked s.log
  /-- It is all of it once the writer has closed and the stream is drained. -/
  drained : (s.ends .w).closed = true → s.Drained → s.out = asked s.log
  /-- A write that returns nil has passed on all its bytes. -/
  passed : ∀ x ∈ s.log, s.calls x.call = some (.returned .nil) → x.passed = x.bytes.length
  /-- At most one operation is in flight on an end. -/
  one : ∀ e id id' p p', s.calls id = some p → p.holds = some e → s.calls id' = some p' →
    p'.holds = some e → id = id'
  /-- An end is busy only while an operation is in flight on it. -/
  released : ∀ e, (s.ends e).busy = true → ∃ id p, s.calls id = some p ∧ p.holds = some e

/-- **The condition on a step**: what a collect in flight may take next is no short piece with a
NUL byte, and no call is gone after it. -/
structure Meets (s s' : State) : Prop where
  clean : ∀ id kept, s.calls id = some (.filling (.collect kept)) → Clean s.tail
  back : ∀ id, s'.calls id ≠ some .gone

/-- **The states of a run whose steps meet the condition.** -/
inductive Steady (pipe : Bool) (max : Nat) : State → Prop
  | init : Steady pipe max init
  | step {s s' : State} : Steady pipe max s → Step pipe max s s' → Meets s s' →
      Steady pipe max s'

/-! ### Claims -/

/-- The end that the call holds, if it was made. -/
def State.holds (s : State) (id : CallId) : Option End := (s.calls id).bind Pc.holds

/-- **A claim has one holder**, which is the call in flight on the end. -/
structure Claims (s : State) : Prop where
  busy : ∀ e, (s.ends e).busy = (s.holder e).isSome
  holder : ∀ e id, s.holder e = some id ↔ s.holds id = some e

theorem holds_go (s : State) (id id' : CallId) (p : Pc) :
    (s.go id p).holds id' = if id' = id then p.holds else s.holds id' := by
  unfold State.holds State.go
  by_cases h : id' = id
  · subst h
    simp
  · simp [h]

theorem holds_of_calls (h : s.calls id = some p) : s.holds id = p.holds := by
  rw [State.holds, h, Option.bind_some]

/-- A call that goes on with the claim it has, or without one. -/
theorem Claims.go (h : Claims s) (hp : s.holds id = q.holds) (he : s'.ends = s.ends)
    (hh : s'.holder = s.holder) (hc : s'.calls = update s.calls id (some q)) : Claims s' where
  busy e := by rw [he, hh, h.busy]
  holder e id' := by
    have hholds : s'.holds id' = s.holds id' := by
      have hgo : s'.holds id' = (s.go id q).holds id' := by rw [State.holds, hc]; rfl
      rw [hgo, holds_go]
      split_ifs with hid
      · rw [hid, hp]
      · rfl
    rw [hh, hholds, h.holder]

theorem Claims.same (h : Claims s) (he : ∀ e, (s'.ends e).busy = (s.ends e).busy)
    (hh : s'.holder = s.holder) (hc : s'.calls = s.calls) : Claims s' where
  busy e := by rw [he, hh, h.busy]
  holder e id := by rw [hh, State.holds, hc]; exact h.holder e id

@[simp] theorem holds_claim (id' : CallId) : (s.claim e id).holds id' = s.holds id' := rfl

@[simp] theorem holds_release (id' : CallId) : (s.release e).holds id' = s.holds id' := rfl

/-- A call claims an end that nobody holds. -/
theorem Claims.claim (h : Claims s) (hp : s.holds id = none) (hb : (s.ends e).busy = false)
    (hq : q.holds = some e) : Claims ((s.claim e id).go id q) := by
  have hfree : s.holder e = none := by
    rw [h.busy] at hb
    simpa using hb
  refine ⟨fun e' => ?_, fun e' id' => ?_⟩
  · by_cases he : e' = e
    · subst he
      simp [State.go, State.claim]
    · simpa [State.go, State.claim, he] using h.busy e'
  · rw [holds_go, hq, holds_claim,
      show ((s.claim e id).go id q).holder = update s.holder e (some id) from rfl]
    by_cases he : e' = e
    · subst he
      have hne : s.holds id' ≠ some e' := fun hs => by
        rw [(h.holder e' id').mpr hs] at hfree
        cases hfree
      by_cases hid : id' = id
      · simp [hid]
      · simp [hid, hne, Ne.symm hid]
    · rw [update_of_ne he, h.holder]
      by_cases hid : id' = id
      · subst hid
        simp [hp, Ne.symm he]
      · simp [hid]

/-- A call gives its claim back. -/
theorem Claims.release (h : Claims s) (hp : s.holds id = some e) (hq : q.holds = none) :
    Claims ((s.release e).go id q) := by
  refine ⟨fun e' => ?_, fun e' id' => ?_⟩
  · by_cases he : e' = e
    · subst he
      simp [State.go, State.release]
    · simpa [State.go, State.release, he] using h.busy e'
  · rw [holds_go, hq, holds_release,
      show ((s.release e).go id q).holder = update s.holder e none from rfl]
    by_cases he : e' = e
    · subst he
      have hone : s.holds id' = some e' → id' = id := fun hs =>
        Option.some.inj (((h.holder e' id').mpr hs).symm.trans ((h.holder e' id).mpr hp))
      by_cases hid : id' = id
      · simp [hid]
      · simpa [hid] using mt hone hid
    · rw [update_of_ne he, h.holder]
      by_cases hid : id' = id
      · subst hid
        simp [hp, Ne.symm he]
      · simp [hid]

/-- No other call holds the end that a call gives back. -/
theorem Claims.none_left {id' : CallId} (h : Claims s) (hp : s.holds id = some e)
    (hq : q.holds = none) (hp' : update s.calls id (some q) id' = some p)
    (hh : p.holds = some e) : False := by
  by_cases hid : id' = id
  · subst hid
    rw [update_self] at hp'
    obtain rfl := Option.some.inj hp'
    rw [hq] at hh
    cases hh
  · rw [update_of_ne hid] at hp'
    have h₁ := (h.holder e id').mpr ((holds_of_calls hp').trans hh)
    exact hid (Option.some.inj (h₁.symm.trans ((h.holder e id).mpr hp)))

/-! ### The writes -/

/-- The write a call is in. -/
def Pc.cur (id : CallId) : Pc → Option Write
  | .writing bytes off => some ⟨id, bytes, off⟩
  | _ => none

/-- The call has not come back. -/
def Back (s : State) (id : CallId) : Prop := ∃ res, s.calls id = some (.returned res)

/-- **What the writes have passed on.** -/
structure Writes (s : State) : Prop where
  cur : ∀ id p, s.calls id = some p → p.holds = some .w → s.cur = p.cur id
  idle : s.holder .w = none → s.cur = none
  closed : (s.ends .w).closed = true → s.cur = none
  bound : ∀ x, s.cur = some x → x.passed ≤ x.bytes.length
  /-- The writes that came back passed on all they had, unless the edge has ended; then nothing
  is passed on any more. -/
  whole : (∀ x ∈ s.past, x.passed = x.bytes.length) ∨
    s.edge.halt ≠ none ∧ sent s.past <+: asked s.past ∧ ∀ x, s.cur = some x → x.passed = 0
  back : ∀ x ∈ s.past, ∃ res, s.calls x.call = some (.returned res) ∧
    (res = .nil → x.passed = x.bytes.length)

/-- The call at `id` goes on to `q`, and the writes are as they were. -/
structure Moves (s : State) (id : CallId) (q : Pc) (s' : State) : Prop where
  calls : s'.calls = update s.calls id (some q)
  out : ¬Back s id
  halt : s.edge.halt ≠ none → s'.edge.halt ≠ none

theorem Moves.back (h : Moves s id q s') {id' : CallId} {res : Result}
    (hr : s.calls id' = some (.returned res)) : s'.calls id' = some (.returned res) := by
  rw [h.calls, update_of_ne, hr]
  rintro rfl
  exact h.out ⟨res, hr⟩

theorem Writes.go (h : Writes s) (hm : Moves s id q s') (hcur : s'.cur = s.cur)
    (hpast : s'.past = s.past) (hq : q.holds = some .w → s.cur = q.cur id)
    (hidle : s'.holder .w = none → s.cur = none)
    (hclosed : (s'.ends .w).closed = true → s.cur = none) : Writes s' where
  cur id' p hp hh := by
    rw [hcur]
    rw [hm.calls] at hp
    by_cases hid : id' = id
    · subst hid
      rw [update_self] at hp
      obtain rfl := Option.some.inj hp
      exact hq hh
    · rw [update_of_ne hid] at hp
      exact h.cur id' p hp hh
  idle hn := hcur.trans (hidle hn)
  closed hc := hcur.trans (hclosed hc)
  bound x hx := h.bound x (hcur ▸ hx)
  whole := by
    rw [hpast, hcur]
    exact h.whole.imp_right fun hw => ⟨hm.halt hw.1, hw.2⟩
  back x hx := by
    obtain ⟨res, hr, hn⟩ := h.back x (hpast ▸ hx)
    exact ⟨res, hm.back hr, hn⟩

/-- The edge may end, and no call moves. -/
theorem Writes.same (h : Writes s) (hc : s'.calls = s.calls) (hcur : s'.cur = s.cur)
    (hpast : s'.past = s.past) (hh : s'.holder = s.holder) (he : s'.ends = s.ends)
    (halt : s.edge.halt ≠ none → s'.edge.halt ≠ none) : Writes s' where
  cur id p := by rw [hc, hcur]; exact h.cur id p
  idle := by rw [hh, hcur]; exact h.idle
  closed := by rw [he, hcur]; exact h.closed
  bound := by rw [hcur]; exact h.bound
  whole := by rw [hpast, hcur]; exact h.whole.imp_right fun hw => ⟨halt hw.1, hw.2⟩
  back := by rw [hpast, hc]; exact h.back

theorem sent_append (ws : List Write) (x : Write) :
    sent (ws ++ [x]) = sent ws ++ x.bytes.take x.passed := by simp [sent]

theorem asked_append (ws : List Write) (x : Write) : asked (ws ++ [x]) = asked ws ++ x.bytes := by
  simp [asked]

theorem sent_eq_asked {ws : List Write} (h : ∀ x ∈ ws, x.passed = x.bytes.length) :
    sent ws = asked ws := by
  refine List.flatMap_congr fun x hx => ?_
  rw [h x hx, List.take_length]

/-- The writes put on the edge what they were asked to, in order. -/
theorem Writes.sent_prefix (h : Writes s) : sent s.log <+: asked s.log := by
  unfold State.log
  cases hc : s.cur with
  | none =>
    simp only [Option.toList_none, List.append_nil]
    rcases h.whole with hw | ⟨-, hw, -⟩
    · exact ⟨[], by rw [List.append_nil, sent_eq_asked hw]⟩
    · exact hw
  | some x =>
    rw [Option.toList_some, sent_append, asked_append]
    rcases h.whole with hw | ⟨-, hw, hz⟩
    · rw [sent_eq_asked hw]
      exact List.prefix_append_right_inj _ |>.mpr (List.take_prefix ..)
    · rw [hz x hc, List.take_zero, List.append_nil]
      exact hw.trans (List.prefix_append ..)

theorem Writes.sent_all (h : Writes s) (hc : s.cur = none) (hh : s.edge.halt = none) :
    sent s.log = asked s.log := by
  have hw := h.whole.resolve_right fun hw => hw.1 hh
  rw [State.log, hc, Option.toList_none, List.append_nil, sent_eq_asked hw]

/-- A write comes back. -/
theorem Writes.wrote {bytes : Bytes} {off : Nat} {res : Result} (h : Writes s)
    (hcl : Claims s) (hp : s.calls id = some (.writing bytes off))
    (hres : res = .nil → bytes.length ≤ off) (hhalt : off < bytes.length → s.edge.halt ≠ none) :
    Writes (s.wrote id res) := by
  have hcur : s.cur = some ⟨id, bytes, off⟩ := h.cur id _ hp rfl
  have hoff : off ≤ bytes.length := h.bound _ hcur
  have hpast : (s.wrote id res).past = s.past ++ [⟨id, bytes, off⟩] := by
    simp [State.wrote, hcur]
  have hcalls : (s.wrote id res).calls = update s.calls id (some (.returned res)) := rfl
  have hnone : ∀ x, (s.wrote id res).cur ≠ some x := fun x => (Option.some_ne_none x).symm
  refine ⟨fun id' p hp' hh => ?_, fun _ => rfl, fun _ => rfl, fun x hx => absurd hx (hnone x), ?_,
    fun x hx => ?_⟩
  · rw [hcalls] at hp'
    exact (hcl.none_left (holds_of_calls hp) rfl hp' hh).elim
  · rw [hpast]
    rcases h.whole with hw | ⟨hh, hw, hz⟩
    · by_cases hlt : off < bytes.length
      · refine .inr ⟨hhalt hlt, ?_, fun x hx => absurd hx (hnone x)⟩
        rw [sent_append, asked_append, sent_eq_asked hw]
        exact List.prefix_append_right_inj _ |>.mpr (List.take_prefix ..)
      · left
        intro x hx
        rcases List.mem_append.mp hx with hx | hx
        · exact hw x hx
        · obtain rfl := List.mem_singleton.mp hx
          exact Nat.le_antisymm hoff (Nat.not_lt.mp hlt)
    · refine .inr ⟨hh, ?_, fun x hx => absurd hx (hnone x)⟩
      obtain rfl : off = 0 := hz _ hcur
      rw [sent_append, asked_append, List.take_zero, List.append_nil]
      exact hw.trans (List.prefix_append ..)
  · rw [hpast] at hx
    rw [hcalls]
    rcases List.mem_append.mp hx with hx | hx
    · obtain ⟨res', hr, hn⟩ := h.back x hx
      refine ⟨res', ?_, hn⟩
      rw [update_of_ne, hr]
      intro heq
      rw [heq, hp] at hr
      cases hr
    · obtain rfl := List.mem_singleton.mp hx
      exact ⟨res, update_self .., fun hn => Nat.le_antisymm hoff (hres hn)⟩

/-! ### The reads -/

/-- What a collect has gathered. -/
def Pc.kept : Pc → Bytes
  | .filling (.collect kept) => kept
  | .held (.collect kept) => kept
  | _ => []

/-- What is on its way is what was sent and not returned, or the reader has seen the edge end and
nothing more comes. -/
def Flows (s : State) : Prop :=
  sent s.log = s.out ++ s.kept ++ s.tail ++ s.edge.queue.flatten ∨
    s.edge.halt ≠ none ∧ s.kept = [] ∧ s.tail = [] ∧ s.edge.queue = [] ∧ s.out <+: sent s.log

/-- **What the reads have taken.** -/
structure Reads (s : State) : Prop where
  kept : ∀ id p, s.calls id = some p → p.holds = some .r → s.kept = p.kept
  idle : s.holder .r = none → s.kept = []
  clean : Clean s.kept
  flows : Flows s

theorem Flows.congr (h : Flows s) (hs : sent s'.log = sent s.log) (ho : s'.out = s.out)
    (hk : s'.kept = s.kept) (ht : s'.tail = s.tail) (hq : s'.edge.queue = s.edge.queue)
    (hh : s.edge.halt ≠ none → s'.edge.halt ≠ none) : Flows s' := by
  unfold Flows
  rw [hs, ho, hk, ht, hq]
  exact h.imp_right fun h => ⟨hh h.1, h.2⟩

theorem Reads.go (h : Reads s) (hm : Moves s id q s') (hk : s'.kept = s.kept)
    (hq : q.holds = some .r → s.kept = q.kept) (hidle : s'.holder .r = none → s.kept = [])
    (hflows : Flows s') : Reads s' where
  kept id' p hp hh := by
    rw [hk]
    rw [hm.calls] at hp
    by_cases hid : id' = id
    · subst hid
      rw [update_self] at hp
      obtain rfl := Option.some.inj hp
      exact hq hh
    · rw [update_of_ne hid] at hp
      exact h.kept id' p hp hh
  idle hn := hk.trans (hidle hn)
  clean := hk ▸ h.clean
  flows := hflows

theorem Reads.same (h : Reads s) (hc : s'.calls = s.calls) (hk : s'.kept = s.kept)
    (hh : s'.holder = s.holder) (hflows : Flows s') : Reads s' where
  kept id p := by rw [hc, hk]; exact h.kept id p
  idle := by rw [hh, hk]; exact h.idle
  clean := hk ▸ h.clean
  flows := hflows

theorem clean_nil : Clean [] := fun _ h => by cases h

/-- A read or a collect comes back. -/
theorem Reads.filled {how : Fill} {res : Result} (hcl : Claims s)
    (hp : s.calls id = some (.filling how)) (hc : s'.calls = s.calls)
    (hflows : Flows (s'.filled id res)) : Reads (s'.filled id res) where
  kept id' p hp' hh := by
    rw [show (s'.filled id res).calls = update s'.calls id (some (.returned res)) from rfl, hc] at hp'
    exact (hcl.none_left (holds_of_calls hp) rfl hp' hh).elim
  idle _ := rfl
  clean := clean_nil
  flows := hflows

/-- A string keeps clean bytes as they are. -/
theorem strNew_eq {b : Bytes} (h : Clean b) : strNew b = b := by
  unfold strNew
  split_ifs with hlen
  · rw [List.takeWhile_eq_self_iff]
    intro x hx
    simp only [bne_iff_ne]
    rintro rfl
    exact h hlen hx
  · rfl

theorem Clean.append {a b : Bytes} (ha : Clean a) (hb : Clean b) : Clean (a ++ b) := by
  intro hlen hx
  rw [List.length_append] at hlen
  rcases List.mem_append.mp hx with hx | hx
  · exact ha (by omega) hx
  · exact hb (by omega) hx

theorem strConcat_eq {a b : Bytes} (ha : Clean a) (hb : Clean b) : strConcat a (strNew b) = a ++ b := by
  rw [strConcat, strNew_eq hb, strNew_eq (ha.append hb)]

/-! ### Steps -/

/-- **What the steps keep.** -/
structure Inv (s : State) : Prop where
  claims : Claims s
  writes : Writes s
  reads : Reads s

theorem inv_init : Inv init := by
  have hnone : ∀ id p, init.calls id ≠ some p := fun _ p => (Option.some_ne_none p).symm
  have hcur : ∀ x, init.cur ≠ some x := fun x => (Option.some_ne_none x).symm
  refine ⟨⟨fun _ => rfl, fun e id => ?_⟩, ⟨fun id p h => absurd h (hnone id p), fun _ => rfl,
    fun _ => rfl, fun x h => absurd h (hcur x), .inl fun x h => ?_, fun x h => ?_⟩,
    ⟨fun id p h => absurd h (hnone id p), fun _ => rfl, clean_nil, .inl rfl⟩⟩
  · simp [init, State.holds]
  · cases h
  · cases h

/-- A call that goes on, and changes nothing else. -/
theorem Inv.go (h : Inv s) (hp : ¬Back s id) (hh : s.holds id = q.holds)
    (hw : q.holds = some .w → s.cur = q.cur id) (hr : q.holds = some .r → s.kept = q.kept) :
    Inv (s.go id q) := by
  have hm : Moves s id q (s.go id q) := ⟨rfl, hp, fun h => h⟩
  exact ⟨h.claims.go hh rfl rfl rfl, h.writes.go hm rfl rfl hw h.writes.idle h.writes.closed,
    h.reads.go hm rfl hr h.reads.idle h.reads.flows⟩

theorem not_back (hp : s.calls id = some p) (h : ∀ res, p ≠ .returned res) : ¬Back s id := by
  rintro ⟨res, hr⟩
  rw [hp] at hr
  exact h res (Option.some.inj hr)

/-- A call that goes on as before with what it holds. -/
theorem Inv.goes (h : Inv s) (hp : s.calls id = some p) (hr : ∀ res, p ≠ .returned res)
    (hh : p.holds = q.holds) (hc : p.cur id = q.cur id) (hk : p.kept = q.kept) :
    Inv (s.go id q) := by
  refine h.go (not_back hp hr) ((holds_of_calls hp).trans hh) (fun hq => ?_) fun hq => ?_
  · exact (h.writes.cur id p hp (hh.trans hq)).trans hc
  · exact (h.reads.kept id p hp (hh.trans hq)).trans hk

/-- A call claims its end. -/
theorem Inv.claim {op : Op} (h : Inv s) (hp : s.calls id = some (.enter op))
    (hb : (s.ends op.claims).busy = false) : Inv ((s.claim op.claims id).go id (.claimed op)) := by
  have hfree : s.holder op.claims = none := by
    rw [h.claims.busy] at hb
    simpa using hb
  have hm : Moves s id (.claimed op) ((s.claim op.claims id).go id (.claimed op)) :=
    ⟨rfl, not_back hp (by simp), fun h => h⟩
  have hholder : ∀ e, ((s.claim op.claims id).go id (.claimed op)).holder e = none →
      s.holder e = none := by
    intro e hn
    by_cases he : e = op.claims
    · rw [he, hfree]
    · exact (update_of_ne he ..).symm.trans hn
  refine ⟨h.claims.claim (holds_of_calls hp) hb rfl, ?_, ?_⟩
  · refine h.writes.go hm rfl rfl (fun hq => ?_) (fun hn => h.writes.idle (hholder .w hn)) fun hc => ?_
    · exact h.writes.idle (by rw [← Option.some.inj hq, hfree])
    · refine h.writes.closed ?_
      by_cases he : End.w = op.claims
      · rw [← he] at hc
        simpa [State.go, State.claim] using hc
      · simpa [State.go, State.claim, he] using hc
  · refine h.reads.go hm rfl (fun hq => ?_) (fun hn => h.reads.idle (hholder .r hn))
      (h.reads.flows.congr rfl rfl rfl rfl rfl fun h => h)
    exact h.reads.idle (by rw [← Option.some.inj hq, hfree])

/-- A call that found its end closed, or closed it, gives its claim back. -/
theorem Inv.release {op : Op} {res : Result} (h : Inv s) (hp : s.calls id = some (.claimed op)) :
    Inv ((s.release op.claims).go id (.returned res)) := by
  have hm : Moves s id (.returned res) ((s.release op.claims).go id (.returned res)) :=
    ⟨rfl, not_back hp (by simp), fun h => h⟩
  have hholder : ∀ e, ((s.release op.claims).go id (.returned res)).holder e = none →
      s.holder e = none ∨ e = op.claims := by
    intro e hn
    by_cases he : e = op.claims
    · exact .inr he
    · exact .inl ((update_of_ne he ..).symm.trans hn)
  refine ⟨h.claims.release (holds_of_calls hp) rfl, ?_, ?_⟩
  · refine h.writes.go hm rfl rfl (fun hq => by cases hq) (fun hn => ?_) fun hc => ?_
    · rcases hholder .w hn with hn | he
      · exact h.writes.idle hn
      · exact h.writes.cur id _ hp (congrArg some he.symm)
    · refine h.writes.closed ?_
      by_cases he : End.w = op.claims
      · rw [← he] at hc
        simpa [State.go, State.release] using hc
      · simpa [State.go, State.release, he] using hc
  · refine h.reads.go hm rfl (fun hq => by cases hq) (fun hn => ?_)
      (h.reads.flows.congr rfl rfl rfl rfl rfl fun h => h)
    rcases hholder .r hn with hn | he
    · exact h.reads.idle hn
    · exact h.reads.kept id _ hp (congrArg some he.symm)

/-- An end that a call has the claim of is closed. -/
theorem Inv.shut (h : Inv s) (hp : s.calls id = some (.claimed (.close e))) : Inv (s.shut e) := by
  unfold State.shut
  split_ifs with hc
  · exact h
  · have hhalt : s.edge.halt ≠ none → s.edge.halt.or (some .cancelled) ≠ none := by
      cases s.edge.halt <;> simp
    refine ⟨h.claims.same (fun e' => ?_) rfl rfl, ?_, ?_⟩
    · by_cases he : e' = e
      · subst he
        simp
      · simp [he]
    · refine ⟨h.writes.cur, h.writes.idle, fun hc' => ?_, h.writes.bound, ?_, h.writes.back⟩
      · cases e with
        | w => exact h.writes.cur id _ hp rfl
        | r => exact h.writes.closed (by simpa using hc')
      · refine h.writes.whole.imp_right fun hw => ⟨?_, hw.2⟩
        cases e with
        | w => exact hw.1
        | r => exact hhalt hw.1
    · refine h.reads.same rfl rfl rfl (h.reads.flows.congr rfl rfl rfl rfl ?_ ?_)
      · cases e <;> rfl
      · cases e with
        | w => exact fun h => h
        | r => exact hhalt

/-- A write goes on with `off` bytes on the edge. -/
theorem Writes.onto {bytes : Bytes} {off : Nat} (h : Writes s) (hcl : Claims s)
    (hp : s.holds id = some .w) (hm : Moves s id (.writing bytes off) s')
    (hcur : s'.cur = some ⟨id, bytes, off⟩) (hpast : s'.past = s.past) (hh : s'.holder = s.holder)
    (hopen : (s'.ends .w).closed = false) (hoff : off ≤ bytes.length)
    (hwhole : s.edge.halt = none ∨ off = 0) : Writes s' := by
  have hholds : s.holder .w = some id := (hcl.holder .w id).mpr hp
  refine ⟨fun id' p hp' hw => ?_, fun hn => ?_, fun hc => ?_, fun x hx => ?_, ?_, fun x hx => ?_⟩
  · rw [hm.calls] at hp'
    by_cases hid : id' = id
    · subst hid
      rw [update_self] at hp'
      obtain rfl := Option.some.inj hp'
      exact hcur
    · rw [update_of_ne hid] at hp'
      have := (hcl.holder .w id').mpr ((holds_of_calls hp').trans hw)
      exact absurd (Option.some.inj (this.symm.trans hholds)) hid
  · rw [hh, hholds] at hn
    cases hn
  · rw [hopen] at hc
    cases hc
  · obtain rfl := Option.some.inj (hcur.symm.trans hx)
    exact hoff
  · rw [hpast]
    refine h.whole.imp_right fun hw => ⟨hm.halt hw.1, hw.2.1, fun x hx => ?_⟩
    obtain rfl := Option.some.inj (hcur.symm.trans hx)
    exact hwhole.resolve_left hw.1
  · obtain ⟨res, hr, hn⟩ := h.back x (hpast ▸ hx)
    exact ⟨res, hm.back hr, hn⟩

/-- A write begins with nothing on the edge. -/
theorem Inv.write {bytes : Bytes} (h : Inv s) (hp : s.calls id = some (.claimed (.write bytes)))
    (hcl : (s.ends .w).closed = false) :
    Inv { s.go id (.writing bytes 0) with cur := some ⟨id, bytes, 0⟩ } := by
  have hcur : s.cur = none := h.writes.cur id _ hp rfl
  have hw : s.holds id = some .w := holds_of_calls hp
  have hm : Moves s id (.writing bytes 0)
      { s.go id (.writing bytes 0) with cur := some ⟨id, bytes, 0⟩ } :=
    ⟨rfl, not_back hp (by simp), fun h => h⟩
  refine ⟨h.claims.go hw rfl rfl hm.calls,
    h.writes.onto h.claims hw hm rfl rfl rfl hcl (Nat.zero_le _) (.inr rfl), ?_⟩
  refine h.reads.go hm rfl (fun hq => by cases hq) h.reads.idle
    (h.reads.flows.congr ?_ rfl rfl rfl rfl fun h => h)
  simp [State.log, State.go, hcur, sent]

/-- A frame goes onto the edge. -/
theorem Inv.frame {bytes : Bytes} {off : Nat} (h : Inv s)
    (hp : s.calls id = some (.writing bytes off)) (hoff : off < bytes.length)
    (hhalt : s.edge.halt = none) :
    Inv { s.go id (.writing bytes (off + min (bytes.length - off) max)) with
      edge := { s.edge with queue := s.edge.queue ++ [(bytes.drop off).take max] }
      cur := some ⟨id, bytes, off + min (bytes.length - off) max⟩ } := by
  have hcur : s.cur = some ⟨id, bytes, off⟩ := h.writes.cur id _ hp rfl
  have hw : s.holds id = some .w := holds_of_calls hp
  have hopen : (s.ends .w).closed = false := by
    refine Bool.eq_false_iff.mpr fun hc => ?_
    rw [h.writes.closed hc] at hcur
    cases hcur
  have hm : Moves s id (.writing bytes (off + min (bytes.length - off) max))
      { s.go id (.writing bytes (off + min (bytes.length - off) max)) with
        edge := { s.edge with queue := s.edge.queue ++ [(bytes.drop off).take max] }
        cur := some ⟨id, bytes, off + min (bytes.length - off) max⟩ } :=
    ⟨rfl, not_back hp (by simp), fun h => h⟩
  refine ⟨h.claims.go hw rfl rfl hm.calls,
    h.writes.onto h.claims hw hm rfl rfl rfl hopen (by omega) (.inl hhalt), ?_⟩
  refine h.reads.go hm rfl (fun hq => by cases hq) h.reads.idle (.inl ?_)
  have hflow := h.reads.flows.resolve_right fun hf => hf.1 hhalt
  change sent (s.past ++ [⟨id, bytes, off + min (bytes.length - off) max⟩]) =
    s.out ++ s.kept ++ s.tail ++ (s.edge.queue ++ [(bytes.drop off).take max]).flatten
  rw [State.log, hcur, Option.toList_some, sent_append] at hflow
  rw [sent_append, List.flatten_append, List.flatten_singleton, ← List.append_assoc, ← hflow,
    List.append_assoc]
  rw [List.take_add, Nat.min_comm, ← List.length_drop, ← List.take_eq_take_min]

/-- A write comes back. -/
theorem Inv.wrote {bytes : Bytes} {off : Nat} {res : Result} (h : Inv s)
    (hp : s.calls id = some (.writing bytes off)) (hres : res = .nil → bytes.length ≤ off)
    (hhalt : off < bytes.length → s.edge.halt ≠ none) : Inv (s.wrote id res) := by
  have hrel : Claims ((s.release .w).go id (.returned res)) :=
    h.claims.release (holds_of_calls hp) rfl
  refine ⟨hrel.same (fun _ => rfl) rfl rfl, h.writes.wrote h.claims hp hres hhalt, ?_⟩
  have hm : Moves s id (.returned res) (s.wrote id res) :=
    ⟨rfl, not_back hp (by simp), fun h => h⟩
  refine h.reads.go hm rfl (fun hq => by cases hq) h.reads.idle
    (h.reads.flows.congr ?_ rfl rfl rfl rfl fun h => h)
  simp [State.log, State.wrote]

/-- A read or a collect comes back. -/
theorem Inv.filled {how : Fill} {res : Result} (h : Inv s) (hp : s.calls id = some (.filling how))
    (hc : s'.calls = s.calls) (hh : s'.holder = s.holder) (he : s'.ends = s.ends)
    (hcur : s'.cur = s.cur) (hpast : s'.past = s.past) (hhalt : s'.edge.halt = s.edge.halt)
    (hflows : Flows (s'.filled id res)) : Inv (s'.filled id res) := by
  have h' : Claims s' := h.claims.same (fun e => by rw [he]) hh hc
  have hp' : s'.calls id = some (.filling how) := by rw [hc, hp]
  have hrel : Claims ((s'.release .r).go id (.returned res)) := h'.release (holds_of_calls hp') rfl
  refine ⟨hrel.same (fun _ => rfl) rfl rfl, ?_, .filled h.claims hp hc hflows⟩
  have hm : Moves s id (.returned res) (s'.filled id res) :=
    ⟨congrArg (update · id _) hc, not_back hp (by simp), fun hs => hhalt ▸ hs⟩
  refine h.writes.go hm hcur hpast (fun hq => by cases hq) (fun hn => ?_) fun hcl => ?_
  · refine h.writes.idle (hh ▸ ?_)
    simpa [State.filled, State.go, State.release] using hn
  · refine h.writes.closed (he ▸ ?_)
    simpa [State.filled, State.go, State.release] using hcl

/-- A collect takes the tail. -/
theorem Inv.gather {kept : Bytes} (h : Inv s) (hp : s.calls id = some (.filling (.collect kept)))
    (ht : s.tail ≠ []) (hclean : Clean s.tail) :
    Inv { s.go id (.filling (.collect (strConcat kept (strNew s.tail)))) with
      tail := []
      kept := strConcat kept (strNew s.tail) } := by
  have hk : s.kept = kept := h.reads.kept id _ hp rfl
  have hr : s.holds id = some .r := holds_of_calls hp
  have hholds : s.holder .r = some id := (h.claims.holder .r id).mpr hr
  have hcat : strConcat kept (strNew s.tail) = s.kept ++ s.tail := by
    rw [← hk, strConcat_eq h.reads.clean hclean]
  have hm : Moves s id (.filling (.collect (strConcat kept (strNew s.tail))))
      { s.go id (.filling (.collect (strConcat kept (strNew s.tail)))) with
        tail := []
        kept := strConcat kept (strNew s.tail) } := ⟨rfl, not_back hp (by simp), fun h => h⟩
  refine ⟨h.claims.go hr rfl rfl hm.calls,
    h.writes.go hm rfl rfl (fun hq => by cases hq) h.writes.idle h.writes.closed,
    ⟨fun id' p hp' hh => ?_, fun hn => ?_, ?_, .inl ?_⟩⟩
  · rw [hm.calls] at hp'
    by_cases hid : id' = id
    · subst hid
      rw [update_self] at hp'
      obtain rfl := Option.some.inj hp'
      rfl
    · rw [update_of_ne hid] at hp'
      have := (h.claims.holder .r id').mpr ((holds_of_calls hp').trans hh)
      exact absurd (Option.some.inj (this.symm.trans hholds)) hid
  · exact absurd (hholds.symm.trans hn) (by simp)
  · change Clean (strConcat kept (strNew s.tail))
    rw [hcat]
    exact h.reads.clean.append hclean
  · have hf := h.reads.flows.resolve_right fun hf => ht hf.2.2.1
    change sent s.log = s.out ++ strConcat kept (strNew s.tail) ++ [] ++ s.edge.queue.flatten
    rw [hf, hcat, List.append_nil, ← List.append_assoc]

/-- What comes back at a halt is what a collect has gathered, or no bytes. -/
theorem readRes_bytes (pipe : Bool) (how : Fill) (halt : Halt) :
    (halt.readRes pipe how).bytes = how.atEnd.bytes ∨ (halt.readRes pipe how).bytes = [] := by
  cases halt with
  | cancelled => exact .inl rfl
  | severed cause => exact .inr rfl
  | failed why => exact .inr rfl

theorem atEnd_bytes {how : Fill} (h : Reads s) (hp : s.calls id = some (.filling how)) :
    how.atEnd.bytes = s.kept := by
  rw [h.kept id _ hp rfl]
  cases how <;> rfl

/-- **A step keeps what is known of a channel.** -/
theorem Inv.step (h : Inv s) (hstep : Step pipe max s s') (hm : Meets s s') : Inv s' := by
  cases hstep with
  | call op hp =>
    have hn : ∀ p, s.calls _ ≠ some p := fun p hs => by rw [hp] at hs; cases hs
    refine h.go (fun ⟨_, hr⟩ => hn _ hr) ?_ (fun hq => by cases hq) fun hq => by cases hq
    rw [State.holds, hp]
    rfl
  | badRead hp | busy hp => exact h.goes hp (by simp) rfl rfl rfl
  | claim hp hn hb => exact h.claim hp hb
  | closed hp hop hc => exact h.release hp
  | @close id e hp =>
    have hp' : (s.shut e).calls id = some (.claimed (.close e)) := by
      rw [← hp]
      unfold State.shut
      split_ifs <;> rfl
    exact (h.shut hp).release hp'
  | write hp hc => exact h.write hp hc
  | frame hp hoff hhalt => exact h.frame hp hoff hhalt
  | @stopped id bytes off halt hp hoff hhalt =>
    refine h.wrote hp (fun hn => ?_) fun _ => by simp [hhalt]
    cases halt <;> cases hn
  | wrote hp hoff => exact h.wrote hp (fun _ => hoff) fun hlt => absurd hoff (Nat.not_le_of_lt hlt)
  | read hp hc | collect hp hc => exact h.goes hp (by simp) rfl rfl rfl
  | next hp ht hq =>
    refine ⟨h.claims.same (fun _ => rfl) rfl rfl, h.writes.same rfl rfl rfl rfl rfl fun h => h,
      h.reads.same rfl rfl rfl ?_⟩
    rcases h.reads.flows with hf | ⟨-, -, -, hq', -⟩
    · left
      rw [ht, hq] at hf
      change sent s.log = _
      simpa using hf
    · rw [hq] at hq'
      cases hq'
  | @ended id how hp ht hq hc hhalt =>
    refine h.filled hp rfl rfl rfl rfl rfl rfl (.inl ?_)
    have hf := h.reads.flows.resolve_right fun hf => hf.1 hhalt
    change sent s.log = s.out ++ how.atEnd.bytes ++ [] ++ s.tail ++ s.edge.queue.flatten
    rw [hf, atEnd_bytes h.reads hp, List.append_nil]
  | @halted id how halt hp ht hhalt =>
    have hsome : s.edge.halt ≠ none := by simp [hhalt]
    refine h.filled hp rfl rfl rfl rfl rfl rfl (.inr ⟨hsome, rfl, ht, rfl, ?_⟩)
    change s.out ++ (halt.readRes pipe how).bytes <+: sent s.log
    have hout : s.out ++ s.kept <+: sent s.log := by
      rcases h.reads.flows with hf | ⟨-, hk, -, -, hf⟩
      · rw [hf, List.append_assoc]
        exact List.prefix_append ..
      · rwa [hk, List.append_nil]
    rcases readRes_bytes pipe how halt with hb | hb
    · rw [hb, atEnd_bytes h.reads hp]
      exact hout
    · rw [hb, List.append_nil]
      exact (List.prefix_append ..).trans hout
  | @take id n hp ht =>
    refine h.filled hp rfl rfl rfl rfl rfl rfl (.inl ?_)
    have hf := h.reads.flows.resolve_right fun hf => ht hf.2.2.1
    have hk : s.kept = [] := h.reads.kept id _ hp rfl
    change sent s.log = s.out ++ s.tail.take n ++ [] ++ s.tail.drop n ++ s.edge.queue.flatten
    rw [hf, hk, List.append_nil, List.append_nil, List.append_assoc s.out (s.tail.take n),
      List.take_append_drop]
  | @gather id kept hp ht => exact h.gather hp ht (hm.clean id kept hp)
  | halt hh hn =>
    refine ⟨h.claims.same (fun _ => rfl) rfl rfl, h.writes.same rfl rfl rfl rfl rfl ?_,
      h.reads.same rfl rfl rfl (h.reads.flows.congr rfl rfl rfl rfl rfl ?_)⟩
    · simp
    · simp
  | @hold id how hpi hp ht | @resume id how hp =>
    exact h.goes hp (by simp) rfl rfl (by cases how <;> rfl)
  | @cancel id how hpi hp ht => exact absurd (update_self ..) (hm.back id)
  | @drop id how hp => exact absurd (update_self ..) (hm.back id)

theorem Steady.inv (h : Steady pipe max s) : Inv s := by
  induction h with
  | init => exact inv_init
  | step _ hs hm ih => exact ih.step hs hm

theorem Steady.reachable (h : Steady pipe max s) : Reachable pipe max s := by
  induction h with
  | init => exact .init
  | step _ hs _ ih => exact ih.step hs

/-- **A channel is a byte stream** in the runs whose steps meet the condition. -/
theorem Steady.streams (h : Steady pipe max s) : Streams s := by
  obtain ⟨hc, hw, hr⟩ := h.inv
  refine ⟨?_, fun hcl hd => ?_, fun x hx hn => ?_, fun e id id' p p' hp hh hp' hh' => ?_,
    fun e hb => ?_⟩
  · refine List.IsPrefix.trans ?_ hw.sent_prefix
    rcases hr.flows with hf | ⟨-, -, -, -, hf⟩
    · rw [hf, List.append_assoc, List.append_assoc]
      exact List.prefix_append ..
    · exact hf
  · obtain ⟨ht, hq, hh, hnone⟩ := hd
    have hk : s.kept = [] := by
      refine hr.idle (Option.eq_none_iff_forall_ne_some.mpr fun id hid => ?_)
      obtain ⟨p, hp, hp'⟩ := Option.bind_eq_some_iff.mp ((hc.holder .r id).mp hid)
      exact hnone id p hp hp'
    have hf := hr.flows.resolve_right fun hf => hf.1 hh
    rw [ht, hq, hk] at hf
    rw [← hw.sent_all (hw.closed hcl) hh, hf]
    simp
  · rcases List.mem_append.mp hx with hx | hx
    · obtain ⟨res, hres, hnil⟩ := hw.back x hx
      rw [hn] at hres
      exact hnil (Pc.returned.inj (Option.some.inj hres)).symm
    · -- the write in flight has not come back
      have hcur : s.cur = some x := Option.mem_toList.mp hx
      have hhold : s.holder .w ≠ none := fun hn => by
        rw [hw.idle hn] at hcur
        cases hcur
      obtain ⟨id, hid⟩ := Option.ne_none_iff_exists'.mp hhold
      obtain ⟨p, hp, hp'⟩ := Option.bind_eq_some_iff.mp ((hc.holder .w id).mp hid)
      have hpc := (hw.cur id p hp hp').symm.trans hcur
      cases p with
      | writing bytes off =>
        obtain rfl := Option.some.inj hpc
        rw [hn] at hp
        cases hp
      | enter | claimed | filling | held | returned | gone => cases hpc
  · have h₁ := (hc.holder e id).mpr ((holds_of_calls hp).trans hh)
    have h₂ := (hc.holder e id').mpr ((holds_of_calls hp').trans hh')
    exact Option.some.inj (h₁.symm.trans h₂)
  · rw [hc.busy] at hb
    obtain ⟨id, hid⟩ := Option.isSome_iff_exists.mp hb
    obtain ⟨p, hp, hp'⟩ := Option.bind_eq_some_iff.mp ((hc.holder e id).mp hid)
    exact ⟨id, p, hp, hp'⟩

theorem Steady.back (h : Steady pipe max s) (id : CallId) : s.calls id ≠ some .gone := by
  cases h with
  | init => exact (Option.some_ne_none _).symm
  | step _ _ hm => exact hm.back id

/-- A step of a call that does not end there, with a clean piece next. -/
theorem Steady.goes (h : Steady pipe max s) (hs : Step pipe max s s')
    (hc : s'.calls = update s.calls id (some q)) (hq : q ≠ .gone) (ht : Clean s.tail) :
    Steady pipe max s' := by
  refine h.step hs ⟨fun _ _ _ => ht, fun id' => ?_⟩
  rw [hc]
  by_cases hid : id' = id
  · subst hid
    rw [update_self]
    exact fun heq => hq (Option.some.inj heq)
  · rw [update_of_ne hid]
    exact h.back id'

/-- A channel on which one byte is written and read. -/
theorem streams_byte : ∃ s, Steady false 1016 s ∧ s.out = [7#8] ∧ Streams s := by
  have h₁ := (@Steady.init false 1016).goes (.call (i := 0) (.write [7#8]) rfl) rfl (by simp) clean_nil
  have h₂ := h₁.goes (.claim (i := 0) rfl (by simp) rfl) rfl (by simp) clean_nil
  have h₃ := h₂.goes (.write (i := 0) rfl rfl) rfl (by simp) clean_nil
  have h₄ := h₃.goes (.frame (i := 0) rfl (by simp) rfl) rfl (by simp) clean_nil
  have h₅ := h₄.goes (.wrote (i := 0) rfl (by simp)) rfl (by simp) clean_nil
  have h₆ := h₅.goes (.call (i := 1) (.read 4) rfl) rfl (by simp) clean_nil
  have h₇ := h₆.goes (.claim (i := 1) rfl (by simp) rfl) rfl (by simp) clean_nil
  have h₈ := h₇.goes (.read (i := 1) (n := 4) rfl rfl) rfl (by simp) clean_nil
  have h₉ := h₈.step (.next (i := 1) rfl rfl rfl) ⟨fun _ _ _ => clean_nil, h₈.back⟩
  have h₁₀ := h₉.goes (.take (i := 1) rfl (by simp)) rfl (by simp) (by decide)
  exact ⟨_, h₁₀, rfl, h₁₀.streams⟩

/-- **A collect loses what follows a NUL byte** in a short frame, and a cancelled reader of a
pipeline leaves its end busy. -/
theorem not_streams : (¬∀ s, Reachable false 3 s → Streams s) ∧
    ¬∀ s, Reachable true 3 s → Streams s := by
  refine ⟨fun hall => ?_, fun hall => ?_⟩
  · have h₁ := (@Reachable.init false 3).step (.call (i := 0) (.write [1#8, 0#8, 2#8, 3#8]) rfl)
    have h₂ := h₁.step (.claim (i := 0) rfl (by simp) rfl)
    have h₃ := h₂.step (.write (i := 0) rfl rfl)
    have h₄ := h₃.step (.frame (i := 0) rfl (by simp) rfl)
    have h₅ := h₄.step (.frame (i := 0) rfl (by simp) rfl)
    have h₆ := h₅.step (.wrote (i := 0) rfl (by simp))
    have h₇ := h₆.step (.call (i := 1) (.close .w) rfl)
    have h₈ := h₇.step (.claim (i := 1) rfl (by simp) rfl)
    have h₉ := h₈.step (.close (i := 1) rfl)
    have h₁₀ := h₉.step (.call (i := 2) .collect rfl)
    have h₁₁ := h₁₀.step (.claim (i := 2) rfl (by simp) rfl)
    have h₁₂ := h₁₁.step (.collect (i := 2) rfl rfl)
    have h₁₃ := h₁₂.step (.next (i := 2) rfl rfl rfl)
    have h₁₄ := h₁₃.step (.gather (i := 2) rfl (by simp))
    have h₁₅ := h₁₄.step (.next (i := 2) rfl rfl rfl)
    have h₁₆ := h₁₅.step (.gather (i := 2) rfl (by simp))
    have h₁₇ := h₁₆.step (.ended (i := 2) rfl rfl rfl rfl rfl)
    have hb : [1#8, 3#8] <+: [1#8, 0#8, 2#8, 3#8] := (hall _ h₁₇).begins
    exact absurd hb (by decide)
  · have h₁ := (@Reachable.init true 3).step (.call (i := 0) .collect rfl)
    have h₂ := h₁.step (.claim (i := 0) rfl (by simp) rfl)
    have h₃ := h₂.step (.collect (i := 0) rfl rfl)
    have h₄ := h₃.step (.cancel (i := 0) rfl rfl rfl)
    obtain ⟨id, p, hp, hh⟩ := (hall _ h₄).released .r rfl
    by_cases hid : id = 0
    · subst hid
      obtain rfl : Pc.gone = p := Option.some.inj hp
      cases hh
    · simp [hid, State.go, State.claim, init] at hp

end Jacl.Chan
