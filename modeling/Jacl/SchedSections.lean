import Jacl.SchedPlacement
import Mathlib.Data.List.Basic

/-!
# The critical sections keep every job in its place

Between two sections no job is on its way (`Inv`); within one, a single job is (`Loose`).
The primitives lead from the one to the other, and the sections are made of them.  The
loops of the source end: a list is no longer than there are jobs, and each job a worker
takes from its queue ends or is suspended.
-/

namespace Jacl.Sched
open LinkLists Function JaclVal

variable {s s' : Links} {i j t : JobId} {w : Nat} {l : ListId}

/-- **One job is on its way**, and awaits none. -/
def Loose (s : Links) (j : JobId) : Prop :=
  ∃ L place, Placed s L place ∧ place j = .moving ∧ (∀ x, x ≠ j → place x ≠ .moving) ∧
    s.target j = none

/-! ### Primitives -/

theorem Loose.not_done (h : Loose s j) : s.done j = false := by
  obtain ⟨L, place, h, hj, -⟩ := h
  have := (h.at_place j).done
  simpa [hj] using this

theorem Loose.lt_count (h : Loose s j) : j < s.count := by
  obtain ⟨L, place, h, hj, -⟩ := h
  have := (h.at_place j).unborn
  simpa [hj] using this

theorem Loose.push (h : Loose s j) (hh : s.held j = false) : Inv (s.push j) := by
  obtain ⟨L, place, h, hj, hrest, ht⟩ := h
  obtain ⟨p, hp, h⟩ := h.push hj hh ht
  refine ⟨L, _, h, fun x => ?_⟩
  by_cases hx : x = j
  · subst hx
    rw [update_self]
    rcases hp with rfl | ⟨rfl, -⟩ <;> simp
  · rw [update_of_ne hx]
    exact hrest x hx

theorem Loose.write (h : Loose s j) (b : Bool) : Loose { s with held := update s.held j b } j := by
  obtain ⟨L, place, h, hj, hrest, ht⟩ := h
  have hw := h.write hj (s.target j) b
  simp only [update_eq_self] at hw
  exact ⟨L, place, hw, hj, hrest, ht⟩

theorem Inv.pop (h : Inv s) (hp : s.pop w = some (j, s')) :
    Loose s' j ∧ s'.held j = false ∧ s'.owner j = w := by
  obtain ⟨L, place, h, hall⟩ := h
  have hjat := h.at_place j
  obtain ⟨hpl, how, h'⟩ := h.pop hp
  obtain ⟨rest, -, rfl⟩ := pop_cases hp
  rw [hpl] at hjat
  refine ⟨⟨L, _, h', update_self .., fun x hx => ?_, ?_⟩, ?_, how⟩
  · rw [update_of_ne hx]
    exact hall x
  · have := hjat.target (by simp)
    simpa [Option.eq_none_iff_forall_ne_some] using this
  · simpa using hjat.held (by simp) (by simp)

/-- The links of a list of jobs on which nobody waits twice. -/
theorem Placed.length_le {L : ListId → List JobId} {place : JobId → Place} (h : Placed s L place)
    (l : ListId) : (L l).length ≤ s.count := by
  have hsub : L l ⊆ List.range s.count := by
    intro x hx
    have hxat := h.at_place x
    rw [List.mem_range]
    rw [hxat.listed] at hx
    by_contra hlt
    rw [hxat.unborn.mp (by omega)] at hx
    simp at hx
  simpa using ((h.chain l).nodup.subperm hsub).length_le

/-- **The end of a job**: its waiters are the jobs that await it. -/
theorem Loose.finish (h : Loose s j) : ∃ ws, Chain s.next (s.waiters j) ws ∧
    ws.length ≤ s.count ∧ (∀ x, x ∈ ws ↔ s.target x = some j) ∧
    Inv ((s.detach j ws).pushAll ws) := by
  obtain ⟨L, place, h, hj, hrest, ht⟩ := h
  have hwait : ∀ x, x ∈ L (.waiters j) ↔ place x = .listed (.waiters j) := by
    intro x
    have := (h.at_place x).listed (.waiters j)
    simpa using this
  have htarget : ∀ x, x ∈ L (.waiters j) ↔ s.target x = some j := by
    intro x
    rw [hwait]
    by_cases hx : x = j
    · subst hx
      simp [hj, ht]
    · exact ((h.at_place x).target (hrest x hx) j).symm
  refine ⟨_, h.chain (.waiters j), h.length_le _, htarget, ?_⟩
  obtain ⟨place', hin, hout, h'⟩ := @Placed.pushAll _ _ _ (L (.waiters j)) (h.detach hj ht)
    (h.chain (.waiters j)).nodup fun x hx => by
      have hxj : x ≠ j := by
        rintro rfl
        rw [hwait, hj] at hx
        cases hx
      have hheld := (h.at_place x).held (hrest x hxj)
      rw [(hwait x).mp hx] at hheld
      exact ⟨by simp [hxj, hx], by simpa [Links.detach] using hheld (by simp),
        by simp [Links.detach, hx]⟩
  refine ⟨_, place', h', fun x => ?_⟩
  by_cases hx : x ∈ L (.waiters j)
  · rcases hin x hx with hp | ⟨hp, -⟩ <;> simp [hp]
  · rw [hout x hx]
    by_cases hxj : x = j
    · simp [hxj]
    · simpa [hxj, hx] using hrest x hxj

theorem Placed.inv_link {L : ListId → List JobId} {place : JobId → Place}
    (h : Placed s' L (update place j (.listed l))) (hrest : ∀ x, x ≠ j → place x ≠ .moving) :
    Inv s' := by
  refine ⟨L, _, h, fun x => ?_⟩
  by_cases hx : x = j
  · subst hx
    simp
  · rw [update_of_ne hx]
    exact hrest x hx

/-- A job is put on the suspended list. -/
theorem Loose.hold (h : Loose s j) : Inv { s with
    held := update s.held j true
    next := update s.next j s.suspended
    suspended := some j } := by
  obtain ⟨L, place, h, hj, hrest, ht⟩ := h
  have hw := h.write hj (s.target j) true
  simp only [update_eq_self] at hw
  exact (hw.link hj (l := .suspended) (by simp [ht]) (by simp) (by simp) (by simp)).inv_link hrest

/-- A job is put on the list of the job it awaits. -/
theorem Loose.park (h : Loose s j) (hh : s.held j = false) (ht : t < s.count)
    (hd : s.done t = false) (hne : t ≠ j) : Inv { s with
    next := update s.next j (s.waiters t)
    waiters := update s.waiters t (some j)
    target := update s.target j (some t) } := by
  obtain ⟨L, place, h, hj, hrest, -⟩ := h
  have hw := h.write hj (some t) (s.held j)
  simp only [update_eq_self] at hw
  exact (hw.link hj (l := .waiters t) (by simp) (by simp [ht, hd, hne]) (by simp [hh])
    (by simp)).inv_link hrest

/-- A job in a VM wait is put on its owner's blocked list. -/
theorem Loose.block (h : Loose s j) (hh : s.held j = false) (ho : s.owner j = w)
    (hpc : s.pc w = .top) : Inv { s with
    next := update s.next j (s.blocked w)
    blocked := update s.blocked w (some j) } := by
  obtain ⟨L, place, h, hj, hrest, ht⟩ := h
  refine (h.link hj (l := .blocked w) (by simp [ht]) (by simp) (by simp [hh])
    fun w' hw => ?_).inv_link hrest
  cases hw
  exact ⟨ho, fun l => by rw [hpc]; trivial⟩

/-- A worker goes on with a job that is on its way. -/
theorem Loose.enter (h : Loose s j) (hh : s.held j = false) (ho : s.owner j = w)
    (hpc : s.pc w = .top) : Inv (s.goTo w (.busy j .queue .enter)) := by
  obtain ⟨L, place, h, hj, hrest, ht⟩ := h
  refine ⟨L, _, h.enter hj ho (by rw [hpc]; rfl) (by rw [hpc]; rfl) rfl rfl (by rw [hpc]; rfl)
    trivial trivial hh ht, fun x => ?_⟩
  by_cases hx : x = j
  · subst hx
    simp
  · rw [update_of_ne hx]
    exact hrest x hx

/-- A worker is through with a job. -/
theorem Inv.leave {q : Pc} (h : Inv s) (hj : (s.pc w).runs = some j) (hr : q.runs = none)
    (hp : q.polls = none) (hc : q.claims = (s.pc w).claims) (hs : q.Sound s.count)
    (hsw : ∀ l, Chain s.next (s.blocked w) l → (s.pc w).Sweeps l → q.Sweeps l) :
    Loose (s.goTo w q) j ∧ s.held j = false ∧ s.owner j = w := by
  obtain ⟨L, place, h, hall⟩ := h
  have hjat := h.at_place j
  have hpl := (hjat.runs w).mp hj
  rw [hpl] at hjat
  refine ⟨⟨L, _, h.leave hj hr hp hc hs (hsw _ (h.chain (.blocked w)) (h.sweeps w)),
    update_self .., fun x hx => ?_, ?_⟩, ?_, hjat.owner w (.inl rfl)⟩
  · rw [update_of_ne hx]
    exact hall x
  · have := hjat.target (by simp)
    simpa [Links.goTo, Option.eq_none_iff_forall_ne_some] using this
  · simpa using hjat.held (by simp) (by simp)

/-- `list_unlink` finds a job where it waits. -/
theorem Placed.findLink {L : ListId → List JobId} {place : JobId → Place} {pre post : List JobId}
    (h : Placed s L place) (hl : L l = pre ++ j :: post) :
    findLink s.next j (s.count + 1) none (s.head l) = some (some pre.getLast?) ∧
      s.next j = post.head? := by
  have hch := h.chain l
  have hlen := h.length_le l
  rw [hl] at hch hlen
  refine ⟨?_, hch.after.head⟩
  rw [hch.findLink (by simp at hlen; omega)]
  cases pre <;> rfl

theorem Placed.loose_unlink {L : ListId → List JobId} {place : JobId → Place}
    (h : Placed s' L (update place j .moving)) (hall : ∀ x, place x ≠ .moving)
    (ht : s'.target j = none) : Loose s' j := by
  refine ⟨L, _, h, update_self .., fun x hx => ?_, ht⟩
  rw [update_of_ne hx]
  exact hall x

/-- A suspended job leaves its list. -/
theorem Inv.unhold (h : Inv s) (hj : s.held j = true) (hd : s.done j = false) :
    ∃ link, LinkLists.findLink s.next j (s.count + 1) none s.suspended = some (some link) ∧
      Loose { s with
        suspended := (cut s.suspended s.next link (s.next j) j).1
        next := (cut s.suspended s.next link (s.next j) j).2 } j := by
  obtain ⟨L, place, h, hall⟩ := h
  have hjat := h.at_place j
  have hpl : place j = .listed .suspended := (hjat.held (hall j) fun hp => by
    rw [hjat.done.mpr hp] at hd
    cases hd).mp hj
  obtain ⟨pre, post, hl⟩ := List.append_of_mem ((hjat.listed .suspended).mpr (.inl hpl))
  obtain ⟨hfind, hnext⟩ := h.findLink hl
  refine ⟨_, hfind, ?_⟩
  rw [hnext]
  refine (h.unlink hpl (by simp) hl).loose_unlink hall ?_
  have := hjat.target (hall j)
  simpa [hpl, Links.setHead, Option.eq_none_iff_forall_ne_some] using this

/-- A job leaves the list of the job it awaits. -/
theorem Inv.unpark (h : Inv s) (hj : s.target j = some t) :
    ∃ link, LinkLists.findLink s.next j (s.count + 1) none (s.waiters t) = some (some link) ∧
      Loose { s with
        waiters := update s.waiters t (cut (s.waiters t) s.next link (s.next j) j).1
        next := (cut (s.waiters t) s.next link (s.next j) j).2
        target := update s.target j none } j := by
  obtain ⟨L, place, h, hall⟩ := h
  have hjat := h.at_place j
  have hpl := (hjat.target (hall j) t).mp hj
  obtain ⟨pre, post, hl⟩ := List.append_of_mem ((hjat.listed (.waiters t)).mpr (.inl hpl))
  obtain ⟨hfind, hnext⟩ := h.findLink hl
  refine ⟨_, hfind, ?_⟩
  rw [hnext]
  have hu := (h.unlink hpl (by simp) hl).write (update_self ..) none (s.held j)
  simp only [Links.setHead, update_eq_self] at hu
  exact hu.loose_unlink hall (update_self ..)

/-! ### Jobs are made, and workers go on -/

theorem Pc.Sound.mono {q : Pc} {m n : Nat} (h : q.Sound m) (hmn : m ≤ n) : q.Sound n := by
  cases q with
  | busy j src st =>
    cases st with
    | back out =>
      cases out with
      | await t => exact lt_of_lt_of_le (show t < m from h) hmn
      | _ => exact h
    | _ => trivial
  | _ => trivial

/-- A new job is on its way. -/
theorem Inv.make (h : Inv s) (owner : Nat) : Loose { s with
    count := s.count + 1
    done := update s.done s.count false
    next := update s.next s.count none
    waiters := update s.waiters s.count none
    inRq := update s.inRq s.count false
    resuming := update s.resuming s.count false
    owner := update s.owner s.count owner
    held := update s.held s.count false
    target := update s.target s.count none } s.count := by
  obtain ⟨L, place, h, hall⟩ := h
  have hun : place s.count = .unborn := (h.at_place s.count).unborn.mp le_rfl
  have hempty : L (.waiters s.count) = [] := by
    refine List.eq_nil_iff_forall_not_mem.mpr fun x hx => ?_
    have hp : place x = .listed (.waiters s.count) := by
      simpa using ((h.at_place x).listed (.waiters s.count)).mp hx
    exact absurd ((h.at_place x).live _ hp).1 (lt_irrefl _)
  have hcount := h.at_place s.count
  rw [hun, at_iff] at hcount
  refine ⟨L, update place s.count .moving, ⟨fun x => ?_, fun l => ?_, h.nodup, fun x => ?_,
    fun w => ?_, h.sweeps⟩, update_self .., fun x hx => ?_, update_self ..⟩
  · have hxat := h.at_place x
    by_cases hx : x = s.count
    · subst hx
      rw [update_self, at_iff]
      simp [update_apply] at hcount ⊢
      grind
    · rw [update_of_ne hx]
      rw [at_iff] at hxat ⊢
      simp [update_apply, hx] at hxat ⊢
      grind
  · have hnext : Chain (update s.next s.count none) (s.head l) (L l) := by
      refine (h.chain l).congr fun x hx => update_of_ne ?_ _ _
      rintro rfl
      simpa [hx] using hcount.1 l
    by_cases hl : l = .waiters s.count
    · subst hl
      rw [hempty]
      exact update_self ..
    · convert hnext using 1
      cases l with
      | waiters t => exact update_of_ne (fun ht => hl (by rw [ht])) _ _
      | blocked w => rfl
      | suspended => rfl
  · by_cases hx : x = s.count
    · subst hx
      simp only [update_self, Bool.false_eq_true, false_iff, not_exists]
      intro w hw
      have := Pc.has_of_claims hw
      simp_all
    · simpa [hx] using h.resuming x
  · exact (h.sound w).mono (Nat.le_succ _)
  · rw [update_of_ne hx]
    exact hall x

theorem Inv.shift {q : Pc} (h : Inv s) (hr : q.runs = (s.pc w).runs) (hp : q.polls = (s.pc w).polls)
    (hc : q.claims = (s.pc w).claims) (hs : q.Sound s.count)
    (hsw : ∀ l, Chain s.next (s.blocked w) l → (s.pc w).Sweeps l → q.Sweeps l) :
    Inv (s.goTo w q) := by
  obtain ⟨L, place, h, hall⟩ := h
  exact ⟨L, place, h.shift hr hp hc hs (hsw _ (h.chain (.blocked w)) (h.sweeps w)), hall⟩

theorem Inv.claim {q : Pc} (h : Inv s) (hr : q.runs = (s.pc w).runs) (hp : q.polls = (s.pc w).polls)
    (hc : q.claims = some j) (hn : (s.pc w).claims = none) (hs : q.Sound s.count)
    (hsw : ∀ l, (s.pc w).Sweeps l → q.Sweeps l) :
    Inv { s.goTo w q with resuming := update s.resuming j true } := by
  obtain ⟨L, place, h, hall⟩ := h
  exact ⟨L, place, h.claim hr hp hc hn hs (hsw _ (h.sweeps w)), hall⟩

theorem Inv.release {q : Pc} (h : Inv s) (hr : q.runs = (s.pc w).runs)
    (hp : q.polls = (s.pc w).polls) (hc : q.claims = none) (hn : (s.pc w).claims = some j)
    (hs : q.Sound s.count) (hsw : ∀ l, (s.pc w).Sweeps l → q.Sweeps l) :
    Inv { s.goTo w q with resuming := update s.resuming j false } := by
  obtain ⟨L, place, h, hall⟩ := h
  exact ⟨L, place, h.release hr hp hc hn hs (hsw _ (h.sweeps w)), hall⟩

/-- **A job that a worker enters is not being resumed.** -/
theorem Inv.not_resuming (h : Inv s) (hj : (s.pc w).runs = some j ∨ (s.pc w).polls = some j)
    (hc : (s.pc w).claims = none) : s.resuming j = false := by
  obtain ⟨L, place, h, hall⟩ := h
  by_contra hres
  obtain ⟨w', hw'⟩ := (h.resuming j).mp (by simpa using hres)
  obtain rfl := h.one_worker hj (Pc.has_of_claims hw')
  rw [hc] at hw'
  cases hw'

/-- The next job of the sweep rests on the blocked list. -/
theorem Placed.sweep_next {L : ListId → List JobId} {place : JobId → Place} {prev : Option JobId}
    (h : Placed s L place) (hpc : s.pc w = .repoll prev (some j)) :
    place j = .listed (.blocked w) ∧
      ∃ pre post, L (.blocked w) = pre ++ j :: post ∧ prev = pre.getLast? := by
  have hsw := h.sweeps w
  rw [hpc] at hsw
  obtain ⟨pre, post, hl, hprev, hcur⟩ := hsw
  obtain ⟨post, rfl⟩ : ∃ rest, post = j :: rest := by
    cases post with
    | nil => cases hcur
    | cons x rest => exact ⟨rest, by rw [Option.some.inj hcur]⟩
  refine ⟨?_, pre, post, hl, hprev⟩
  have hmem := ((h.at_place j).listed (.blocked w)).mp (by simp [hl])
  have hnot := (h.at_place j).polls w
  simp [hpc, Pc.polls] at hnot
  grind

/-- `repoll_blocked` takes the next job of the list. -/
theorem Inv.poll {prev : Option JobId} (h : Inv s) (hpc : s.pc w = .repoll prev (some j)) :
    Inv (s.goTo w (.busy j (.poll prev (s.next j)) .enter)) := by
  obtain ⟨L, place, h, hall⟩ := h
  obtain ⟨hpl, pre, post, hl, hprev⟩ := h.sweep_next hpc
  refine ⟨L, _, h.poll hpl (by rw [hpc]; rfl) (by rw [hpc]; rfl) rfl rfl (by rw [hpc]; rfl) trivial
    ⟨pre, post, hl, hprev, (h.findLink hl).2⟩, fun x => ?_⟩
  by_cases hx : x = j
  · subst hx
    simp
  · rw [update_of_ne hx]
    exact hall x

/-- A re-polled job is still in its wait. -/
theorem Inv.stay {prev next : Option JobId} {out : Outcome} (h : Inv s)
    (hpc : s.pc w = .busy j (.poll prev next) (.back out)) :
    Inv (s.goTo w (.repoll (some j) next)) := by
  obtain ⟨L, place, h, hall⟩ := h
  have hsw := h.sweeps w
  rw [hpc] at hsw
  obtain ⟨pre, post, hl, hprev, hnext⟩ := hsw
  refine ⟨L, _, h.stay (j := j) (by rw [hpc]; rfl) rfl rfl (by rw [hpc]; rfl) trivial
    ⟨pre ++ [j], post, by simp [hl], by simp, hnext⟩, fun x => ?_⟩
  by_cases hx : x = j
  · subst hx
    simp
  · rw [update_of_ne hx]
    exact hall x

/-- A re-polled job went on. -/
theorem Inv.unpoll {prev next : Option JobId} {out : Outcome} (h : Inv s)
    (hpc : s.pc w = .busy j (.poll prev next) (.back out)) :
    Inv { s.goTo w (.busy j (.polled prev next) (.back out)) with
      blocked := update s.blocked w (cut (s.blocked w) s.next prev next j).1
      next := (cut (s.blocked w) s.next prev next j).2 } := by
  obtain ⟨L, place, h, hall⟩ := h
  have hsw := h.sweeps w
  have hso := h.sound w
  rw [hpc] at hsw hso
  obtain ⟨pre, post, hl, rfl, rfl⟩ := hsw
  refine ⟨_, _, h.unpoll (q := .busy j (.polled pre.getLast? post.head?) (.back out)) (j := j)
    (by rw [hpc]; rfl) hl rfl rfl (by rw [hpc]; rfl) ?_ ⟨pre, post, rfl, rfl, rfl⟩, fun x => ?_⟩
  · cases out <;> exact hso
  · by_cases hx : x = j
    · subst hx
      simp
    · rw [update_of_ne hx]
      exact hall x

/-! ### What the sections of the source do -/

section
variable {s s' : State} {v : JaclVal} {ws : List JobId}

/-- What `complete_job` leaves behind when the waiters are `ws`. -/
def completed (s : State) (j : JobId) (v : JaclVal) (ws : List JobId) : State :=
  { s with
    toLinks := (s.toLinks.detach j ws).pushAll ws
    result := update s.result j v
    resumeArg := fun x => if x ∈ ws then v else s.resumeArg x
    shutdown := if s.isRoot j then true else s.shutdown }

/-- What the loop of `complete_job` does to the links but for the pushes. -/
def Links.woken (s : Links) (ws : List JobId) : Links :=
  { s with
    next := fun x => if x ∈ ws then none else s.next x
    target := fun x => if x ∈ ws then none else s.target x }

theorem push_woken (l : Links) (j : JobId) : (l.woken ws).push j = (l.push j).woken ws := by
  unfold Links.push Links.woken
  by_cases hin : l.inRq j = true
  · simp [hin]
  · by_cases hlen : (l.rq (l.owner j)).length < rqCap <;> simp [hin, hlen]

theorem woken_cons (l : Links) (j : JobId) :
    ({ l with next := update l.next j none, target := update l.target j none } : Links).woken ws =
      l.woken (j :: ws) := by
  unfold Links.woken
  congr 1 <;>
  · funext x
    by_cases hx : x = j <;> simp [hx]

/-- **The loop of `complete_job`** wakes the waiters, each once. -/
theorem wakeAll_eq {n : Nat} {start : Option JobId} (hc : Chain s.next start ws)
    (hn : ws.length < n) : wakeAll n s start v = some { s with
      toLinks := (s.toLinks.woken ws).pushAll ws
      resumeArg := fun x => if x ∈ ws then v else s.resumeArg x } := by
  induction ws generalizing s start n with
  | nil =>
    obtain ⟨n, rfl⟩ : ∃ m, n = m + 1 := ⟨n - 1, by simp at hn; omega⟩
    rw [hc.head]
    simp [wakeAll, Links.pushAll, Links.woken]
  | cons x ws ih =>
    obtain ⟨n, rfl⟩ : ∃ m, n = m + 1 := ⟨n - 1, by simp at hn; omega⟩
    have hx : x ∉ ws := (List.nodup_cons.mp hc.nodup).1
    obtain ⟨rfl, hrest⟩ := hc
    rw [wakeAll, ih ?_ (by simpa using hn)]
    · simp only [State.push, ← push_woken, woken_cons]
      congr 2
      funext y
      by_cases hy : y = x <;> simp [hy]
    · refine Chain.congr hrest fun y hy => ?_
      have hyx : y ≠ x := by
        rintro rfl
        exact hx hy
      simp [State.push, hyx]

/-- **`complete_job`** ends the job and wakes its waiters. -/
theorem complete_eq (hc : Chain s.next (s.waiters j) ws) (hn : ws.length ≤ s.count) :
    complete s j v = some (completed s j v ws) := by
  unfold complete
  dsimp only
  rw [wakeAll_eq (s := { s with
    result := update s.result j v
    done := update s.done j true
    waiters := update s.waiters j none }) hc (Nat.lt_succ_of_le hn)]
  unfold completed
  by_cases hr : s.isRoot j <;> simp [hr, Links.woken, Links.detach]

/-- What `job_cancel_now` leaves behind when the waiters are `ws`. -/
def cancelled (s : State) (j : JobId) (ws : List JobId) : State :=
  completed { releaseStack s (s.stack j) with stack := update s.stack j none } j
    (if s.ends j then s.endsWith j else s.cancelledErr) ws

theorem jobCancelNow_eq (hc : Chain s.next (s.waiters j) ws) (hn : ws.length ≤ s.count) :
    jobCancelNow s j = some (cancelled s j ws) :=
  complete_eq (s := { releaseStack s (s.stack j) with stack := update s.stack j none }) hc hn

@[simp] theorem completed_count : (completed s j v ws).count = s.count :=
  pushAll_frame Links.count push_count ws

@[simp] theorem completed_done : (completed s j v ws).done = update s.done j true :=
  pushAll_frame Links.done push_done ws

@[simp] theorem completed_held : (completed s j v ws).held = s.held :=
  pushAll_frame Links.held push_held ws

@[simp] theorem completed_pc : (completed s j v ws).pc = s.pc :=
  pushAll_frame Links.pc push_pc ws

@[simp] theorem completed_owner : (completed s j v ws).owner = s.owner :=
  pushAll_frame Links.owner push_owner ws

@[simp] theorem completed_popped : (completed s j v ws).popped = s.popped :=
  pushAll_frame Links.popped push_popped ws

@[simp] theorem completed_target :
    (completed s j v ws).target = fun x => if x ∈ ws then none else s.target x :=
  pushAll_frame Links.target push_target ws

/-- What `job_ctl_take` leaves behind when it suspends a job. -/
def suspended (s : State) (j : JobId) : State :=
  { s with
    held := update s.held j true
    next := update s.next j s.suspended
    suspended := some j }

/-- What `finish_job_outcome` leaves behind when it parks a job. -/
def parked (s : State) (j t : JobId) : State :=
  { s with
    next := update s.next j (s.waiters t)
    waiters := update s.waiters t (some j)
    target := update s.target j (some t) }

/-- The waiters of a job, each once. -/
def Waiters (s : Links) (j : JobId) (ws : List JobId) : Prop :=
  ws.Nodup ∧ ∀ x, x ∈ ws ↔ s.target x = some j

/-- **What becomes of a job that is on its way** when a section is over. -/
inductive Settles (s : State) (j : JobId) : State → Prop
  | finish {ws : List JobId} (v : JaclVal) : Waiters s.toLinks j ws →
      Settles s j (completed (releaseStack s (s.stack j)) j v ws)
  | cancel {ws : List JobId} : s.cancel j = true → Waiters s.toLinks j ws →
      Settles s j (cancelled s j ws)
  | hold : s.suspend j = true → Settles s j (suspended s j)
  | push : Settles s j (s.push j)
  | park {t : JobId} : t < s.count → s.done t = false → t ≠ j → Settles s j (parked s j t)

theorem Loose.settles_finish (h : Loose s.toLinks j) (v : JaclVal) :
    ∃ s', complete (releaseStack s (s.stack j)) j v = some s' ∧ Settles s j s' ∧
      Inv s'.toLinks := by
  obtain ⟨ws, hc, hn, ht, hinv⟩ := h.finish
  exact ⟨_, complete_eq hc hn, .finish v ⟨hc.nodup, ht⟩, hinv⟩

theorem Loose.settles_cancel (h : Loose s.toLinks j) (hj : s.cancel j = true) :
    ∃ s', jobCancelNow s j = some s' ∧ Settles s j s' ∧ Inv s'.toLinks ∧ s'.done j = true := by
  obtain ⟨ws, hc, hn, ht, hinv⟩ := h.finish
  exact ⟨_, jobCancelNow_eq hc hn, .cancel hj ⟨hc.nodup, ht⟩, hinv, by simp [cancelled]⟩

/-- **What `job_ctl_take` does** with a job on its way: it ends it, suspends it, or lets it go. -/
theorem jobCtlTake_cases (h : Loose s.toLinks j) :
    (∃ s', jobCtlTake s j = some (true, s') ∧ Settles s j s' ∧ Inv s'.toLinks ∧
      (s.cancel j = true ∧ s'.done j = true ∨ s' = suspended s j)) ∨
    (jobCtlTake s j = some (false, s) ∧ s.cancel j = false ∧ s.suspend j = false) := by
  unfold jobCtlTake
  cases hc : s.cancel j
  · cases hsus : s.suspend j
    · exact .inr ⟨by simp, rfl, rfl⟩
    · exact .inl ⟨suspended s j, by simp [suspended], .hold hsus, h.hold, .inr rfl⟩
  · obtain ⟨s', heq, hset, hinv, hd⟩ := h.settles_cancel hc
    exact .inl ⟨s', by simp [heq], hset, hinv, .inl ⟨rfl, hd⟩⟩

/-- **A job is popped, and ended or suspended**: a turn of the loop at the top of
`worker_loop`. -/
def Takes (w : Nat) (s s' : State) : Prop :=
  ∃ j l, s.toLinks.pop w = some (j, l) ∧ Loose l j ∧ Settles { s with toLinks := l } j s' ∧
    Inv s'.toLinks ∧
    (s.cancel j = true ∧ s'.done j = true ∨ s' = suspended { s with toLinks := l } j)

/-- The jobs that may still be taken. -/
def takeable (s : Links) : Finset JobId :=
  {j ∈ Finset.range s.count | s.done j = false ∧ s.held j = false}

theorem takeable_card_le (s : Links) : (takeable s).card < s.count + 1 := by
  refine Nat.lt_succ_of_le ((Finset.card_filter_le _ _).trans ?_)
  rw [Finset.card_range]

/-- What was done or suspended before a section is so after it. -/
theorem Settles.takeable_subset (h : Settles s j s') : takeable s'.toLinks ⊆ takeable s.toLinks := by
  intro x hx
  simp only [takeable, Finset.mem_filter, Finset.mem_range] at hx ⊢
  cases h with
  | finish v hw => by_cases hxj : x = j <;> simp_all [releaseStack]
  | cancel hc hw => by_cases hxj : x = j <;> simp_all [cancelled, releaseStack]
  | hold hsus => by_cases hxj : x = j <;> simp_all [suspended]
  | push => simpa [State.push] using hx
  | park ht hd hne => exact hx

/-- A job that is taken is not taken again. -/
theorem Takes.card_lt (h : Takes w s s') (hs : Inv s.toLinks) :
    (takeable s'.toLinks).card < (takeable s.toLinks).card := by
  obtain ⟨j, l, hp, hl, hset, -, hj⟩ := h
  obtain ⟨-, hheld, -⟩ := hs.pop hp
  obtain ⟨rest, -, rfl⟩ := pop_cases hp
  have hmem : j ∈ takeable s.toLinks := by
    simpa [takeable] using ⟨hl.lt_count, hl.not_done, hheld⟩
  have hnot : j ∉ takeable s'.toLinks := by
    rcases hj with ⟨-, hj⟩ | rfl
    · simp [takeable, hj]
    · rw [takeable, Finset.mem_filter]
      simp [suspended]
  refine Finset.card_lt_card ⟨hset.takeable_subset, fun hsub => hnot (hsub hmem)⟩

/-- **The loop at the top of `worker_loop` ends**, with a job that is neither cancelled nor to
be suspended, or with an empty queue. -/
theorem popReady_spec {n : Nat} (h : Inv s.toLinks) (hn : (takeable s.toLinks).card < n) :
    ∃ r s₁ s', popReady n s w = some (r, s') ∧ Relation.ReflTransGen (Takes w) s s₁ ∧
      Inv s₁.toLinks ∧ (r = none ∧ s' = s₁ ∧ s₁.rq w = [] ∨
        ∃ j l, r = some j ∧ s₁.toLinks.pop w = some (j, l) ∧ s' = { s₁ with toLinks := l } ∧
          s₁.cancel j = false ∧ s₁.suspend j = false) := by
  induction n generalizing s with
  | zero => exact absurd hn (Nat.not_lt_zero _)
  | succ n ih =>
    rw [popReady]
    cases hp : s.toLinks.pop w with
    | none =>
      refine ⟨none, s, s, rfl, .refl, h, .inl ⟨rfl, rfl, ?_⟩⟩
      rw [Links.pop] at hp
      split at hp
      · assumption
      · cases hp
    | some r =>
      obtain ⟨j, l⟩ := r
      obtain ⟨hl, -⟩ := h.pop hp
      rcases jobCtlTake_cases (s := { s with toLinks := l }) hl with
        ⟨s₁, heq, hset, hinv, hj⟩ | ⟨heq, hc, hsus⟩
      · -- the job is taken, and the loop goes on
        have htake : Takes w s s₁ := ⟨j, l, hp, hl, hset, hinv, hj⟩
        obtain ⟨r, s₂, s', hpop, hsteps, hrest⟩ := ih hinv (by have := htake.card_lt h; omega)
        exact ⟨r, s₂, s', by simp [heq, hpop], .head htake hsteps, hrest⟩
      · exact ⟨some j, s, _, by simp [heq], .refl, h, .inr ⟨j, l, rfl, hp, rfl, hc, hsus⟩⟩

end

end Jacl.Sched
