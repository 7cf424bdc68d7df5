import Jacl.Sched

/-!
# Where a job is

`Placed` says that each job has one place, and what its words and the lists say of it there:
a worker has it, its owner's queue does, a list does, it is done, or a full queue refused it.
In a critical section a job may be on its way from one place to another (`moving`).  Each
primitive of the sections takes one job from a place or puts it in one; a job that is
re-polled is with its worker and still on the blocked list.
-/

namespace Jacl.Sched
open LinkLists Function

/-- The lists that the links `p[12]` thread. -/
inductive ListId where
  | waiters (target : JobId)
  | blocked (worker : Nat)
  | suspended
deriving DecidableEq

/-- The places of a job; a `polled` job is on its owner's blocked list, too. -/
inductive Place where
  | unborn
  | queued
  | runs (worker : Nat)
  | polled (worker : Nat)
  | listed (list : ListId)
  | moving
  | dropped
  | done
deriving DecidableEq

/-- Where a list starts. -/
def Links.head (s : Links) : ListId → Option JobId
  | .waiters t => s.waiters t
  | .blocked w => s.blocked w
  | .suspended => s.suspended

/-- A list starts elsewhere. -/
def Links.setHead (s : Links) (l : ListId) (start : Option JobId) : Links :=
  { s with
    waiters := match l with | .waiters t => update s.waiters t start | _ => s.waiters
    blocked := match l with | .blocked w => update s.blocked w start | _ => s.blocked
    suspended := match l with | .suspended => start | _ => s.suspended }

/-- The job a worker has that is on no list. -/
def Pc.runs : Pc → Option JobId
  | .busy j .queue _ => some j
  | .busy j (.polled _ _) _ => some j
  | _ => none

/-- The job a worker re-polls. -/
def Pc.polls : Pc → Option JobId
  | .busy j (.poll _ _) _ => some j
  | _ => none

/-- The job whose claim a worker has. -/
def Pc.claims : Pc → Option JobId
  | .busy j _ .claimed => some j
  | .busy j _ (.ready _) => some j
  | .busy j _ (.slice _) => some j
  | _ => none

/-- A job that came back did not come back to be skipped, and awaits a job there is. -/
def Pc.Sound (count : Nat) : Pc → Prop
  | .busy _ _ (.back .skip) => False
  | .busy _ _ (.back (.await t)) => t < count
  | _ => True

/-- **The sweep of `repoll_blocked` over the blocked list**: what it keeps is the link before
and the job after where it is. -/
def Pc.Sweeps : Pc → List JobId → Prop
  | .repoll prev cur, l => ∃ pre post, l = pre ++ post ∧ prev = pre.getLast? ∧ cur = post.head?
  | .busy j (.poll prev next) _, l =>
    ∃ pre post, l = pre ++ j :: post ∧ prev = pre.getLast? ∧ next = post.head?
  | .busy _ (.polled prev next) _, l =>
    ∃ pre post, l = pre ++ post ∧ prev = pre.getLast? ∧ next = post.head?
  | _, _ => True

/-- **What there is to say of a job at its place.** -/
@[mk_iff]
structure At (s : Links) (L : ListId → List JobId) (j : JobId) (p : Place) : Prop where
  listed : ∀ l, j ∈ L l ↔ p = .listed l ∨ ∃ w, l = .blocked w ∧ p = .polled w
  runs : ∀ w, (s.pc w).runs = some j ↔ p = .runs w
  polls : ∀ w, (s.pc w).polls = some j ↔ p = .polled w
  queued : ∀ o, j ∈ s.rq o ↔ p = .queued ∧ s.owner j = o
  inRq : s.inRq j = true ↔ p = .queued
  unborn : s.count ≤ j ↔ p = .unborn
  done : s.done j = true ↔ p = .done
  dropped : p = .dropped → j ∈ s.dropped
  target : p ≠ .moving → ∀ t, s.target j = some t ↔ p = .listed (.waiters t)
  live : ∀ t, p = .listed (.waiters t) → t < s.count ∧ s.done t = false ∧ t ≠ j
  held : p ≠ .moving → p ≠ .done → (s.held j = true ↔ p = .listed .suspended)
  owner : ∀ w, p = .runs w ∨ p = .polled w ∨ p = .listed (.blocked w) → s.owner j = w

/-- **Each job has its place**, and the lists end. -/
structure Placed (s : Links) (L : ListId → List JobId) (place : JobId → Place) : Prop where
  at_place : ∀ j, At s L j (place j)
  chain : ∀ l, Chain s.next (s.head l) (L l)
  nodup : ∀ o, (s.rq o).Nodup
  resuming : ∀ j, s.resuming j = true ↔ ∃ w, (s.pc w).claims = some j
  sound : ∀ w, (s.pc w).Sound s.count
  sweeps : ∀ w, (s.pc w).Sweeps (L (.blocked w))

/-- **No job is on its way.** -/
def Inv (s : Links) : Prop := ∃ L place, Placed s L place ∧ ∀ j, place j ≠ .moving

theorem head_setHead (s : Links) (l : ListId) (start : Option JobId) :
    (s.setHead l start).head = update s.head l start := by
  funext l'
  cases l <;> cases l' <;> simp only [Links.setHead, Links.head, update_apply] <;> grind

variable {s s' : Links} {L : ListId → List JobId} {place : JobId → Place} {i j t : JobId} {w : Nat}
  {l : ListId} {p : Place}

/-! ### Ready queues -/

/-- A job that is on its way is queued, or refused. -/
theorem Placed.push (h : Placed s L place) (hj : place j = .moving) (hh : s.held j = false)
    (ht : s.target j = none) :
    ∃ p, (p = .queued ∨ p = .dropped ∧ j ∈ (s.push j).dropped) ∧
      Placed (s.push j) L (update place j p) := by
  have hjat := h.at_place j
  rw [hj, at_iff] at hjat
  simp at hjat
  rw [Links.push]
  simp only [hjat, Bool.false_eq_true, if_false]
  by_cases hlen : (s.rq (s.owner j)).length < rqCap
  · refine ⟨.queued, .inl rfl, ?_⟩
    rw [if_pos hlen]
    refine { h with at_place := fun x => ?_, nodup := fun o => ?_ }
    · by_cases hx : x = j
      · subst hx
        rw [update_self, at_iff]
        simp [update_apply]
        grind
      · rw [update_of_ne hx]
        have hxat := h.at_place x
        exact { hxat with
          queued := fun o => by
            rw [← hxat.queued o]
            by_cases ho : o = s.owner j <;> simp [ho, hx]
          inRq := by rw [← hxat.inRq]; simp [hx] }
    · have := h.nodup o
      simp only [update_apply]
      split
      · subst o
        exact this.append (by simp) (by simpa using hjat.2.2.2.1 _)
      · exact this
  · refine ⟨.dropped, .inr ⟨rfl, ?_⟩, ?_⟩
    · rw [if_neg hlen]
      simp
    · rw [if_neg hlen]
      refine { h with at_place := fun x => ?_ }
      by_cases hx : x = j
      · subst hx
        rw [update_self, at_iff]
        simp
        grind
      · rw [update_of_ne hx]
        have hxat := h.at_place x
        exact { hxat with dropped := fun hp => List.mem_append_left _ (hxat.dropped hp) }

/-- What a pop does. -/
theorem pop_cases (h : s.pop w = some (j, s')) :
    ∃ rest, s.rq w = j :: rest ∧ s' = { s with
      rq := update s.rq w rest
      inRq := update s.inRq j false
      popped := update s.popped w (s.popped w ++ [j]) } := by
  rw [Links.pop] at h
  split at h
  · cases h
  · rename_i x rest hrq
    obtain ⟨rfl, rfl⟩ := Prod.mk.inj (Option.some.inj h)
    exact ⟨rest, hrq, rfl⟩

/-- The first job of a queue is taken off it. -/
theorem Placed.pop (h : Placed s L place) (hp : s.pop w = some (j, s')) :
    place j = .queued ∧ s.owner j = w ∧ Placed s' L (update place j .moving) := by
  obtain ⟨rest, hrq, rfl⟩ := pop_cases hp
  have hjat := h.at_place j
  have hnd := h.nodup w
  rw [hrq, List.nodup_cons] at hnd
  obtain ⟨hpl, how⟩ := (hjat.queued w).mp (by simp [hrq])
  refine ⟨hpl, how, { h with at_place := fun x => ?_, nodup := fun o => ?_ }⟩
  · by_cases hx : x = j
    · subst hx
      rw [hpl, at_iff] at hjat
      rw [update_self, at_iff]
      simp [update_apply] at hjat ⊢
      grind
    · rw [update_of_ne hx]
      have hxat := h.at_place x
      exact { hxat with
        queued := fun o => by
          rw [← hxat.queued o]
          by_cases ho : o = w
          · subst ho
            simp [hrq, hx]
          · simp [ho]
        inRq := by rw [← hxat.inRq]; simp [hx] }
  · simp only [update_apply]
    split
    · exact hnd.2
    · exact h.nodup o

/-! ### Lists -/

/-- A job is on one list only. -/
theorem Placed.disjoint {l l' : ListId} (h : Placed s L place) (hl : j ∈ L l) (hl' : j ∈ L l') :
    l = l' := by
  have hjat := h.at_place j
  rw [hjat.listed] at hl hl'
  grind

/-- What is written to a job on its way is nobody else's. -/
theorem Placed.write (h : Placed s L place) (hj : place j = .moving) (t : Option JobId)
    (b : Bool) : Placed { s with
      target := update s.target j t
      held := update s.held j b } L place := by
  refine { h with at_place := fun x => ?_ }
  have hxat := h.at_place x
  by_cases hx : x = j
  · subst hx
    rw [hj] at hxat ⊢
    exact { hxat with
      target := fun hp => absurd rfl hp
      held := fun hp => absurd rfl hp }
  · exact { hxat with
      target := by simpa [hx] using hxat.target
      held := by simpa [hx] using hxat.held }

/-- A job that is on its way is put in front of a list. -/
theorem Placed.link (h : Placed s L place) (hj : place j = .moving)
    (ht : ∀ t, s.target j = some t ↔ l = .waiters t)
    (hlive : ∀ t, l = .waiters t → t < s.count ∧ s.done t = false ∧ t ≠ j)
    (hh : s.held j = true ↔ l = .suspended)
    (hb : ∀ w, l = .blocked w → s.owner j = w ∧ ∀ l, (s.pc w).Sweeps l) :
    Placed { s.setHead l (some j) with next := update s.next j (s.head l) }
      (update L l (j :: L l)) (update place j (.listed l)) := by
  have hjat := h.at_place j
  rw [hj, at_iff] at hjat
  simp at hjat
  refine ⟨fun x => ?_, fun l' => ?_, ?_, ?_, ?_, fun w => ?_⟩
  · by_cases hx : x = j
    · subst hx
      rw [update_self, at_iff]
      simp [update_apply, Links.setHead]
      grind
    · rw [update_of_ne hx]
      have hxat := h.at_place x
      exact { hxat with
        listed := fun l' => by
          rw [← hxat.listed l']
          by_cases hl : l' = l
          · subst hl
            simp [hx]
          · simp [hl] }
  · change Chain (update s.next j (s.head l)) ((s.setHead l (some j)).head l') _
    rw [head_setHead]
    by_cases hl : l' = l
    · subst hl
      simp only [update_self]
      exact (h.chain l').push (hjat.1 l')
    · simp only [update_of_ne hl]
      refine (h.chain l').congr fun x hx => update_of_ne ?_ _ _
      rintro rfl
      exact hjat.1 l' hx
  · exact h.nodup
  · exact h.resuming
  · exact h.sound
  · by_cases hl : .blocked w = l
    · exact (hb w hl.symm).2 _
    · rw [update_of_ne hl]
      exact h.sweeps w

/-- The links when a job is cut out of its list. -/
theorem Placed.chain_cut {pre post : List JobId} (h : Placed s L place)
    (hl : L l = pre ++ j :: post) (l' : ListId) :
    Chain (cut (s.head l) s.next pre.getLast? post.head? j).2
      ((s.setHead l (cut (s.head l) s.next pre.getLast? post.head? j).1).head l')
      (update L l (pre ++ post) l') := by
  rw [head_setHead]
  by_cases hll : l' = l
  · subst hll
    simp only [update_self]
    exact Chain.cut (hl ▸ h.chain l')
  · simp only [update_of_ne hll]
    refine (h.chain l').congr fun x hx => cut_next ?_ fun hlast => ?_
    · rintro rfl
      exact hll (h.disjoint hx (by simp [hl]))
    · refine hll (h.disjoint hx ?_)
      rw [hl]
      exact List.mem_append_left _ (List.mem_of_getLast? hlast)

theorem Placed.mem_cut {pre post : List JobId} {x : JobId} (h : Placed s L place)
    (hl : L l = pre ++ j :: post) (l' : ListId) :
    x ∈ update L l (pre ++ post) l' ↔ x ∈ L l' ∧ (x = j → l' ≠ l) := by
  have hnd := (h.chain l).nodup
  rw [hl] at hnd
  by_cases hll : l' = l
  · subst hll
    rw [update_self, hl]
    have hj : j ∉ pre ++ post := (List.nodup_middle.mp hnd).notMem
    grind
  · rw [update_of_ne hll]
    tauto

/-- A job that waits on a list is cut out. -/
theorem Placed.unlink {pre post : List JobId} (h : Placed s L place) (hj : place j = .listed l)
    (hb : ∀ w, l ≠ .blocked w) (hl : L l = pre ++ j :: post) :
    Placed { s.setHead l (cut (s.head l) s.next pre.getLast? post.head? j).1 with
      next := (cut (s.head l) s.next pre.getLast? post.head? j).2 }
      (update L l (pre ++ post)) (update place j .moving) := by
  have hjat := h.at_place j
  rw [hj, at_iff] at hjat
  refine ⟨fun x => ?_, h.chain_cut hl, h.nodup, h.resuming, h.sound, fun w => ?_⟩
  · by_cases hx : x = j
    · subst hx
      rw [update_self, at_iff]
      simp only [h.mem_cut hl]
      simp [Links.setHead] at hjat ⊢
      grind
    · rw [update_of_ne hx]
      have hxat := h.at_place x
      exact { hxat with
        listed := fun l' => by
          rw [← hxat.listed l', h.mem_cut hl]
          tauto }
  · rw [update_of_ne (hb w).symm]
    exact h.sweeps w

/-! ### The end of a job -/

/-- What `complete_job` does but for the pushes: the waiters `ws` leave their list. -/
def Links.detach (s : Links) (j : JobId) (ws : List JobId) : Links :=
  { s with
    done := update s.done j true
    waiters := update s.waiters j none
    next := fun x => if x ∈ ws then none else s.next x
    target := fun x => if x ∈ ws then none else s.target x }

/-- The pushes of `complete_job`. -/
def Links.pushAll (s : Links) (ws : List JobId) : Links := ws.foldl Links.push s

/-- A job that is on its way is done, and its waiters are on their way. -/
theorem Placed.detach (h : Placed s L place) (hj : place j = .moving) (ht : s.target j = none) :
    Placed (s.detach j (L (.waiters j))) (update L (.waiters j) [])
      fun x => if x = j then .done else if x ∈ L (.waiters j) then .moving else place x := by
  have hjat := h.at_place j
  rw [hj, at_iff] at hjat
  simp at hjat
  refine { h with at_place := fun x => ?_, chain := fun l => ?_, sweeps := fun w => ?_ }
  · have hxat := h.at_place x
    rw [at_iff] at hxat ⊢
    by_cases hx : x = j
    · subst hx
      simp [Links.detach, update_apply]
      grind
    · by_cases hw : x ∈ L (.waiters j)
      · have hp : place x = .listed (.waiters j) := by
          have := (h.at_place x).listed (.waiters j)
          simpa [hw] using this
        rw [hp] at hxat
        simp [Links.detach, update_apply, hx, hw] at hxat ⊢
        grind
      · have hp : place x ≠ .listed (.waiters j) := by
          have := (h.at_place x).listed (.waiters j)
          simp [hw] at this
          exact this
        simp [Links.detach, update_apply, hx, hw] at hxat ⊢
        grind
  · by_cases hl : l = .waiters j
    · subst hl
      simp [Links.detach, Links.head, Chain]
    · rw [update_of_ne hl]
      have hhead : (s.detach j (L (.waiters j))).head l = s.head l := by
        cases l with
        | waiters t => exact update_of_ne (fun ht => hl (by rw [ht])) _ _
        | blocked w => rfl
        | suspended => rfl
      rw [hhead]
      refine (h.chain l).congr fun x hx => if_neg fun hw => ?_
      exact hl (h.disjoint hx hw)
  · rw [update_of_ne (by simp)]
    exact h.sweeps w

section
variable (s : Links) (j : JobId)

@[simp] theorem push_held : (s.push j).held = s.held := by
  unfold Links.push; dsimp only; split_ifs <;> rfl

@[simp] theorem push_target : (s.push j).target = s.target := by
  unfold Links.push; dsimp only; split_ifs <;> rfl

@[simp] theorem push_pc : (s.push j).pc = s.pc := by
  unfold Links.push; dsimp only; split_ifs <;> rfl

@[simp] theorem push_count : (s.push j).count = s.count := by
  unfold Links.push; dsimp only; split_ifs <;> rfl

@[simp] theorem push_done : (s.push j).done = s.done := by
  unfold Links.push; dsimp only; split_ifs <;> rfl

@[simp] theorem push_owner : (s.push j).owner = s.owner := by
  unfold Links.push; dsimp only; split_ifs <;> rfl

@[simp] theorem push_popped : (s.push j).popped = s.popped := by
  unfold Links.push; dsimp only; split_ifs <;> rfl

@[simp] theorem push_next : (s.push j).next = s.next := by
  unfold Links.push; dsimp only; split_ifs <;> rfl

theorem dropped_prefix_push : s.dropped <+: (s.push j).dropped := by
  unfold Links.push
  dsimp only
  split_ifs <;> simp

end

/-- What a push leaves alone, the pushes do. -/
theorem pushAll_frame {α : Type} (f : Links → α) (hf : ∀ s j, f (s.push j) = f s)
    (ws : List JobId) : f (s.pushAll ws) = f s := by
  induction ws generalizing s with
  | nil => rfl
  | cons x ws ih => exact ih.trans (hf s x)

theorem dropped_prefix_pushAll {ws : List JobId} : s.dropped <+: (s.pushAll ws).dropped := by
  induction ws generalizing s with
  | nil => exact List.prefix_rfl
  | cons x ws ih => exact (dropped_prefix_push s x).trans ih

/-- The jobs that are on their way are queued, or refused. -/
theorem Placed.pushAll {ws : List JobId} (h : Placed s L place) (hnd : ws.Nodup)
    (hws : ∀ x ∈ ws, place x = .moving ∧ s.held x = false ∧ s.target x = none) :
    ∃ place', (∀ x ∈ ws, place' x = .queued ∨
        place' x = .dropped ∧ x ∈ (s.pushAll ws).dropped) ∧
      (∀ x, x ∉ ws → place' x = place x) ∧ Placed (s.pushAll ws) L place' := by
  induction ws generalizing s place with
  | nil => exact ⟨place, by simp, fun _ _ => rfl, h⟩
  | cons y ws ih =>
    obtain ⟨hy, hnd⟩ := List.nodup_cons.mp hnd
    obtain ⟨hym, hyh, hyt⟩ := hws y List.mem_cons_self
    obtain ⟨p, hp, h⟩ := h.push hym hyh hyt
    obtain ⟨place', hin, hout, h'⟩ := ih h hnd fun x hx => by
      obtain ⟨hxm, hxh, hxt⟩ := hws x (List.mem_cons_of_mem _ hx)
      have hxy : x ≠ y := by
        rintro rfl
        exact hy hx
      simpa [hxy] using ⟨hxm, hxh, hxt⟩
    refine ⟨place', fun x hx => ?_, fun x hx => ?_, h'⟩
    · rcases List.mem_cons.mp hx with rfl | hx
      · rw [hout x hy, update_self]
        exact hp.imp_right fun hp => ⟨hp.1, (dropped_prefix_pushAll (s := s.push x)).subset hp.2⟩
      · exact hin x hx
    · rw [List.mem_cons, not_or] at hx
      rw [hout x hx.2, update_of_ne hx.1]

/-! ### Workers -/

/-- Worker `w` goes to `q`. -/
def Links.goTo (s : Links) (w : Nat) (q : Pc) : Links := { s with pc := update s.pc w q }

/-- A job that another worker has, or none, is where it was. -/
theorem At.goTo {q : Pc} (h : At s L j p) (hr : q.runs = some j ↔ (s.pc w).runs = some j)
    (hp : q.polls = some j ↔ (s.pc w).polls = some j) : At (s.goTo w q) L j p :=
  { h with
    runs := fun w' => by
      rw [← h.runs w']
      by_cases hw : w' = w
      · subst hw
        simpa [Links.goTo] using hr
      · simp [Links.goTo, hw]
    polls := fun w' => by
      rw [← h.polls w']
      by_cases hw : w' = w
      · subst hw
        simpa [Links.goTo] using hp
      · simp [Links.goTo, hw] }

/-- Two workers do not have the same job. -/
theorem Placed.one_worker {w' : Nat} (h : Placed s L place)
    (hw : (s.pc w).runs = some j ∨ (s.pc w).polls = some j)
    (hw' : (s.pc w').runs = some j ∨ (s.pc w').polls = some j) : w = w' := by
  have hjat := h.at_place j
  rw [hjat.runs, hjat.polls] at hw hw'
  grind

theorem Pc.has_of_claims {q : Pc} (h : q.claims = some j) : q.runs = some j ∨ q.polls = some j := by
  cases q with
  | busy i src st => cases src <;> cases st <;> simp_all [Pc.claims, Pc.runs, Pc.polls]
  | _ => simp [Pc.claims] at h

/-- What is left to see to when worker `w` goes to `q`. -/
theorem Placed.goTo_rest {q : Pc} {place' : JobId → Place} (h : Placed s L place)
    (hc : q.claims = (s.pc w).claims) (hs : q.Sound s.count) (hsw : q.Sweeps (L (.blocked w)))
    (hat : ∀ x, At (s.goTo w q) L x (place' x)) : Placed (s.goTo w q) L place' := by
  refine { h with
    at_place := hat, resuming := fun x => ?_, sound := fun w' => ?_, sweeps := fun w' => ?_ }
  · rw [show (s.goTo w q).resuming = s.resuming from rfl, h.resuming]
    refine exists_congr fun w' => ?_
    by_cases hw : w' = w
    · subst hw
      simp [Links.goTo, hc]
    · simp [Links.goTo, hw]
  · exact (forall_update_iff s.pc fun _ p => p.Sound s.count).mpr ⟨hs, fun w' _ => h.sound w'⟩ w'
  · exact (forall_update_iff s.pc fun w' p => p.Sweeps (L (.blocked w'))).mpr
      ⟨hsw, fun w' _ => h.sweeps w'⟩ w'

/-- A worker goes on with the job it has, or goes on without one. -/
theorem Placed.shift {q : Pc} (h : Placed s L place) (hr : q.runs = (s.pc w).runs)
    (hp : q.polls = (s.pc w).polls) (hc : q.claims = (s.pc w).claims) (hs : q.Sound s.count)
    (hsw : q.Sweeps (L (.blocked w))) : Placed (s.goTo w q) L place :=
  h.goTo_rest hc hs hsw fun x => (h.at_place x).goTo (by rw [hr]) (by rw [hp])

/-- A worker is through with a job. -/
theorem Placed.leave {q : Pc} (h : Placed s L place) (hj : (s.pc w).runs = some j)
    (hr : q.runs = none) (hp : q.polls = none) (hc : q.claims = (s.pc w).claims)
    (hs : q.Sound s.count) (hsw : q.Sweeps (L (.blocked w))) :
    Placed (s.goTo w q) L (update place j .moving) := by
  have hpl := ((h.at_place j).runs w).mp hj
  have hpolls : (s.pc w).polls = none := by
    cases hpc : s.pc w with
    | busy i src st => cases src <;> simp_all [Pc.runs, Pc.polls]
    | _ => rfl
  refine h.goTo_rest hc hs hsw fun x => ?_
  have hxat := h.at_place x
  by_cases hx : x = j
  · subst hx
    rw [hpl, at_iff] at hxat
    rw [update_self, at_iff]
    simp [Links.goTo, update_apply] at hxat ⊢
    grind
  · rw [update_of_ne hx]
    exact hxat.goTo (by rw [hr, hj]; simp [Ne.symm hx]) (by rw [hp, hpolls])

/-- A worker takes a job that is on its way. -/
theorem Placed.enter {q : Pc} (h : Placed s L place) (hj : place j = .moving)
    (how : s.owner j = w) (hr : (s.pc w).runs = none) (hp : (s.pc w).polls = none)
    (hrq : q.runs = some j) (hpq : q.polls = none) (hc : q.claims = (s.pc w).claims)
    (hs : q.Sound s.count) (hsw : q.Sweeps (L (.blocked w))) (hh : s.held j = false)
    (ht : s.target j = none) : Placed (s.goTo w q) L (update place j (.runs w)) := by
  refine h.goTo_rest hc hs hsw fun x => ?_
  have hxat := h.at_place x
  by_cases hx : x = j
  · subst hx
    rw [hj, at_iff] at hxat
    rw [update_self, at_iff]
    simp [Links.goTo, update_apply] at hxat ⊢
    grind
  · rw [update_of_ne hx]
    exact hxat.goTo (by rw [hrq, hr]; simp [Ne.symm hx]) (by rw [hp, hpq])

/-- A worker re-polls a job of its blocked list. -/
theorem Placed.poll {q : Pc} (h : Placed s L place) (hj : place j = .listed (.blocked w))
    (hr : (s.pc w).runs = none) (hp : (s.pc w).polls = none) (hrq : q.runs = none)
    (hpq : q.polls = some j) (hc : q.claims = (s.pc w).claims) (hs : q.Sound s.count)
    (hsw : q.Sweeps (L (.blocked w))) : Placed (s.goTo w q) L (update place j (.polled w)) := by
  refine h.goTo_rest hc hs hsw fun x => ?_
  have hxat := h.at_place x
  by_cases hx : x = j
  · subst hx
    rw [hj, at_iff] at hxat
    rw [update_self, at_iff]
    simp [Links.goTo, update_apply] at hxat ⊢
    grind
  · rw [update_of_ne hx]
    exact hxat.goTo (by rw [hrq, hr]) (by rw [hp, hpq]; simp [Ne.symm hx])

/-- A re-polled job is still in its wait. -/
theorem Placed.stay {q : Pc} (h : Placed s L place) (hj : (s.pc w).polls = some j)
    (hrq : q.runs = none) (hpq : q.polls = none) (hc : q.claims = (s.pc w).claims)
    (hs : q.Sound s.count) (hsw : q.Sweeps (L (.blocked w))) :
    Placed (s.goTo w q) L (update place j (.listed (.blocked w))) := by
  have hpl := ((h.at_place j).polls w).mp hj
  have hruns : (s.pc w).runs = none := by
    cases hpc : s.pc w with
    | busy i src st => cases src <;> simp_all [Pc.runs, Pc.polls]
    | _ => rfl
  refine h.goTo_rest hc hs hsw fun x => ?_
  have hxat := h.at_place x
  by_cases hx : x = j
  · subst hx
    rw [hpl, at_iff] at hxat
    rw [update_self, at_iff]
    simp [Links.goTo, update_apply] at hxat ⊢
    grind
  · rw [update_of_ne hx]
    exact hxat.goTo (by rw [hrq, hruns]) (by rw [hpq, hj]; simp [Ne.symm hx])

/-- A re-polled job went on: it is cut out of the blocked list. -/
theorem Placed.unpoll {q : Pc} {pre post : List JobId} (h : Placed s L place)
    (hj : (s.pc w).polls = some j) (hl : L (.blocked w) = pre ++ j :: post)
    (hrq : q.runs = some j) (hpq : q.polls = none) (hc : q.claims = (s.pc w).claims)
    (hs : q.Sound s.count) (hsw : q.Sweeps (pre ++ post)) :
    Placed { (s.goTo w q).setHead (.blocked w)
        (cut (s.blocked w) s.next pre.getLast? post.head? j).1 with
      next := (cut (s.blocked w) s.next pre.getLast? post.head? j).2 }
      (update L (.blocked w) (pre ++ post)) (update place j (.runs w)) := by
  have hpl := ((h.at_place j).polls w).mp hj
  have hruns : (s.pc w).runs = none := by
    cases hpc : s.pc w with
    | busy i src st => cases src <;> simp_all [Pc.runs, Pc.polls]
    | _ => rfl
  refine ⟨fun x => ?_, h.chain_cut hl, h.nodup, fun x => ?_, fun w' => ?_, fun w' => ?_⟩
  · have hxat := h.at_place x
    by_cases hx : x = j
    · subst hx
      rw [hpl, at_iff] at hxat
      rw [update_self, at_iff]
      simp only [h.mem_cut hl]
      simp [Links.goTo, Links.setHead, update_apply] at hxat ⊢
      grind
    · rw [update_of_ne hx]
      have hgo : At (s.goTo w q) L x (place x) :=
        hxat.goTo (by rw [hrq, hruns]; simp [Ne.symm hx]) (by rw [hpq, hj]; simp [Ne.symm hx])
      exact { hgo with
        listed := fun l' => by
          rw [← hxat.listed l', h.mem_cut hl]
          tauto }
  · refine (h.resuming x).trans (exists_congr fun w' => ?_)
    by_cases hw : w' = w
    · subst hw
      simp [Links.goTo, Links.setHead, hc]
    · simp [Links.goTo, Links.setHead, hw]
  · exact (forall_update_iff s.pc fun _ p => p.Sound s.count).mpr ⟨hs, fun w' _ => h.sound w'⟩ w'
  · by_cases hw : w' = w
    · subst hw
      simpa [Links.goTo, Links.setHead] using hsw
    · simpa [Links.goTo, Links.setHead, hw] using h.sweeps w'

/-- A worker takes the claim of the job it has. -/
theorem Placed.claim {q : Pc} (h : Placed s L place) (hr : q.runs = (s.pc w).runs)
    (hp : q.polls = (s.pc w).polls) (hc : q.claims = some j) (hn : (s.pc w).claims = none)
    (hs : q.Sound s.count) (hsw : q.Sweeps (L (.blocked w))) :
    Placed { s.goTo w q with resuming := update s.resuming j true } L place := by
  refine { h with
    at_place := fun x => ?_, resuming := fun x => ?_, sound := fun w' => ?_, sweeps := fun w' => ?_ }
  · have := (h.at_place x).goTo (w := w) (q := q) (by rw [hr]) (by rw [hp])
    exact { this with }
  · by_cases hx : x = j
    · subst hx
      simpa using ⟨w, by simpa [Links.goTo] using hc⟩
    · simp only [update_of_ne hx]
      refine (h.resuming x).trans (exists_congr fun w' => ?_)
      by_cases hw : w' = w
      · subst hw
        simp [Links.goTo, hc, hn, Ne.symm hx]
      · simp [Links.goTo, hw]
  · exact (forall_update_iff s.pc fun _ p => p.Sound s.count).mpr ⟨hs, fun w' _ => h.sound w'⟩ w'
  · exact (forall_update_iff s.pc fun w' p => p.Sweeps (L (.blocked w'))).mpr
      ⟨hsw, fun w' _ => h.sweeps w'⟩ w'

/-- A worker drops the claim of the job it has. -/
theorem Placed.release {q : Pc} (h : Placed s L place) (hr : q.runs = (s.pc w).runs)
    (hp : q.polls = (s.pc w).polls) (hc : q.claims = none) (hn : (s.pc w).claims = some j)
    (hs : q.Sound s.count) (hsw : q.Sweeps (L (.blocked w))) :
    Placed { s.goTo w q with resuming := update s.resuming j false } L place := by
  refine { h with
    at_place := fun x => ?_, resuming := fun x => ?_, sound := fun w' => ?_, sweeps := fun w' => ?_ }
  · have := (h.at_place x).goTo (w := w) (q := q) (by rw [hr]) (by rw [hp])
    exact { this with }
  · by_cases hx : x = j
    · subst hx
      simp only [update_self, Bool.false_eq_true, false_iff, not_exists]
      intro w' hw'
      by_cases hw : w' = w
      · subst hw
        simp [Links.goTo, hc] at hw'
      · simp only [Links.goTo, update_of_ne hw] at hw'
        exact hw (h.one_worker (Pc.has_of_claims hw') (Pc.has_of_claims hn))
    · simp only [update_of_ne hx]
      refine (h.resuming x).trans (exists_congr fun w' => ?_)
      by_cases hw : w' = w
      · subst hw
        simp [Links.goTo, hc, hn, Ne.symm hx]
      · simp [Links.goTo, hw]
  · exact (forall_update_iff s.pc fun _ p => p.Sound s.count).mpr ⟨hs, fun w' _ => h.sound w'⟩ w'
  · exact (forall_update_iff s.pc fun w' p => p.Sweeps (L (.blocked w'))).mpr
      ⟨hsw, fun w' _ => h.sweeps w'⟩ w'

end Jacl.Sched
